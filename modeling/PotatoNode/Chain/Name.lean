import Mathlib.Data.List.DropRight
import PotatoNode.Chain.ProducerSchedule

/-!
# Names (`name.hpp`, `name.cpp`)

A name is a 64-bit number that spells up to thirteen characters of `.12345a-z`: five bits for each
of the first twelve, the first in the highest bits, and four bits for the thirteenth. Account,
permission, action, scope and table names are all names; the empty name is `0`.
-/

namespace PotatoNode.Chain

abbrev PermissionName := Nat

abbrev ActionName := Nat

def charToSymbol (c : Char) : Nat :=
  if 'a' ≤ c ∧ c ≤ 'z' then c.toNat - 'a'.toNat + 6
  else if '1' ≤ c ∧ c ≤ '5' then c.toNat - '1'.toNat + 1
  else 0

/-- The loop of `string_to_uint64_t`, from position `i` on. -/
def symbolsFrom : Nat → List Char → Nat
  | _, [] => 0
  | i, c :: cs =>
    if i < 12 then charToSymbol c % 32 * 2 ^ (64 - 5 * (i + 1)) + symbolsFrom (i + 1) cs
    else charToSymbol c % 16

def stringToName (str : String) : Nat := symbolsFrom 0 str.toList

/-- The characters a symbol is written with. -/
def charmap : List Char := ".12345abcdefghijklmnopqrstuvwxyz".toList

/-- The characters of a name before the trailing dots are dropped. -/
def nameChars (value : Nat) : List Char :=
  ((List.range 12).map fun i => charmap.getD (value / 2 ^ (64 - 5 * (i + 1)) % 32) '.')
    ++ [charmap.getD (value % 16) '.']

def nameToString (value : Nat) : List Char := (nameChars value).rdropWhile (· = '.')

example : nameToString (stringToName "eosio.any") = "eosio.any".toList := by decide +kernel

example : stringToName "eosio" = systemAccountName := by decide +kernel

/-- `name::to_string().find( "eosio." ) == 0`: the names reserved for privileged accounts. -/
def startsWithEosioDot (value : Nat) : Bool := "eosio.".toList.isPrefixOf (nameToString value)

/-! ## The names of `config.hpp` -/

def nullAccountName : AccountName := stringToName "eosio.null"
def producersAccountName : AccountName := stringToName "eosio.prods"
def majorityProducersPermissionName : PermissionName := stringToName "prod.major"
def minorityProducersPermissionName : PermissionName := stringToName "prod.minor"
def activeName : PermissionName := stringToName "active"
def ownerName : PermissionName := stringToName "owner"
def eosioAnyName : PermissionName := stringToName "eosio.any"
def eosioCodeName : PermissionName := stringToName "eosio.code"

end PotatoNode.Chain
