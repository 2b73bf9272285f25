import Mathlib.Algebra.Group.Nat.Defs
import Mathlib.Data.Nat.Basic

/-!
# Little-endian numbers

Numbers as a fixed count of bytes, the lowest first, as a C++ program on a little-endian machine
reads and writes them. A number that is too large loses its high bytes.
-/

namespace PotatoNode.Lib

open Nat

abbrev Bytes := List UInt8

/-- The lowest `n` bytes of a number. -/
def leBytes : (n value : Nat) → Bytes
  | 0, _ => []
  | n + 1, value => UInt8.ofNat value :: leBytes n (value / 256)

def leValue : Bytes → Nat
  | [] => 0
  | b :: rest => b.toNat + 256 * leValue rest

@[simp] theorem length_leBytes : ∀ n value, (leBytes n value).length = n
  | 0, _ => rfl
  | n + 1, value => congrArg (· + 1) (length_leBytes n (value / 256))

/-- **Round trip.** -/
theorem leValue_leBytes (n value : Nat) : leValue (leBytes n value) = value % 256 ^ n := by
  induction n generalizing value with
  | zero => simp [leBytes, leValue, mod_one]
  | succ n ih =>
    have hlow : (UInt8.ofNat value).toNat = value % 256 := UInt8.toNat_ofNat'
    rw [leBytes, leValue, ih, hlow, pow_succ', mod_mul]

theorem leValue_leBytes_of_lt {n value : Nat} (h : value < 256 ^ n) :
    leValue (leBytes n value) = value := by
  rw [leValue_leBytes, mod_eq_of_lt h]

theorem leBytes_leValue (l : Bytes) : leBytes l.length (leValue l) = l := by
  induction l with
  | nil => rfl
  | cons b l ih =>
    have hb := b.toNat_lt
    have hlow : UInt8.ofNat (b.toNat + 256 * leValue l) = b := by
      apply UInt8.toNat_inj.1
      rw [UInt8.toNat_ofNat']
      omega
    have hhigh : (b.toNat + 256 * leValue l) / 256 = leValue l := by omega
    rw [List.length_cons, leValue, leBytes, hlow, hhigh, ih]

end PotatoNode.Lib
