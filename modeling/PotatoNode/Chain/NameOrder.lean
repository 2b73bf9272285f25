import Mathlib.Algebra.Group.Nat.Defs
import PotatoNode.Chain.Name
import PotatoNode.Chain.Exceptions

/-!
# Texts and values of names

A name's text is its value written in thirteen digits, twelve in base 32 and the last in base 16,
so reading undoes writing and texts compare as values do.
-/

namespace PotatoNode.Chain

open Lib List

/-- `string_to_uint64_t`, whose loop ends at the first NUL. -/
def stringToUint64 (str : List Char) : Nat := symbolsFrom 0 (str.takeWhile (· ≠ Char.ofNat 0))

/-- `name::set`, which gives the value of the name. -/
def nameSet (str : List Char) : Result Nat := do
  eosAssert (str.length ≤ 13) .nameTypeException "Name is longer than 13 characters ($\x7bname\x7d) "
  let value := stringToUint64 str
  eosAssert (nameToString value = str) .nameTypeException
    "Name not properly normalized (name: $\x7bname\x7d, normalized: $\x7bnormalized\x7d) "
  return value

theorem nameSet_eq_ok {str : List Char} {value : Nat} : nameSet str = .ok value ↔
    str.length ≤ 13 ∧ nameToString value = str ∧ stringToUint64 str = value := by
  simp only [nameSet, bind_eq_ok, eosAssert_eq_ok]
  constructor
  · rintro ⟨-, hlen, -, hnormal, ⟨⟩⟩
    exact ⟨hlen, hnormal, rfl⟩
  · rintro ⟨hlen, hnormal, rfl⟩
    exact ⟨(), hlen, (), hnormal, rfl⟩

/-! ## Digits -/

/-- The last `k + 1` characters of the padded text. -/
def lowChars : Nat → Nat → List Char
  | 0, v => [charmap.getD (v % 16) '.']
  | k + 1, v => charmap.getD (v / 2 ^ (4 + 5 * k) % 32) '.' :: lowChars k v

theorem nameChars_eq (v : Nat) : nameChars v = lowChars 12 v := rfl

theorem symbol_facts : ∀ d < 32, charToSymbol (charmap.getD d '.') = d ∧
    charmap.idxOf (charmap.getD d '.') = d ∧ charmap.getD d '.' ≠ Char.ofNat 0 := by
  decide +kernel

theorem mod_digit (v k : Nat) : v % 2 ^ (4 + 5 * (k + 1)) =
    v % 2 ^ (4 + 5 * k) + 2 ^ (4 + 5 * k) * (v / 2 ^ (4 + 5 * k) % 32) := by
  rw [Nat.mul_succ, ← Nat.add_assoc, Nat.pow_add, Nat.mod_mul]

theorem mod_sixteen_lt (v : Nat) : v % 16 < 32 := by omega

theorem symbolsFrom_lowChars (v : Nat) {k : Nat} (hk : k ≤ 12) :
    symbolsFrom (12 - k) (lowChars k v) = v % 2 ^ (4 + 5 * k) := by
  induction k with
  | zero =>
    rw [lowChars, symbolsFrom, if_neg (by omega), (symbol_facts _ (mod_sixteen_lt v)).1]
    omega
  | succ k ih =>
    have hexp : 64 - 5 * (12 - (k + 1) + 1) = 4 + 5 * k := by omega
    have hnext : 12 - (k + 1) + 1 = 12 - k := by omega
    rw [lowChars, symbolsFrom, if_pos (by omega), hexp, hnext, ih (by omega),
      (symbol_facts _ (Nat.mod_lt _ (by omega))).1, mod_digit, Nat.mod_mod, Nat.mul_comm,
      Nat.add_comm]

theorem ne_nul_of_mem_lowChars {v k : Nat} {c : Char} (h : c ∈ lowChars k v) :
    c ≠ Char.ofNat 0 := by
  induction k with
  | zero => exact mem_singleton.1 h ▸ (symbol_facts _ (mod_sixteen_lt v)).2.2
  | succ k ih =>
    obtain rfl | h := mem_cons.1 h
    · exact (symbol_facts _ (Nat.mod_lt _ (by omega))).2.2
    · exact ih h

theorem length_lowChars (k v : Nat) : (lowChars k v).length = k + 1 := by
  induction k with
  | zero => rfl
  | succ k ih => rw [lowChars, length_cons, ih]

/-! ## Trailing dots -/

theorem symbolsFrom_append_dots {dots : List Char} (h : ∀ c ∈ dots, c = '.') (i : Nat)
    (str : List Char) : symbolsFrom i (str ++ dots) = symbolsFrom i str := by
  induction str generalizing i with
  | nil =>
    induction dots generalizing i with
    | nil => rfl
    | cons c dots ih =>
      obtain ⟨rfl, hdots⟩ := forall_mem_cons.1 h
      have hrest : symbolsFrom (i + 1) dots = 0 := ih hdots (i + 1)
      rw [nil_append, symbolsFrom, symbolsFrom, hrest]
      split
      · exact Nat.zero_mul _
      · rfl
  | cons c str ih => rw [cons_append, symbolsFrom, symbolsFrom, ih]

theorem exists_dots (v : Nat) :
    ∃ dots : List Char, nameChars v = nameToString v ++ dots ∧ ∀ c ∈ dots, c = '.' :=
  ⟨(nameChars v).rtakeWhile (· = '.'), by
    simp only [nameToString, rdropWhile, rtakeWhile, ← reverse_append, takeWhile_append_dropWhile,
      reverse_reverse], fun c hc => by
    simpa using mem_takeWhile_imp (mem_reverse.1 hc)⟩

theorem stringToUint64_nameToString {v : Nat} (hv : v < 2 ^ 64) :
    stringToUint64 (nameToString v) = v := by
  obtain ⟨dots, hsplit, hdots⟩ := exists_dots v
  have hfree : ∀ c ∈ nameToString v, decide (c ≠ Char.ofNat 0) = true := fun c hc =>
    decide_eq_true (ne_nul_of_mem_lowChars (nameChars_eq v ▸ hsplit ▸ mem_append_left _ hc))
  rw [stringToUint64, takeWhile_eq_self_iff.2 hfree, ← symbolsFrom_append_dots hdots, ← hsplit,
    nameChars_eq]
  exact (symbolsFrom_lowChars v le_rfl).trans (Nat.mod_eq_of_lt hv)

theorem length_nameToString (v : Nat) : (nameToString v).length ≤ 13 := by
  obtain ⟨dots, hsplit, -⟩ := exists_dots v
  have hlen := congrArg length hsplit
  rw [nameChars_eq, length_lowChars, length_append] at hlen
  omega

theorem symbolsFrom_lt {i : Nat} (hi : i ≤ 12) (str : List Char) :
    symbolsFrom i str < 2 ^ (64 - 5 * i) := by
  induction str generalizing i with
  | nil => exact Nat.two_pow_pos _
  | cons c str ih =>
    rw [symbolsFrom]
    split
    · have hexp : 64 - 5 * i = 64 - 5 * (i + 1) + 5 := by omega
      have hdigit : charToSymbol c % 32 ≤ 31 := by omega
      have hrest := ih (i := i + 1) (by omega)
      have := Nat.mul_le_mul_right (2 ^ (64 - 5 * (i + 1))) hdigit
      rw [hexp, Nat.pow_add]
      omega
    · obtain rfl : i = 12 := by omega
      omega

/-! ## Order -/

theorem digit_lt_iff {b r s d e : Nat} (hr : r < b) (hs : s < b) :
    r + b * d < s + b * e ↔ d < e ∨ d = e ∧ r < s := by
  obtain h | rfl | h := Nat.lt_trichotomy d e
  · have := Nat.mul_le_mul_left b h
    rw [Nat.mul_succ] at this
    omega
  · omega
  · have := Nat.mul_le_mul_left b h
    rw [Nat.mul_succ] at this
    omega

theorem lowChars_lt_iff (v w k : Nat) : v % 2 ^ (4 + 5 * k) < w % 2 ^ (4 + 5 * k) ↔
    (lowChars k v).map charmap.idxOf < (lowChars k w).map charmap.idxOf := by
  induction k with
  | zero =>
    simp only [lowChars, map_cons, (symbol_facts _ (mod_sixteen_lt _)).2.1, cons_lt_cons_iff]
    simp
  | succ k ih =>
    have hb := Nat.two_pow_pos (4 + 5 * k)
    simp only [lowChars, map_cons, (symbol_facts _ (Nat.mod_lt _ (Nat.zero_lt_succ 31))).2.1,
      cons_lt_cons_iff, ← ih, mod_digit]
    exact digit_lt_iff (Nat.mod_lt v hb) (Nat.mod_lt w hb)

/-- Names and 64-bit values correspond. Reading the text of a value gives the value back, the texts
`name::set` takes are those of the values, and the padded texts compare, character by character in
the order of the character map, as the values do. -/
theorem nameSet_corresponds :
    (∀ v : UInt64, stringToUint64 (nameToString v.toNat) = v.toNat) ∧
    (∀ str : List Char, (∃ value, nameSet str = .ok value) ↔
      ∃ v : UInt64, nameToString v.toNat = str) ∧
    ∀ v w : UInt64, v < w ↔ (nameChars v.toNat).map charmap.idxOf <
      (nameChars w.toNat).map charmap.idxOf := by
  refine ⟨fun v => stringToUint64_nameToString v.toNat_lt, fun str => ⟨?_, ?_⟩, fun v w => ?_⟩
  · rintro ⟨value, h⟩
    obtain ⟨-, hnormal, rfl⟩ := nameSet_eq_ok.1 h
    have hlt : stringToUint64 str < 2 ^ 64 := symbolsFrom_lt (Nat.zero_le 12) _
    exact ⟨UInt64.ofNat (stringToUint64 str), by rwa [UInt64.toNat_ofNat_of_lt' hlt]⟩
  · rintro ⟨v, rfl⟩
    exact ⟨v.toNat, nameSet_eq_ok.2
      ⟨length_nameToString _, rfl, stringToUint64_nameToString v.toNat_lt⟩⟩
  · rw [nameChars_eq, nameChars_eq, ← lowChars_lt_iff, UInt64.lt_iff_toNat_lt,
      Nat.mod_eq_of_lt v.toNat_lt, Nat.mod_eq_of_lt w.toNat_lt]

end PotatoNode.Chain
