import PotatoNode.Lib.LittleEndian

/-!
# Numbers of variable size

Seven bits of the number in each byte, the lowest first; the highest bit of a byte says that more
bytes follow. A number of at most `k` bytes is below `128 ^ k`.
-/

namespace PotatoNode.Lib

open Nat

/-- The number in at most `k` bytes. -/
def packVaruint : (k n : Nat) → Bytes
  | 0, _ => []
  | k + 1, n =>
    if n < 128 then [UInt8.ofNat n] else UInt8.ofNat (n % 128 + 128) :: packVaruint k (n / 128)

/-- A number of at most `k` bytes from the front of the bytes, and what follows it. -/
def unpackVaruint : Nat → Bytes → Option (Nat × Bytes)
  | k + 1, x :: rest =>
    if x.toNat < 128 then some (x.toNat, rest)
    else (unpackVaruint k rest).map fun (n, rest) => (x.toNat % 128 + 128 * n, rest)
  | _, _ => none

theorem length_lt_of_unpackVaruint {k n : Nat} {bytes rest : Bytes}
    (h : unpackVaruint k bytes = some (n, rest)) : rest.length < bytes.length := by
  induction k generalizing n bytes with
  | zero => simp [unpackVaruint] at h
  | succ k ih =>
    cases bytes with
    | nil => simp [unpackVaruint] at h
    | cons x bytes =>
      rw [unpackVaruint] at h
      split_ifs at h
      · cases h
        simp
      · obtain ⟨⟨m, rest'⟩, hm, heq⟩ := Option.map_eq_some_iff.1 h
        cases heq
        exact lt_succ_of_lt (ih hm)

theorem packVaruint_ne_nil (k n : Nat) : packVaruint (k + 1) n ≠ [] := by
  rw [packVaruint]
  split_ifs <;> simp

/-- **Round trip.** -/
theorem unpackVaruint_packVaruint {k n : Nat} (h : n < 128 ^ (k + 1)) (rest : Bytes) :
    unpackVaruint (k + 1) (packVaruint (k + 1) n ++ rest) = some (n, rest) := by
  induction k generalizing n with
  | zero =>
    have hlt : n < 128 := by simpa using h
    have hnat : (UInt8.ofNat n).toNat = n := by
      rw [UInt8.toNat_ofNat']
      omega
    simp only [packVaruint, hlt, if_true, List.singleton_append, unpackVaruint, hnat]
  | succ k ih =>
    rw [packVaruint]
    split_ifs with hlt
    · have hnat : (UInt8.ofNat n).toNat = n := by
        rw [UInt8.toNat_ofNat']
        omega
      simp only [List.singleton_append, unpackVaruint, hnat, if_pos hlt]
    · have hnat : (UInt8.ofNat (n % 128 + 128)).toNat = n % 128 + 128 := by
        rw [UInt8.toNat_ofNat']
        omega
      have hdiv : n / 128 < 128 ^ (k + 1) := by
        rw [pow_succ] at h
        exact Nat.div_lt_of_lt_mul (by rwa [Nat.mul_comm] at h)
      rw [List.cons_append, unpackVaruint, if_neg (by omega), ih hdiv, Option.map_some]
      simp only [hnat]
      congr 2
      omega

end PotatoNode.Lib
