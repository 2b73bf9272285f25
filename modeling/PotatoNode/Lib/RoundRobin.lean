import Mathlib.Data.Nat.ModEq

/-!
# Turns in rounds

`size` parties take turns, each for `length` consecutive slots. `turn` says whose slot it is, and
`nextTurn` is the first slot of a party from a given slot on.

- `turn_eq`: the turn by the number of the block of slots.
- `add_distance_le`: the blocks of slots of a party are never closer than `distance`.
- `isLeast_nextTurn`: `nextTurn` is the least slot of the party that is not before the given one.
-/

namespace PotatoNode.Lib.RoundRobin

open Nat

variable {size length i a m s : Nat}

def turn (size length slot : Nat) : Nat :=
  slot % (size * length) / length

theorem turn_eq : turn size length s = s / length % size := mod_mul_left_div_self s length size

theorem turn_lt (hsize : 0 < size) : turn size length s < size := by
  rw [turn_eq]
  exact mod_lt _ hsize

theorem turn_le : turn size length s ≤ s := le_trans (div_le_self _ _) (mod_le _ _)

/-- How many turns after the turn of `a` that of `i` comes. -/
def distance (size i a : Nat) : Nat :=
  if a ≤ i then i - a else i + size - a

theorem add_distance_mod (hi : i < size) (ha : a < size) : (a + distance size i a) % size = i := by
  unfold distance
  split
  · rw [Nat.add_sub_cancel' ‹a ≤ i›, Nat.mod_eq_of_lt hi]
  · rw [Nat.add_sub_cancel' (by omega), Nat.add_mod_right, Nat.mod_eq_of_lt hi]

theorem add_distance_le {q j : Nat} (hqj : q ≤ j) (hsize : 0 < size) (hj : j % size = i) :
    q + distance size i (q % size) ≤ j := by
  have hi : i < size := hj ▸ mod_lt j hsize
  have hq := mod_lt q hsize
  have hdist : q + distance size i (q % size) ≡ j [MOD size] := by
    show (q + distance size i (q % size)) % size = j % size
    rw [hj, ← mod_add_mod, add_distance_mod hi hq]
  have hbound : distance size i (q % size) < size := by
    unfold distance
    split <;> omega
  -- both are `q` plus something, and only one number below `size` has the right residue
  obtain ⟨k, rfl⟩ := Nat.exists_eq_add_of_le hqj
  have hk : distance size i (q % size) % size = k % size := Nat.ModEq.add_left_cancel' q hdist
  rw [mod_eq_of_lt hbound] at hk
  have := mod_le k size
  omega

/-- The first slot of party `i` from slot `m` on. -/
def nextTurn (size length i m : Nat) : Nat :=
  if i = turn size length m then m
  else m - m % length + distance size i (turn size length m) * length

theorem le_nextTurn (hlength : 0 < length) (hi : i < size) : m ≤ nextTurn size length i m := by
  unfold nextTurn
  split
  · exact le_refl m
  · rename_i hne
    have ha : turn size length m < size := turn_lt (by omega)
    have hpos : 1 ≤ distance size i (turn size length m) := by
      unfold distance
      split <;> omega
    have hlen := mul_le_mul_right length hpos
    have := mod_lt m hlength
    omega

theorem turn_nextTurn (hlength : 0 < length) (hi : i < size) :
    turn size length (nextTurn size length i m) = i := by
  have ha : m / length % size < size := mod_lt _ (by omega)
  unfold nextTurn
  split
  · exact Eq.symm ‹_›
  · have hstart : m - m % length = m / length * length := by
      have := div_add_mod' m length
      omega
    rw [turn_eq, turn_eq, hstart, ← Nat.add_mul, Nat.mul_div_cancel _ hlength, ← Nat.mod_add_mod]
    exact add_distance_mod hi ha

theorem isLeast_nextTurn (hlength : 0 < length) (hi : i < size) :
    IsLeast {s | m ≤ s ∧ turn size length s = i} (nextTurn size length i m) := by
  refine ⟨⟨le_nextTurn hlength hi, turn_nextTurn hlength hi⟩, ?_⟩
  rintro s ⟨hms, hturn⟩
  unfold nextTurn
  split
  · exact hms
  · -- the blocks of slots are as far apart as the turns
    rw [turn_eq] at hturn
    have hle := add_distance_le (Nat.div_le_div_right (c := length) hms) (by omega) hturn
    rw [turn_eq]
    have hstart : m - m % length = m / length * length := by
      have := div_add_mod' m length
      omega
    calc m - m % length + distance size i (m / length % size) * length
        = (m / length + distance size i (m / length % size)) * length := by
          rw [hstart, add_mul]
      _ ≤ s / length * length := mul_le_mul_right length hle
      _ ≤ s := div_mul_le_self s length

end PotatoNode.Lib.RoundRobin
