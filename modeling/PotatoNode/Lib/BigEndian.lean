import Mathlib.Algebra.Group.Nat.Defs
import Mathlib.Data.Nat.Basic
import Mathlib.Order.Lattice

/-!
# Big-endian numbers

Numbers as a fixed count of bytes, the highest first. Lists of such numbers compare as their bytes
do, byte by byte.
-/

namespace PotatoNode.Lib

open List

/-- The lowest bytes of a number. -/
def beBytes : (count value : Nat) → List Nat
  | 0, _ => []
  | count + 1, value => beBytes count (value / 256) ++ [value % 256]

@[simp] theorem length_beBytes (k v : Nat) : (beBytes k v).length = k := by
  induction k generalizing v with
  | zero => rfl
  | succ k ih => rw [beBytes, length_append, ih, length_singleton]

@[simp] theorem beBytes_zero (k : Nat) : beBytes k 0 = replicate k 0 := by
  induction k with
  | zero => rfl
  | succ k ih => rw [beBytes, Nat.zero_div, ih, replicate_succ', Nat.zero_mod]

theorem bytes_pos (k : Nat) : 0 < 256 ^ k := Nat.pow_pos (by omega)

/-- The high bytes and the low ones. -/
theorem beBytes_add (j k v : Nat) : beBytes (j + k) v = beBytes j (v / 256 ^ k) ++ beBytes k v := by
  induction k generalizing v with
  | zero => rw [Nat.pow_zero, Nat.div_one, beBytes, append_nil, Nat.add_zero]
  | succ k ih =>
    rw [← Nat.add_assoc, beBytes, ih, Nat.div_div_eq_div_mul, Nat.pow_succ', append_assoc, beBytes]

variable {k v w : Nat}

theorem beBytes_mul_add {j : Nat} (hw : w < 256 ^ k) :
    beBytes (j + k) (v * 256 ^ k + w) = beBytes j v ++ beBytes k w := by
  have hlow : ∀ k v w, beBytes k (v * 256 ^ k + w) = beBytes k w := by
    intro k
    induction k with
    | zero => exact fun _ _ => rfl
    | succ k ih =>
      intro v w
      have hdigit : (v * 256 ^ (k + 1) + w) / 256 = v * 256 ^ k + w / 256 := by
        rw [Nat.pow_succ, ← Nat.mul_assoc, Nat.add_comm, Nat.add_mul_div_right _ _ (by omega),
          Nat.add_comm]
      rw [beBytes, hdigit, ih, Nat.pow_succ, ← Nat.mul_assoc, Nat.mul_add_mod_self_right, beBytes]
  rw [beBytes_add, hlow, Nat.mul_comm, Nat.mul_add_div (bytes_pos k), Nat.div_eq_of_lt hw, Nat.add_zero]

@[simp] theorem length_flatMap_beBytes (k : Nat) (l : List Nat) :
    (l.flatMap (beBytes k)).length = k * l.length := by
  induction l with
  | nil => rfl
  | cons v l ih => rw [flatMap_cons, length_append, length_beBytes, ih, length_cons, Nat.mul_succ,
      Nat.add_comm]

theorem flatMap_beBytes_zero (k n : Nat) :
    (replicate n 0).flatMap (beBytes k) = replicate (k * n) 0 := by
  rw [eq_replicate_iff, length_flatMap_beBytes, length_replicate]
  simp +contextual

variable {a b c d : List Nat}

theorem append_lt_append_iff (h : a.length = b.length) :
    a ++ c < b ++ d ↔ a < b ∨ a = b ∧ c < d := by
  induction a generalizing b with
  | nil =>
    obtain rfl := length_eq_zero_iff.1 h.symm
    simp
  | cons x a ih =>
    obtain ⟨y, b, rfl⟩ := exists_cons_of_length_eq_add_one h.symm
    simp only [cons_append, cons_lt_cons_iff, ih (Nat.succ.inj h), cons.injEq, and_or_left, or_assoc,
      and_assoc]

theorem append_eq_append_iff_of_length (h : a.length = b.length) :
    a ++ c = b ++ d ↔ a = b ∧ c = d :=
  ⟨fun heq => append_inj heq h, fun heq => by rw [heq.1, heq.2]⟩

/-- Numbers compare as their bytes. -/
theorem beBytes_order (hv : v < 256 ^ k) (hw : w < 256 ^ k) :
    (beBytes k v < beBytes k w ↔ v < w) ∧ (beBytes k v = beBytes k w ↔ v = w) := by
  induction k generalizing v w with
  | zero =>
    obtain rfl := Nat.lt_one_iff.1 hv
    obtain rfl := Nat.lt_one_iff.1 hw
    simp
  | succ k ih =>
    rw [Nat.pow_succ] at hv hw
    obtain ⟨hlt, heq⟩ := ih (Nat.div_lt_of_lt_mul (Nat.mul_comm _ _ ▸ hv))
      (Nat.div_lt_of_lt_mul (Nat.mul_comm _ _ ▸ hw))
    have hlen : (beBytes k (v / 256)).length = (beBytes k (w / 256)).length := by simp
    rw [beBytes, beBytes, append_lt_append_iff hlen, append_eq_append_iff_of_length hlen, hlt, heq]
    simp only [cons_lt_cons_iff, cons.injEq, and_true]
    constructor
    · simp
      omega
    · omega

theorem flatMap_beBytes_order {l m : List Nat} (hlen : l.length = m.length)
    (hl : ∀ v ∈ l, v < 256 ^ k) (hm : ∀ v ∈ m, v < 256 ^ k) :
    (l.flatMap (beBytes k) < m.flatMap (beBytes k) ↔ l < m) ∧
      (l.flatMap (beBytes k) = m.flatMap (beBytes k) ↔ l = m) := by
  induction l generalizing m with
  | nil =>
    obtain rfl := length_eq_zero_iff.1 hlen.symm
    simp
  | cons v l ih =>
    obtain ⟨w, m, rfl⟩ := exists_cons_of_length_eq_add_one hlen.symm
    obtain ⟨hv, hl⟩ := forall_mem_cons.1 hl
    obtain ⟨hw, hm⟩ := forall_mem_cons.1 hm
    obtain ⟨hlt, heq⟩ := ih (Nat.succ.inj hlen) hl hm
    obtain ⟨hlt', heq'⟩ := beBytes_order hv hw
    have hblock : (beBytes k v).length = (beBytes k w).length := by simp
    rw [flatMap_cons, flatMap_cons, append_lt_append_iff hblock,
      append_eq_append_iff_of_length hblock, hlt, heq, hlt', heq', cons_lt_cons_iff, cons.injEq]
    exact ⟨Iff.rfl, Iff.rfl⟩

end PotatoNode.Lib
