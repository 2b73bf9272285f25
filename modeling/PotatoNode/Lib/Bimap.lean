import Mathlib.Algebra.Order.Group.Multiset

/-!
# Bimaps with repetitions on both sides

A `bimap<multiset_of<α>, multiset_of<κ>>` is a multiset of pairs. Its clients go through the right
side: they insert values for a key, remove all values of a key, and ask for the values of a key. A
bimap is known by what it answers (`Bimap.ext_values`).
-/

namespace PotatoNode.Lib

open Multiset

/-- Pairs of a value and a key; both may be repeated. -/
abbrev Bimap (α κ : Type) := Multiset (α × κ)

namespace Bimap

variable {α κ : Type} [DecidableEq κ] {b : Bimap α κ} {j k : κ} {l : List α}

def values (b : Bimap α κ) (k : κ) : Multiset α := (b.filter (·.2 = k)).map Prod.fst

def insertAll (b : Bimap α κ) (k : κ) (l : List α) : Bimap α κ := b + .ofList (l.map (·, k))

def removeAll (b : Bimap α κ) (k : κ) : Bimap α κ := b.filter (·.2 ≠ k)

theorem filter_eq_map_values : b.filter (·.2 = k) = (b.values k).map (·, k) := by
  rw [values, map_map]
  conv_lhs => rw [← map_id (b.filter (·.2 = k))]
  refine map_congr rfl fun p hp => ?_
  have hk : p.2 = k := (mem_filter.1 hp).2
  exact Prod.ext rfl hk

theorem ext_values [DecidableEq α] {b' : Bimap α κ} (h : ∀ k, b.values k = b'.values k) :
    b = b' := by
  ext ⟨a, k⟩
  have hfilter : b.filter (·.2 = k) = b'.filter (·.2 = k) := by
    rw [filter_eq_map_values, filter_eq_map_values, h k]
  have hcount := congrArg (count (a, k)) hfilter
  simpa only [count_filter, if_true] using hcount

theorem values_removeAll : (b.removeAll k).values j = if j = k then 0 else b.values j := by
  unfold values removeAll
  rw [filter_filter]
  split
  · next h =>
    rw [filter_eq_nil.2, map_zero]
    rintro p - ⟨hj, hk⟩
    exact hk (hj.trans h)
  · next h =>
    congr 1
    refine filter_congr fun p _ => and_iff_left_of_imp fun hp => ?_
    rw [hp]
    exact h

theorem values_insertAll :
    (b.insertAll k l).values j = if j = k then b.values j + .ofList l else b.values j := by
  have hnew : values (.ofList (l.map (·, k))) j = if j = k then .ofList l else 0 := by
    unfold values
    split
    · next h =>
      rw [filter_eq_self.2]
      · simp [Function.comp_def]
      · simp [h]
    · next h =>
      simp [Ne.symm h]
  have hadd : (b.insertAll k l).values j = b.values j + values (.ofList (l.map (·, k))) j := by
    simp only [values, insertAll, filter_add, map_add]
  rw [hadd, hnew]
  split
  · rfl
  · rw [add_zero]

end Bimap

end PotatoNode.Lib
