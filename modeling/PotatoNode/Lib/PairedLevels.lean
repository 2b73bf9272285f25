import Mathlib.Algebra.Group.Nat.Defs
import Mathlib.Data.List.Basic
import Mathlib.Logic.Function.Iterate

/-!
# Levels of a binary tree over a list

The leaves of a tree are a list, and the next level combines neighbours. There are two ways to go
on with a last node that has no neighbour: `pairs` drops it, `level` combines it with itself.
Repeating `level` gives the root. The **frontier** of a list has the last node of every level of
complete nodes that has an odd number of them: that is what must be kept to append to the list
later.
-/

namespace PotatoNode.Lib

open List

variable {α : Type} (h : α → α → α)

def pairs : List α → List α
  | a :: b :: l => h a b :: pairs l
  | [_] => []
  | [] => []

/-- The next level; a last node without neighbour is combined with itself. -/
def level : List α → List α
  | a :: b :: l => h a b :: level l
  | [a] => [h a a]
  | [] => []

@[simp] theorem length_pairs (l : List α) : (pairs h l).length = l.length / 2 := by
  fun_induction pairs h l with
  | case1 a b l ih =>
    simp only [length_cons, ih]
    omega
  | case2 a => simp
  | case3 => simp

@[simp] theorem length_level (l : List α) : (level h l).length = (l.length + 1) / 2 := by
  fun_induction level h l with
  | case1 a b l ih =>
    simp only [length_cons, ih]
    omega
  | case2 a => simp
  | case3 => simp

theorem pairs_append (m : List α) : ∀ {l : List α}, l.length % 2 = 0 →
    pairs h (l ++ m) = pairs h l ++ pairs h m
  | [], _ => rfl
  | [a], hl => by cases hl
  | a :: b :: l, hl => congrArg (h a b :: ·) (pairs_append m (by
    simp only [length_cons] at hl
    omega))

theorem level_append (m : List α) : ∀ {l : List α}, l.length % 2 = 0 →
    level h (l ++ m) = pairs h l ++ level h m
  | [], _ => rfl
  | [a], hl => by cases hl
  | a :: b :: l, hl => congrArg (h a b :: ·) (level_append m (by
    simp only [length_cons] at hl
    omega))

variable {l : List α}

theorem level_of_even (hl : l.length % 2 = 0) : level h l = pairs h l := by
  simpa [level] using level_append h [] hl

theorem exists_concat_of_odd (hl : l.length % 2 = 1) :
    ∃ l' a, l = l' ++ [a] ∧ l'.length % 2 = 0 := by
  rcases eq_nil_or_concat l with rfl | ⟨l', a, rfl⟩
  · cases hl
  · refine ⟨l', a, concat_eq_append, ?_⟩
    rw [length_concat] at hl
    omega

/-! ## The frontier -/

/-- The last nodes of the levels of complete nodes that have an odd number of them, lowest level
first. -/
def frontier (l : List α) : List α :=
  if hl : l = [] then []
  else (if l.length % 2 = 1 then [l.getLast hl] else []) ++ frontier (pairs h l)
termination_by l.length
decreasing_by
  rw [length_pairs]
  have := List.length_pos_iff.2 hl
  omega

@[simp] theorem frontier_nil : frontier h ([] : List α) = [] := by
  unfold frontier
  rfl

section

variable (hl : l.length % 2 = 0)
include hl

theorem frontier_of_even : frontier h l = frontier h (pairs h l) := by
  by_cases hnil : l = []
  · subst hnil
    rfl
  · rw [frontier, dif_neg hnil, if_neg (by omega)]
    rfl

theorem frontier_concat (a : α) : frontier h (l ++ [a]) = a :: frontier h (pairs h l) := by
  have hodd : (l ++ [a]).length % 2 = 1 := by
    rw [length_append, length_singleton]
    omega
  rw [frontier, dif_neg (by simp), if_pos hodd, pairs_append h [a] hl]
  simp [pairs]

/-- Two more nodes on top of an even number of them are one more node of the next level. -/
theorem frontier_concat_concat (a b : α) :
    frontier h (l ++ [a] ++ [b]) = frontier h (pairs h l ++ [h a b]) := by
  have heven : (l ++ [a, b]).length % 2 = 0 := by
    rw [length_append, length_cons, length_singleton]
    omega
  rw [append_assoc]
  exact (frontier_of_even h heven).trans (congrArg _ (pairs_append h [a, b] hl))

end

theorem frontier_of_complete : ∀ (d : Nat) (l : List α), l.length = 2 ^ d →
    frontier h l = (level h)^[d] l
  | 0, l, hl => by
    obtain ⟨a, rfl⟩ := length_eq_one_iff.1 hl
    have hone := frontier_concat h (l := []) rfl a
    simpa [pairs] using hone
  | d + 1, l, hl => by
    have heven : l.length % 2 = 0 := by
      rw [hl, Nat.pow_succ]
      omega
    rw [Function.iterate_succ_apply, level_of_even h heven, frontier_of_even h heven]
    apply frontier_of_complete d
    rw [length_pairs, hl, Nat.pow_succ]
    omega

end PotatoNode.Lib
