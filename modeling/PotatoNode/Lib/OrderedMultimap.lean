import Mathlib.Data.List.Basic
import Mathlib.Order.Lattice

/-!
# Ranges of an ordered multimap

A sequence in ascending order of a key, in which keys may be repeated, as an ordered associative
container holds it. A position is the number of entries before it; `lower_bound` and `upper_bound`
give positions, and a loop from one position to another reads the entries between them, if the first
one is not behind the last one.
-/

namespace PotatoNode.Lib

open List

/-- Entries in ascending order of their keys. -/
structure OrderedMultimap {α κ : Type} [LinearOrder κ] (key : α → κ) where
  entries : List α
  sorted : entries.Pairwise fun a b => key a ≤ key b

namespace OrderedMultimap

variable {α κ : Type} [LinearOrder κ] {key : α → κ} (m : OrderedMultimap key)

/-- The position of the first entry whose key is not less than `k`. -/
def lowerBound (k : κ) : Nat := m.entries.countP fun a => key a < k

/-- The position of the first entry whose key is greater than `k`. -/
def upperBound (k : κ) : Nat := m.entries.countP fun a => key a ≤ k

/-- The entries that a loop from one position to another reads. A loop that starts behind its end
runs out of the container. -/
def walk (first last : Nat) : Option (List α) :=
  if first ≤ last then some ((m.entries.drop first).take (last - first)) else none

theorem walk_eq_none {first last : Nat} (h : last < first) : m.walk first last = none :=
  if_neg (Nat.not_le.2 h)

theorem filter_cut {l : List α} (hl : l.Pairwise fun a b => key a ≤ key b)
    (p : κ → Bool) (hp : ∀ j k, j ≤ k → p k = true → p j = true) :
    l.filter (fun a => p (key a)) ++ l.filter (fun a => !p (key a)) = l := by
  induction l with
  | nil => rfl
  | cons a l ih =>
    obtain ⟨ha, hl⟩ := pairwise_cons.1 hl
    cases hpa : p (key a) with
    | true => simp only [filter_cons, hpa, if_true, Bool.not_true, cons_append, ih hl,
        Bool.false_eq_true, if_false]
    | false =>
      -- no later entry meets the condition either
      have hnone : ∀ b ∈ a :: l, p (key b) = false := by
        intro b hb
        rcases mem_cons.1 hb with rfl | hb
        · exact hpa
        · exact Bool.eq_false_iff.2 fun hpb => by simp [hp _ _ (ha b hb) hpb] at hpa
      rw [filter_eq_nil_iff.2 fun b hb => by simp [hnone b hb], nil_append,
        filter_eq_self.2 fun b hb => by simp [hnone b hb]]

theorem walk_countP (p q : κ → Bool) (hp : ∀ j k, j ≤ k → p k = true → p j = true)
    (hq : ∀ j k, j ≤ k → q k = true → q j = true) (hpq : ∀ k, p k = true → q k = true) :
    m.walk (m.entries.countP fun a => p (key a)) (m.entries.countP fun a => q (key a))
      = some (m.entries.filter fun a => q (key a) && !p (key a)) := by
  have hle : m.entries.countP (fun a => p (key a)) ≤ m.entries.countP fun a => q (key a) :=
    countP_mono_left fun a _ => hpq (key a)
  -- behind the first cut, and of that before the second one
  have hdrop : m.entries.drop (m.entries.countP fun a => p (key a))
      = m.entries.filter fun a => !p (key a) := by
    nth_rewrite 2 [← filter_cut m.sorted p hp]
    exact drop_left' countP_eq_length_filter.symm
  have hbetween := filter_cut (m.sorted.filter fun a => !p (key a)) q hq
  rw [filter_filter] at hbetween
  have hlength : (m.entries.filter fun a => q (key a) && !p (key a)).length
      = (m.entries.countP fun a => q (key a)) - m.entries.countP fun a => p (key a) := by
    rw [← countP_eq_length_filter,
      m.entries.countP_eq_countP_filter_add (fun a => q (key a)) fun a => p (key a),
      countP_filter, countP_filter]
    have hboth : ∀ a, (q (key a) && p (key a)) = p (key a) := by
      intro a
      cases hpa : p (key a) with
      | true => simp [hpq _ hpa]
      | false => simp
    simp only [hboth]
    omega
  unfold walk
  rw [if_pos hle, hdrop, ← hbetween]
  exact congrArg some (take_left' hlength)

variable {m} {j k : κ}

theorem walk_lowerBound_lowerBound (h : j ≤ k) : m.walk (m.lowerBound j) (m.lowerBound k)
    = some (m.entries.filter fun a => decide (key a < k) && !decide (key a < j)) := by
  refine m.walk_countP (fun x => decide (x < j)) (fun x => decide (x < k)) ?_ ?_ ?_
  · exact fun x y hxy hy => decide_eq_true (hxy.trans_lt (of_decide_eq_true hy))
  · exact fun x y hxy hy => decide_eq_true (hxy.trans_lt (of_decide_eq_true hy))
  · exact fun x hx => decide_eq_true ((of_decide_eq_true hx).trans_le h)

theorem walk_lowerBound_upperBound (h : j ≤ k) : m.walk (m.lowerBound j) (m.upperBound k)
    = some (m.entries.filter fun a => decide (key a ≤ k) && !decide (key a < j)) := by
  refine m.walk_countP (fun x => decide (x < j)) (fun x => decide (x ≤ k)) ?_ ?_ ?_
  · exact fun x y hxy hy => decide_eq_true (hxy.trans_lt (of_decide_eq_true hy))
  · exact fun x y hxy hy => decide_eq_true (hxy.trans (of_decide_eq_true hy))
  · exact fun x hx => decide_eq_true ((of_decide_eq_true hx).le.trans h)

end OrderedMultimap

end PotatoNode.Lib
