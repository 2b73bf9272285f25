import Mathlib.Data.List.Sort

/-!
# Order statistics of a list

`std::nth_element(first, nth, last)` leaves at position `nth` the element that would stand
there after sorting. Everything a caller can conclude about that element is a count: it is at
least `x` exactly when at most `nth` elements are below `x` (`le_nthElement_iff`).
-/

namespace PotatoNode.Lib

open List

variable {α : Type} [LinearOrder α]

/-- The element at position `i` of the list once sorted from low to high. -/
def nthElement (l : List α) (i : Nat) : Option α :=
  (l.insertionSort (· ≤ ·))[i]?

variable {l : List α} {i : Nat}

theorem nthElement_isSome (h : i < l.length) : ∃ y, nthElement l i = some y := by
  rw [← length_insertionSort (· ≤ ·) l] at h
  exact ⟨_, getElem?_eq_getElem h⟩

theorem mem_of_nthElement {y : α} (h : nthElement l i = some y) : y ∈ l :=
  (mem_insertionSort (· ≤ ·)).1 (mem_of_getElem? h)

/-- On a sorted list the elements below `x` are a prefix, so position `i` is at least `x`
exactly when that prefix ends at or before `i`. Induction on the list. -/
theorem le_getElem?_iff_countP_le {x : α} :
    ∀ {s : List α} {i : Nat} {y : α}, s.Pairwise (· ≤ ·) → s[i]? = some y →
      (x ≤ y ↔ s.countP (· < x) ≤ i)
  | [], i, y, _, h => by simp at h
  | a :: t, i, y, hs, h => by
    obtain ⟨ha, ht⟩ := pairwise_cons.1 hs
    by_cases hax : a < x
    · have hcount : (a :: t).countP (· < x) = t.countP (· < x) + 1 :=
        countP_cons_of_pos (by simpa using hax)
      rw [hcount]
      cases i with
      | zero =>
        have hay : a = y := by simpa using h
        simp [← hay, hax]
      | succ i =>
        have hih := le_getElem?_iff_countP_le (x := x) ht (by simpa using h)
        rw [hih]
        omega
    · -- nothing in the list is below `x`
      have hall : ∀ b ∈ a :: t, x ≤ b := by
        intro b hb
        rcases mem_cons.1 hb with rfl | hb
        · exact not_lt.1 hax
        · exact (not_lt.1 hax).trans (ha b hb)
      have hcount : (a :: t).countP (· < x) = 0 := by
        rw [countP_eq_zero]
        intro b hb
        simpa using hall b hb
      have hy : x ≤ y := hall y (mem_of_getElem? h)
      simp [hcount, hy]

/-- **The order statistic as a count.** -/
theorem le_nthElement_iff {x y : α} (h : nthElement l i = some y) :
    x ≤ y ↔ l.countP (· < x) ≤ i := by
  rw [← (perm_insertionSort (· ≤ ·) l).countP_eq]
  exact le_getElem?_iff_countP_le (pairwise_insertionSort (· ≤ ·) l) h

end PotatoNode.Lib
