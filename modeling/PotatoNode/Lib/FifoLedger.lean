import Mathlib.Data.List.Basic

/-!
# Bookkeeping of a queue

What has ever been added to a queue is, in order, what has left it and what is still in it; of what
has left it, each element was either handed out or dropped. `Accounted` says so of the histories of
a queue, and is kept by adding at the back, by handing out the queue and by dropping it.
-/

namespace PotatoNode.Lib.Fifo

variable {α : Type}

/-- How an element left the queue. -/
inductive Fate where
  | handedOut
  | dropped
deriving DecidableEq, Repr

/-- The elements with the given fate, in order. -/
def withFate (fate : Fate) (settled : List (α × Fate)) : List α :=
  (settled.filter (·.2 = fate)).map Prod.fst

/-- Every element added has one fate or is still queued; those handed out, and those dropped, are so
in the order in which they were added. -/
def Accounted (added handedOut dropped queue : List α) : Prop :=
  ∃ settled : List (α × Fate), added = settled.map Prod.fst ++ queue
    ∧ handedOut = withFate .handedOut settled ∧ dropped = withFate .dropped settled

variable {added handedOut dropped queue : List α}

theorem withFate_append_map (fate fate' : Fate) (settled : List (α × Fate)) (front : List α) :
    withFate fate (settled ++ front.map (·, fate')) =
      withFate fate settled ++ if fate' = fate then front else [] := by
  unfold withFate
  rw [List.filter_append, List.filter_map]
  by_cases h : fate' = fate
  · simp [h, Function.comp_def]
  · simp [h, Function.comp_def]

theorem accounted_nil : Accounted ([] : List α) [] [] [] := ⟨[], rfl, rfl, rfl⟩

namespace Accounted

section

variable (h : Accounted added handedOut dropped queue)
include h

theorem add (new : List α) : Accounted (added ++ new) handedOut dropped (queue ++ new) := by
  obtain ⟨settled, hadded, hhanded, hdropped⟩ := h
  exact ⟨settled, by rw [hadded, List.append_assoc], hhanded, hdropped⟩

theorem settle (fate : Fate) :
    Accounted added (handedOut ++ if fate = .handedOut then queue else [])
      (dropped ++ if fate = .dropped then queue else []) [] := by
  obtain ⟨settled, hadded, hhanded, hdropped⟩ := h
  refine ⟨settled ++ queue.map (·, fate), ?_, ?_, ?_⟩
  · simp [hadded, Function.comp_def]
  · rw [withFate_append_map, hhanded]
  · rw [withFate_append_map, hdropped]

theorem handOut : Accounted added (handedOut ++ queue) dropped [] := by
  simpa using h.settle .handedOut

theorem drop : Accounted added handedOut (dropped ++ queue) [] := by
  simpa using h.settle .dropped

end

end Accounted

end PotatoNode.Lib.Fifo
