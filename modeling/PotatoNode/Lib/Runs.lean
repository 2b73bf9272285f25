import PotatoNode.Lib.Imperative

/-!
# Runs of a system

A system is a step function on states, partial by way of `Except`. `Reachable step P init s` says that
`s` is reached from an initial state by steps that satisfy `P` before they are taken; `invariant` is
the induction over such runs, and `replay` runs a list of actions, so that a concrete reachable state
is found by evaluation (`Reachable.replay`).
-/

namespace PotatoNode.Lib

variable {S A ε : Type}

/-- The states that a run reaches whose steps all satisfy `P`. -/
inductive Reachable (step : S → A → Except ε S) (P : S → A → Prop) (init : S → Prop) : S → Prop
  | start {s : S} (h : init s) : Reachable step P init s
  | step {s t : S} {a : A} (hs : Reachable step P init s) (hP : P s a) (h : step s a = .ok t) :
    Reachable step P init t

variable {step : S → A → Except ε S} {P Q : S → A → Prop} {init : S → Prop} {I : S → Prop} {s : S}

theorem Reachable.invariant (hs : Reachable step P init s) (hinit : ∀ s, init s → I s)
    (hstep : ∀ s a t, I s → P s a → step s a = .ok t → I t) : I s := by
  induction hs with
  | start h => exact hinit _ h
  | step _ hP h ih => exact hstep _ _ _ ih hP h

/-- A run from fewer initial states, under a stronger condition. -/
theorem Reachable.mono {init' : S → Prop} (hs : Reachable step P init s)
    (hinit : ∀ s, init s → init' s) (hPQ : ∀ s a, P s a → Q s a) : Reachable step Q init' s := by
  induction hs with
  | start h => exact .start (hinit _ h)
  | step _ hP h ih => exact .step ih (hPQ _ _ hP) h

/-- The actions one after the other, as long as each satisfies `P` and returns. -/
def replay (step : S → A → Except ε S) (P : S → A → Prop) [∀ s a, Decidable (P s a)] (s : S) :
    List A → Option S
  | [] => some s
  | a :: rest =>
    if P s a then
      match step s a with
      | .ok t => replay step P t rest
      | .error _ => none
    else none

theorem Reachable.replay [∀ s a, Decidable (P s a)] {q : S → Bool} {actions : List A}
    (hs : Reachable step P init s) (hq : (replay step P s actions).any q = true) :
    ∃ t, Reachable step P init t ∧ q t = true := by
  induction actions generalizing s with
  | nil => exact ⟨s, hs, hq⟩
  | cons a rest ih =>
    unfold Lib.replay at hq
    split at hq
    · next hP =>
      split at hq
      · next h => exact ih (.step hs hP h) hq
      · cases hq
    · cases hq

end PotatoNode.Lib
