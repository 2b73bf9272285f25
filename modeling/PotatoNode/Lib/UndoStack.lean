import Mathlib.Data.List.Basic
import Mathlib.Logic.Function.Iterate

/-!
# A state with an undo stack

`Versioned σ` is a state with the states it can be taken back to, newest first. Revisions number
the states: the state saved last has the revision before the current one. A session saves the
current state; `undo` goes back to it; `commit` forgets what is older than a revision.
-/

namespace PotatoNode.Lib

variable {σ : Type}

/-- The current state, the saved states with the newest first, and the current revision. -/
structure Versioned (σ : Type) where
  current : σ
  saved : List σ
  revision : Int
deriving DecidableEq

namespace Versioned

variable (v : Versioned σ)

def startUndoSession : Versioned σ :=
  ⟨v.current, v.current :: v.saved, v.revision + 1⟩

/-- Back to the state saved last; nothing if there is none. -/
def undo : Versioned σ :=
  match v.saved with
  | [] => v
  | s :: saved => ⟨s, saved, v.revision - 1⟩

/-- Forget the states saved by the sessions up to `revision`. -/
def commit (revision : Int) : Versioned σ :=
  { v with saved := v.saved.take (v.revision - revision).toNat }

/-- Forget the state saved last: the newest session becomes part of the one below. -/
def squash : Versioned σ :=
  match v.saved with
  | [] => v
  | _ :: saved => { v with saved, revision := v.revision - 1 }

def write (s : σ) : Versioned σ := { v with current := s }

/-- **Undo takes back a session**, whatever was written in it. -/
@[simp] theorem undo_write_startUndoSession (s : σ) : (v.startUndoSession.write s).undo = v := by
  show (⟨v.current, v.saved, v.revision + 1 - 1⟩) = v
  rw [Int.add_sub_cancel]

@[simp] theorem squash_write_startUndoSession (s : σ) :
    (v.startUndoSession.write s).squash = v.write s := by
  show (⟨s, v.saved, v.revision + 1 - 1⟩) = v.write s
  rw [Int.add_sub_cancel]
  rfl

theorem iterate_undo {n : Nat} (h : n ≤ v.saved.length) :
    (undo^[n] v).revision = v.revision - n ∧ (undo^[n] v).saved.length + n = v.saved.length := by
  induction n generalizing v with
  | zero => exact ⟨(Int.sub_zero _).symm, rfl⟩
  | succ n ih =>
    rw [Function.iterate_succ_apply]
    cases hs : v.saved with
    | nil =>
      rw [hs] at h
      cases h
    | cons s saved =>
      have hundo : v.undo = ⟨s, saved, v.revision - 1⟩ := by
        unfold undo
        rw [hs]
      rw [hs] at h
      obtain ⟨hrev, hlen⟩ := ih v.undo (by rw [hundo]; exact Nat.le_of_succ_le_succ h)
      rw [hundo] at hrev hlen ⊢
      rw [List.length_cons]
      have hlen : (undo^[n] (⟨s, saved, v.revision - 1⟩ : Versioned σ)).saved.length + n
        = saved.length := hlen
      exact ⟨by rw [hrev]; push_cast; omega, by omega⟩

end Versioned

end PotatoNode.Lib
