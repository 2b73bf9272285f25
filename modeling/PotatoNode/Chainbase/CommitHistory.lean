import PotatoNode.Chainbase.Squash
import PotatoNode.Chainbase.Database

/-!
# What is left of the history after a commit

A run of pushed sessions leaves one record for each revision. `commit( r )` drops the records up to the
revision `r`, and `undo_all` follows the others back: to the index as it was when the session of
revision `r + 1` was started, that is, as revision `r` was left.
-/

namespace PotatoNode.Chainbase

open List GenericIndex

variable {V : Type} [ValueType V]

/-- A run of pushed sessions from `g₀`. In each some operations have returned, which keep ids and can be
undone in any order. `left` has the index as each earlier revision was left, newest first. -/
inductive Pushed (g₀ : GenericIndex V) : (left : List (GenericIndex V)) → GenericIndex V → Prop where
  | start : Pushed g₀ [] g₀
  | session {left : List (GenericIndex V)} {g g' : GenericIndex V} {ops : List (Operation V)}
      (h : Pushed g₀ left g) (hids : ∀ op ∈ ops, op.KeepsIds)
      (hrun : GenericIndex.runAll ops (g.startUndoSession true) = .ok g') (hundo : g'.Undoable) :
      Pushed g₀ (g :: left) g'

/-- No record has a revision above the current one. -/
def GenericIndex.Numbered (g : GenericIndex V) : Prop := ∀ u ∈ g.stack, u.revision ≤ g.revision

section Commit

variable {g₀ g : GenericIndex V} {head : UndoState V} {revision : Int}

theorem GenericIndex.Numbered.commit_eq (h : g.Numbered) :
    g.commit g.revision = { g with stack := [] } := by
  have hempty : g.stack.rdropWhile (·.revision ≤ g.revision) = [] :=
    rdropWhile_eq_nil_iff.2 fun u hu => by simpa using h u hu
  unfold commit
  rw [hempty]

section

variable (h : Session g₀ head g)
include h

theorem Session.numbered (h₀ : g₀.Numbered) : g.Numbered := by
  intro u hu
  rw [h.stack] at hu
  rcases mem_cons.1 hu with rfl | hu
  · exact h.headRevision.le
  · have hle := h₀ u hu
    rw [h.revision]
    omega

theorem Session.commit (hrevision : revision ≤ g₀.revision) :
    Session (g₀.commit revision) head (g.commit revision) := by
  have hhead : ¬ head.revision ≤ revision := by
    rw [h.headRevision, h.revision]
    omega
  have hstack : (g.commit revision).stack = head :: (g₀.commit revision).stack := by
    show g.stack.rdropWhile _ = _
    rw [h.stack]
    exact rdropWhile_cons_of_not (by simpa using hhead)
  exact ⟨hstack, h.revision, h.headRevision, h.oldNextId, h.restores⟩

theorem Session.undoable_commit (hrevision : revision ≤ g₀.revision)
    (hundo : g.Undoable) : (g.commit revision).Undoable := by
  have hhead : (g.commit revision).stack.head? = g.stack.head? := by
    rw [(h.commit hrevision).stack, h.stack]
    rfl
  unfold GenericIndex.Undoable
  rw [hhead]
  exact hundo

theorem Session.undoAll (hundo : g.Undoable) : g.undoAll = g₀.undoAll := by
  unfold GenericIndex.undoAll
  rw [h.stack]
  show (if g.stack.isEmpty = true then Except.ok g else do
    let g ← g.undo
    undoAllLoop g₀.stack.length g) = _
  rw [if_neg (by simp [h.stack]), h.undo hundo]
  rfl

end

end Commit

namespace Pushed

variable {g₀ g : GenericIndex V} {left : List (GenericIndex V)}

section

variable (h : Pushed g₀ left g)
include h

theorem numbered (h₀ : g₀.Numbered) : g.Numbered := by
  induction h with
  | start => exact h₀
  | session _ hids hrun _ ih =>
    obtain ⟨head, hsession⟩ := Session.runAll hids (Session.start _) hrun
    exact hsession.numbered ih

theorem revision_lt : ∀ g' ∈ left, g'.revision < g.revision := by
  induction h with
  | start => exact fun g' hg' => absurd hg' not_mem_nil
  | session _ hids hrun _ ih =>
    obtain ⟨head, hsession⟩ := Session.runAll hids (Session.start _) hrun
    intro g' hg'
    have hrevision := hsession.revision
    rcases mem_cons.1 hg' with rfl | hg'
    · omega
    · have hlt := ih g' hg'
      omega

theorem exists_left {revision : Int} (hfrom : g₀.revision ≤ revision)
    (hto : revision ≤ g.revision) : ∃ g' ∈ g :: left, g'.revision = revision := by
  induction h with
  | start => exact ⟨g₀, mem_cons_self, by omega⟩
  | @session left g g' ops _ hids hrun _ ih =>
    obtain ⟨head, hsession⟩ := Session.runAll hids (Session.start _) hrun
    have hrevision := hsession.revision
    by_cases hlast : revision = g'.revision
    · exact ⟨g', mem_cons_self, hlast.symm⟩
    · obtain ⟨g₁, hg₁, heq⟩ := ih (by omega)
      exact ⟨g₁, mem_cons_of_mem _ hg₁, heq⟩

theorem undoAll_commit_left (h₀ : g₀.Numbered) :
    ∀ g' ∈ g :: left, (g.commit g'.revision).undoAll = .ok { g' with stack := [] } := by
  induction h with
  | start =>
    intro g' hg'
    obtain rfl := mem_singleton.1 hg'
    rw [h₀.commit_eq]
    rfl
  | @session left g g' ops hpushed hids hrun hundo ih =>
    obtain ⟨head, hsession⟩ := Session.runAll hids (Session.start _) hrun
    intro g₁ hg₁
    rcases mem_cons.1 hg₁ with rfl | hg₁
    · rw [(hsession.numbered (hpushed.numbered h₀)).commit_eq]
      rfl
    · -- the record of the newest session stays, and is undone first
      have hle : g₁.revision ≤ g.revision := by
        rcases mem_cons.1 hg₁ with rfl | hmem
        · exact Int.le_refl _
        · exact Int.le_of_lt (hpushed.revision_lt g₁ hmem)
      rw [(hsession.commit hle).undoAll (hsession.undoable_commit hle hundo)]
      exact ih g₁ hg₁

end

end Pushed

/-- **Commit keeps the later history.** After a run of pushed sessions and a commit up to a revision of
the run, which changes no object, `undo_all` restores the objects, the next id and the revision that
the index had when that revision was left. -/
theorem undoAll_commit {g₀ g : GenericIndex V} {left : List (GenericIndex V)} (h₀ : g₀.Numbered)
    (h : Pushed g₀ left g) {revision : Int} (hfrom : g₀.revision ≤ revision)
    (hto : revision ≤ g.revision) :
    ((g.commit revision).indices = g.indices ∧ (g.commit revision).nextId = g.nextId) ∧
      (∃ g' ∈ g :: left, g'.revision = revision) ∧
      ∀ g' ∈ g :: left, g'.revision = revision →
        (g.commit revision).undoAll = .ok { g' with stack := [] } := by
  refine ⟨⟨rfl, rfl⟩, h.exists_left hfrom hto, ?_⟩
  rintro g' hg' rfl
  exact h.undoAll_commit_left h₀ g' hg'

/-- Two sessions on three rows; the first of them and what is older is committed. -/
theorem undoAll_commit_rows :
    ∃ g₁ g₂, Pushed rows [g₁, rows] g₂ ∧ g₁.revision = 8
      ∧ (g₂.commit 8).undoAll = .ok { g₁ with stack := [] } := by
  have hids : ∀ op ∈ rowOperations, op.KeepsIds := by
    simp [rowOperations, Operation.KeepsIds, ValueType.id]
  have hnumbered : rows.Numbered := by
    unfold GenericIndex.Numbered
    decide +kernel
  obtain ⟨g₁, hrun₁⟩ : ∃ g,
      runAll rowOperations (rows.startUndoSession true) = .ok g := by
    decide +kernel
  have hfirst : ∀ g, runAll rowOperations (rows.startUndoSession true) = .ok g →
      g.KeysApart ∧ ∃ g', runAll [.remove 0] (g.startUndoSession true) = .ok g' := by
    decide +kernel
  obtain ⟨hapart₁, g₂, hrun₂⟩ := hfirst g₁ hrun₁
  have hsecond : ∀ g, runAll rowOperations (rows.startUndoSession true) = .ok g →
      ∀ g', runAll [.remove 0] (g.startUndoSession true) = .ok g' →
        g'.KeysApart ∧ g.revision = 8 ∧ 8 ≤ g'.revision := by
    decide +kernel
  obtain ⟨hapart₂, hrevision, hle⟩ := hsecond g₁ hrun₁ g₂ hrun₂
  have hpushed : Pushed rows [g₁, rows] g₂ :=
    (Pushed.start.session hids hrun₁ hapart₁.undoable).session (by simp [Operation.KeepsIds]) hrun₂
      hapart₂.undoable
  refine ⟨g₁, g₂, hpushed, hrevision, ?_⟩
  exact (undoAll_commit hnumbered hpushed (by decide) hle).2.2 g₁ (by simp) hrevision

end PotatoNode.Chainbase
