import PotatoNode.Chain.ForkSwitch

/-!
# Is a failing switch undone?

If a block of the new branch throws, the caller of `maybe_switch_forks` should find head, chain
state and fork database as before, without the failing block and what is on top of it. That takes
more than the block's exception being caught: `CanBeUndone` has the exact condition. With an empty
old branch, which the direct extension of the head does not go through, the reversal reads the last
element of an empty vector.
-/

namespace PotatoNode.Chain

open Lib BlockState List

namespace Controller

variable {σ : Type} {env : Env σ} {c t : Controller σ} {newHead anc b : BlockState}
  {s : BlockStatus} {new old : List BlockState} {e : Failure}

/-- The switch throws `e` again, the head and the chain state are those of before, and the blocks
that have left the fork database are `b` and its descendants. -/
def SwitchUndone (env : Env σ) (c : Controller σ) (newHead : BlockState) (s : BlockStatus)
    (b : BlockState) (e : Failure) : Prop :=
  ∃ t, maybeSwitchForks env newHead s c = .error e t ∧ t.head = c.head ∧ t.db = c.db
    ∧ ∀ id, (t.forkDb.getBlock id).isSome
      ↔ (c.forkDb.getBlock id).isSome ∧ ¬ c.forkDb.index.Below b.id id

/-- When can a switch be undone whose block `b` throws `e`? -/
structure CanBeUndone (env : Env σ) (c : Controller σ) (newHead : BlockState)
    (new old : List BlockState) (b : BlockState) (e : Failure) : Prop where
  /-- it is an `fc::exception` -/
  caught : e.isFcException = true
  /-- the head of the fork database is not above the block, or is replaced before -/
  removable : c.forkDb.index.Below b.id c.forkDb.head.id →
    ∃ a ∈ new, a.blockNum < b.blockNum ∧ firstPreferred a c.forkDb.head
  /-- the head is the parent of the new head, or is not an ancestor of it at all and its branch
  leads to the same chain state once more -/
  reapplied : newHead.prev = c.head.id ∨ (¬ c.forkDb.index.Below c.head.id newHead.id
    ∧ env.applyAll (fun _ => .validated) (Versioned.undo^[old.length] c.db) old.reverse = .ok c.db)

theorem OnTree.exists_failedSwitch (h : c.OnTree) (hnewTree : c.forkDb.InTree newHead)
    (hfetch : c.forkDb.fetchBranchFrom newHead.id c.head.id = .ok (new, old))
    (hparted : c.forkDb.Parted newHead c.head new old anc)
    (hcb : old = [] ∨ env.forkedBranchCb old = none)
    (hthrow : env.applyAll (c.switchStatus newHead s) (Versioned.undo^[old.length] c.db) new.reverse
      = .error (b, e)) :
    ∃ e' t prior later, maybeSwitchForks env newHead s c = .error e' t
      ∧ new.reverse = prior ++ b :: later
      ∧ FailedSwitch env (c.switchStatus newHead s) c.forkDb (c.rewound anc old.length)
        (newHead.prev = c.head.id) old c.head prior b e e' t := by
  have hends : Ends (maybeSwitchForks env newHead s) c (fun _ _ => False)
      (SwitchFails env c newHead s new old anc) := by
    apply ends_maybeSwitchForks h hnewTree hfetch hparted
    · -- nothing to switch to
      intro hid
      have hnil : new = [] := hparted.symm.nil_iff_below.2 (hid ▸ Reaches.refl)
      rw [hnil] at hthrow
      cases hthrow
    · intro t ht
      have hdb : env.applyAll (c.switchStatus newHead s) (Versioned.undo^[old.length] c.db)
        new.reverse = .ok t.db := ht.db
      rw [hdb] at hthrow
      cases hthrow
    · exact fun _ _ hfails => hfails
  cases hrun : maybeSwitchForks env newHead s c with
  | ok _ t => exact (hends.of_ok hrun).elim
  | error e' t =>
    cases hends.of_error hrun with
    | callback hne hsome =>
      rcases hcb with hnil | hnone
      · exact absurd hnil hne
      · rw [hnone] at hsome
        cases hsome
    | @block prior later _ _ _ _ _ hsplit hthrow' hfail =>
      have heq := hthrow.symm.trans hthrow'
      injection heq with heq
      injection heq with hb he
      subst hb he
      exact ⟨e', t, prior, later, rfl, hsplit, hfail⟩

theorem onTree_recorded {d : ForkDatabase} {chain : List BlockId} (run : ForkRun d)
    (hnum : d.head.blockNum = d.root.blockNum + chain.length)
    (hblocks : ∀ b ∈ d.index, b.block.isSome) : (recorded d chain).OnTree where
  tree := ForkDatabase.treeInv_of_forkRun run
  inTree := (ForkDatabase.treeInv_of_forkRun run).head_mem.imp_right And.left
  pending := rfl
  revision := by
    show ((d.root.blockNum : Int) + chain.length) = d.head.blockNum
    rw [hnum]
    rfl
  undoable := by
    show d.head.blockNum ≤ d.root.blockNum + chain.tails.tail.length
    rw [length_tail, length_tails]
    omega
  blocks := hblocks
  readMode h := by cases h

/-- What the statement throws in `c`. -/
def thrownBy (x : ControllerM σ Unit) (c : Controller σ) : Option Failure :=
  match x c with
  | .error e _ => some e
  | .ok _ _ => none

theorem thrownBy_eq_some {x : ControllerM σ Unit} :
    thrownBy x c = some e ↔ ∃ t, x c = .error e t := by
  unfold thrownBy
  cases x c with
  | ok _ t => simp
  | error e' t => simp

end Controller

end PotatoNode.Chain
