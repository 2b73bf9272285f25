import PotatoNode.Chain.ApplyBlock

/-!
# Fork switches

`maybe_switch_forks` pops the blocks of the old branch, applies those of the new one and, if a
block throws, takes everything back: the failing block leaves the fork database with what is on
top of it, the applied blocks are popped, and the old branch is applied again.
-/

namespace PotatoNode.Chain

open Lib List ForkDatabase

namespace Controller

variable {σ : Type} {env : Env σ}

/-- A controller outside of a block and of irreversible mode: the fork database is a tree, the
head is a block of it, and the chain state is that of the head and can be taken back to the root. -/
structure OnTree (c : Controller σ) : Prop where
  tree : c.forkDb.TreeInv
  inTree : c.forkDb.InTree c.head
  pending : c.pending = none
  revision : c.db.revision = c.head.blockNum
  undoable : c.head.blockNum ≤ c.forkDb.root.blockNum + c.db.saved.length
  blocks : ∀ b ∈ c.forkDb.index, b.block.isSome
  readMode : c.readMode ≠ .irreversible

/-- The status with which the loop of `maybe_switch_forks` applies a block. -/
def branchStatus (b : BlockState) : BlockStatus := if b.validated then .validated else .complete

/-- In the loop over the new branch: the blocks of `done` have been applied on top of `base` and
marked as valid in the fork database that was `d` before. -/
structure Switching (env : Env σ) (status : BlockState → BlockStatus) (d : ForkDatabase)
    (base : Controller σ) (done : List BlockState) (c : Controller σ) : Prop where
  pending : c.pending = none
  readMode : c.readMode = base.readMode
  blog : c.blog = base.blog
  revision : c.db.revision = c.head.blockNum
  db : env.applyAll status base.db done = .ok c.db
  tree : c.forkDb.TreeInv
  root : c.forkDb.root = d.root
  mem : ∀ b, b ∈ c.forkDb.index ↔ (∃ a ∈ done, b = a.setValidated true) ∨ (b ∈ d.index ∧ b ∉ done)
  branch : c.forkDb.Branch c.head (done.map (·.setValidated true)).reverse base.head
  /-- the head of the fork database moves once a block is preferred over it -/
  forkHead : (c.forkDb.head = d.head ∧ ∀ a ∈ done, ¬ firstPreferred a d.head)
    ∨ ((∃ a ∈ done, c.forkDb.head = a.setValidated true) ∧ ∃ a ∈ done, firstPreferred a d.head)

section Loop

variable {status : BlockState → BlockStatus} {d : ForkDatabase} {base c : Controller σ}
  {done : List BlockState} {b : BlockState}

theorem Switching.below_iff (h : Switching env status d base done c) (hdone : ∀ a ∈ done, a ∈ d.index)
    (x y : BlockId) : c.forkDb.index.Below x y ↔ d.index.Below x y := by
  apply ForkDatabase.ForkIndex.below_congr
  intro id p
  constructor
  · rintro ⟨b, hb, hid, hp⟩
    rcases (h.mem b).1 hb with ⟨a, ha, rfl⟩ | ⟨hb, -⟩
    · exact ⟨a, hdone a ha, hid, hp⟩
    · exact ⟨b, hb, hid, hp⟩
  · rintro ⟨b, hb, hid, hp⟩
    by_cases hbd : b ∈ done
    · exact ⟨b.setValidated true, (h.mem _).2 (.inl ⟨b, hbd, rfl⟩), hid, hp⟩
    · exact ⟨b, (h.mem b).2 (.inr ⟨hb, hbd⟩), hid, hp⟩

theorem switching_start (base : Controller σ) (hpending : base.pending = none)
    (hrev : base.db.revision = base.head.blockNum) (htree : base.forkDb.TreeInv) :
    Switching env status base.forkDb base [] base where
  pending := hpending
  readMode := rfl
  blog := rfl
  revision := hrev
  db := rfl
  tree := htree
  root := rfl
  mem b := by simp
  branch := .refl _
  forkHead := .inl ⟨rfl, fun a ha => by cases ha⟩

theorem blockNum_of_prev (hprev : b.prev = c.head.id) : b.blockNum = c.head.blockNum + 1 := by
  rw [← c.head.numbered.1, ← hprev, b.numbered.2]
  rfl

theorem Switching.blockNum_le {a : BlockState} (h : Switching env status d base done c)
    (ha : a ∈ done) :
    base.head.blockNum < a.blockNum ∧ a.blockNum ≤ c.head.blockNum :=
  h.branch.blockNum.2 (a.setValidated true) (mem_reverse.2 (mem_map.2 ⟨a, ha, rfl⟩))

theorem Switching.notMem (h : Switching env status d base done c) (hprev : b.prev = c.head.id) :
    b ∉ done := by
  intro hb
  have hle := (h.blockNum_le hb).2
  rw [blockNum_of_prev hprev] at hle
  omega

theorem Switching.head_eq (h : Switching env status d base (done ++ [b]) c) :
    c.head = b.setValidated true := by
  have hbranch := h.branch
  rw [map_append, reverse_append] at hbranch
  exact hbranch.top_eq

variable {d' : ForkDatabase}

section

variable (h : Switching env status d base done c)
include h

theorem Switching.marked {x : σ}
    (hdone : ∀ a ∈ done, a ∈ d.index) (hb : b ∈ d.index) (hprev : b.prev = c.head.id)
    (hbase : d.InTree base.head)
    (hx : env.outcome b (status b) c.db.current = .ok x) (hmarked : c.forkDb.Marked b d') :
    Switching env status d base (done ++ [b])
      { c.applied x with forkDb := d', head := b.setValidated true } := by
  have hnum := blockNum_of_prev hprev
  have hnew := h.notMem hprev
  -- a block of `done` is not `b`, marked or not
  have hne : ∀ a ∈ done, a.setValidated true ≠ b := by
    intro a ha hab
    have hid : a.id = b.id := by rw [← hab, BlockState.setValidated_id]
    exact hnew (Table.eq_of_mem_of_key_eq (hdone a ha) hb hid ▸ ha)
  have hold : ∀ y ∈ (done.map (·.setValidated true)).reverse, y ∈ d'.index := by
    intro y hy
    obtain ⟨a, ha, rfl⟩ := mem_map.1 (mem_reverse.1 hy)
    exact (hmarked.mem _).2 (.inr ⟨(h.mem _).2 (.inl ⟨a, ha, rfl⟩), hne a ha⟩)
  have hbase' : d'.InTree base.head := by
    rcases hbase with hroot | hmem
    · exact .inl (by rw [hroot, hmarked.root, h.root])
    · -- the common ancestor has a smaller number than the blocks of the branch
      have hbranch := h.branch.blockNum.1
      have hnotDone : base.head ∉ done := fun hin => lt_irrefl _ (h.blockNum_le hin).1
      have hnotB : base.head ≠ b := by
        intro heq
        rw [← heq] at hnum
        omega
      exact .inr ((hmarked.mem _).2 (.inr ⟨(h.mem _).2 (.inr ⟨hmem, hnotDone⟩), hnotB⟩))
  exact {
    pending := h.pending
    readMode := h.readMode
    blog := h.blog
    revision := by
      show c.db.revision + 1 = b.blockNum
      rw [h.revision, hnum]
      rfl
    db := by
      rw [Env.applyAll_append h.db, Env.applyAll, hx]
      rfl
    tree := hmarked.tree
    root := hmarked.root.trans h.root
    mem := by
      intro y
      rw [hmarked.mem, h.mem]
      constructor
      · rintro (rfl | ⟨⟨a, ha, rfl⟩ | ⟨hy, hyd⟩, hyb⟩)
        · exact .inl ⟨b, by simp, rfl⟩
        · exact .inl ⟨a, by simp [ha], rfl⟩
        · exact .inr ⟨hy, by simp [hyd, hyb]⟩
      · rintro (⟨a, ha, rfl⟩ | ⟨hy, hyd⟩)
        · rcases mem_append.1 ha with ha | ha
          · exact .inr ⟨.inl ⟨a, ha, rfl⟩, hne a ha⟩
          · exact .inl (by rw [mem_singleton.1 ha])
        · rw [mem_append, mem_singleton, not_or] at hyd
          exact .inr ⟨.inr ⟨hy, hyd.1⟩, hyd.2⟩
    branch := by
      rw [map_append, reverse_append]
      refine .step ((hmarked.mem _).2 (.inl rfl)) ?_ (h.branch.transfer hmarked.tree hold hbase')
      show d'.getBlockHeader b.prev = some c.head
      rw [hprev]
      exact hmarked.tree.getBlockHeader_eq (h.branch.top_inTree hold hbase')
    forkHead := by
      show (d'.head = d.head ∧ ∀ a ∈ done ++ [b], ¬ firstPreferred a d.head)
        ∨ ((∃ a ∈ done ++ [b], d'.head = a.setValidated true)
          ∧ ∃ a ∈ done ++ [b], firstPreferred a d.head)
      rw [hmarked.head]
      rcases h.forkHead with ⟨heq, hnone⟩ | ⟨⟨a, ha, heq⟩, a', ha', hpref⟩
      · rw [heq]
        split
        · next hpref => exact .inr ⟨⟨b, by simp, rfl⟩, b, by simp, hpref⟩
        · next hnot =>
          refine .inl ⟨rfl, fun a ha => ?_⟩
          rcases mem_append.1 ha with ha | ha
          · exact hnone a ha
          · exact mem_singleton.1 ha ▸ hnot
      · right
        refine ⟨?_, a', by simp [ha'], hpref⟩
        split
        · exact ⟨b, by simp, rfl⟩
        · exact ⟨a, by simp [ha], heq⟩ }

theorem Switching.step (hmode : base.readMode ≠ .irreversible)
    (hdone : ∀ a ∈ done, a ∈ d.index) (hb : b ∈ d.index) (hprev : b.prev = c.head.id)
    (hbase : d.InTree base.head) :
    Ends (applyNewBlock env b (status b)) c
      (fun _ t => Switching env status d base (done ++ [b]) t)
      fun e t => env.outcome b (status b) c.db.current = .error e ∧ t.cleared = c
        ∧ (e.isFcException = true → t = c) := by
  unfold applyNewBlock onForkDb
  rw [ends_bind]
  refine (ends_applyBlock h.pending h.revision (h.readMode ▸ hmode)).mono ?_ fun _ _ he => he
  intro _ t ⟨x, hx, ht⟩
  subst ht
  have hmemb : b ∈ c.forkDb.index := (h.mem b).2 (.inr ⟨hb, h.notMem hprev⟩)
  obtain ⟨d', hok, hmarked⟩ := h.tree.markValid_spec hmemb
  have hok : (c.applied x).forkDb.markValid b = .ok d' := hok
  rw [ends_bind, ends_zoom, ends_attempt, hok]
  exact h.marked hdone hb hprev hbase hx hmarked

theorem Switching.head_below_iff
    (hdone : ∀ a ∈ done, a ∈ d.index) (hprev : b.prev = c.head.id) :
    c.forkDb.index.Below b.id c.forkDb.head.id
      ↔ d.index.Below b.id d.head.id ∧ ∀ a ∈ done, ¬ firstPreferred a d.head := by
  rw [h.below_iff hdone]
  rcases h.forkHead with ⟨heq, hnone⟩ | ⟨⟨a, ha, heq⟩, a', ha', hpref⟩
  · rw [heq]
    exact ⟨fun hbelow => ⟨hbelow, hnone⟩, And.left⟩
  · constructor
    · -- an applied block has a smaller number
      intro hbelow
      have hle := hbelow.rank_le d.index.forest
      rw [heq, BlockState.setValidated_id, a.numbered.1, b.numbered.1,
        blockNum_of_prev hprev] at hle
      have hanum := (h.blockNum_le ha).2
      omega
    · intro ⟨_, hnone⟩
      exact absurd hpref (hnone a' ha')

end

section Failing

variable (env : Env σ) (status : BlockState → BlockStatus) (d : ForkDatabase)
  (base : Controller σ) (direct : Prop) (old : List BlockState) (top : BlockState)
  (done : List BlockState) (b : BlockState) (thrown : Failure)

/-- How a switch ends whose block `b` has thrown `thrown`, when the blocks of `done` had been
applied. If the new branch is `direct`, no block was popped. -/
inductive FailedSwitch : Failure → Controller σ → Prop where
  /-- only an `fc::exception` is caught -/
  | uncaught {c t : Controller σ} (hfc : thrown.isFcException = false)
      (h : Switching env status d base done c) (ht : t.cleared = c) : FailedSwitch thrown t
  /-- `remove` throws because the head of the fork database is above the block -/
  | notRemoved {c : Controller σ} {e : Failure} (hfc : thrown.isFcException = true)
      (h : Switching env status d base done c) (hprev : b.prev = c.head.id)
      (hbelow : c.forkDb.index.Below b.id c.forkDb.head.id) : FailedSwitch e c
  /-- everything is taken back -/
  | takenBack {c : Controller σ} {d' : ForkDatabase} {v : Versioned σ}
      (hfc : thrown.isFcException = true) (h : Switching env status d base done c)
      (hprev : b.prev = c.head.id) (hbelow : ¬ c.forkDb.index.Below b.id c.forkDb.head.id)
      (hold : direct ∨ old ≠ []) (hpruned : c.forkDb.Pruned b.id d') (htree : d'.TreeInv)
      (hv : env.applyAll (fun _ => .validated) base.db old.reverse = .ok v) :
      FailedSwitch thrown { base with forkDb := d', head := top, db := v }
  /-- `branches.second.back()` of an empty branch -/
  | noOldBranch {t : Controller σ} (hfc : thrown.isFcException = true) (hdirect : ¬ direct)
      (hold : old = []) : FailedSwitch .undefinedBehaviour t
  /-- a good block throws when it is applied again -/
  | notReapplied {t : Controller σ} {e : Failure} {o : BlockState}
      (hfc : thrown.isFcException = true)
      (ho : env.applyAll (fun _ => .validated) base.db old.reverse = .error (o, e))
      (ht : t.head.blockNum < base.head.blockNum + old.length) : FailedSwitch e t

end Failing

section Reversal

variable {old : List BlockState} {top : BlockState} (hmode : base.readMode ≠ .irreversible)
  (hpending : base.pending = none) (hrev : base.db.revision = base.head.blockNum)
  (hblocks : ∀ b ∈ d.index, b.block.isSome) (hbase : d.InTree base.head)
  (hold : d.Branch top old base.head)
include hmode hpending hrev hblocks hbase hold

/-- **Taking back.** When `b` has thrown, its subtree leaves the fork database, unless the head is
in it; the applied blocks are popped, and the old branch is applied again. With an empty old branch
the reversal reads an element that does not exist. -/
theorem ends_reverseSwitch (h : Switching env status d base done c)
    (hdone : ∀ a ∈ done, a ∈ d.index) (hprev : b.prev = c.head.id) :
    Ends (reverseSwitch env old done.length b) c
      (fun _ t => ¬ c.forkDb.index.Below b.id c.forkDb.head.id ∧ old ≠ []
        ∧ ∃ d' v, c.forkDb.Pruned b.id d' ∧ d'.TreeInv
        ∧ env.applyAll (fun _ => .validated) base.db old.reverse = .ok v
        ∧ t = { base with forkDb := d', head := top, db := v })
      fun e t => (c.forkDb.index.Below b.id c.forkDb.head.id ∧ t = c)
        ∨ (old = [] ∧ e = .undefinedBehaviour)
        ∨ ∃ o, env.applyAll (fun _ => .validated) base.db old.reverse = .error (o, e)
          ∧ t.head.blockNum < base.head.blockNum + old.length := by
  unfold reverseSwitch onForkDb
  rw [ends_bind, ends_zoom, ends_attempt]
  rcases c.forkDb.remove_cases b.id with ⟨hbelow, hremove⟩ | ⟨hbelow, d', hremove, hpruned⟩
  · rw [hremove]
    exact .inl ⟨hbelow, rfl⟩
  rw [hremove]
  have htree := h.tree.remove hremove
  have hnum := blockNum_of_prev hprev
  have hbnum : base.head.blockNum < b.blockNum := by
    have := h.branch.blockNum.1
    omega
  -- blocks below the failing one stay
  have hstay : ∀ x ∈ c.forkDb.index, x.blockNum < b.blockNum → x ∈ d'.index := by
    intro x hx hlt
    refine (hpruned.mem x).2 ⟨hx, fun hbelow => ?_⟩
    have hle := hbelow.rank_le c.forkDb.index.forest
    rw [b.numbered.1, x.numbered.1] at hle
    omega
  have hbase' : d'.InTree base.head := by
    rcases hbase with hroot | hmem
    · exact .inl (by rw [hpruned.root, h.root, hroot])
    · exact .inr (hstay _ ((h.mem _).2
        (.inr ⟨hmem, fun hin => lt_irrefl _ (h.blockNum_le hin).1⟩)) hbnum)
  have hbranch : d'.Branch c.head (done.map (·.setValidated true)).reverse base.head := by
    refine h.branch.transfer htree (fun x hx => hstay x (h.branch.mem_index x hx) ?_) hbase'
    have hle := (h.branch.blockNum.2 x hx).2
    omega
  have hblocks' : ∀ x ∈ d'.index, x.block.isSome := by
    intro x hx
    rcases (h.mem x).1 ((hpruned.mem x).1 hx).1 with ⟨a, ha, rfl⟩ | ⟨hx, -⟩
    · exact hblocks a (hdone a ha)
    · exact hblocks x hx
  show Ends _ { c with forkDb := d' } _ _
  rw [ends_bind]
  -- the applied blocks are popped
  have hlen : (replicate done.length ()).length
      = (done.map (·.setValidated true)).reverse.length := by simp
  refine (ends_popBlocks hbranch htree hblocks' _ { c with forkDb := d' } hlen rfl rfl).mono ?_
    fun _ _ hfalse => hfalse.elim
  intro _ t ht
  have ht : t = { base with forkDb := d' } := by
    rw [ht, length_reverse, length_map, (Env.undo_applyAll h.db).1, h.pending, h.readMode, h.blog, ← hpending]
  subst ht
  rw [ends_bind, ends_get]
  cases hlast : old.getLast? with
  | none => exact .inr (.inl ⟨getLast?_eq_none_iff.1 hlast, rfl⟩)
  | some last =>
    have hne : old ≠ [] := by
      intro hnil
      rw [hnil] at hlast
      cases hlast
    rw [ends_bind, ends_require, if_pos (hold.prev_of_getLast? hlast).symm]
    refine (ends_reapply old.reverse { base with forkDb := d' } hpending hrev hmode
      hold.ascending).mono ?_ ?_
    · intro _ t ⟨v, hv, ht⟩
      rw [hold.getLastD_reverse hne] at ht
      exact ⟨hbelow, hne, d', v, hpruned, htree, hv, ht⟩
    · intro e t ⟨o, ho, hlt⟩
      rw [length_reverse] at hlt
      exact .inr (.inr ⟨o, ho, hlt⟩)

theorem ends_switchTo {direct : Prop} (hdirect : ¬ direct) :
    ∀ (rest done : List BlockState) (c : Controller σ),
      Switching env branchStatus d base done c → (∀ a ∈ done, a ∈ d.index) →
      d.Upward c.head.id rest →
      Ends (switchTo env old done.length rest) c
        (fun _ t => Switching env branchStatus d base (done ++ rest) t)
        fun e t => ∃ prior b later thrown, done ++ rest = prior ++ b :: later
          ∧ env.applyAll branchStatus base.db (done ++ rest) = .error (b, thrown)
          ∧ FailedSwitch env branchStatus d base direct old top prior b thrown e t
  | [], done, c, h, _, _ => by
    rw [append_nil]
    exact h
  | b :: rest, done, c, h, hdone, hup => by
    obtain ⟨hb, hprev, hup⟩ := hup
    have hfails : ∀ thrown, env.outcome b (branchStatus b) c.db.current = .error thrown →
        env.applyAll branchStatus base.db (done ++ b :: rest) = .error (b, thrown) := by
      intro thrown hout
      rw [Env.applyAll_append h.db, Env.applyAll, hout]
    unfold switchTo
    rw [ends_bind, ends_tryCatch, ends_bind]
    refine (h.step hmode hdone hb hprev hbase).mono ?_ ?_
    · -- applied: go on
      intro _ t ht
      rw [ends_pure]
      have hdone' : ∀ a ∈ done ++ [b], a ∈ d.index := by
        intro a ha
        rcases mem_append.1 ha with ha | ha
        · exact hdone a ha
        · exact mem_singleton.1 ha ▸ hb
      have hrest := ends_switchTo hdirect rest (done ++ [b]) t ht hdone'
        (by rw [ht.head_eq]; exact hup)
      rwa [length_append, append_assoc] at hrest
    · rintro thrown t ⟨hout, hclear, hfc⟩
      cases hcaught : thrown.isFcException with
      | false => exact ⟨done, b, rest, thrown, rfl, hfails thrown hout, .uncaught hcaught h hclear⟩
      | true =>
        -- the exception is kept until everything is taken back
        rw [hfc hcaught, if_pos rfl, ends_pure]
        show Ends (reverseSwitch env old done.length b >>= fun _ => throw thrown) c _ _
        rw [ends_bind]
        refine (ends_reverseSwitch hmode hpending hrev hblocks hbase hold h hdone hprev).mono ?_ ?_
        · rintro _ t ⟨hbelow, hne, d', v, hpruned, htree, hv, rfl⟩
          exact ⟨done, b, rest, thrown, rfl, hfails thrown hout,
            .takenBack hcaught h hprev hbelow (.inr hne) hpruned htree hv⟩
        · intro e t hthrown
          refine ⟨done, b, rest, thrown, rfl, hfails thrown hout, ?_⟩
          rcases hthrown with ⟨hbelow, rfl⟩ | ⟨hnil, rfl⟩ | ⟨o, ho, hlt⟩
          · exact .notRemoved hcaught h hprev hbelow
          · exact .noOldBranch hcaught hdirect hnil
          · exact .notReapplied hcaught ho hlt

end Reversal

section

variable (h : Switching env status d base done c) (hdone : ∀ a ∈ done, a ∈ d.index)
include h hdone

theorem Switching.getBlock_isSome (id : BlockId) :
    (c.forkDb.getBlock id).isSome ↔ (d.getBlock id).isSome := by
  rw [getBlock_isSome_iff, getBlock_isSome_iff]
  constructor
  · intro ⟨x, hx, hid⟩
    rcases (h.mem x).1 hx with ⟨a, ha, rfl⟩ | ⟨hx, -⟩
    · exact ⟨a, hdone a ha, hid⟩
    · exact ⟨x, hx, hid⟩
  · intro ⟨x, hx, hid⟩
    by_cases hxd : x ∈ done
    · exact ⟨x.setValidated true, (h.mem _).2 (.inl ⟨x, hxd, rfl⟩), hid⟩
    · exact ⟨x, (h.mem x).2 (.inr ⟨hx, hxd⟩), hid⟩

theorem Switching.left_iff (hpruned : c.forkDb.Pruned b.id d') (id : BlockId) :
    (d'.getBlock id).isSome ↔ (d.getBlock id).isSome ∧ ¬ d.index.Below b.id id := by
  rw [← h.getBlock_isSome hdone, ← h.below_iff hdone, getBlock_isSome_iff, getBlock_isSome_iff]
  constructor
  · intro ⟨x, hx, hid⟩
    obtain ⟨hmem, hbelow⟩ := (hpruned.mem x).1 hx
    exact ⟨⟨x, hmem, hid⟩, hid ▸ hbelow⟩
  · intro ⟨⟨x, hmem, hid⟩, hbelow⟩
    exact ⟨x, (hpruned.mem x).2 ⟨hmem, hid.symm ▸ hbelow⟩, hid⟩

theorem Switching.not_left (hb : b ∈ d.index) :
    ¬ ∀ id, (c.forkDb.getBlock id).isSome ↔ (d.getBlock id).isSome ∧ ¬ d.index.Below b.id id := by
  intro hall
  have hsome : (d.getBlock b.id).isSome := getBlock_isSome_iff.2 ⟨b, hb, rfl⟩
  have hleft := (hall b.id).1 ((h.getBlock_isSome hdone b.id).2 hsome)
  exact hleft.2 Reaches.refl

end

end Loop

/-! ## The whole switch -/

section Switch

variable {c t : Controller σ} {newHead anc b : BlockState} {s : BlockStatus}
  {new old : List BlockState} {e : Failure}

def rewound (c : Controller σ) (anc : BlockState) (n : Nat) : Controller σ :=
  { c with head := anc, db := Versioned.undo^[n] c.db }

def switchStatus (c : Controller σ) (newHead : BlockState) (s : BlockStatus) :
    BlockState → BlockStatus :=
  if newHead.prev = c.head.id then fun _ => s else branchStatus

/-- How `maybe_switch_forks` fails before `log_irreversible`. -/
inductive SwitchFails (env : Env σ) (c : Controller σ) (newHead : BlockState) (s : BlockStatus)
    (new old : List BlockState) (anc : BlockState) : Failure → Controller σ → Prop where
  | callback {e : Failure} (hold : old ≠ []) (hcb : env.forkedBranchCb old = some e) :
      SwitchFails env c newHead s new old anc e (c.rewound anc old.length)
  | block {prior later : List BlockState} {b : BlockState} {thrown e : Failure} {t : Controller σ}
      (hcb : old = [] ∨ env.forkedBranchCb old = none) (hsplit : new.reverse = prior ++ b :: later)
      (hthrow : env.applyAll (c.switchStatus newHead s) (c.rewound anc old.length).db new.reverse
        = .error (b, thrown))
      (hfail : FailedSwitch env (c.switchStatus newHead s) c.forkDb (c.rewound anc old.length)
        (newHead.prev = c.head.id) old c.head prior b thrown e t) :
      SwitchFails env c newHead s new old anc e t

section

variable (h : c.OnTree)
include h

theorem OnTree.rewound_revision (hanc : c.forkDb.InTree anc)
    (hold : c.forkDb.Branch c.head old anc) :
    (c.rewound anc old.length).db.revision = anc.blockNum
      ∧ (c.rewound anc old.length).db.saved.length + old.length = c.db.saved.length := by
  have hnum := hold.blockNum.1
  have hroot := h.tree.root_le_blockNum hanc
  have hundo := h.undoable
  obtain ⟨hrev, hlen⟩ := Versioned.iterate_undo c.db (n := old.length) (by omega)
  refine ⟨?_, hlen⟩
  show (Versioned.undo^[old.length] c.db).revision = anc.blockNum
  rw [hrev, h.revision]
  omega

theorem ends_leaveBranch (hold : c.forkDb.Branch c.head old anc) :
    Ends (leaveBranch env old) c
      (fun _ t => (old = [] ∨ env.forkedBranchCb old = none) ∧ t = c.rewound anc old.length)
      fun e t => old ≠ [] ∧ env.forkedBranchCb old = some e ∧ t = c.rewound anc old.length := by
  unfold leaveBranch
  cases hlast : old.getLast? with
  | none =>
    have hnil := getLast?_eq_none_iff.1 hlast
    refine ⟨.inl hnil, ?_⟩
    rw [hnil]
    show c = { c with head := anc, db := c.db }
    rw [← hold.nil_iff.1 hnil]
  | some last =>
    have hne : old ≠ [] := by
      intro hnil
      rw [hnil] at hlast
      cases hlast
    rw [ends_bind]
    refine (ends_popBlocks hold h.tree h.blocks old c rfl rfl rfl).mono ?_
      fun _ _ hfalse => hfalse.elim
    intro _ t ht
    subst ht
    rw [ends_bind, ends_get, ends_bind, ends_require, if_pos (hold.prev_of_getLast? hlast).symm]
    cases hcb : env.forkedBranchCb old with
    | none => exact ⟨.inr rfl, rfl⟩
    | some e => exact ⟨hne, rfl, rfl⟩

theorem ends_extend (hmem : newHead ∈ c.forkDb.index)
    (hprev : newHead.prev = c.head.id) :
    Ends (tryCatch (applyNewBlock env newHead s) fun e => do
        whenever (e.isFcException = true) (onForkDb (attempt fun d => d.remove newHead.id))
        throw e) c
      (fun _ t => Switching env (fun _ => s) c.forkDb c [newHead] t)
      fun e t => ∃ thrown, env.outcome newHead s c.db.current = .error thrown
        ∧ FailedSwitch env (fun _ => s) c.forkDb c (newHead.prev = c.head.id) [] c.head [] newHead
          thrown e t := by
  have hstart : Switching env (fun _ => s) c.forkDb c [] c :=
    switching_start c h.pending h.revision h.tree
  rw [ends_tryCatch]
  refine (hstart.step h.readMode (fun a ha => by cases ha) hmem hprev h.inTree).mono
    (fun _ _ ht => ht) ?_
  intro thrown t ⟨hout, hclear, hfc⟩
  rw [ends_bind, ends_whenever]
  cases hcaught : thrown.isFcException with
  | false =>
    exact ⟨thrown, hout, .uncaught hcaught hstart hclear⟩
  | true =>
    rw [hfc hcaught]
    unfold onForkDb
    rw [ends_zoom, ends_attempt]
    rcases c.forkDb.remove_cases newHead.id with ⟨hbelow, hremove⟩ | ⟨hbelow, d', hremove, hpruned⟩
    · rw [hremove]
      exact ⟨thrown, hout, .notRemoved hcaught hstart hprev hbelow⟩
    · rw [hremove]
      exact ⟨thrown, hout,
        .takenBack hcaught hstart hprev hbelow (.inl hprev) hpruned (h.tree.remove hremove) rfl⟩

theorem OnTree.exists_branches (hnew : c.forkDb.InTree newHead)
    (hfetch : c.forkDb.fetchBranchFrom newHead.id c.head.id = .ok (new, old)) :
    ∃ anc, c.forkDb.Parted newHead c.head new old anc := by
  obtain ⟨l, m, anc, hok, hparted⟩ := h.tree.fetchBranchFrom_spec hnew h.inTree
  rw [hfetch] at hok
  injection hok with hok
  injection hok with hl' hm'
  subst hl' hm'
  exact ⟨anc, hparted⟩

theorem OnTree.mem_of_direct (hnew : c.forkDb.InTree newHead)
    (hprev : newHead.prev = c.head.id) :
    newHead ∈ c.forkDb.index ∧ c.forkDb.index.Below c.head.id newHead.id := by
  have hnum := blockNum_of_prev hprev
  have hmem : newHead ∈ c.forkDb.index := h.tree.mem_of_blockNum_lt hnew h.inTree (by omega)
  exact ⟨hmem, ForkIndex.Below.child (hprev ▸ Reaches.refl) hmem⟩

end

/-- **`maybe_switch_forks`.** There is nothing to do, or all blocks of the new branch are applied
and `log_irreversible` follows, or the switch fails. -/
theorem ends_maybeSwitchForks {Q : Unit → Controller σ → Prop} {E : Failure → Controller σ → Prop}
    (h : c.OnTree) (hnewTree : c.forkDb.InTree newHead)
    (hfetch : c.forkDb.fetchBranchFrom newHead.id c.head.id = .ok (new, old))
    (hparted : c.forkDb.Parted newHead c.head new old anc)
    (hsame : newHead.id = c.head.id → Q () c)
    (hswitched : ∀ t, Switching env (c.switchStatus newHead s) c.forkDb (c.rewound anc old.length)
      new.reverse t → Ends (logIrreversible env) t Q E)
    (hfails : ∀ e t, SwitchFails env c newHead s new old anc e t → E e t) :
    Ends (maybeSwitchForks env newHead s) c Q E := by
  have hnil := hparted.nil_iff_below
  obtain ⟨hanc, hnew, hold, -⟩ := hparted
  unfold maybeSwitchForks
  rw [ends_bind, ends_get]
  by_cases hprev : newHead.prev = c.head.id
  · -- the head is the parent: the old branch is empty
    obtain ⟨hmem, hbelow⟩ := h.mem_of_direct hnewTree hprev
    obtain rfl := hnil.2 hbelow
    have heq : c.head = anc := hold.nil_iff.1 rfl
    subst heq
    have hsingle := hnew.eq_singleton hprev
    subst hsingle
    have hstatus : c.switchStatus newHead s = fun _ => s := if_pos hprev
    rw [if_pos hprev, ends_bind]
    refine (ends_extend h hmem hprev).mono ?_ ?_
    · intro _ t ht
      exact hswitched t (hstatus ▸ ht)
    · rintro e t ⟨thrown, hout, hfail⟩
      have hsplit : [newHead].reverse = [] ++ newHead :: [] := rfl
      refine hfails e t (.block (.inl rfl) hsplit ?_ (hstatus ▸ hfail))
      rw [hstatus]
      show env.applyAll (fun _ => s) c.db [newHead] = _
      rw [Env.applyAll, hout]
  · rw [if_neg hprev]
    by_cases hid : newHead.id = c.head.id
    · rw [if_neg (not_not.2 hid)]
      exact hsame hid
    · have hstatus : c.switchStatus newHead s = branchStatus := if_neg hprev
      rw [if_pos hid, ends_bind, ends_compute, hfetch]
      show Ends (leaveBranch env old >>= fun _ => switchTo env old 0 new.reverse >>= fun _ =>
        logIrreversible env) c Q E
      rw [ends_bind]
      refine (ends_leaveBranch h hold).mono ?_ ?_
      · rintro _ t ⟨hcb, rfl⟩
        rw [ends_bind]
        have hrev := (h.rewound_revision hanc hold).1
        have hmode : (c.rewound anc old.length).readMode ≠ .irreversible := h.readMode
        have hstart : Switching env branchStatus c.forkDb (c.rewound anc old.length) []
            (c.rewound anc old.length) :=
          switching_start (c.rewound anc old.length) h.pending hrev h.tree
        refine (ends_switchTo hmode h.pending hrev h.blocks hanc hold hprev new.reverse [] _
          hstart (fun a ha => by cases ha) hnew.upward).mono ?_ ?_
        · intro _ t ht
          exact hswitched t (hstatus ▸ ht)
        · rintro e t ⟨prior, b, later, thrown, hsplit, hthrow, hfail⟩
          exact hfails e t (.block hcb hsplit (hstatus ▸ hthrow) (hstatus ▸ hfail))
      · rintro e t ⟨hne, hcb, rfl⟩
        exact hfails e _ (.callback hne hcb)

end Switch

end Controller

end PotatoNode.Chain
