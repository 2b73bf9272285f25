import PotatoNode.Chain.ForkOperations
import PotatoNode.Chain.ForkSwitch
import PotatoNode.Chain.LogIrreversible

/-!
# `push_block` and `commit_block`

Between two calls a controller is `Settled`: its head is the one of the fork database, and the
chain state is that of the head. `ends_pushBlock` and `ends_commitBlock` say when a call leaves a
settled controller, whether it returns or throws.
-/

namespace PotatoNode.Chain

open Lib List

namespace ForkDatabase

/-! ## A block is added -/

/-- Of the validated blocks the head comes first in `by_lib_block_num`. `mark_valid` does not see
to it: it leaves the head when another block of the same preference has the smaller id. -/
def HeadFirst (d : ForkDatabase) : Prop :=
  ∀ b ∈ d.index.first, b.validated = true → b = d.head

instance (d : ForkDatabase) : Decidable d.HeadFirst :=
  inferInstanceAs (Decidable (∀ b ∈ d.index.first, b.validated = true → b = d.head))

/-- `d'` is `d` with the new block `n`. -/
structure Added (d : ForkDatabase) (n : BlockState) (d' : ForkDatabase) : Prop where
  tree : d'.TreeInv
  root : d'.root = d.root
  head : d'.head = d.head
  mem : ∀ x, x ∈ d'.index ↔ x = n ∨ x ∈ d.index
  new : ∀ x ∈ d.index, x.id ≠ n.id

section Added

variable {d d' : ForkDatabase} {n : BlockState}

theorem TreeInv.unrivalled_of_headFirst (h : d.TreeInv) (hfirst : d.HeadFirst) : d.Unrivalled := by
  cases hold : d.index.first with
  | none =>
    intro b hb
    exact absurd hb (ForkIndex.notMem_of_first_none hold)
  | some old =>
    cases hv : old.validated with
    | true =>
      exact (h.first_eq_head_iff (ForkIndex.mem_of_first hold) hv
        fun b hb => ForkIndex.first_le hold hb).1 (hfirst old hold hv)
    | false =>
      -- then no block is validated
      intro b hb hbv
      have hold' := (ForkIndex.first_best hold hb hbv).1
      rw [hv] at hold'
      cases hold'

theorem TreeInv.add_spec (h : d.TreeInv) (hfirst : d.HeadFirst) (hn : n.validated = false)
    (hadd : d.add n false = .ok d') : d.Added n d' := by
  rcases add_eq_ok hadd with ⟨htrue, -, -⟩ | ⟨-, hnew, hd'⟩
  · cases htrue
  have hmem : ∀ x, x ∈ d'.index ↔ x = n ∨ x ∈ d.index := by
    intro x
    rw [hd']
    exact mem_insert_of_new hnew
  refine ⟨h.add hadd, by rw [hd']; rfl, ?_, hmem, hnew⟩
  rw [hd']
  exact (h.takeValidated_head_eq_iff hn hnew).2 (h.unrivalled_of_headFirst hfirst)

theorem Added.below_of_below (h : d.Added n d') (htree : d.TreeInv) {a b : BlockState}
    (hb : d.InTree b) (ha : a ∈ d'.index) (hbelow : d'.index.Below a.id b.id) :
    a ∈ d.index ∧ d.index.Below a.id b.id := by
  obtain ⟨l, hbranch, -⟩ := htree.fetchBranch_spec hb 0
  have hold : ∀ x ∈ l, x ∈ d'.index := fun x hx => (h.mem x).2 (.inr (hbranch.mem_index x hx))
  have hbranch' := hbranch.transfer h.tree hold (.inl h.root.symm)
  have hin : a ∈ l := by
    apply hbranch'.mem_of_below ha hbelow
    rw [← h.root]
    exact h.tree.root_lt_blockNum ha
  exact ⟨hbranch.mem_index a hin, hbranch.below_of_mem a hin⟩

end Added

end ForkDatabase

namespace Controller

variable {σ : Type} {env : Env σ} {c t : Controller σ} {n anc : BlockState}
  {new old : List BlockState}

/-- Whatever is thrown when a block is applied or logged is an `fc::exception`. -/
structure OnlyFc (env : Env σ) : Prop where
  outcome : ∀ b s x e, b.block.isSome → env.outcome b s x = .error e → e.isFcException = true
  log : ∀ b e, env.logFailure b = some e → e.isFcException = true

/-- A switch to `newHead` that can be taken back: the callback does not throw and, if a block of the
new branch does, the head is its parent, or it is on another branch that can be applied again and
no block before the failing one is preferred over it. -/
def SafeSwitch (env : Env σ) (c : Controller σ) (newHead : BlockState) : Prop :=
  ∀ branches, c.forkDb.fetchBranchFrom newHead.id c.head.id = .ok branches →
    (branches.2 ≠ [] → env.forkedBranchCb branches.2 = none)
    ∧ ∀ failed, env.applyAll (c.switchStatus newHead .complete)
        (Versioned.undo^[branches.2.length] c.db) branches.1.reverse = .error failed →
      newHead.prev = c.head.id
      ∨ (branches.2 ≠ []
        ∧ (∀ a ∈ branches.1, a.blockNum < failed.1.blockNum → ¬ firstPreferred a c.head)
        ∧ ∃ v, env.applyAll (fun _ => .validated) (Versioned.undo^[branches.2.length] c.db)
          branches.2.reverse = .ok v)

instance (env : Env σ) (c : Controller σ) (newHead : BlockState) :
    Decidable (SafeSwitch env c newHead) :=
  inferInstanceAs (Decidable (∀ _, _ → _))

/-! ## A switch to the pending head -/

/-- A controller between two calls. -/
structure Settled (c : Controller σ) : Prop extends c.Grounded where
  pending : c.pending = none

theorem Settled.onTree (h : c.Settled) : c.OnTree where
  tree := h.tree
  inTree := h.inTree
  pending := h.pending
  revision := h.revision
  undoable := h.undoable
  blocks := h.blocks
  readMode := h.readMode

theorem Settled.undoable_rewound (h : c.Settled) (hanc : c.forkDb.InTree anc)
    (hold : c.forkDb.Branch c.head old anc) :
    anc.blockNum ≤ c.forkDb.root.blockNum + (c.rewound anc old.length).db.saved.length := by
  have hundo := h.undoable
  have hlen := (h.onTree.rewound_revision hanc hold).2
  have hnum := hold.blockNum.1
  omega

variable {status : BlockState → BlockStatus}

/-- **A switch that succeeds.** The new block is the head of the fork database as well: it is
preferred over the old head, and no other block of its branch is preferred over it. -/
theorem Settled.of_switching (h : c.Settled)
    (hn : n.validated = false) (hpref : firstPreferred n c.head)
    (hbest : ∀ b ∈ c.forkDb.index, ¬ firstPreferred b n) (hmemn : n ∈ c.forkDb.index)
    (hparted : c.forkDb.Parted n c.head new old anc)
    (ht : Switching env status c.forkDb (c.rewound anc old.length) new.reverse t) : t.Settled := by
  obtain ⟨hanc, hnew, hold, -⟩ := hparted
  have hmem : ∀ a ∈ new.reverse, a ∈ c.forkDb.index := fun a ha =>
    hnew.mem_index a (mem_reverse.1 ha)
  have hhead : n ∈ new.reverse ∧ t.head = n.setValidated true := by
    cases hnew with
    | refl =>
      -- the blocks below the head are validated
      have hv := h.chain n hmemn hold.bottom_below
      rw [hn] at hv
      cases hv
    | step _ _ _ =>
      rw [reverse_cons] at ht ⊢
      exact ⟨by simp, ht.head_eq⟩
  obtain ⟨hin, hhead⟩ := hhead
  have hforkHead : t.forkDb.head = n.setValidated true := by
    rcases ht.forkHead with ⟨-, hnone⟩ | ⟨⟨a, ha, heq⟩, -⟩
    · exact absurd (h.head ▸ hpref) (hnone n hin)
    · rw [heq]
      by_contra hne
      have hle : a.preference ≤ n.preference := not_lt.1 (hbest a (hmem a ha))
      have hge : n.preference ≤ a.preference := by
        have hhb := ht.tree.head_best _ ((ht.mem _).2 (.inl ⟨n, hin, rfl⟩)) rfl
        rw [heq] at hhb
        exact not_lt.1 hhb
      -- blocks of one branch have different numbers
      have hnum : a.blockNum = n.blockNum := congrArg (fun p => (ofLex p).2) (le_antisymm hle hge)
      exact hne (congrArg (·.setValidated true) (hnew.eq_top (mem_reverse.1 ha) hnum))
  obtain ⟨-, hrev, hlen⟩ := Env.undo_applyAll ht.db
  have hbase := h.undoable_rewound hanc hold
  exact {
    tree := ht.tree
    head := hhead.trans hforkHead.symm
    revision := ht.revision
    undoable := by
      have hnum := hnew.blockNum.1
      rw [hhead, ht.root, hlen, length_reverse]
      show n.blockNum ≤ _
      omega
    blocks := by
      intro b hb
      rcases (ht.mem b).1 hb with ⟨a, ha, rfl⟩ | ⟨hb, -⟩
      · exact h.blocks a (hmem a ha)
      · exact h.blocks b hb
    chain := by
      intro b hb hbelow
      rcases (ht.mem b).1 hb with ⟨a, -, rfl⟩ | ⟨hb, hbn⟩
      · rfl
      · -- a block that was not applied is an ancestor of the old head
        rw [hhead, ht.below_iff hmem] at hbelow
        have hle : b.blockNum ≤ anc.blockNum := by
          by_contra hlt
          exact hbn (mem_reverse.2 (hnew.mem_of_below hb hbelow (not_le.1 hlt)))
        have hanc := hnew.below_bottom hbelow (by rw [b.numbered.1]; exact hle)
        exact h.chain b hb (hanc.trans hold.bottom_below)
    readMode := by
      rw [ht.readMode]
      exact h.readMode
    pending := ht.pending }

variable {d' : ForkDatabase}

/-- **A switch that is taken back.** No applied block has become the head of the fork database. -/
theorem Settled.of_takenBack {prior : List BlockState}
    {b : BlockState} {v : Versioned σ} {c₁ : Controller σ} (h : c.Settled)
    (hanc : c.forkDb.InTree anc) (hold : c.forkDb.Branch c.head old anc)
    (hprior : ∀ a ∈ prior, a ∈ c.forkDb.index ∧ ¬ firstPreferred a c.head)
    (hsw : Switching env status c.forkDb (c.rewound anc old.length) prior c₁)
    (hpruned : c₁.forkDb.Pruned b.id d') (htree : d'.TreeInv)
    (hv : env.applyAll (fun _ => .validated) (c.rewound anc old.length).db old.reverse = .ok v) :
    Settled { c with forkDb := d', db := v } := by
  have hmem : ∀ a ∈ prior, a ∈ c.forkDb.index := fun a ha => (hprior a ha).1
  have hforkHead : c₁.forkDb.head = c.head := by
    rw [h.head]
    rcases hsw.forkHead with ⟨heq, -⟩ | ⟨-, a, ha, hpref⟩
    · exact heq
    · rw [← h.head] at hpref
      exact absurd hpref (hprior a ha).2
  obtain ⟨-, hrev, hlen⟩ := Env.undo_applyAll hv
  rw [length_reverse] at hrev hlen
  have hnum := hold.blockNum.1
  exact {
    tree := htree
    head := (hpruned.head.trans hforkHead).symm
    revision := by
      show v.revision = c.head.blockNum
      rw [hrev, (h.onTree.rewound_revision hanc hold).1, hnum]
      rfl
    undoable := by
      have hbase := h.undoable_rewound hanc hold
      show c.head.blockNum ≤ d'.root.blockNum + v.saved.length
      rw [hpruned.root, hsw.root]
      omega
    blocks := by
      intro x hx
      rcases (hsw.mem x).1 ((hpruned.mem x).1 hx).1 with ⟨a, ha, rfl⟩ | ⟨hx, -⟩
      · exact h.blocks a (hmem a ha)
      · exact h.blocks x hx
    chain := by
      intro x hx hbelow
      have hbelow := hbelow.mono fun y hy => ((hpruned.mem y).1 hy).1
      rw [hsw.below_iff hmem] at hbelow
      rcases (hsw.mem x).1 ((hpruned.mem x).1 hx).1 with ⟨a, -, rfl⟩ | ⟨hx, -⟩
      · rfl
      · exact h.chain x hx hbelow
    readMode := h.readMode
    pending := h.pending }

theorem Settled.of_fails {e : Failure} (h : c.Settled) (hfc : OnlyFc env)
    (hsafe : SafeSwitch env c n) (hn : c.forkDb.InTree n)
    (hfetch : c.forkDb.fetchBranchFrom n.id c.head.id = .ok (new, old))
    (hparted : c.forkDb.Parted n c.head new old anc)
    (hfails : SwitchFails env c n .complete new old anc e t) : t.Settled := by
  have hempty := hparted.nil_iff_below
  obtain ⟨hanc, hnew, hold, hdisj⟩ := hparted
  obtain ⟨hcallback, hreapply⟩ := hsafe _ hfetch
  cases hfails with
  | callback hne hcb =>
    rw [hcallback hne] at hcb
    cases hcb
  | @block prior later b thrown _ _ hcb hsplit hthrow hfail =>
    have hmem : ∀ a ∈ prior ++ b :: later, a ∈ new := by
      intro a ha
      rw [← hsplit] at ha
      exact mem_reverse.1 ha
    have hb : b ∈ new := hmem b (by simp)
    have hbmem := hnew.mem_index b hb
    have hprior : ∀ a ∈ prior, a ∈ c.forkDb.index := fun a ha =>
      hnew.mem_index a (hmem a (mem_append_left _ ha))
    have hless := (hsplit ▸ hnew.ascending).split.1
    obtain ⟨x, hout⟩ := Env.outcome_of_applyAll hthrow
    have hthrown := hfc.outcome b _ x thrown (h.blocks b hbmem) hout
    have hreapply := hreapply _ hthrow
    -- with the head as the parent both branches are as short as can be
    have hdirect : n.prev = c.head.id → old = [] ∧ prior = [] := by
      intro hprev
      have hnil := hempty.2 (h.onTree.mem_of_direct hn hprev).2
      have hanc : n.prev = anc.id := hprev.trans (congrArg (·.id) (hold.nil_iff.1 hnil))
      rw [hnew.eq_singleton hanc] at hsplit
      refine ⟨hnil, ?_⟩
      cases prior with
      | nil => rfl
      | cons _ _ => simp at hsplit
    cases hfail with
    | uncaught hnot =>
      rw [hthrown] at hnot
      cases hnot
    | notRemoved _ hsw hprev hbelow =>
      -- the head is on the other branch
      have hbelow := ((hsw.head_below_iff hprior hprev).1 hbelow).1
      have hin := hold.mem_of_below hbmem (h.head ▸ hbelow) (hnew.blockNum.2 b hb).1
      exact absurd rfl (hdisj b hb b hin)
    | takenBack _ hsw _ _ _ hpruned htree hv =>
      refine h.of_takenBack hanc hold (fun a ha => ⟨hprior a ha, ?_⟩) hsw hpruned htree hv
      rcases hreapply with hprev | ⟨-, hnot, -⟩
      · rw [(hdirect hprev).2] at ha
        cases ha
      · exact hnot a (hmem a (mem_append_left _ ha)) (hless a ha)
    | noOldBranch _ hprev hnil =>
      rcases hreapply with hyes | ⟨hne, -⟩
      · exact absurd hyes hprev
      · exact absurd hnil hne
    | notReapplied _ ho =>
      rcases hreapply with hprev | ⟨-, -, v, hv⟩
      · rw [(hdirect hprev).1] at ho
        cases ho
      · exact absurd (hv.symm.trans ho) (by simp)

theorem ends_maybeSwitchForks_head {Q : Unit → Controller σ → Prop}
    {E : Failure → Controller σ → Prop} (s : BlockStatus) (hQ : Q () c) :
    Ends (maybeSwitchForks env c.head s) c Q E := by
  unfold maybeSwitchForks
  have hprev : c.head.prev ≠ c.head.id := by
    intro heq
    have hnum := c.head.blockNum_prev
    rw [heq] at hnum
    omega
  rw [ends_bind, ends_get, if_neg hprev, if_neg (not_not.2 rfl)]
  exact hQ

theorem Settled.ends_maybeSwitchForks (h : c.Settled) (hfc : OnlyFc env)
    (hsafe : SafeSwitch env c c.forkDb.pendingHead) :
    Ends (maybeSwitchForks env c.forkDb.pendingHead .complete) c
      (fun _ t => t.Settled) fun _ t => t.Settled := by
  rcases c.forkDb.pendingHead_cases with heq | ⟨hmem, hn, hpref⟩
  · rw [heq, ← h.head]
    exact ends_maybeSwitchForks_head .complete h
  · rw [← h.head] at hpref
    have hbest := h.tree.pendingHead_best
    obtain ⟨new, old, anc, hfetch, hparted⟩ := h.tree.fetchBranchFrom_spec (.inr hmem) h.inTree
    apply Controller.ends_maybeSwitchForks h.onTree (.inr hmem) hfetch hparted
    · exact fun _ => h
    · intro t ht
      have hsettled := h.of_switching hn hpref hbest hmem hparted ht
      have hkept : ∀ u, Kept t u → u.Settled := fun u hu =>
        { hu.grounded with pending := hu.pending.trans hsettled.pending }
      exact (ends_logIrreversible hsettled.toGrounded hfc.log).mono (fun _ u hu => hkept u hu)
        fun _ u hu => hkept u hu.1
    · intro e t hfails
      exact h.of_fails hfc hsafe (.inr hmem) hfetch hparted hfails

def Fresh (b : BlockState) : Prop := b.block.isSome ∧ b.validated = false

theorem Settled.added (h : c.Settled) (hn : n.block.isSome) (hadd : c.forkDb.Added n d') :
    Settled { c with forkDb := d' } where
  tree := hadd.tree
  head := h.head.trans hadd.head.symm
  revision := h.revision
  undoable := by
    show c.head.blockNum ≤ d'.root.blockNum + c.db.saved.length
    rw [hadd.root]
    exact h.undoable
  blocks := by
    intro b hb
    rcases (hadd.mem b).1 hb with rfl | hold
    · exact hn
    · exact h.blocks b hold
  chain := by
    intro b hb hbelow
    obtain ⟨hold, hbelow⟩ := hadd.below_of_below h.tree h.inTree hb hbelow
    exact h.chain b hold hbelow
  readMode := h.readMode
  pending := h.pending

/-- **`push_block`** leaves a settled controller, whether it returns or throws. -/
theorem Settled.ends_pushBlock (h : c.Settled) (hfresh : Fresh n) (hfirst : c.forkDb.HeadFirst)
    (hfc : OnlyFc env) (hsafe : ∀ d', c.forkDb.add n false = .ok d' →
      SafeSwitch env { c with forkDb := d' } d'.pendingHead) :
    Ends (pushBlock env n) c (fun _ t => t.Settled) fun _ t => t.Settled := by
  unfold pushBlock emit onForkDb
  rw [ends_bind, ends_get, ends_bind, ends_require, if_pos (by rw [h.pending]; rfl), ends_bind,
    ends_fallible]
  cases emitted _ with
  | some e => exact h
  | none =>
    rw [ends_bind, ends_zoom, ends_attempt]
    cases hadd : c.forkDb.add n false with
    | error e => exact h
    | ok d' =>
      have hsettled := h.added hfresh.1 (h.tree.add_spec hfirst hfresh.2 hadd)
      show Ends _ { c with forkDb := d' } _ _
      rw [ends_bind, ends_fallible]
      cases emitted _ with
      | some e => exact hsettled
      | none =>
        rw [ends_bind, ends_get, if_pos h.readMode]
        exact hsettled.ends_maybeSwitchForks hfc (hsafe d' hadd)

/-! ## `commit_block` -/

/-- The controller when a block is pending: what was done since `start_block` has led to the chain
state `x`. -/
def building (c : Controller σ) (x : σ) (stage : BlockStage) : Controller σ :=
  { c with db := c.db.startUndoSession.write x, pending := some stage }

/-- Nothing throws after the committed block has become the head of the fork database. -/
structure CommitsQuietly (env : Env σ) (c : Controller σ) (bsp : BlockState) : Prop where
  acceptedBlockHeader : emitted (env.acceptedBlockHeader bsp) = none
  createReversible : env.createReversible bsp = none
  acceptedBlock : emitted (env.acceptedBlock bsp) = none
  checkLog : c.checkLog = .ok ()
  log : ∀ b, env.logFailure b = none

section

variable (h : c.Settled)
include h

theorem Settled.marked (hn : n ∈ c.forkDb.index) (hmark : c.forkDb.Marked n d')
    (hpref : ¬ firstPreferred n c.head) : Settled { c with forkDb := d' } where
  tree := hmark.tree
  head := by
    show c.head = d'.head
    rw [hmark.head, ← h.head, if_neg hpref]
  revision := h.revision
  undoable := by
    show c.head.blockNum ≤ d'.root.blockNum + c.db.saved.length
    rw [hmark.root]
    exact h.undoable
  blocks := by
    intro b hb
    rcases (hmark.mem b).1 hb with rfl | ⟨hold, -⟩
    · exact h.blocks n hn
    · exact h.blocks b hold
  chain := by
    intro b hb hbelow
    rcases (hmark.mem b).1 hb with rfl | ⟨hold, -⟩
    · rfl
    · exact h.chain b hold ((hmark.below_iff hn _ _).1 hbelow)
  readMode := h.readMode
  pending := h.pending

theorem Settled.grounded_of_marked (hn : n ∈ c.forkDb.index)
    (hprev : n.prev = c.head.id) (hmark : c.forkDb.Marked n d') (hpref : firstPreferred n c.head)
    (x : σ) (stage : BlockStage) :
    Grounded { c.building x stage with forkDb := d', head := n.setValidated true } where
  tree := hmark.tree
  head := by
    show n.setValidated true = d'.head
    rw [hmark.head, ← h.head, if_pos hpref]
  revision := by
    show c.db.revision + 1 = n.blockNum
    rw [h.revision, blockNum_of_prev hprev]
    rfl
  undoable := by
    show n.blockNum ≤ d'.root.blockNum + (c.db.saved.length + 1)
    have hundo := h.undoable
    rw [hmark.root, blockNum_of_prev hprev]
    omega
  blocks := by
    intro b hb
    rcases (hmark.mem b).1 hb with rfl | ⟨hold, -⟩
    · exact h.blocks n hn
    · exact h.blocks b hold
  chain := by
    intro b hb hbelow
    rcases (hmark.mem b).1 hb with rfl | ⟨hold, hne⟩
    · rfl
    · -- an ancestor of the new head other than itself is one of the old head
      have hbelow : c.forkDb.index.Below b.id n.id := (hmark.below_iff hn _ _).1 hbelow
      rcases reaches_iff.1 hbelow with heq | ⟨y, hy, hsucc⟩
      · exact absurd (Table.eq_of_mem_of_key_eq hold hn heq.symm) hne
      · obtain ⟨n', hn', hprev', hid⟩ := ForkIndex.mem_successors.1 hsucc
        have hnn : n' = n := Table.eq_of_mem_of_key_eq hn' hn hid
        rw [← hprev', hnn, hprev] at hy
        exact h.chain b hold hy
  readMode := h.readMode

theorem Settled.ends_addCommitted (hfresh : Fresh n) (hprev : n.prev = c.head.id)
    (hfirst : c.forkDb.HeadFirst) (hquiet : firstPreferred n c.head → CommitsQuietly env c n)
    (x : σ) (stage : BlockStage) :
    Ends (addCommitted env n) (c.building x stage)
      (fun _ t => firstPreferred n c.head ∧ ∃ d', d'.root = c.forkDb.root
        ∧ t = { c.building x stage with forkDb := d', head := n.setValidated true } ∧ t.Grounded)
      fun _ t => t.cleared.Settled := by
  have hclear : ∀ d', cleared { c.building x stage with forkDb := d' } = { c with forkDb := d' } :=
    fun d' => cleared_session (c := { c with forkDb := d' }) h.pending x stage
  unfold addCommitted onForkDb emit
  rw [ends_bind, ends_zoom, ends_attempt]
  have hforkDb : (c.building x stage).forkDb = c.forkDb := rfl
  rw [hforkDb]
  cases hadd : c.forkDb.add n false with
  | error e =>
    show (cleared (c.building x stage)).Settled
    rw [building, cleared_session h.pending]
    exact h
  | ok d₁ =>
    have hadded := h.tree.add_spec hfirst hfresh.2 hadd
    have hsettled := h.added hfresh.1 hadded
    have hn : n ∈ d₁.index := (hadded.mem n).2 (.inl rfl)
    obtain ⟨d', hok, hmark⟩ := hadded.tree.markValid_spec hn
    show Ends _ { c.building x stage with forkDb := d₁ } _ _
    rw [ends_bind, ends_zoom, ends_attempt]
    rw [hok]
    show Ends _ { c.building x stage with forkDb := d' } _ _
    by_cases hpref : firstPreferred n c.head
    · have hground : Grounded { c.building x stage with forkDb := d', head := n.setValidated true } :=
        hsettled.grounded_of_marked hn hprev hmark hpref x stage
      have hhead : d'.head = n.setValidated true := hground.head.symm
      rw [ends_bind, ends_fallible, (hquiet hpref).acceptedBlockHeader]
      rw [ends_bind, ends_modify, ends_bind, ends_get, ends_require]
      rw [hhead, if_pos (n.setValidated_id true).symm]
      exact ⟨hpref, d', hmark.root.trans hadded.root, rfl, hground⟩
    · have hkept : (cleared { c.building x stage with forkDb := d' }).Settled := by
        rw [hclear]
        exact hsettled.marked hn hmark hpref
      rw [ends_bind, ends_fallible]
      cases emitted _ with
      | some e => exact hkept
      | none =>
        -- the head of the fork database is still the parent
        have hhead : d'.head = c.head := by
          rw [hmark.head, hadded.head, ← h.head, if_neg hpref]
        have hne : n.id ≠ c.head.id := by
          intro heq
          have hnum := n.blockNum_prev
          rw [hprev, heq] at hnum
          omega
        rw [ends_bind, ends_modify, ends_bind, ends_get, ends_require]
        rw [hhead, if_neg hne]
        exact hkept

/-- **`commit_block`** leaves a settled controller, whether it returns or throws. -/
theorem Settled.ends_commitBlock {stage : BlockStage} (x : σ)
    (hproper : ∀ bsp, stage = .completed bsp → Fresh bsp ∧ bsp.prev = c.head.id
      ∧ c.forkDb.HeadFirst ∧ (firstPreferred bsp c.head → CommitsQuietly env c bsp)) :
    Ends (commitBlock env true) (c.building x stage) (fun _ t => t.Settled) fun _ t => t.Settled := by
  unfold commitBlock commitBlockWith abortBlock resetPending emit
  rw [ends_bind, ends_tryCatch, ends_bind]
  cases stage with
  | building =>
    show (cleared (c.building x .building)).Settled
    rw [building, cleared_session h.pending]
    exact h
  | completed n =>
    obtain ⟨hfresh, hprev, hfirst, hquiet⟩ := hproper n rfl
    show Ends (do
      whenever (true = true) (addCommitted env n)
      whenever (c.readMode ≠ .irreversible) (fallible (env.createReversible n))
      fallible (emitted (env.acceptedBlock n))
      whenever (true = true) (logIrreversible env)) _ _ _
    rw [ends_bind, ends_whenever]
    refine (h.ends_addCommitted hfresh hprev hfirst hquiet x _).mono ?_ ?_
    · rintro _ t ⟨hpref, d', hroot, ht, hground⟩
      have hquiet := hquiet hpref
      have hcheck : t.checkLog = .ok () := by
        rw [← hquiet.checkLog, ht]
        exact checkLog_congr rfl hroot
      rw [ends_bind, ends_whenever, if_pos h.readMode, ends_fallible, hquiet.createReversible]
      rw [ends_bind, hquiet.acceptedBlock]
      have hnone : ∀ b e, env.logFailure b ≠ some e := by
        intro b e hsome
        rw [hquiet.log b] at hsome
        cases hsome
      refine (ends_logIrreversible hground fun b e hsome => absurd hsome (hnone b e)).mono ?_ ?_
      · intro _ u hu
        exact { hu.grounded with pending := rfl }
      · rintro e u ⟨_, hthrown⟩
        rcases hthrown with hlog | ⟨b, hsome⟩
        · rw [hcheck] at hlog
          cases hlog
        · exact absurd hsome (hnone b e)
    · intro e t ht
      exact ht

end

end Controller

end PotatoNode.Chain
