import PotatoNode.Chain.PushCommit

/-!
# Three copies of the head

The controller's head, the head of the fork database and the revision of the chain state should be
on par (`InSync`) whenever a call of `push_block` or `commit_block` is over. They are in every run of
calls that are `Careful`; a call that is not may take them apart.
-/

namespace PotatoNode.Chain

open Lib List BlockState

namespace Controller

variable {σ : Type} {env : Env σ} {c t : Controller σ}

/-! ## Runs -/

/-- A call of `push_block`, or of `commit_block` after a block was produced. -/
inductive Call (σ : Type) where
  | push (env : Env σ) (bsp : BlockState)
  | commit (env : Env σ) (x : σ) (stage : BlockStage)

def Call.run : Call σ → ControllerM σ Unit
  | .push env bsp => pushBlock env bsp
  | .commit env x stage => do
    modify fun c => c.building x stage
    commitBlock env true

/-- What the callers see to. `start_block` has checked the pending block and the revision. -/
def Call.Proper (c : Controller σ) : Call σ → Prop
  | .push _ bsp => Fresh bsp
  | .commit _ _ .building => c.pending.isNone ∧ c.db.revision = c.head.blockNum
  | .commit _ _ (.completed bsp) => c.pending.isNone ∧ c.db.revision = c.head.blockNum
    ∧ Fresh bsp ∧ bsp.prev = c.head.id

/-- The call cannot take the three copies of the head apart. -/
def Call.Careful (c : Controller σ) : Call σ → Prop
  | .push env bsp => c.forkDb.HeadFirst ∧ OnlyFc env
    ∧ ∀ d', c.forkDb.add bsp false = .ok d' →
      SafeSwitch env { c with forkDb := d' } d'.pendingHead
  | .commit _ _ .building => True
  | .commit env _ (.completed bsp) => c.forkDb.HeadFirst
    ∧ (firstPreferred bsp c.head → CommitsQuietly env c bsp)

/-- After start-up with a new fork database. -/
structure Started (c : Controller σ) : Prop where
  forkDb : ∃ b, c.forkDb = ForkDatabase.reset b
  head : c.head = c.forkDb.head
  revision : c.db.revision = c.head.blockNum
  pending : c.pending = none
  readMode : c.readMode ≠ .irreversible

/-- The controllers that sequences of calls with the property `P` lead to, whether the calls return
or throw. -/
inductive Run (P : Controller σ → Call σ → Prop) : Controller σ → Prop where
  | start {c : Controller σ} (h : c.Started) : Run P c
  | returns {c t : Controller σ} {call : Call σ} (run : Run P c) (hproper : call.Proper c)
      (hP : P c call) (h : call.run c = .ok () t) : Run P t
  | throws {c t : Controller σ} {call : Call σ} {e : Failure} (run : Run P c)
      (hproper : call.Proper c) (hP : P c call) (h : call.run c = .error e t) : Run P t

/-- The three copies of "where we are" agree. -/
def InSync (c : Controller σ) : Prop :=
  c.head = c.forkDb.head ∧ c.db.revision = c.head.blockNum

theorem Started.settled (h : c.Started) : c.Settled := by
  obtain ⟨b, hb⟩ := h.forkDb
  have hempty : ∀ x, x ∉ c.forkDb.index := by
    intro x
    rw [hb]
    exact Table.notMem_empty x
  exact {
    tree := hb ▸ ForkDatabase.treeInv_reset b
    head := h.head
    revision := h.revision
    undoable := by
      have hroot : c.forkDb.head = c.forkDb.root := by rw [hb]; rfl
      rw [h.head, hroot]
      omega
    blocks := fun x hx => absurd hx (hempty x)
    chain := fun x hx => absurd hx (hempty x)
    readMode := h.readMode
    pending := h.pending }

theorem Settled.ends_call (h : c.Settled) {call : Call σ} (hproper : call.Proper c)
    (hcareful : call.Careful c) :
    Ends call.run c (fun _ t => t.Settled) fun _ t => t.Settled := by
  cases call with
  | push env bsp => exact h.ends_pushBlock hproper hcareful.1 hcareful.2.1 hcareful.2.2
  | commit env x stage =>
    apply h.ends_commitBlock x
    intro bsp hstage
    subst hstage
    exact ⟨hproper.2.2.1, hproper.2.2.2, hcareful.1, hcareful.2⟩

theorem settled_of_run (run : Run (fun c call => call.Careful c) c) : c.Settled := by
  induction run with
  | start h => exact h.settled
  | returns _ hproper hcareful h ih => exact (ih.ends_call hproper hcareful).of_ok h
  | throws _ hproper hcareful h ih => exact (ih.ends_call hproper hcareful).of_error h

/-- **Head, fork database and chain state stay together** in every run of careful calls. -/
theorem inSync_of_run (run : Run (fun c call => call.Careful c) c) : c.InSync := by
  have hsettled := settled_of_run run
  exact ⟨hsettled.head, hsettled.revision⟩

/-! ## Sample runs -/

def runCalls (check : Controller σ → Call σ → Bool) :
    List (Call σ) → Controller σ → Option (Controller σ)
  | [], c => some c
  | call :: rest, c =>
    if check c call then
      match call.run c with
      | .ok _ t => runCalls check rest t
      | .error _ t => runCalls check rest t
    else none

theorem run_of_runCalls {P : Controller σ → Call σ → Prop} {check : Controller σ → Call σ → Bool} :
    ∀ {calls : List (Call σ)} {c t : Controller σ},
      (∀ c, ∀ call ∈ calls, check c call = true → call.Proper c ∧ P c call) → Run P c →
      runCalls check calls c = some t → Run P t
  | [], c, t, _, run, h => by
    injection h with h
    exact h ▸ run
  | call :: rest, c, t, hcheck, run, h => by
    have hrest := fun c x hx => hcheck c x (mem_cons_of_mem _ hx)
    unfold runCalls at h
    split at h
    · next hok =>
      obtain ⟨hproper, hP⟩ := hcheck c call mem_cons_self hok
      split at h
      · next hrun => exact run_of_runCalls hrest (run.returns hproper hP hrun) h
      · next hrun => exact run_of_runCalls hrest (run.throws hproper hP hrun) h
    · cases h

theorem exists_run_of_runCalls {P : Controller (List BlockId) → Call (List BlockId) → Prop}
    {Q : Controller (List BlockId) → Bool}
    (check : Controller (List BlockId) → Call (List BlockId) → Bool)
    (calls : List (Call (List BlockId)))
    (hcheck : ∀ c, ∀ call ∈ calls, check c call = true → call.Proper c ∧ P c call)
    (h : (runCalls check calls (recorded (ForkDatabase.reset genesis) [])).any Q = true) :
    ∃ c, Run P c ∧ Q c = true := by
  obtain ⟨c, hc, hQ⟩ := (Option.any_eq_true _ _).1 h
  have hstart : Started (recorded (ForkDatabase.reset genesis) []) :=
    ⟨⟨_, rfl⟩, rfl, by decide +kernel, rfl, fun h => by cases h⟩
  exact ⟨c, run_of_runCalls hcheck (.start hstart) hc, hQ⟩

instance (b : BlockState) : Decidable (Fresh b) := inferInstanceAs (Decidable (_ ∧ _))

/-- Two blocks that do not validate take the heads apart. The first one is the second block of a
branch whose first block is as good as the head and has the smaller id: that block stays validated.
`add` makes it the head of the fork database when the next block is pushed, and that one fails. -/
theorem push_takes_heads_apart :
    ∃ c : Controller (List BlockId),
      Run (fun _ call => ∃ bad bsp, call = .push (recordingEnv bad) bsp) c ∧ ¬ c.InSync := by
  let a := genesis.child 2 0
  let b := genesis.child 1 0
  let bad := b.child 1 0
  let bad' := a.child 2 0
  let pushes := [(0, a), (0, b), (bad.id, bad), (bad'.id, bad')]
  obtain ⟨c, run, hQ⟩ := exists_run_of_runCalls
    (P := fun _ call => ∃ bad bsp, call = .push (recordingEnv bad) bsp)
    (Q := fun c => c.head ≠ c.forkDb.head)
    (fun _ call => match call with
      | .push _ bsp => Fresh bsp
      | .commit _ _ _ => false)
    (pushes.map fun p => .push _ p.2)
    (by
      intro c call hmem hcheck
      obtain ⟨p, -, rfl⟩ := mem_map.1 hmem
      have hfresh : Fresh p.2 := of_decide_eq_true hcheck
      exact ⟨hfresh, p.1, p.2, rfl⟩)
    (by decide +kernel)
  exact ⟨c, run, fun hsync => of_decide_eq_true hQ hsync.1⟩

theorem onlyFc_recordingEnv (bad : BlockId) : OnlyFc (recordingEnv bad) where
  outcome := by
    intro b s x e hb hout
    have hsome : b.block.isNone = false := by
      cases hblock : b.block with
      | none =>
        rw [hblock] at hb
        cases hb
      | some _ => rfl
    by_cases hbad : b.id = bad
    · have herror : (recordingEnv bad).outcome b s x
          = .error (.exception ⟨.blockValidateException, "block id mismatch"⟩) := by
        simp [Env.outcome, recordingEnv, hsome, hbad, emitted]
        rfl
      rw [herror] at hout
      injection hout with hout
      exact hout ▸ rfl
    · have hok : (recordingEnv bad).outcome b s x = .ok (b.id :: x) := by
        simp [Env.outcome, recordingEnv, hsome, hbad, emitted]
        rfl
      rw [hok] at hout
      cases hout
  log := by
    intro b e hlog
    cases hlog

/-- A block is committed, a second branch is pushed, its second block fails and is taken back,
and the first branch goes on. -/
theorem inSync_after_failed_switch :
    let a := BlockState.genesis.child 1 0
    let b := BlockState.genesis.child 2 0
    ∃ c : Controller (List BlockId), Run (fun c call => call.Careful c) c
      ∧ c.head = (a.child 1 0).setValidated true ∧ b.setValidated true ∈ c.forkDb.index
      ∧ c.InSync := by
  intro a b
  let bad := b.child 2 0
  obtain ⟨c, run, hQ⟩ := exists_run_of_runCalls
    (P := fun c call => call.Careful c)
    (Q := fun c => c.head = (a.child 1 0).setValidated true ∧ b.setValidated true ∈ c.forkDb.index)
    (fun c call => match call with
      | .push env bsp => Fresh bsp ∧ c.forkDb.HeadFirst ∧ ∀ d', c.forkDb.add bsp false = .ok d' →
        SafeSwitch env { c with forkDb := d' } d'.pendingHead
      | .commit _ _ (.completed bsp) => (c.pending.isNone ∧ c.db.revision = c.head.blockNum
        ∧ Fresh bsp ∧ bsp.prev = c.head.id) ∧ c.forkDb.HeadFirst ∧ c.checkLog = .ok ()
      | .commit _ _ .building => false)
    [.commit (recordingEnv 0) [a.id] (.completed a), .push (recordingEnv 0) b,
      .push (recordingEnv bad.id) bad, .push (recordingEnv 0) (a.child 1 0)]
    (by
      have hpush : ∀ (bad : BlockId) (bsp : BlockState) (c : Controller (List BlockId)),
          (Fresh bsp ∧ c.forkDb.HeadFirst ∧ ∀ d', c.forkDb.add bsp false = .ok d' →
            SafeSwitch (recordingEnv bad) { c with forkDb := d' } d'.pendingHead) →
          (Call.push (recordingEnv bad) bsp).Proper c
            ∧ (Call.push _ bsp).Careful c :=
        fun bad bsp c h => ⟨h.1, h.2.1, onlyFc_recordingEnv bad, h.2.2⟩
      intro c call hmem hcheck
      simp only [mem_cons, not_mem_nil, or_false] at hmem
      rcases hmem with rfl | rfl | rfl | rfl
      · obtain ⟨hproper, hfirst, hlog⟩ := of_decide_eq_true hcheck
        exact ⟨hproper, hfirst, fun _ => ⟨rfl, rfl, rfl, hlog, fun _ => rfl⟩⟩
      · exact hpush _ _ c (of_decide_eq_true hcheck)
      · exact hpush _ _ c (of_decide_eq_true hcheck)
      · exact hpush _ _ c (of_decide_eq_true hcheck))
    (by decide +kernel)
  obtain ⟨hhead, hmem⟩ := of_decide_eq_true hQ
  exact ⟨c, run, hhead, hmem, inSync_of_run run⟩

end Controller

end PotatoNode.Chain
