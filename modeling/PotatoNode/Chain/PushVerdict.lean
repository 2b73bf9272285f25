import PotatoNode.Chain.PushTransaction

/-!
# What pushing a transaction comes to

The exits of `push_transaction` and `push_scheduled_transaction` are said once, without sessions and
restore points: a *verdict* is a function of the chain state before the call. The run of a call is then
an equation: what it returns or throws, and the pending state it leaves.
-/

namespace PotatoNode.Chain

open Lib Chainbase TransactionContext Controller PushEnv PendingState Versioned

variable {ρ α : Type}

/-! ## What a call comes to -/

/-- What is appended to the pending block, and the chain state. -/
structure Outcome (ρ : Type) where
  receipts : List TransactionReceipt
  metas : List Digest := []
  actions : List Digest := []
  state : ChainState ρ

/-- The block and the state move together. -/
def PendingState.keep (s : PendingState ρ) (o : Outcome ρ) : PendingState ρ :=
  (s.append o.receipts o.metas o.actions).write o.state

inductive Verdict (ρ : Type) where
  /-- no receipt: it stays for a future block -/
  | failed (e : Failure)
  | retired (exit : Exit) (outcome : Outcome ρ) (result : TransactionResult)

namespace PushEnv

variable (env : PushEnv ρ)

/-- The exception that the two signals let through. -/
def announced (exit : Exit) : Option Failure :=
  (emitted (env.acceptedTransaction exit)).or (emitted (env.appliedTransaction exit))

/-- What the signals let through when they are emitted without a restore point. -/
def announcedLate (exit : Exit) : Option Failure :=
  if exit = .executed then none else env.announced exit

def receiptOf (trx : ReceiptSubject) (status : TransactionStatus) (done : Executed) :
    TransactionReceipt :=
  ⟨trx, status, done.billedCpuTimeUs.toUInt32, (done.netUsage / 8).toUInt32⟩

/-- The check of `push_receipt`. -/
def wholeWords (done : Executed) : Result Unit :=
  eosAssert (done.netUsage / 8 * 8 = done.netUsage) .transactionException
    "net_usage is not divisible by 8"

variable (trx : TransactionMetadata)

def receiptOfInput (done : Executed) : TransactionReceipt :=
  receiptOf (.packed trx.id) (if trx.trx.delaySec = 0 then .executed else .delayed) done

/-- What `push_transaction` returns of it. -/
def headerOfInput (done : Executed) : TransactionReceiptHeader :=
  if trx.implicit = true then (receiptOf (.packed trx.id) .executed done).header
  else (receiptOfInput trx done).header

def outcomeOfInput (done : Executed) (σ : ChainState ρ) : Outcome ρ where
  receipts := if trx.implicit = true then [] else [receiptOfInput trx done]
  metas := if trx.implicit = true then [] else [trx.id]
  actions := done.executed
  state := σ

def announcedInput : Option Failure :=
  (if trx.accepted = true then none else emitted (env.acceptedTransaction .executed)).or
    (emitted (env.appliedTransaction .executed))

/-- The execution of an input transaction with all that can fail in its `try` block. -/
def trialInput : ContextM ρ Executed := do
  let done ← executeInput env trx
  compute fun _ => if trx.implicit = true then .ok () else wholeWords done
  fallible (env.announcedInput trx)
  pure done

/-- The execution of a generated transaction with all that can fail in its `try` block. -/
def trialScheduled (dtrx : Transaction) : ContextM ρ Executed := do
  let done ← executeScheduled env dtrx
  compute fun _ => wholeWords done
  fallible (env.announced .executed)
  pure done

variable (gto : GeneratedTransactionObject)

/-- The execution of `onerror` with all that can fail in its `try` block. -/
def trialOnerror : ContextM ρ Executed := do
  let done ← executeOnerror env gto
  compute fun _ => wholeWords done
  pure done

def failVerdict (ctx : TransactionContext) (e : Failure)
    (cpuTimeToBillUs : UInt32) (σ : ChainState ρ) : Result (Verdict ρ) :=
  if env.subjective e = true then .ok (.failed e)
  else do
    let (cpuTimeToBillUs, σ) ← chargeHardFailure env ctx cpuTimeToBillUs σ
    let r : TransactionReceipt := ⟨.generated gto.trxId, .hardFail, cpuTimeToBillUs, 0⟩
    .ok (.retired .hardFail ⟨[r], [], [], σ⟩ ⟨some r.header, some e⟩)

/-- A failure that the sender is told of. -/
def errorVerdict (ctx : TransactionContext) (σ : ChainState ρ) : Result (Verdict ρ) :=
  match env.trialOnerror gto (σ, {}) with
  | .ok done (σ, _) =>
    let r := receiptOf (.generated gto.trxId) .softFail done
    .ok (.retired .softFail ⟨[r], [], done.executed, σ⟩ ⟨some r.header, none⟩)
  | .error e (σ', _) =>
    if e.isCaught = true then
      env.failVerdict gto ctx e (updateBilledCpuTime env σ'.configuration .onerror) σ
    else .error e

def retireVerdict (dtrx : Transaction) (σ : ChainState ρ) : Result (Verdict ρ) :=
  match env.trialScheduled dtrx (σ, {}) with
  | .ok done (σ, _) =>
    let r := receiptOf (.generated gto.trxId) .executed done
    .ok (.retired .executed ⟨[r], [], done.executed, σ⟩ ⟨some r.header, none⟩)
  | .error e (σ', ctx) =>
    if e.isCaught = true then
      if gto.sender ≠ 0 ∧ env.subjective e = false then env.errorVerdict gto ctx σ
      else env.failVerdict gto ctx e (updateBilledCpuTime env σ'.configuration .transaction) σ
    else .error e

def settleVerdict (σ : ChainState ρ) : Result (Verdict ρ) := do
  eosAssert (gto.delayUntil ≤ env.pendingBlockTime) .transactionException
    "this transaction isn't ready"
  let dtrx ← env.unpack gto.packedTrx
  if gto.expiration < env.pendingBlockTime then
    let r : TransactionReceipt := ⟨.generated gto.trxId, .expired, env.billedCpuTimeUs, 0⟩
    .ok (.retired .expired ⟨[r], [], [], σ⟩ ⟨some r.header, none⟩)
  else env.retireVerdict gto dtrx σ

def removed (σ : ChainState ρ) : Result (ChainState ρ) := do
  eosAssert (env.validating = true → env.explicitBilledCpuTime = true) .transactionException
    "validating requires explicit billing"
  σ.removeScheduledTransaction gto

end PushEnv

/-! ## Statements that come to a verdict -/

def Verdict.act (env : PushEnv ρ) : Verdict ρ → PushM ρ (Bool × TransactionResult)
  | .failed e => do
    announce env .failed
    pure (false, ⟨none, some e⟩)
  | .retired exit outcome result => do
    modifyThe (PendingState ρ) (·.keep outcome)
    whenever (exit ≠ .executed) (announce env exit)
    pure (true, result)

namespace PendingState

variable (s : PendingState ρ) (σ τ : ChainState ρ)

@[simp] theorem append_append (rs rs' : List TransactionReceipt) (ms ms' as as' : List Digest) :
    (s.append rs ms as).append rs' ms' as' = s.append (rs ++ rs') (ms ++ ms') (as ++ as') := by
  simp only [append, List.append_assoc]

@[simp] theorem resize_append (rs : List TransactionReceipt) (ms as : List Digest) :
    resize s (s.append rs ms as) = s := by
  simp only [resize, append, List.take_left]

@[simp] theorem resize_self : resize s s = s := by
  simp only [resize, List.take_length]

@[simp] theorem resize_keep (o : Outcome ρ) : resize (s.write σ) (s.keep o) = s.write o.state := by
  simp only [resize, keep, append, write, List.take_left]

end PendingState

namespace PushEnv

variable (env : PushEnv ρ) (s : PendingState ρ)

/-- The state in which a session starts; where sessions are skipped, it does not change. -/
def entered : PendingState ρ := if env.skipDbSessions s = true then s else s.startSession

def released (t : PendingState ρ) : PendingState ρ :=
  if env.skipDbSessions s = true then t else t.squash

def dropped (t : PendingState ρ) : PendingState ρ :=
  if env.skipDbSessions s = true then t else t.undo

/-- What a dropped session leaves of a change of the chain state. -/
def undone (σ : ChainState ρ) : PendingState ρ :=
  if env.skipDbSessions s = true then s.write σ else s

variable {env : PushEnv ρ} {σ : ChainState ρ}

theorem undone_of_sessions {s : PendingState ρ}
    (hsessions : env.skipDbSessions s = false) : env.undone s σ = s :=
  if_neg (by simp [hsessions])

theorem undone_of_skip {s : PendingState ρ}
    (hskip : env.skipDbSessions s = true) : env.undone s σ = s.write σ :=
  if_pos hskip

theorem entered_current : (env.entered s).db.current = s.db.current := by
  unfold entered
  split <;> rfl

theorem released_session (rs : List TransactionReceipt) (ms as : List Digest) (σ : ChainState ρ) :
    env.released s (((env.entered s).append rs ms as).write σ) = (s.append rs ms as).write σ := by
  unfold released entered
  split
  · rfl
  · show { s.append rs ms as with db := (s.db.startUndoSession.write σ).squash } = _
    rw [squash_write_startUndoSession]
    rfl

/-- What the block has collected stays. -/
theorem dropped_session (rs : List TransactionReceipt) (ms as : List Digest) (σ : ChainState ρ) :
    env.dropped s (((env.entered s).append rs ms as).write σ)
      = (env.undone s σ).append rs ms as := by
  unfold dropped entered undone
  split
  · rfl
  · show { s.append rs ms as with db := (s.db.startUndoSession.write σ).undo } = _
    rw [undo_write_startUndoSession]
    rfl

theorem dropped_write (σ : ChainState ρ) :
    env.dropped s ((env.entered s).write σ) = env.undone s σ := by
  unfold dropped entered undone
  split
  · rfl
  · show { s with db := (s.db.startUndoSession.write σ).undo } = s
    rw [undo_write_startUndoSession]

theorem dropped_entered : env.dropped s (env.entered s) = s := by
  unfold dropped entered
  split
  · rfl
  · show { s with db := (s.db.startUndoSession.write s.db.current).undo } = s
    rw [undo_write_startUndoSession]

end PushEnv

namespace Controller

variable {env : PushEnv ρ} {s : PendingState ρ} {S : Type}

theorem modifyThe_apply {f : S → S} {s : S} :
    (modifyThe S f : EStateM Failure S PUnit) s = .ok () (f s) := rfl

theorem announce_apply (exit : Exit) :
    announce env exit s = match env.announced exit with
      | none => .ok () s
      | some e => .error e s := by
  unfold announce announced emit
  cases emitted _ with
  | none => cases emitted _ <;> rfl
  | some e => rfl

theorem announceInput_apply (trx : TransactionMetadata) :
    announceInput env trx s = match env.announcedInput trx with
      | none => .ok () s
      | some e => .error e s := by
  unfold announceInput announcedInput emit whenever
  cases trx.accepted with
  | true => cases emitted (env.appliedTransaction .executed) <;> rfl
  | false =>
    cases emitted _ with
    | none => cases emitted _ <;> rfl
    | some e => rfl

theorem require_apply {cond : Prop} [Decidable cond] {type : ExceptionType}
    {message : String} {s : S} :
    require cond type message s = match eosAssert cond type message with
      | .ok _ => .ok () s
      | .error e => .error e s := by
  unfold require compute
  cases eosAssert cond type message <;> rfl

section

variable (gto : GeneratedTransactionObject)

theorem collectScheduled_apply (status : TransactionStatus)
    (done : Executed) :
    collectScheduled gto status done s = match wholeWords done with
      | .ok _ =>
        let r := receiptOf (.generated gto.trxId) status done
        .ok r (s.append [r] [] done.executed)
      | .error e => .error e s := by
  unfold collectScheduled pushReceipt wholeWords
  simp only [bind_apply, require_apply]
  cases eosAssert (done.netUsage / 8 * 8 = done.netUsage) .transactionException
    "net_usage is not divisible by 8" with
  | error e => rfl
  | ok u =>
    simp only [modifyThe_apply, pure_apply, append_append]
    rfl

theorem collected_apply {exec : ContextM ρ Executed}
    {collect : Executed → PushM ρ (Bool × TransactionResult)} {ctx : TransactionContext} :
    (do let done ← inContext exec
        outer (restorePoint (collect done))) (s, ctx)
      = match exec (s.db.current, ctx) with
      | .error e (σ, ctx) => .error e (s.write σ, ctx)
      | .ok done (σ, ctx) =>
        match collect done (s.write σ) with
        | .ok (true, result) t => .ok result (t, ctx)
        | .ok (false, result) t => .ok result (.resize (s.write σ) t, ctx)
        | .error e t => .error e (.resize (s.write σ) t, ctx) := by
  rw [bind_apply]
  simp only [inContext, zoom]
  rcases exec _ with ⟨done, σ, ctx⟩ | ⟨e, σ, ctx⟩
  · simp only [outer, zoom, restorePoint, scope]
    rcases collect done _ with ⟨⟨_ | _, result⟩, t⟩ | ⟨e, t⟩ <;> rfl
  · rfl

theorem tryScheduled_apply (dtrx : Transaction)
    (ctx : TransactionContext) :
    tryScheduled env gto dtrx (s, ctx) = match env.trialScheduled dtrx (s.db.current, ctx) with
      | .ok done (σ, ctx) =>
        let r := receiptOf (.generated gto.trxId) .executed done
        .ok ⟨some r.header, none⟩ ((s.append [r] [] done.executed).write σ, ctx)
      | .error e (σ, ctx) => .error e (s.write σ, ctx) := by
  unfold tryScheduled trialScheduled
  rw [collected_apply, bind_apply]
  rcases executeScheduled env dtrx _ with ⟨done, σ, ctx⟩ | ⟨e, σ, ctx⟩
  · simp only [bind_apply, collectScheduled_apply, announce_apply, compute]
    cases wholeWords done with
    | error e => simp only [resize_self]
    | ok u =>
      cases env.announced .executed with
      | none => rfl
      | some e =>
        simp only [resize_append]
        rfl
  · rfl

theorem tryOnerror_apply (ctx : TransactionContext) :
    tryOnerror env gto (s, ctx) = match env.trialOnerror gto (s.db.current, ctx) with
      | .ok done (σ, ctx) =>
        let r := receiptOf (.generated gto.trxId) .softFail done
        .ok ⟨some r.header, none⟩ ((s.append [r] [] done.executed).write σ, ctx)
      | .error e (σ, ctx) => .error e (s.write σ, ctx) := by
  unfold tryOnerror trialOnerror
  rw [collected_apply, bind_apply]
  rcases executeOnerror env gto _ with ⟨done, σ, ctx⟩ | ⟨e, σ, ctx⟩
  · simp only [bind_apply, collectScheduled_apply, compute]
    cases wholeWords done with
    | error e => simp only [resize_self]
    | ok u => rfl
  · rfl

theorem collectInput_apply (trx : TransactionMetadata) (done : Executed) (σ : ChainState ρ) :
    collectInput trx done (s.write σ)
      = match (if trx.implicit = true then .ok () else wholeWords done) with
      | .ok _ => .ok (headerOfInput trx done) (s.keep (outcomeOfInput trx done σ))
      | .error e => .error e (s.write σ) := by
  unfold collectInput outcomeOfInput headerOfInput
  by_cases himplicit : trx.implicit = true
  · simp only [if_pos himplicit]
    rfl
  · simp only [if_neg himplicit, pushReceipt, wholeWords, bind_apply, require_apply]
    cases eosAssert (done.netUsage / 8 * 8 = done.netUsage) .transactionException
      "net_usage is not divisible by 8" with
    | error e => rfl
    | ok u =>
      simp only [modifyThe_apply, pure_apply, append_append]
      rfl

theorem tryInput_apply (trx : TransactionMetadata) (ctx : TransactionContext) :
    tryInput env trx (s, ctx) = match env.trialInput trx (s.db.current, ctx) with
      | .ok done (σ, ctx) => .ok ⟨some (headerOfInput trx done), none⟩
          (if env.keepsInput = true then s.keep (outcomeOfInput trx done σ) else s.write σ, ctx)
      | .error e (σ, ctx) => .error e (s.write σ, ctx) := by
  unfold tryInput trialInput
  rw [collected_apply, bind_apply]
  rcases executeInput env trx _ with ⟨done, σ, ctx⟩ | ⟨e, σ, ctx⟩
  · simp only [bind_apply, collectInput_apply, compute]
    cases (if trx.implicit = true then .ok () else wholeWords done) with
    | error e => simp only [resize_self]
    | ok u =>
      simp only [announceInput_apply]
      cases env.announcedInput trx with
      | none =>
        cases env.keepsInput with
        | true => rfl
        | false => exact congrArg (fun t => EStateM.Result.ok _ (t, ctx)) (s.resize_keep σ _)
      | some e =>
        simp only [resize_keep]
        rfl
  · rfl

theorem session_apply {x : PushM ρ (Bool × α)} :
    session env x s = match x (env.entered s) with
      | .ok (true, a) t => .ok a (env.released s t)
      | .ok (false, a) t => .ok a (env.dropped s t)
      | .error e t => .error e (env.dropped s t) := by
  unfold session scope entered released dropped
  split
  · rcases x s with ⟨⟨_ | _, a⟩, t⟩ | ⟨e, t⟩ <;> rfl
  · rcases x s.startSession with ⟨⟨_ | _, a⟩, t⟩ | ⟨e, t⟩ <;> rfl

/-- **An execution in a session.** Its chain state is kept with its receipt, or neither is. -/
theorem inSession_apply (hsessions : env.skipDbSessions s = false) {a : Attempt}
    {x : EStateM Failure (PendingState ρ × TransactionContext) TransactionResult}
    {trial : ContextM ρ Executed} {collected : Executed → TransactionReceipt}
    (hx : ∀ t : PendingState ρ, x (t, {}) = match trial (t.db.current, {}) with
      | .ok done (σ, ctx) => .ok ⟨some (collected done).header, none⟩
          ((t.append [collected done] [] done.executed).write σ, ctx)
      | .error e (σ, ctx) => .error e (t.write σ, ctx)) :
    inSession env a x s = match trial (s.db.current, {}) with
      | .ok done (σ, ctx) => .ok (.ok ⟨some (collected done).header, none⟩, ctx)
          (s.keep ⟨[collected done], [], done.executed, σ⟩)
      | .error e (σ, ctx) =>
        if e.isCaught = true then
          .ok (.error (e, updateBilledCpuTime env σ.configuration a), ctx) s
        else .error e s := by
  unfold inSession
  simp only [session_apply, bind_apply, tryExecute, hx, entered_current]
  rcases trial _ with ⟨done, σ, ctx⟩ | ⟨e, σ, ctx⟩
  · exact congrArg _ (env.released_session s _ _ _ σ)
  · have hundone : env.dropped s ((env.entered s).write σ) = s := by
      rw [dropped_write, undone_of_sessions hsessions]
    by_cases hcaught : e.isCaught = true
    · simp only [if_pos hcaught]
      exact congrArg _ hundone
    · simp only [if_neg hcaught, hundone]

/-! ## Verdicts -/

theorem pushReceipt_zero (trx : ReceiptSubject) (status : TransactionStatus) (cpuUsageUs : UInt32) :
    pushReceipt trx status cpuUsageUs.toUInt64 0 s
      = .ok ⟨trx, status, cpuUsageUs, 0⟩ (s.append [⟨trx, status, cpuUsageUs, 0⟩] [] []) := by
  unfold pushReceipt
  simp only [bind_apply, require_apply, eosAssert_of (show (0 : UInt64) / 8 * 8 = 0 by decide),
    modifyThe_apply, pure_apply, UInt32.toUInt32_toUInt64]
  rfl

theorem failScheduled_apply (ctx : TransactionContext)
    (e : Failure) (cpuTimeToBillUs : UInt32) :
    failScheduled env gto ctx e cpuTimeToBillUs s
      = match env.failVerdict gto ctx e cpuTimeToBillUs s.db.current with
      | .ok verdict => verdict.act env s
      | .error e => .error e s := by
  unfold failScheduled failVerdict
  by_cases hsubjective : env.subjective e = true
  · simp only [if_pos hsubjective]
    rfl
  · simp only [if_neg hsubjective, hardFail, bind_apply, compute]
    cases chargeHardFailure env ctx cpuTimeToBillUs s.db.current with
    | error e' => rfl
    | ok charged =>
      simp only [modifyThe_apply, pushReceipt_zero]
      rfl

end

theorem handleError_apply (hsessions : env.skipDbSessions s = false)
    (gto : GeneratedTransactionObject) (ctx : TransactionContext) :
    handleError env gto ctx s = match env.errorVerdict gto ctx s.db.current with
      | .ok verdict => verdict.act env s
      | .error e => .error e s := by
  unfold handleError errorVerdict
  rw [bind_apply, inSession_apply hsessions fun t => tryOnerror_apply gto {}]
  rcases env.trialOnerror gto _ with ⟨done, σ, ctx'⟩ | ⟨e, σ, ctx'⟩
  · rfl
  · by_cases hcaught : e.isCaught = true
    · simp only [if_pos hcaught]
      exact failScheduled_apply gto ctx e _
    · simp only [if_neg hcaught]

theorem retireScheduled_apply (hsessions : env.skipDbSessions s = false)
    (gto : GeneratedTransactionObject) (dtrx : Transaction) :
    retireScheduled env gto dtrx s = match env.retireVerdict gto dtrx s.db.current with
      | .ok verdict => verdict.act env s
      | .error e => .error e s := by
  unfold retireScheduled retireVerdict
  rw [bind_apply, inSession_apply hsessions fun t => tryScheduled_apply gto dtrx {}]
  rcases env.trialScheduled dtrx _ with ⟨done, σ, ctx⟩ | ⟨e, σ, ctx⟩
  · rfl
  · by_cases hcaught : e.isCaught = true
    · simp only [if_pos hcaught]
      by_cases hsender : gto.sender ≠ 0 ∧ env.subjective e = false
      · simp only [if_pos hsender]
        exact handleError_apply hsessions gto ctx
      · simp only [if_neg hsender]
        exact failScheduled_apply gto ctx e _
    · simp only [if_neg hcaught]

theorem act_apply (verdict : Verdict ρ) :
    verdict.act env s = match verdict with
      | .failed e =>
        match env.announced .failed with
        | none => .ok (false, ⟨none, some e⟩) s
        | some e' => .error e' s
      | .retired exit outcome result =>
        match env.announcedLate exit with
        | none => .ok (true, result) (s.keep outcome)
        | some e' => .error e' (s.keep outcome) := by
  cases verdict with
  | failed e =>
    simp only [Verdict.act, bind_apply, announce_apply]
    cases env.announced .failed <;> rfl
  | retired exit outcome result =>
    simp only [Verdict.act, bind_apply, modifyThe_apply, whenever, announcedLate]
    by_cases hexit : exit = .executed
    · simp only [hexit, ne_eq, not_true_eq_false, if_false, if_true]
      rfl
    · simp only [hexit, ne_eq, not_false_eq_true, if_true, if_false, announce_apply]
      cases env.announced exit <;> rfl

section

variable (gto : GeneratedTransactionObject)
include gto

theorem requiringChecks_apply (dtrx : Transaction) :
    requiringChecks (retireScheduled env gto dtrx) s
      = match env.retireVerdict gto dtrx s.db.current with
      | .ok verdict => verdict.act env s
      | .error e => .error e s := by
  unfold requiringChecks scope
  have hsessions : env.skipDbSessions { s with inTrxRequiringChecks := true } = false := by
    simp [skipDbSessions]
  simp only [bind_apply, retireScheduled_apply hsessions]
  cases env.retireVerdict gto dtrx s.db.current with
  | error e => rfl
  | ok verdict =>
    simp only [act_apply]
    cases verdict with
    | failed e =>
      cases env.announced .failed <;> rfl
    | retired exit outcome result =>
      dsimp only
      cases env.announcedLate exit <;> rfl

theorem settleScheduled_apply :
    settleScheduled env gto s = match env.settleVerdict gto s.db.current with
      | .ok verdict => verdict.act env s
      | .error e => .error e s := by
  unfold settleScheduled settleVerdict
  simp only [bind_apply, require_apply, compute]
  cases eosAssert (gto.delayUntil ≤ env.pendingBlockTime) .transactionException
    "this transaction isn't ready" with
  | error e => rfl
  | ok u =>
    cases env.unpack gto.packedTrx with
    | error e => rfl
    | ok dtrx =>
      simp only [ok_bind]
      by_cases hexpired : gto.expiration < env.pendingBlockTime
      · simp only [if_pos hexpired, expireScheduled, bind_apply, pushReceipt_zero, act_apply,
          announce_apply, announcedLate, reduceCtorEq, if_false]
        cases env.announced .expired <;> rfl
      · simp only [if_neg hexpired]
        exact requiringChecks_apply gto dtrx

theorem removal_apply :
    (do onChain (attempt fun σ => σ.removeScheduledTransaction gto)
        settleScheduled env gto) s
      = match s.db.current.removeScheduledTransaction gto with
      | .error e => .error e s
      | .ok σ =>
        match env.settleVerdict gto σ with
        | .error e => .error e (s.write σ)
        | .ok verdict => verdict.act env (s.write σ) := by
  simp only [bind_apply, onChain, zoom, attempt]
  cases s.db.current.removeScheduledTransaction gto with
  | error e => rfl
  | ok σ =>
    simp only [settleScheduled_apply]
    show (match env.settleVerdict gto σ with
      | .ok verdict => verdict.act env (s.write σ)
      | .error e => .error e (s.write σ)) = _
    cases env.settleVerdict gto σ <;> rfl

/-- **What `push_scheduled_transaction` leaves.** Where a signal throws after the receipt was pushed,
the session is undone and the receipt stays. -/
theorem pushScheduled_apply :
    pushScheduled env gto s = match env.removed gto s.db.current with
      | .error e => .error e s
      | .ok σ =>
        match env.settleVerdict gto σ with
        | .error e => .error e (env.undone s σ)
        | .ok (.failed e) =>
          match env.announced .failed with
          | none => .ok ⟨none, some e⟩ (env.undone s σ)
          | some e' => .error e' (env.undone s σ)
        | .ok (.retired exit outcome result) =>
          match env.announcedLate exit with
          | none => .ok result (s.keep outcome)
          | some e' => .error e' ((env.undone s outcome.state).append outcome.receipts outcome.metas
              outcome.actions) := by
  unfold pushScheduled removed
  simp only [bind_apply, require_apply]
  cases eosAssert (env.validating = true → env.explicitBilledCpuTime = true) .transactionException
    "validating requires explicit billing" with
  | error e => rfl
  | ok u =>
  simp only [ok_bind, session_apply, removal_apply, entered_current]
  cases s.db.current.removeScheduledTransaction gto with
  | error e => exact congrArg _ (env.dropped_entered s)
  | ok σ =>
  dsimp only
  cases env.settleVerdict gto σ with
  | error e => simp only [dropped_write]
  | ok verdict =>
  simp only [act_apply]
  cases verdict with
  | failed e =>
    cases env.announced .failed <;> simp only [dropped_write]
  | retired exit outcome result =>
    dsimp only
    cases env.announcedLate exit with
    | none => exact congrArg _ (env.released_session s _ _ _ _)
    | some e => exact congrArg _ (env.dropped_session s _ _ _ _)

end

theorem keepsInput_of_skip (hskip : env.skipDbSessions s = true) : env.keepsInput = true := by
  have hstatus : env.blockStatus = .irreversible := by
    simp only [skipDbSessions, decide_eq_true_eq] at hskip
    exact hskip.1
  simp [keepsInput, hstatus]

/-- **What `push_transaction` leaves.** -/
theorem pushTransaction_apply (trx : TransactionMetadata) :
    pushTransaction env trx s
      = match eosAssert (env.deadlineGiven = true) .transactionException
          "deadline cannot be uninitialized" with
      | .error e => .error e s
      | .ok _ =>
        match env.trialInput trx (s.db.current, {}) with
        | .ok done (σ, _) => .ok ⟨some (headerOfInput trx done), none⟩
            (if env.keepsInput = true then s.keep (outcomeOfInput trx done σ) else s)
        | .error e (σ, _) =>
          if e.isCaught = true then
            match env.announced .failed with
            | none => .ok ⟨none, some e⟩ (env.undone s σ)
            | some e' => .error e' (env.undone s σ)
          else .error e (env.undone s σ) := by
  unfold pushTransaction
  simp only [bind_apply, require_apply]
  cases eosAssert (env.deadlineGiven = true) .transactionException
    "deadline cannot be uninitialized" with
  | error e => rfl
  | ok u =>
  simp only [session_apply, bind_apply, tryExecute, tryInput_apply, entered_current]
  rcases env.trialInput trx _ with ⟨done, σ, ctx⟩ | ⟨e, σ, ctx⟩
  · dsimp only
    cases hkeeps : env.keepsInput with
    | true => exact congrArg _ (env.released_session s _ _ _ _)
    | false =>
      have hsessions : env.skipDbSessions s = false :=
        Bool.eq_false_iff.2 fun hskip => by simp [keepsInput_of_skip hskip] at hkeeps
      refine congrArg _ ((env.dropped_write s σ).trans ?_)
      exact undone_of_sessions hsessions
  · dsimp only
    by_cases hcaught : e.isCaught = true
    · simp only [if_pos hcaught, announce_apply, bind_apply]
      cases env.announced .failed with
      | none | some e' => exact congrArg _ (env.dropped_write s σ)
    · simp only [if_neg hcaught, dropped_write]

/-- **A call extends the block**, however it ends. -/
theorem push_extends :
    let Kept := fun t => ∃ o, t = s.keep o
    (∀ trx, Ends (pushTransaction env trx) s (fun _ => Kept) fun _ => Kept)
      ∧ (∀ gto, Ends (pushScheduled env gto) s (fun _ => Kept) fun _ => Kept)
      ∧ ∀ trxId, Ends (pushScheduledTransaction env trxId) s (fun _ => Kept) fun _ => Kept := by
  intro Kept
  have hundone rs ms as σ : Kept ((env.undone s σ).append rs ms as) := by
    unfold undone
    split <;> exact ⟨⟨rs, ms, as, _⟩, rfl⟩
  have hnil t : Kept (append t [] [] []) → Kept t := by simp [append]
  have hself := hnil s ⟨⟨[], [], [], _⟩, rfl⟩
  have hplain σ := hnil _ (hundone [] [] [] σ)
  have hscheduled gto : Ends (pushScheduled env gto) s (fun _ => Kept) fun _ => Kept := by
    rw [Ends, pushScheduled_apply]
    grind
  refine ⟨fun trx => ?_, hscheduled, fun trxId => ?_⟩
  · rw [Ends, pushTransaction_apply]
    grind
  · unfold pushScheduledTransaction
    rw [ends_bind, ends_getThe]
    split
    · exact hscheduled _
    · exact hself

end Controller

/-! ## What `init` leaves -/

section Context

variable {env : PushEnv ρ} {σ : ChainState ρ} {dtrx : Transaction}

/-- What `init` has set before anything of the transaction fails. -/
def Initialized (σ : ChainState ρ) (dtrx : Transaction) (ctx : TransactionContext) : Prop :=
  ctx.initialObjectiveDurationLimit = objectiveDurationLimit σ dtrx
    ∧ (ctx.billToAccounts.entries = [] ∨ ∃ a, ctx.billToAccounts.entries = [a])

theorem ends_init (a : Attempt) :
    Ends (TransactionContext.init env a dtrx) (σ, {})
      (fun _ t => t.1.rest = σ.rest ∧ Initialized σ dtrx t.2) fun _ t => Initialized σ dtrx t.2 := by
  unfold TransactionContext.init
  rw [ends_bind, ends_modifyThe, ends_bind, ends_fallible]
  cases env.billingCheck a with
  | some e => exact ⟨rfl, .inl rfl⟩
  | none =>
    unfold outer
    simp only [ends_bind, ends_modifyThe, ends_getThe, ends_zoom, ends_attempt]
    have hinit : Initialized σ dtrx
        ⟨Table.empty.insert dtrx.firstAuthorizer, objectiveDurationLimit σ dtrx⟩ :=
      ⟨rfl, .inr ⟨_, rfl⟩⟩
    split
    · next σ' hupdate =>
      obtain ⟨resources, -, hok⟩ := bind_eq_ok.1 hupdate
      cases hok
      rw [ends_fallible]
      cases env.limitChecks a with
      | none => exact ⟨rfl, hinit⟩
      | some e => exact hinit
    · exact hinit

end Context

end PotatoNode.Chain
