import PotatoNode.Chain.BlockHeader
import PotatoNode.Chain.TransactionContext

/-!
# Pushing transactions (`controller.cpp`)

`push_transaction` executes an input transaction in the pending block, `push_scheduled_transaction`
retires a generated one: it is executed, or its sender is told that it failed, or it is billed and
dropped, or it has expired. A session of the database is an object that is squashed, or undone when
its scope is left; a restore point is one that resets what the block has collected unless it is
cancelled.
-/

namespace PotatoNode.Chain

open Lib Chainbase TransactionContext

/-! ## The pending block -/

/-- What a receipt is for: a `packed_transaction`, here by its id, or the id of a generated one. -/
inductive ReceiptSubject where
  | packed (id : Digest)
  | generated (id : Digest)
deriving DecidableEq, Repr

structure TransactionReceiptHeader where
  status : TransactionStatus
  cpuUsageUs : UInt32
  netUsageWords : UInt32
deriving DecidableEq, Repr

structure TransactionReceipt where
  trx : ReceiptSubject
  header : TransactionReceiptHeader
deriving DecidableEq, Repr

/-- What a `building_block` collects of its transactions. -/
structure BlockTransactions where
  pendingTrxReceipts : List TransactionReceipt
  /-- `_pending_trx_metas`, by the ids -/
  pendingTrxMetas : List Digest
  /-- the action receipts -/
  actions : List Digest
deriving DecidableEq, Repr

/-- The chain state with its sessions, and the pending block. -/
structure PendingState (ρ : Type) where
  db : Versioned (ChainState ρ)
  transactions : BlockTransactions
  inTrxRequiringChecks : Bool := false

abbrev PushM (ρ : Type) := EStateM Failure (PendingState ρ)

variable {ρ α : Type}

namespace PendingState

variable (s : PendingState ρ)

def write (σ : ChainState ρ) : PendingState ρ := { s with db := s.db.write σ }

def append (receipts : List TransactionReceipt) (metas actions : List Digest) : PendingState ρ :=
  { s with transactions :=
    { pendingTrxReceipts := s.transactions.pendingTrxReceipts ++ receipts
      pendingTrxMetas := s.transactions.pendingTrxMetas ++ metas
      actions := s.transactions.actions ++ actions } }

/-- A session of the database is opened, squashed or undone. -/
def startSession : PendingState ρ := { s with db := s.db.startUndoSession }

@[inherit_doc startSession]
def squash : PendingState ρ := { s with db := s.db.squash }

@[inherit_doc startSession]
def undo : PendingState ρ := { s with db := s.db.undo }

/-- The callback of `make_block_restore_point`, for the sizes of `t`. -/
def resize (t s : PendingState ρ) : PendingState ρ :=
  { s with transactions :=
    { pendingTrxReceipts :=
        s.transactions.pendingTrxReceipts.take t.transactions.pendingTrxReceipts.length
      pendingTrxMetas := s.transactions.pendingTrxMetas.take t.transactions.pendingTrxMetas.length
      actions := s.transactions.actions.take t.transactions.actions.length } }

end PendingState

def PushEnv.skipDbSessions (env : PushEnv ρ) (s : PendingState ρ) : Bool :=
  env.blockStatus = .irreversible ∧ env.disableReplayOpts = false ∧ s.inTrxRequiringChecks = false

structure TransactionMetadata where
  id : Digest
  trx : Transaction
  implicit : Bool := false
  accepted : Bool := false

/-- Is an executed input transaction kept? -/
def PushEnv.keepsInput (env : PushEnv ρ) : Bool :=
  ¬ (env.readMode ≠ .speculative ∧ env.blockStatus = .incomplete)

/-- `transaction_trace`, as far as it says how the transaction ended. -/
structure TransactionResult where
  receipt : Option TransactionReceiptHeader
  except : Option Failure
deriving DecidableEq, Repr

/-- What an execution came to: what it returns, or the exception that was caught and the cpu time to
bill for it, and the context. -/
abbrev Tried (α : Type) := Except (Failure × UInt32) α × TransactionContext

/-! ## Failures -/

/-- Does the handler of an execution catch it? An exception that makes the block bad is thrown on. -/
def Failure.isCaught : Failure → Bool
  | .exception e => e.type ≠ .disallowedTransactionExtensionsBadBlockException
  | _ => false

def Failure.isSubjective : Failure → Bool
  | .exception e => e.type ∈ [.subjectiveBlockProductionException, .blockNetUsageExceeded,
      .greylistNetUsageExceeded, .blockCpuUsageExceeded, .greylistCpuUsageExceeded,
      .deadlineException, .leewayDeadlineException, .actorAllowlistException,
      .actorDenylistException, .contractAllowlistException, .contractDenylistException,
      .actionDenylistException, .keyDenylistException, .sigVariableSizeLimitException,
      .inlineActionTooBigNonprivileged]
  | _ => false

def Failure.isSubjectiveScheduled : Failure → Bool
  | .exception e => e.type = .txCpuUsageExceeded || Failure.isSubjective (.exception e)
  | _ => false

def PushEnv.subjective (env : PushEnv ρ) (e : Failure) : Bool :=
  if env.validating = true then e.isSubjective else e.isSubjectiveScheduled

/-! ## Scopes -/

namespace Controller

def onChain (x : EStateM Failure (ChainState ρ) α) : PushM ρ α :=
  zoom (·.db.current) PendingState.write x

/-- `make_block_restore_point`, for the rest of its scope. -/
def restorePoint (x : PushM ρ (Bool × α)) : PushM ρ α := fun s => scope id (.resize s) x s

variable (env : PushEnv ρ)

def session (x : PushM ρ (Bool × α)) : PushM ρ α := fun s =>
  if env.skipDbSessions s = true then scope id id x s
  else scope PendingState.squash PendingState.undo x s.startSession

def requiringChecks (x : PushM ρ α) : PushM ρ α := fun s =>
  let reset (t : PendingState ρ) := { t with inTrxRequiringChecks := s.inTrxRequiringChecks }
  scope reset reset (do pure (true, ← x)) { s with inTrxRequiringChecks := true }

def pushReceipt (trx : ReceiptSubject) (status : TransactionStatus) (cpuUsageUs netUsage : UInt64) :
    PushM ρ TransactionReceipt := do
  let netUsageWords := netUsage / 8
  require (netUsageWords * 8 = netUsage) .transactionException "net_usage is not divisible by 8"
  let r : TransactionReceipt := ⟨trx, status, cpuUsageUs.toUInt32, netUsageWords.toUInt32⟩
  modifyThe (PendingState ρ) fun s => s.append [r] [] []
  pure r

def announce (exit : Exit) : PushM ρ Unit := do
  emit (env.acceptedTransaction exit)
  emit (env.appliedTransaction exit)

/-- The `try` of an execution. The context is a local variable, and the time to bill is read when an
exception is caught. -/
def tryExecute (a : Attempt)
    (x : EStateM Failure (PendingState ρ × TransactionContext) α) : PushM ρ (Tried α) := fun s =>
  match x (s, {}) with
  | .ok result (t, ctx) => .ok (.ok result, ctx) t
  | .error e (t, ctx) =>
    if e.isCaught = true then
      .ok (.error (e, updateBilledCpuTime env t.db.current.configuration a), ctx) t
    else .error e t

def inContext (x : ContextM ρ α) : EStateM Failure (PendingState ρ × TransactionContext) α :=
  zoom (fun (s, ctx) => (s.db.current, ctx)) (fun (s, _) (σ, ctx) => (s.write σ, ctx)) x

/-! ## Input transactions -/

section

variable (trx : TransactionMetadata)

def executeInput : ContextM ρ Executed := do
  if trx.implicit = true then initForImplicitTrx env .transaction trx.trx
  else initForInputTrx env trx.trx
  fallible env.authorization
  outer (env.execute .transaction)

/-- What the block collects of an executed input transaction. The receipt of an implicit one is only
returned. -/
def collectInput (done : Executed) : PushM ρ TransactionReceiptHeader := do
  if trx.implicit = true then
    modifyThe (PendingState ρ) fun s => s.append [] [] done.executed
    pure ⟨.executed, done.billedCpuTimeUs.toUInt32, (done.netUsage / 8).toUInt32⟩
  else do
    let status := if trx.trx.delaySec = 0 then TransactionStatus.executed else .delayed
    let r ← pushReceipt (.packed trx.id) status done.billedCpuTimeUs done.netUsage
    modifyThe (PendingState ρ) fun s => s.append [] [trx.id] done.executed
    pure r.header

def announceInput : PushM ρ Unit := do
  -- call the accept signal but only once for this transaction
  whenever (trx.accepted = false) (emit (env.acceptedTransaction .executed))
  emit (env.appliedTransaction .executed)

def tryInput : EStateM Failure (PendingState ρ × TransactionContext) TransactionResult := do
  let done ← inContext (executeInput env trx)
  outer (restorePoint do
    let receipt ← collectInput trx done
    announceInput env trx
    pure (env.keepsInput, ⟨some receipt, none⟩))

def pushTransaction : PushM ρ TransactionResult := do
  require (env.deadlineGiven = true) .transactionException "deadline cannot be uninitialized"
  session env do
    let (result, _) ← tryExecute env .transaction (tryInput env trx)
    match result with
    | .ok trace => pure (env.keepsInput, trace)
    | .error (e, _) => do
      announce env .failed
      pure (false, ⟨none, some e⟩)

end

/-! ## Generated transactions -/

/-- The execution of a generated transaction, up to `finalize`. -/
def executeScheduled (dtrx : Transaction) : ContextM ρ Executed := do
  initForDeferredTrx env dtrx
  fallible env.actorList
  outer (env.execute .transaction)

section

variable (gto : GeneratedTransactionObject)

def collectScheduled (status : TransactionStatus) (done : Executed) : PushM ρ TransactionReceipt := do
  let r ← pushReceipt (.generated gto.trxId) status done.billedCpuTimeUs done.netUsage
  modifyThe (PendingState ρ) fun s => s.append [] [] done.executed
  pure r

def tryScheduled (dtrx : Transaction) :
    EStateM Failure (PendingState ρ × TransactionContext) TransactionResult := do
  let done ← inContext (executeScheduled env dtrx)
  outer (restorePoint do
    let r ← collectScheduled gto .executed done
    announce env .executed
    pure (true, ⟨some r.header, none⟩))

/-- `etrx`, in `apply_onerror`. -/
def onerrorTransaction : Transaction := { actions := [[gto.sender]] }

def executeOnerror : ContextM ρ Executed := do
  initForImplicitTrx env .onerror (onerrorTransaction gto)
  outer (env.execute .onerror)

/-- The `try` block of `apply_onerror`. -/
def tryOnerror : EStateM Failure (PendingState ρ × TransactionContext) TransactionResult := do
  let done ← inContext (executeOnerror env gto)
  outer (restorePoint do
    let r ← collectScheduled gto .softFail done
    pure (true, ⟨some r.header, none⟩))

def inSession (a : Attempt)
    (x : EStateM Failure (PendingState ρ × TransactionContext) TransactionResult) :
    PushM ρ (Tried TransactionResult) :=
  session env do
    let tried ← tryExecute env a x
    pure (tried.1.toBool, tried)

def limitedCpuTime (rl : ResourceLimitsManager) (ctx : TransactionContext)
    (cpuTimeToBillUs : UInt32) : Result UInt32 := do
  let (_, accountCpuLimit) ← maxBandwidthBilledAccountsCanPay rl ctx.billToAccounts
  let limited : UInt32 := .ofInt (min (min (cpuTimeToBillUs.toNat : Int) accountCpuLimit)
    ctx.initialObjectiveDurationLimit)
  eosAssert (env.explicitBilledCpuTime = true → cpuTimeToBillUs = limited) .transactionException
    "cpu to bill ${cpu} != limited ${limit}"
  .ok limited

def hardFailureBill (rl : ResourceLimitsManager) (ctx : TransactionContext)
    (cpuTimeToBillUs : UInt32) : Result (UInt32 × ResourceLimitsManager) :=
  if env.validating = true then .ok (cpuTimeToBillUs, rl)
  else do
    let rl ← rl.updateAccountUsage .wrapping ctx.billToAccounts env.slot.toNat
    let limited ← limitedCpuTime env rl ctx cpuTimeToBillUs
    .ok (limited, rl)

section

variable (ctx : TransactionContext)

def chargeHardFailure (cpuTimeToBillUs : UInt32)
    (σ : ChainState ρ) : Result (UInt32 × ChainState ρ) := do
  let (cpuTimeToBillUs, rl) ← hardFailureBill env σ.resources ctx cpuTimeToBillUs
  -- should never fail
  let resources ← rl.addTransactionUsage .wrapping ctx.billToAccounts cpuTimeToBillUs.toNat 0
    env.slot.toNat
  .ok (cpuTimeToBillUs, { σ with resources })

def hardFail (e : Failure) (cpuTimeToBillUs : UInt32) : PushM ρ (Bool × TransactionResult) := do
  let (cpuTimeToBillUs, σ) ← compute fun s => chargeHardFailure env ctx cpuTimeToBillUs s.db.current
  modifyThe (PendingState ρ) (·.write σ)
  let r ← pushReceipt (.generated gto.trxId) .hardFail cpuTimeToBillUs.toUInt64 0
  announce env .hardFail
  pure (true, ⟨some r.header, some e⟩)

/-- A failure that is neither handled by the sender nor retired by it. -/
def failScheduled (e : Failure) (cpuTimeToBillUs : UInt32) : PushM ρ (Bool × TransactionResult) :=
  if env.subjective e = true then do
    announce env .failed
    pure (false, ⟨none, some e⟩)
  else hardFail env gto ctx e cpuTimeToBillUs

def handleError : PushM ρ (Bool × TransactionResult) := do
  let (result, _) ← inSession env .onerror (tryOnerror env gto)
  match result with
  | .ok trace => do
    announce env .softFail
    pure (true, trace)
  | .error (e, cpuTimeToBillUs) => failScheduled env gto ctx e cpuTimeToBillUs

end

def retireScheduled (dtrx : Transaction) : PushM ρ (Bool × TransactionResult) := do
  let (result, ctx) ← inSession env .transaction (tryScheduled env gto dtrx)
  match result with
  | .ok trace => pure (true, trace)
  | .error (e, cpuTimeToBillUs) =>
    if gto.sender ≠ 0 ∧ env.subjective e = false then handleError env gto ctx
    else failScheduled env gto ctx e cpuTimeToBillUs

def expireScheduled : PushM ρ (Bool × TransactionResult) := do
  let r ← pushReceipt (.generated gto.trxId) .expired env.billedCpuTimeUs.toUInt64 0
  announce env .expired
  pure (true, ⟨some r.header, none⟩)

def settleScheduled : PushM ρ (Bool × TransactionResult) := do
  require (gto.delayUntil ≤ env.pendingBlockTime) .transactionException
    "this transaction isn't ready"
  let dtrx ← compute fun _ => env.unpack gto.packedTrx
  if gto.expiration < env.pendingBlockTime then expireScheduled env gto
  else requiringChecks (retireScheduled env gto dtrx)

def pushScheduled : PushM ρ TransactionResult := do
  require (env.validating = true → env.explicitBilledCpuTime = true) .transactionException
    "validating requires explicit billing"
  session env do
    onChain (attempt fun σ => σ.removeScheduledTransaction gto)
    settleScheduled env gto

end

def pushScheduledTransaction (trxId : Digest) : PushM ρ TransactionResult := do
  let s ← getThe (PendingState ρ)
  match find s.db.current.generatedTransactions (·.trxId = trxId) with
  | some gto => pushScheduled env gto
  | none => throw (.exception ⟨.unknownTransactionException, "unknown transaction"⟩)

end Controller

end PotatoNode.Chain
