import PotatoNode.Lib.LittleEndian
import PotatoNode.Chainbase.Evolution
import PotatoNode.Chain.AuthorizationManager
import PotatoNode.Chain.Controller
import PotatoNode.Chain.ElasticLimits

/-!
# The context of a transaction (`transaction_context.cpp`, `generated_transaction_object.hpp`)

A transaction is executed in a context that decides which account is billed for it and how long it
may take. What contracts do is not modelled: a `PushEnv` says for each execution how it changes the
chain state and how it ends, what the checks that read the clock throw, and what the handlers of
signals throw. Every call has its own `PushEnv`.
-/

namespace PotatoNode.Chain

open Lib Chainbase
open Chain.Controller (fallible require)

/-! ## Transactions -/

/-- `transaction`, as far as the context and the controller read it. -/
structure Transaction where
  /-- the actors that authorize each action -/
  actions : List (List AccountName)
  expiration : UInt32 := 0
  delaySec : UInt32 := 0
  maxCpuUsageMs : UInt8 := 0
  /-- are there `transaction_extensions`? -/
  hasExtensions : Bool := false

def Transaction.firstAuthorizer (trx : Transaction) : AccountName := trx.actions.flatten.headD 0

structure GeneratedTransactionObject where
  id : Int
  trxId : Digest
  sender : AccountName
  senderId : Nat
  payer : AccountName
  delayUntil : Nat
  expiration : Nat
  published : Nat
  packedTrx : Bytes
deriving DecidableEq

instance : ValueType GeneratedTransactionObject where
  id o := o.id
  clash a b := a.trxId = b.trxId ∨ a.sender = b.sender ∧ a.senderId = b.senderId
  clash_comm a b := by simp only [eq_comm]

def generatedTransactionObjectBillableSize : Nat :=
  billableSizeV (96 + 4 + overheadPerRowPerIndexRamBytes * 5)

structure ChainState (ρ : Type) where
  configuration : ChainConfig
  resources : ResourceLimitsManager
  generatedTransactions : GenericIndex GeneratedTransactionObject
  rest : ρ

namespace ChainState

variable {ρ : Type}

def withResources (σ : ChainState ρ) (f : ResourceLimitsManager → Result ResourceLimitsManager) :
    Result (ChainState ρ) := do
  let resources ← f σ.resources
  .ok { σ with resources }

def removeScheduledTransaction (σ : ChainState ρ) (gto : GeneratedTransactionObject) :
    Result (ChainState ρ) := do
  let ramDelta : Int := -(generatedTransactionObjectBillableSize + gto.packedTrx.length)
  let accounts ← σ.resources.accounts.addPendingRamUsage gto.payer ramDelta
  let generatedTransactions ← remove σ.generatedTransactions gto.id
  .ok { σ with resources := { σ.resources with accounts }, generatedTransactions }

end ChainState

/-! ## What a call depends on -/

/-- The executions in one call: of the transaction itself and of the `onerror` action. -/
inductive Attempt where
  | transaction
  | onerror
deriving DecidableEq, Repr

/-- The ends of a call, each of which emits the two signals at most once. -/
inductive Exit where
  | executed
  | softFail
  | hardFail
  | expired
  /-- no receipt -/
  | failed
deriving DecidableEq, Repr

/-- What a finished execution leaves in the context and its trace. -/
structure Executed where
  billedCpuTimeUs : UInt64
  netUsage : UInt64
  /-- the action receipts -/
  executed : List Digest

/-- What pushing a transaction depends on during one call. -/
structure PushEnv (ρ : Type) where
  /-- `pending->_block_status` -/
  blockStatus : BlockStatus
  readMode : DbReadMode
  disableReplayOpts : Bool := false
  /-- in microseconds -/
  pendingBlockTime : Nat
  /-- `block_timestamp_type( pending_block_time() ).slot` -/
  slot : UInt32
  deadlineGiven : Bool := true
  explicitBilledCpuTime : Bool := false
  billedCpuTimeUs : UInt32 := 0
  /-- `fc::raw::unpack` of a generated transaction -/
  unpack : Bytes → Result Transaction
  /-- what the checks of an input transaction throw: expiration, TaPoS, referenced accounts -/
  inputChecks : Option Failure := none
  /-- what `validate_cpu_usage_to_bill` throws in `init` -/
  billingCheck : Attempt → Option Failure := fun _ => none
  /-- what the checks in `init` of limits and of the deadline throw -/
  limitChecks : Attempt → Option Failure := fun _ => none
  /-- `record_transaction` -/
  recordTransaction : EStateM Failure ρ Unit := pure ()
  /-- what `check_authorization` throws, where it is called -/
  authorization : Option Failure := none
  /-- what `check_actor_list` throws, where it is called -/
  actorList : Option Failure := none
  /-- `exec`, or `execute_action` for `onerror`, and `finalize` -/
  execute : Attempt → EStateM Failure (ChainState ρ) Executed
  /-- `now - pseudo_start` in the handler of an exception -/
  elapsed : Attempt → Int := fun _ => 0
  /-- what the handlers of the signals throw -/
  acceptedTransaction : Exit → Option Failure := fun _ => none
  appliedTransaction : Exit → Option Failure := fun _ => none
  /-- Generated transactions are created and removed, and ids are not given out twice. -/
  execute_evolved : ∀ {a σ done σ'}, execute a σ = .ok done σ' →
    Evolved (· = ·) σ.generatedTransactions σ'.generatedTransactions

namespace PushEnv

variable {ρ : Type} (env : PushEnv ρ)

def isProducingBlock : Bool := env.blockStatus = .incomplete

/-- `validating`, in `push_scheduled_transaction`. -/
def validating : Bool := !env.isProducingBlock

end PushEnv

/-! ## The context -/

/-- `transaction_context`, as far as the controller reads it when an execution has failed. -/
structure TransactionContext where
  billToAccounts : FlatSet AccountName := Table.empty
  initialObjectiveDurationLimit : Int := 0

def ResourceLimitsManager.getBlockCpuLimit (m : ResourceLimitsManager) : Nat :=
  (m.config.cpuLimitParameters.max + 2 ^ 64 - m.state.pendingCpuUsage) % 2 ^ 64

namespace TransactionContext

variable {ρ : Type}

abbrev ContextM (ρ : Type) := EStateM Failure (ChainState ρ × TransactionContext)

variable (env : PushEnv ρ)

def disallowTransactionExtensions (errorMsg : String) : ContextM ρ Unit :=
  throw (.exception ⟨if env.isProducingBlock then .subjectiveBlockProductionException
    else .disallowedTransactionExtensionsBadBlockException, errorMsg⟩)

/-- The objective limit on the duration, in `init`: what is left of the block, the configured maximum
or that of the transaction header. -/
def objectiveDurationLimit (σ : ChainState ρ) (trx : Transaction) : Int :=
  let block : Int := Int.bmod σ.resources.getBlockCpuLimit (2 ^ 64)
  let configured : Int := σ.configuration.maxTransactionCpuUsage.toNat
  let limit := if configured ≤ block then configured else block
  let specified : Int := trx.maxCpuUsageMs.toNat * 1000
  if 0 < specified ∧ specified ≤ limit then specified else limit

def init (a : Attempt) (trx : Transaction) : ContextM ρ Unit := do
  modifyThe (ChainState ρ × TransactionContext) fun (σ, ctx) =>
    (σ, { ctx with initialObjectiveDurationLimit := objectiveDurationLimit σ trx })
  -- fail early if the amount to be billed is too high
  fallible (env.billingCheck a)
  modifyThe (ChainState ρ × TransactionContext) fun (σ, ctx) =>
    (σ, { ctx with billToAccounts := ctx.billToAccounts.insert trx.firstAuthorizer })
  let (_, ctx) ← getThe (ChainState ρ × TransactionContext)
  outer (attempt fun σ => σ.withResources fun rl =>
    rl.updateAccountUsage .wrapping ctx.billToAccounts env.slot.toNat)
  fallible (env.limitChecks a)

def initForImplicitTrx (a : Attempt) (trx : Transaction) : ContextM ρ Unit := do
  whenever (trx.hasExtensions = true) (disallowTransactionExtensions env
    "no transaction extensions supported yet for implicit transactions")
  init env a trx

def initForInputTrx (trx : Transaction) : ContextM ρ Unit := do
  whenever (trx.hasExtensions = true) (disallowTransactionExtensions env
    "no transaction extensions supported yet for input transactions")
  fallible env.inputChecks
  init env .transaction trx
  outer (zoom (·.rest) (fun σ rest => { σ with rest }) env.recordTransaction)

def initForDeferredTrx (trx : Transaction) : ContextM ρ Unit := do
  whenever (trx.expiration ≠ 0 ∧ trx.hasExtensions = true) (disallowTransactionExtensions env
    "no transaction extensions supported yet for deferred transactions")
  init env .transaction trx

def updateBilledCpuTime (cfg : ChainConfig) (a : Attempt) : UInt32 :=
  if env.explicitBilledCpuTime then env.billedCpuTimeUs
  else .ofInt (max (env.elapsed a) cfg.minTransactionCpuUsage.toNat)

def largeNumberNoOverflow : Int := (2 ^ 63 - 1) / 2

def lowerLimit (limits : Int × Bool) (limit : Int × Bool) : Int × Bool :=
  if 0 ≤ limit.1 then (min limits.1 limit.1, limits.2 || limit.2) else limits

/-- One account in the loop of `max_bandwidth_billed_accounts_can_pay( true )`. -/
def lowerLimits (rl : ResourceLimitsManager) (limits : (Int × Bool) × (Int × Bool))
    (a : AccountName) : Result ((Int × Bool) × (Int × Bool)) := do
  let net ← rl.getAccountNetLimit .wrapping a maximumElasticResourceMultiplier
  let cpu ← rl.getAccountCpuLimit .wrapping a maximumElasticResourceMultiplier
  .ok (lowerLimit limits.1 net, lowerLimit limits.2 cpu)

def maxBandwidthBilledAccountsCanPay (rl : ResourceLimitsManager)
    (billToAccounts : FlatSet AccountName) : Result (Int × Int) := do
  let (net, cpu) ← billToAccounts.entries.foldlM (lowerLimits rl)
    ((largeNumberNoOverflow, false), (largeNumberNoOverflow, false))
  eosAssert (cpu.2 = false ∧ net.2 = false) .transactionException "greylisted when not producing block"
  .ok (net.1, cpu.1)

end TransactionContext

end PotatoNode.Chain
