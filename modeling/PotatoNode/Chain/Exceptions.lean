import PotatoNode.Lib.Imperative

/-!
# Exceptions and failures

The ways in which a call of the chain library ends other than by returning. `EOS_ASSERT` and
`EOS_THROW` raise an exception class of `exceptions.hpp` with a format text; allocation
failures are raised by the C++ runtime and are not `fc::exception`s, which matters to the
`catch` clauses of the controller. Reading outside a container has no defined result in the
source, and neither has a loop that does not end: the model says so instead of inventing one.
-/

namespace PotatoNode.Chain

/-- The exception classes of `exceptions.hpp` that the modelled functions raise. -/
inductive ExceptionType where
  | blockValidateException
  | unlinkableBlockException
  | producerDoubleConfirm
  | wrongProducer
  | producerScheduleException
  | invalidBlockHeaderExtension
  | unpackException
  | noBlockSignatures
  | wrongSigningKey
  | signatureException
  | wasmExecutionError
  | unactivatedKeyType
  | forkDatabaseException
  | forkDbBlockNotFound
  | databaseException
  | reversibleBlocksException
  | blockLogException
  | blockLogAppendFail
  | blockLogUnsupportedVersion
  | controllerEmitSignalException
  | executionException
  | unsatisfiedAuthorization
  | txIrrelevantSig
  | actionValidateException
  | accountNameExistsException
  | accountQueryException
  | permissionQueryException
  | invalidPermission
  | missingAuthException
  | keyDenylistException
  | transactionException
  | ramUsageExceeded
  | pluginException
  | tableNotInCache
  | invalidTableIterator
  | tableOperationNotPermitted
  | tableAccessViolation
  | invalidTablePayer
  | rateLimitingStateInconsistent
  | resourceLimitException
  | blockResourceExhausted
  | txCpuUsageExceeded
  | txNetUsageExceeded
  | txDuplicate
  | expiredTxException
  | txExpTooFarException
  | unknownTransactionException
  | deferredTxDuplicate
  | disallowedTransactionExtensionsBadBlockException
  | subjectiveBlockProductionException
  | blockNetUsageExceeded
  | greylistNetUsageExceeded
  | blockCpuUsageExceeded
  | greylistCpuUsageExceeded
  | deadlineException
  | leewayDeadlineException
  | actorAllowlistException
  | actorDenylistException
  | contractAllowlistException
  | contractDenylistException
  | actionDenylistException
  | sigVariableSizeLimitException
  | inlineActionTooBigNonprivileged
  | eosioAssertMessageException
  | nameTypeException
  | abiException
  | invalidTypeInsideAbi
  | duplicateAbiTypeDefException
  | duplicateAbiStructDefException
  | duplicateAbiActionDefException
  | duplicateAbiTableDefException
  | duplicateAbiErrMsgDefException
  | duplicateAbiVariantDefException
  | abiRecursionDepthException
  | abiCircularDefException
  | packException
  | unsupportedAbiVersionException
  | snapshotException
  /-- of `fc`, like the three that follow -/
  | assertException
  | badCastException
  | keyNotFoundException
  | outOfRangeException
deriving DecidableEq, Repr

/-- An `fc::exception`: its class and the format text of its message. -/
structure ChainException where
  type : ExceptionType
  message : String
deriving DecidableEq, Repr

inductive Failure where
  /-- an `fc::exception` -/
  | exception (e : ChainException)
  /-- `std::bad_alloc` or `boost::interprocess::bad_alloc` -/
  | badAlloc
  /-- another exception of the standard library, such as `std::logic_error` -/
  | stdException (message : String)
  /-- `std::abort` -/
  | abort
  /-- an element of an empty container, or past its end, is read -/
  | undefinedBehaviour
  /-- a loop that never reaches its end -/
  | divergence
deriving DecidableEq, Repr

abbrev Result (α : Type) := Except Failure α

def eosThrow {α : Type} (type : ExceptionType) (message : String) : Result α :=
  .error (.exception ⟨type, message⟩)

def eosAssert (cond : Prop) [Decidable cond] (type : ExceptionType) (message : String) :
    Result Unit :=
  if cond then .ok () else eosThrow type message

variable {cond : Prop} {type : ExceptionType} {message : String}

theorem eosAssert_of [Decidable cond] (h : cond) : eosAssert cond type message = .ok () := if_pos h

theorem meets_assert [Decidable cond] {Q : Unit → Prop} {E : Failure → Prop} (h : cond → Q ())
    (he : ¬ cond → E (.exception ⟨type, message⟩)) :
    Lib.Meets (eosAssert cond type message) Q E := by
  unfold eosAssert
  split
  · next hcond => exact h hcond
  · next hcond => exact he hcond

theorem eosAssert_eq_ok [Decidable cond] {u : Unit} :
    eosAssert cond type message = .ok u ↔ cond := by
  unfold eosAssert eosThrow
  split <;> simp [*]

end PotatoNode.Chain
