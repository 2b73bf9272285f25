import PotatoNode.Chain.PushVerdict
import PotatoNode.Chain.TransactionDedup

/-!
# Pushed transactions are recorded

The deduplication follows the records and the receipts of a chain (`DedupChain`). Its steps are those
of the controller: a call of `push_transaction` on a pending block, whose chain state has the
records besides what the call reads itself, is a step of it however it ends (`push_simulated`), and
the time of the next block is that of `block_header_state::next`.
-/

namespace PotatoNode.Chain

open Lib Chainbase Controller TransactionContext PushEnv

theorem BlockHeaderState.nextTime_eq_nextSlot {s : BlockHeaderState} {head when' : UInt32}
    (hs : s.header.timestamp.slot = head.toNat) (hfits : when' = 0 → head.toNat + 1 < 2 ^ 32) :
    s.nextTime ⟨when'.toNat⟩ = (nextSlot head when').map fun slot => ⟨slot.toNat⟩ := by
  unfold nextTime nextSlot
  by_cases hwhen : when' = 0
  · rw [if_neg (by simp [hwhen]), if_neg (by simp [hwhen]), hs]
    have hnext : (head + 1).toNat = head.toNat + 1 := by
      rw [UInt32.toNat_add]
      exact Nat.mod_eq_of_lt (hfits hwhen)
    exact congrArg (fun slot => Except.ok (BlockTimestamp.mk slot)) hnext.symm
  · have hne : (⟨when'.toNat⟩ : BlockTimestamp) ≠ ⟨0⟩ := fun heq =>
      hwhen (UInt32.toNat_inj.1 (congrArg BlockTimestamp.slot heq))
    rw [if_pos hne, if_pos hwhen, hs]
    unfold eosAssert
    simp only [UInt32.lt_iff_toNat_lt]
    split_ifs <;> rfl

abbrev TransactionRecords := GenericIndex TransactionObject

/-- The environment of a call for the transaction: its expiration is checked, its id is recorded, and
its execution leaves the records alone. -/
structure PushesInput (trxId : InputTransaction → Digest) (cfg : ChainConfig) (slot : UInt32)
    (trx : InputTransaction) (env : PushEnv TransactionRecords) (metadata : TransactionMetadata) :
    Prop where
  input : metadata.implicit = false
  id : metadata.id = trxId trx
  delaySec : metadata.trx.delaySec = trx.delaySec
  expiration : env.inputChecks = none → validateExpiration cfg (timeOfSlot slot) trx = .ok ()
  record : env.recordTransaction
    = attempt fun index => Chain.recordTransaction index (trxId trx) trx.expiration
  execute : ∀ {σ done σ'}, env.execute .transaction σ = .ok done σ' → σ'.rest = σ.rest

/-- What the receipts of a pending block say of its transactions. -/
def PendingState.statuses {ρ : Type} (s : PendingState ρ) :
    List (ReceiptSubject × TransactionStatus) :=
  s.transactions.pendingTrxReceipts.map fun r => (r.trx, r.header.status)

variable {trxId : InputTransaction → Digest} {cfg : ChainConfig} {trx : InputTransaction}
  {env : PushEnv TransactionRecords} {metadata : TransactionMetadata}
  {s : PendingState TransactionRecords} {σ : ChainState TransactionRecords} {b : DedupBlock}

theorem ends_trialInput {slot : UInt32} (h : PushesInput trxId cfg slot trx env metadata) :
    Ends (env.trialInput metadata) (σ, {})
      (fun _ t => validateExpiration cfg (timeOfSlot slot) trx = .ok ()
        ∧ Chain.recordTransaction σ.rest (trxId trx) trx.expiration = .ok t.1.rest)
      fun _ _ => True := by
  unfold trialInput executeInput initForInputTrx
  rw [h.input, if_neg (by decide), ends_bind, ends_bind, ends_bind, ends_whenever]
  split
  · trivial
  · rw [ends_bind, ends_fallible]
    cases hchecks : env.inputChecks with
    | some e => trivial
    | none =>
      rw [ends_bind]
      refine (ends_init .transaction).mono (fun _ t ht => ?_) fun _ _ _ => trivial
      unfold outer
      rw [ends_zoom, ends_zoom, h.record, ends_attempt, ht.1]
      cases hrecord : Chain.recordTransaction σ.rest (trxId trx) trx.expiration with
      | error e => trivial
      | ok index =>
        dsimp only
        rw [ends_bind, ends_fallible]
        cases env.authorization with
        | some e => trivial
        | none =>
          rw [ends_zoom]
          refine ends_of_cases (fun done σ' hexecute => ?_) fun _ _ _ => trivial
          rw [ends_bind, ends_compute]
          dsimp only
          cases wholeWords done with
          | error e => trivial
          | ok u =>
            rw [ends_bind, ends_fallible]
            cases env.announcedInput metadata with
            | some e => trivial
            | none => exact ⟨h.expiration hchecks, congrArg Except.ok (h.execute hexecute).symm⟩

theorem pushTransaction_of_failure {apply : ApplyEnv} {e : Failure} (h : apply.execution = .error e) :
    Chain.pushTransaction trxId apply b trx = b := by
  unfold Chain.pushTransaction
  generalize Chain.initForInputTrx trxId apply b trx = initialized
  rw [h]
  cases initialized with
  | error e' | ok index => rfl

theorem pushTransaction_of_success {apply : ApplyEnv} {index : TransactionRecords}
    (hinit : Chain.initForInputTrx trxId apply b trx = .ok index) (h : apply.execution = .ok ()) :
    Chain.pushTransaction trxId apply b trx = ⟨b.slot, index,
      ⟨trx, if trx.delaySec = 0 then .executed else .delayed⟩ :: b.executed⟩ := by
  unfold Chain.pushTransaction
  rw [hinit, h]
  rfl

/-- **A call of `push_transaction` is a step of the deduplication**, where it has a session of its
own. -/
theorem push_simulated (h : PushesInput trxId cfg b.slot trx env metadata)
    (hsessions : env.skipDbSessions s = false) (hb : b.transactions = s.db.current.rest) :
    let Simulated := fun t : PendingState TransactionRecords => ∃ (apply : ApplyEnv) (new : List _),
      apply.AllChecks
        ∧ Chain.pushTransaction trxId apply b trx = ⟨b.slot, t.db.current.rest, new ++ b.executed⟩
        ∧ t.statuses = s.statuses ++ new.map fun r => (.packed (trxId r.trx), r.status)
    Ends (Controller.pushTransaction env metadata) s (fun _ => Simulated) fun _ => Simulated := by
  intro Simulated
  have hfailed : Simulated s := by
    refine ⟨{ configuration := cfg, execution := .error .abort }, [], ⟨rfl, rfl⟩, ?_, by simp⟩
    rw [pushTransaction_of_failure rfl, ← hb]
    rfl
  have hundone σ : Simulated (env.undone s σ) := by
    rw [undone_of_sessions hsessions]
    exact hfailed
  have htrial := ends_trialInput (σ := s.db.current) h
  rw [Ends, pushTransaction_apply]
  cases eosAssert (env.deadlineGiven = true) .transactionException
    "deadline cannot be uninitialized" with
  | error e => exact hfailed
  | ok u =>
  cases hrun : env.trialInput metadata (s.db.current, {}) with
  | error e t =>
    dsimp only
    split_ifs
    · cases env.announced .failed with
      | none | some e' => exact hundone _
    · exact hundone _
  | ok done t =>
    obtain ⟨hexpiration, hrecord⟩ := htrial.of_ok hrun
    dsimp only
    split_ifs with hkeeps
    · refine ⟨{ configuration := cfg }, [⟨trx, if trx.delaySec = 0 then .executed else .delayed⟩],
        ⟨rfl, rfl⟩, ?_, ?_⟩
      · refine pushTransaction_of_success ?_ rfl
        unfold Chain.initForInputTrx checkInputTrx
        simp only [hexpiration, hb, hrecord, ok_bind, Bool.false_eq_true, ↓reduceIte, Option.any_none]
        rfl
      · simp [PendingState.statuses, PendingState.keep, outcomeOfInput, h.input, h.id, h.delaySec,
          receiptOfInput, receiptOf, PendingState.append, PendingState.write]
    · exact hfailed

end PotatoNode.Chain
