import PotatoNode.Chain.PushVerdict

/-!
# Receipts and state

Every call either leaves the pending block and the chain state as they were, or keeps both parts of
one outcome (`Together`). An outcome of a generated transaction never has the chain state from before,
since the transaction is gone (`notMem_retired`): so a receipt that stays behind in the block while the
session is undone is neither. That is what a handler of a signal does that throws through `emit` after
`push_receipt` on the paths without a restore point.
-/

namespace PotatoNode.Chain

open Lib Chainbase TransactionContext Controller PushEnv

variable {ρ α : Type}

/-! ## The generated transaction is gone -/

section Gone

variable {env : PushEnv ρ} {σ σ' : ChainState ρ} {gto : GeneratedTransactionObject}
  {ctx ctx' : TransactionContext} {done : Executed}

theorem leaves_init (a : Attempt) (trx : Transaction) :
    Leaves (fun p : ChainState ρ × TransactionContext => p.1.generatedTransactions)
      (TransactionContext.init env a trx) := by
  refine leaves_bind (leaves_modifyThe fun _ => rfl) fun _ => ?_
  refine leaves_bind leaves_fallible fun _ => ?_
  refine leaves_bind (leaves_modifyThe fun _ => rfl) fun _ => ?_
  refine leaves_bind leaves_getThe fun p => ?_
  refine leaves_bind (leaves_outer (leaves_attempt fun σ σ' h => ?_)) fun _ => leaves_fallible
  obtain ⟨rl, _, h⟩ := bind_eq_ok.1 h
  cases h
  rfl

theorem leaves_initForDeferredTrx (trx : Transaction) :
    Leaves (fun p : ChainState ρ × TransactionContext => p.1.generatedTransactions)
      (initForDeferredTrx env trx) :=
  leaves_bind (leaves_whenever leaves_throw) fun _ => leaves_init .transaction trx

theorem leaves_initForImplicitTrx (a : Attempt) (trx : Transaction) :
    Leaves (fun p : ChainState ρ × TransactionContext => p.1.generatedTransactions)
      (initForImplicitTrx env a trx) :=
  leaves_bind (leaves_whenever leaves_throw) fun _ => leaves_init a trx

def Evolves (x : ContextM ρ α) : Prop :=
  ∀ p, Ends x p (fun _ t => Evolved (· = ·) p.1.generatedTransactions t.1.generatedTransactions)
    fun _ _ => True

variable {x : ContextM ρ α} {β : Type} {y : α → ContextM ρ β}

theorem evolves_after
    (hx : Leaves (fun p => p.1.generatedTransactions) x) (hy : ∀ a, Evolves (y a)) :
    Evolves (x >>= y) := by
  intro p
  rw [ends_bind]
  refine (hx p).mono (fun a t ht => ?_) fun _ _ _ => trivial
  have hy := hy a t
  rwa [show t.1.generatedTransactions = p.1.generatedTransactions from ht] at hy

theorem evolves_before (hx : Evolves x)
    (hy : ∀ a, Leaves (fun p => p.1.generatedTransactions) (y a)) : Evolves (x >>= y) := by
  intro p
  rw [ends_bind]
  refine (hx p).mono (fun a t ht => ?_) fun _ _ _ => trivial
  refine (hy a t).mono (fun b u hu => ?_) fun _ _ _ => trivial
  rwa [show u.1.generatedTransactions = t.1.generatedTransactions from hu]

theorem evolves_execute (a : Attempt) : Evolves (outer (env.execute a)) := by
  intro p
  show Ends (zoom _ _ _) p _ _
  rw [ends_zoom]
  exact ends_of_cases (fun _ _ hx => env.execute_evolved hx) fun _ _ _ => trivial

theorem evolves_trialScheduled (dtrx : Transaction) : Evolves (env.trialScheduled dtrx) := by
  refine evolves_before ?_ fun _ => ?_
  · exact evolves_after (leaves_initForDeferredTrx dtrx) fun _ =>
      evolves_after leaves_fallible fun _ => evolves_execute .transaction
  · exact leaves_bind leaves_compute fun _ => leaves_bind leaves_fallible fun _ => leaves_pure

theorem evolves_trialOnerror : Evolves (env.trialOnerror gto) := by
  refine evolves_before ?_ fun _ => ?_
  · exact evolves_after (leaves_initForImplicitTrx .onerror _) fun _ => evolves_execute .onerror
  · exact leaves_bind leaves_compute fun _ => leaves_pure

theorem chargeHardFailure_generatedTransactions {cpu cpu' : UInt32}
    (h : chargeHardFailure env ctx cpu σ = .ok (cpu', σ')) :
    σ'.generatedTransactions = σ.generatedTransactions := by
  obtain ⟨⟨_, rl⟩, _, h⟩ := bind_eq_ok.1 h
  obtain ⟨resources, _, h⟩ := bind_eq_ok.1 h
  cases h
  rfl

/-- The outcome has one receipt, for the generated transaction, and does not bring it back. -/
structure Retires (gto : GeneratedTransactionObject) (σ : ChainState ρ) (o : Outcome ρ) : Prop where
  receipts : o.receipts.map (·.trx) = [.generated gto.trxId]
  evolved : Evolved (· = ·) σ.generatedTransactions o.state.generatedTransactions

theorem retires_of_eq {o : Outcome ρ} (hreceipts : o.receipts.map (·.trx) = [.generated gto.trxId])
    (hstate : o.state.generatedTransactions = σ.generatedTransactions) : Retires gto σ o := by
  refine ⟨hreceipts, ?_⟩
  rw [hstate]
  exact fun w hw _ => ⟨w, hw, rfl⟩

variable {exit : Exit} {o : Outcome ρ} {result : TransactionResult}

theorem failVerdict_retires {e : Failure} {cpu : UInt32}
    (h : env.failVerdict gto ctx e cpu σ = .ok (.retired exit o result)) : Retires gto σ o := by
  unfold failVerdict at h
  by_cases hsubjective : env.subjective e = true
  · rw [if_pos hsubjective] at h
    cases h
  · rw [if_neg hsubjective] at h
    obtain ⟨⟨cpu', σ'⟩, hcharge, h⟩ := bind_eq_ok.1 h
    cases h
    exact retires_of_eq rfl (chargeHardFailure_generatedTransactions hcharge)

theorem errorVerdict_retires (h : env.errorVerdict gto ctx σ = .ok (.retired exit o result)) :
    Retires gto σ o := by
  unfold errorVerdict at h
  cases htrial : env.trialOnerror gto (σ, {}) with
  | ok done p =>
    rw [htrial] at h
    cases h
    exact ⟨rfl, (evolves_trialOnerror (σ, {})).of_ok htrial⟩
  | error e p =>
    rw [htrial] at h
    by_cases hcaught : e.isCaught = true
    · simp only [if_pos hcaught] at h
      exact failVerdict_retires h
    · simp only [if_neg hcaught, reduceCtorEq] at h

theorem retireVerdict_retires {dtrx : Transaction}
    (h : env.retireVerdict gto dtrx σ = .ok (.retired exit o result)) : Retires gto σ o := by
  unfold retireVerdict at h
  cases htrial : env.trialScheduled dtrx (σ, {}) with
  | ok done p =>
    rw [htrial] at h
    cases h
    exact ⟨rfl, (evolves_trialScheduled dtrx (σ, {})).of_ok htrial⟩
  | error e p =>
    rw [htrial] at h
    by_cases hcaught : e.isCaught = true
    · simp only [if_pos hcaught] at h
      by_cases hsender : gto.sender ≠ 0 ∧ env.subjective e = false
      · rw [if_pos hsender] at h
        exact errorVerdict_retires h
      · rw [if_neg hsender] at h
        exact failVerdict_retires h
    · simp only [if_neg hcaught, reduceCtorEq] at h

/-- **Every verdict that retires a generated transaction does so with one receipt for it.** -/
theorem settleVerdict_retires (h : env.settleVerdict gto σ = .ok (.retired exit o result)) :
    Retires gto σ o := by
  obtain ⟨_, _, dtrx, _, h⟩ := bind₂_eq_ok.1 h
  by_cases hexpired : gto.expiration < env.pendingBlockTime
  · rw [if_pos hexpired] at h
    cases h
    exact retires_of_eq rfl rfl
  · rw [if_neg hexpired] at h
    exact retireVerdict_retires h

theorem removed_generatedTransactions (h : env.removed gto σ = .ok σ') :
    Removed σ.generatedTransactions gto.id σ'.generatedTransactions := by
  obtain ⟨_, _, _, _, _, hremove, h⟩ := bind₃_eq_ok.1 h
  cases h
  exact remove_eq_ok hremove

theorem notMem_removed (h : env.removed gto σ = .ok σ') : gto ∉ σ'.generatedTransactions := by
  rw [(removed_generatedTransactions h).mem_iff]
  exact fun hmem => hmem.2 rfl

theorem notMem_retired (hbelow : σ.generatedTransactions.IdsBelow)
    (hgto : gto ∈ σ.generatedTransactions) (hremoved : env.removed gto σ = .ok σ')
    (h : env.settleVerdict gto σ' = .ok (.retired exit o result)) :
    gto ∉ o.state.generatedTransactions := by
  intro hmem
  have hid : gto.id < σ'.generatedTransactions.nextId := by
    rw [(removed_generatedTransactions hremoved).nextId]
    exact hbelow gto hgto
  obtain ⟨v, hv, rfl⟩ := (settleVerdict_retires h).evolved gto hmem hid
  exact notMem_removed hremoved hv

end Gone

/-! ## Receipts and state -/

/-- Nothing has changed, or all of an outcome is kept, whose receipts are for `subjects`. -/
def Together (subjects : List ReceiptSubject) (outcome : Outcome ρ → Prop) (s t : PendingState ρ) :
    Prop :=
  t = s ∨ ∃ o, outcome o ∧ o.receipts.map (·.trx) = subjects ∧ t = s.keep o

namespace PushEnv

variable (env : PushEnv ρ) (trx : TransactionMetadata)

def InputOutcome (σ : ChainState ρ) (o : Outcome ρ) : Prop :=
  ∃ done σ' ctx, env.trialInput trx (σ, {}) = .ok done (σ', ctx) ∧ o = outcomeOfInput trx done σ'

def ScheduledOutcome (trxId : Digest) (σ : ChainState ρ) (o : Outcome ρ) : Prop :=
  ∃ gto, find σ.generatedTransactions (·.trxId = trxId) = some gto ∧
    ∃ σ', env.removed gto σ = .ok σ' ∧
      ∃ exit result, env.settleVerdict gto σ' = .ok (.retired exit o result)

def InputTogether (s t : PendingState ρ) : Prop :=
  Together (if trx.implicit = true then [] else [.packed trx.id])
    (env.InputOutcome trx s.db.current) s t

def ScheduledTogether (trxId : Digest) (s t : PendingState ρ) : Prop :=
  Together [.generated trxId] (env.ScheduledOutcome trxId s.db.current) s t

/-- What an input transaction needs where sessions are skipped: it does not fail once it has changed
the chain state. -/
def InputAtomic (s : PendingState ρ) : Prop :=
  env.skipDbSessions s = true → env.deadlineGiven = true →
    ∀ e σ ctx, env.trialInput trx (s.db.current, {}) = .error e (σ, ctx) → σ = s.db.current

/-- What a generated transaction needs: no handler of a signal throws through `emit` after it has
expired, or failed with a receipt; and where sessions are skipped, that it is retired. -/
def ScheduledAtomic (gto : GeneratedTransactionObject) (s : PendingState ρ) : Prop :=
  ∀ σ, env.removed gto s.db.current = .ok σ →
    if env.skipDbSessions s = true then
      ∃ exit o result, env.settleVerdict gto σ = .ok (.retired exit o result)
    else
      ∀ exit o result, env.settleVerdict gto σ = .ok (.retired exit o result) →
        env.announcedLate exit = none

end PushEnv

section Together

variable {env : PushEnv ρ} {s : PendingState ρ}

theorem together_self {subjects : List ReceiptSubject} {outcome : Outcome ρ → Prop} :
    Together subjects outcome s s := .inl rfl

theorem write_eq_self {σ : ChainState ρ} : s.write σ = s ↔ σ = s.db.current :=
  ⟨fun h => congrArg (fun t : PendingState ρ => t.db.current) h, fun h => by rw [h]; rfl⟩

section Input

variable {trx : TransactionMetadata} {σ : ChainState ρ} {ctx : TransactionContext}

theorem inputTogether_keep {done : Executed}
    (htrial : env.trialInput trx (s.db.current, {}) = .ok done (σ, ctx)) :
    env.InputTogether trx s (s.keep (outcomeOfInput trx done σ)) := by
  refine .inr ⟨_, ⟨done, σ, ctx, htrial, rfl⟩, ?_, rfl⟩
  unfold outcomeOfInput
  by_cases himplicit : trx.implicit = true
  · simp only [if_pos himplicit, List.map_nil]
  · simp only [if_neg himplicit, List.map_cons, List.map_nil]
    rfl

variable {e : Failure}

/-- Once the execution has failed there is no outcome to keep. -/
theorem inputTogether_write
    (htrial : env.trialInput trx (s.db.current, {}) = .error e (σ, ctx)) :
    env.InputTogether trx s (s.write σ) ↔ σ = s.db.current := by
  refine ⟨fun h => ?_, fun h => .inl (write_eq_self.2 h)⟩
  rcases h with h | ⟨o, ⟨done, σ', ctx', hok, _⟩, _⟩
  · exact write_eq_self.1 h
  · rw [htrial] at hok
    cases hok

theorem inputTogether_undone
    (hdeadline : env.deadlineGiven = true)
    (htrial : env.trialInput trx (s.db.current, {}) = .error e (σ, ctx)) :
    env.InputTogether trx s (env.undone s σ) ↔ env.InputAtomic trx s := by
  cases hskip : env.skipDbSessions s with
  | true =>
    rw [undone_of_skip hskip, inputTogether_write htrial]
    constructor
    · intro hσ _ _ e' σ' ctx' h
      rw [htrial] at h
      cases h
      exact hσ
    · exact fun h => h hskip hdeadline e σ ctx htrial
  | false =>
    rw [undone_of_sessions hskip]
    refine iff_of_true together_self fun h => ?_
    rw [hskip] at h
    cases h

theorem pushTransaction_together :
    Ends (pushTransaction env trx) s
      (fun _ t => env.InputTogether trx s t ↔ env.InputAtomic trx s)
      fun _ t => env.InputTogether trx s t ↔ env.InputAtomic trx s := by
  unfold Ends
  rw [pushTransaction_apply]
  by_cases hdeadline : env.deadlineGiven = true
  · rw [eosAssert_of hdeadline]
    cases htrial : env.trialInput trx _ with
    | ok done p =>
      refine iff_of_true ?_ fun _ _ e σ ctx h => ?_
      · show env.InputTogether trx s (if env.keepsInput = true then _ else s)
        split
        · exact inputTogether_keep htrial
        · exact together_self
      · rw [htrial] at h
        cases h
    | error e p =>
      have hiff := inputTogether_undone hdeadline htrial
      by_cases hcaught : e.isCaught = true
      · simp only [if_pos hcaught]
        cases env.announced .failed <;> exact hiff
      · simp only [if_neg hcaught]
        exact hiff
  · rw [eosAssert, if_neg hdeadline]
    exact iff_of_true together_self fun _ h => absurd h hdeadline

theorem inputTogether_iff :
    (Ends (pushTransaction env trx) s (fun _ t => env.InputTogether trx s t)
      fun _ t => env.InputTogether trx s t) ↔ env.InputAtomic trx s :=
  pushTransaction_together.iff

end Input

section Scheduled

variable {trxId : Digest} {gto : GeneratedTransactionObject} {σ : ChainState ρ} {exit : Exit}
  {o : Outcome ρ} {result : TransactionResult}

section

variable (hbelow : s.db.current.generatedTransactions.IdsBelow)
include hbelow

theorem state_ne_of_scheduledOutcome
    (ho : env.ScheduledOutcome trxId s.db.current o) : o.state ≠ s.db.current := by
  obtain ⟨gto, hfind, σ, hremoved, exit, result, hverdict⟩ := ho
  intro h
  have hgto := (find_eq_some hfind).1
  refine notMem_retired hbelow hgto hremoved hverdict ?_
  rwa [h]

theorem not_scheduledTogether_append
    (hverdict : env.settleVerdict gto σ = .ok (.retired exit o result)) :
    ¬ env.ScheduledTogether trxId s (s.append o.receipts o.metas o.actions) := by
  rintro (h | ⟨o', ho', _, h⟩)
  · have hnil : o.receipts = [] := by
      have := congrArg (fun t : PendingState ρ => t.transactions.pendingTrxReceipts) h
      simpa [PendingState.append] using this
    have hreceipts := (settleVerdict_retires hverdict).receipts
    rw [hnil] at hreceipts
    cases hreceipts
  · exact state_ne_of_scheduledOutcome hbelow ho'
      (congrArg (fun t : PendingState ρ => t.db.current) h).symm

end

/-- Where it is known what becomes of the transaction, the condition is one about that. -/
theorem scheduledAtomic_iff (hremoved : env.removed gto s.db.current = .ok σ) :
    env.ScheduledAtomic gto s ↔ if env.skipDbSessions s = true then
      ∃ exit o result, env.settleVerdict gto σ = .ok (.retired exit o result)
    else ∀ exit o result,
      env.settleVerdict gto σ = .ok (.retired exit o result) → env.announcedLate exit = none := by
  unfold PushEnv.ScheduledAtomic
  simp only [hremoved, Except.ok.injEq, forall_eq']

section

variable (hfind : find s.db.current.generatedTransactions (·.trxId = trxId) = some gto)
  (hremoved : env.removed gto s.db.current = .ok σ)
include hfind hremoved

theorem scheduledTogether_keep
    (hverdict : env.settleVerdict gto σ = .ok (.retired exit o result)) :
    env.ScheduledTogether trxId s (s.keep o) := by
  refine .inr ⟨o, ⟨gto, hfind, σ, hremoved, exit, result, hverdict⟩, ?_, rfl⟩
  rw [(settleVerdict_retires hverdict).receipts]
  simpa using (find_eq_some hfind).2

section

variable (hverdict : ∀ exit o result, env.settleVerdict gto σ ≠ .ok (.retired exit o result))
include hverdict

theorem not_scheduledTogether_write : ¬ env.ScheduledTogether trxId s (s.write σ) := by
  rintro (h | ⟨o, ⟨gto', hfind', σ', hremoved', exit, result, h⟩, _⟩)
  · refine notMem_removed hremoved ?_
    rw [write_eq_self.1 h]
    exact (find_eq_some hfind).1
  · rw [hfind] at hfind'
    cases hfind'
    rw [hremoved] at hremoved'
    cases hremoved'
    exact hverdict exit o result h

theorem scheduledTogether_undone :
    env.ScheduledTogether trxId s (env.undone s σ) ↔ env.ScheduledAtomic gto s := by
  rw [scheduledAtomic_iff hremoved]
  cases hskip : env.skipDbSessions s with
  | true =>
    rw [undone_of_skip hskip]
    exact iff_of_false (not_scheduledTogether_write hfind hremoved hverdict) (by simp [hverdict])
  | false =>
    rw [undone_of_sessions hskip]
    exact iff_of_true together_self (by simp [hverdict])

end

end

theorem scheduledAtomic_of_error {e : Failure} (hremoved : env.removed gto s.db.current = .error e) :
    env.ScheduledAtomic gto s := by
  intro σ h
  rw [hremoved] at h
  cases h

section

variable (hbelow : s.db.current.generatedTransactions.IdsBelow)
include hbelow

theorem pushScheduled_together
    (hfind : find s.db.current.generatedTransactions (·.trxId = trxId) = some gto) :
    Ends (pushScheduled env gto) s
      (fun _ t => env.ScheduledTogether trxId s t ↔ env.ScheduledAtomic gto s)
      fun _ t => env.ScheduledTogether trxId s t ↔ env.ScheduledAtomic gto s := by
  unfold Ends
  rw [pushScheduled_apply]
  cases hremoved : env.removed gto s.db.current with
  | error e => exact iff_of_true together_self (scheduledAtomic_of_error hremoved)
  | ok σ =>
  dsimp only
  cases hverdict : env.settleVerdict gto σ with
  | error e => exact scheduledTogether_undone hfind hremoved (by simp [hverdict])
  | ok verdict =>
  cases verdict with
  | failed e =>
    have hiff := scheduledTogether_undone hfind hremoved (by simp [hverdict])
    cases env.announced .failed <;> exact hiff
  | retired exit o result =>
    have hkeep := scheduledTogether_keep hfind hremoved hverdict
    rw [scheduledAtomic_iff hremoved, hverdict]
    dsimp only
    cases hskip : env.skipDbSessions s with
    | true =>
      rw [undone_of_skip hskip]
      cases env.announcedLate exit <;> exact iff_of_true hkeep ⟨exit, o, result, rfl⟩
    | false =>
    rw [undone_of_sessions hskip]
    cases hlate : env.announcedLate exit with
    | none =>
      refine iff_of_true hkeep fun exit' o' result' h => ?_
      cases h
      exact hlate
    | some e =>
      refine iff_of_false (not_scheduledTogether_append hbelow hverdict) fun h => ?_
      rw [h exit o result rfl] at hlate
      cases hlate

theorem scheduledTogether_iff :
    (Ends (pushScheduledTransaction env trxId) s (fun _ t => env.ScheduledTogether trxId s t)
      fun _ t => env.ScheduledTogether trxId s t)
      ↔ ∀ gto, find s.db.current.generatedTransactions (·.trxId = trxId) = some gto →
        env.ScheduledAtomic gto s := by
  unfold pushScheduledTransaction
  rw [ends_bind, ends_getThe]
  cases hfind : find s.db.current.generatedTransactions (·.trxId = trxId) with
  | none => exact iff_of_true together_self nofun
  | some gto =>
    simp only [Option.some.injEq, forall_eq']
    exact (pushScheduled_together hbelow hfind).iff

end

end Scheduled

/-- **Receipts and state move together** in every call, unless sessions are skipped and an execution
fails, or a handler of a signal throws through `emit` after a generated transaction has expired or
failed with a receipt. -/
theorem receipts_with_state (env : PushEnv ρ) (s : PendingState ρ)
    (hbelow : s.db.current.generatedTransactions.IdsBelow) :
    (∀ trx, (Ends (pushTransaction env trx) s (fun _ t => env.InputTogether trx s t)
      fun _ t => env.InputTogether trx s t) ↔ env.InputAtomic trx s) ∧
    ∀ trxId, (Ends (pushScheduledTransaction env trxId) s
      (fun _ t => env.ScheduledTogether trxId s t) fun _ t => env.ScheduledTogether trxId s t)
      ↔ ∀ gto, find s.db.current.generatedTransactions (·.trxId = trxId) = some gto →
        env.ScheduledAtomic gto s := by
  constructor
  · intro trx
    exact inputTogether_iff
  · intro trxId
    exact scheduledTogether_iff hbelow

end Together

def deferredOnce : GeneratedTransactionObject where
  id := 0
  trxId := 7
  sender := 1
  senderId := 0
  payer := 1
  delayUntil := 0
  expiration := 5
  published := 0
  packedTrx := []

def oneDeferred : PendingState Unit where
  db := {
    current := {
      configuration := {}
      resources := { accounts := ⟨emptyIndex, ⟨[], 0, 1,
        ⟨⟨[{ id := 0, owner := 1, ramUsage := 1000 }], by decide⟩, by decide⟩⟩⟩ }
      generatedTransactions := ⟨[], 0, 1, ⟨⟨[deferredOnce], by decide⟩, by decide⟩⟩
      rest := () }
    saved := []
    revision := 0 }
  transactions := ⟨[], [], []⟩

def failingCalls (handler : Option Failure) : PushEnv Unit where
  blockStatus := .incomplete
  readMode := .speculative
  pendingBlockTime := 10
  slot := 1
  unpack := fun _ => .ok { actions := [[1]] }
  execute := fun _ σ => .error (.exception ⟨.eosioAssertMessageException, ""⟩) σ
  acceptedTransaction := fun _ => handler
  execute_evolved := nofun

/-- An expired transaction is retired with its receipt. -/
theorem expired_with_receipt :
    oneDeferred.db.current.generatedTransactions.IdsBelow ∧
      Ends (pushScheduledTransaction (failingCalls none) 7) oneDeferred
        (fun _ t => (failingCalls none).ScheduledTogether 7 oneDeferred t)
        fun _ t => (failingCalls none).ScheduledTogether 7 oneDeferred t := by
  refine ⟨by decide, ((receipts_with_state _ oneDeferred (by decide)).2 7).2 ?_⟩
  intro gto _ σ _
  rw [if_neg (by decide)]
  intro exit _ _ _
  cases exit <;> rfl

def emitSignal : Failure := .exception ⟨.controllerEmitSignalException, "handler"⟩

/-- **A receipt without its state.** A handler throws `controller_emit_signal_exception` for an expired
transaction: its receipt stays in the pending block, and the transaction is still in the index. -/
theorem expired_receipt_left_behind :
    (Ends (pushScheduledTransaction (failingCalls (some emitSignal)) 7) oneDeferred
      (fun _ _ => False) fun _ t =>
        t.transactions.pendingTrxReceipts = [⟨.generated 7, .expired, 0, 0⟩] ∧
          deferredOnce ∈ t.db.current.generatedTransactions) ∧
    ¬ Ends (pushScheduledTransaction (failingCalls (some emitSignal)) 7) oneDeferred
      (fun _ t => (failingCalls (some emitSignal)).ScheduledTogether 7 oneDeferred t)
      fun _ t => (failingCalls (some emitSignal)).ScheduledTogether 7 oneDeferred t := by
  constructor
  · decide +kernel
  · rw [scheduledTogether_iff (by decide)]
    intro hatomic
    have hfind : find oneDeferred.db.current.generatedTransactions (·.trxId = 7)
        = some deferredOnce := by decide +kernel
    have hok : ((failingCalls (some emitSignal)).removed deferredOnce
        oneDeferred.db.current).toBool = true := by decide +kernel
    cases hremoved : (failingCalls _).removed deferredOnce oneDeferred.db.current with
    | error e =>
      rw [hremoved] at hok
      cases hok
    | ok σ =>
      have hlate := (scheduledAtomic_iff hremoved).1 (hatomic _ hfind) .expired _ _ rfl
      exact absurd hlate (by decide)

end PotatoNode.Chain
