import PotatoNode.Chain.SolventAccounts
import PotatoNode.Chain.ReceiptAtomicity

/-!
# Deferred transactions that fail for good

A generated transaction whose execution fails with an exception that is not subjective is to be
retired: its sender handles the failure, or the billed accounts are charged for it. The charge is
limited to what the accounts can pay, with the comment that it should never fail; it does where past
usage is over a share that has become smaller since (`hard_failure_not_retired`).
-/

namespace PotatoNode.Chain

open Lib Chainbase TransactionContext Controller ResourceLimitsManager UInt32

/-! ## The charge for a hard failure -/

namespace TransactionContext

variable {ρ : Type} {m : ResourceLimitsManager} {σ : ChainState ρ} {ctx : TransactionContext}
  {a : AccountName} {bill : FlatSet AccountName}

theorem objectiveDurationLimit_le {head : Nat} (hblocks : BlocksFit σ.resources head)
    (trx : Transaction) :
    0 ≤ objectiveDurationLimit σ trx
      ∧ objectiveDurationLimit σ trx + σ.resources.state.pendingCpuUsage
        ≤ σ.resources.config.cpuLimitParameters.max := by
  have hpending := hblocks.cpu.pendingUsage_le
  have hmax := hblocks.cpu.max_le
  have hmost : mostBlockUsage = 155014656081 := rfl
  have hblock : (Int.bmod σ.resources.getBlockCpuLimit (2 ^ 64) : Int)
      = σ.resources.config.cpuLimitParameters.max - σ.resources.state.pendingCpuUsage := by
    unfold getBlockCpuLimit
    rw [Int.bmod_def]
    omega
  unfold objectiveDurationLimit
  dsimp only
  constructor
  · split <;> split <;> omega
  · split <;> split <;> omega

theorem exists_maxBandwidth (hm : Chargeable m) {u : ResourceUsageObject} {l : ResourceLimitsObject}
    (hu : Chain.get m.accounts.usage (·.owner = a) = .ok u)
    (hl : m.accounts.getAccountLimits a = .ok l)
    (hcpu : WithinShare m.state.virtualCpuLimit u.cpuUsage.valueEx l.cpuWeight m.state.totalCpuWeight)
    (hnet : WithinShare m.state.virtualNetLimit u.netUsage.valueEx l.netWeight m.state.totalNetWeight)
    (hbill : bill.entries = [a]) :
    ∃ net cpu, maxBandwidthBilledAccountsCanPay m bill = .ok (net, cpu) ∧ 0 ≤ cpu
      ∧ ∀ units : Nat, units ≤ cpu → units = 0 ∨ Affords m.state.virtualCpuLimit 172800
        u.cpuUsage.valueEx l.cpuWeight m.state.totalCpuWeight units := by
  obtain ⟨hmem, -⟩ := get_eq_ok hu
  obtain ⟨hweightCpu, hweightNet⟩ := hm.weights l (AccountResources.getAccountLimits_eq_ok hl)
  obtain ⟨hvalueCpu, hvalueNet⟩ := hm.values u hmem
  obtain ⟨net, hnetLimit, -⟩ := exists_accountLimit
    m.config.netLimitParameters.max hm.virtualNetLimit_le hweightNet hvalueNet hnet
  obtain ⟨cpu, hcpuLimit, havailable⟩ := exists_accountLimit
    m.config.cpuLimitParameters.max hm.virtualCpuLimit_le hweightCpu hvalueCpu hcpu
  have hgetNet : m.getAccountNetLimit .wrapping a maximumElasticResourceMultiplier
      = .ok (net.available, false) := by
    refine bind_eq_ok.2 ⟨u, hu, bind_eq_ok.2 ⟨l, hl, bind_eq_ok.2 ⟨(net, false), ?_, rfl⟩⟩⟩
    rw [hm.netWindow]
    exact hnetLimit
  have hgetCpu : m.getAccountCpuLimit .wrapping a maximumElasticResourceMultiplier
      = .ok (cpu.available, false) := by
    refine bind_eq_ok.2 ⟨u, hu, bind_eq_ok.2 ⟨l, hl, bind_eq_ok.2 ⟨(cpu, false), ?_, rfl⟩⟩⟩
    rw [hm.cpuWindow]
    exact hcpuLimit
  have hgreylist (limit : Int) : (lowerLimit (largeNumberNoOverflow, false) (limit, false)).2
      = false := by
    unfold lowerLimit
    split <;> rfl
  refine ⟨(lowerLimit (largeNumberNoOverflow, false) (net.available, false)).1,
    (lowerLimit (largeNumberNoOverflow, false) (cpu.available, false)).1, ?_, ?_, ?_⟩
  · unfold maxBandwidthBilledAccountsCanPay
    rw [hbill]
    refine bind_eq_ok.2 ⟨_, bind_eq_ok.2 ⟨_, bind_eq_ok.2 ⟨_, hgetNet,
      bind_eq_ok.2 ⟨_, hgetCpu, rfl⟩⟩, rfl⟩, ?_⟩
    exact bind_eq_ok.2 ⟨(), eosAssert_of ⟨hgreylist _, hgreylist _⟩, rfl⟩
  · have hlarge : largeNumberNoOverflow = (2 ^ 63 - 1) / 2 := rfl
    unfold lowerLimit
    split <;> omega
  · intro units hunits
    by_cases hzero : units = 0
    · exact .inl hzero
    · refine .inr ?_
      rcases havailable with ⟨-, hunlimited⟩ | ⟨hnonneg, -⟩
      · intro hweight htotal
        omega
      · -- what is left is positive, and no less than the units
        unfold lowerLimit at hunits
        rw [if_pos hnonneg] at hunits
        have hle : (units : Int) ≤ cpu.available := Int.le_trans hunits (Int.min_le_right _ _)
        exact affords_of_accountLimit hm.virtualCpuLimit_le hweightCpu hvalueCpu hcpuLimit
          (.inr ⟨by omega, hle⟩)

theorem limits_of_maxBandwidth {limits : Int × Int}
    (h : maxBandwidthBilledAccountsCanPay m bill = .ok limits) (hbill : bill.entries = [a]) :
    ∃ cpuLimit netLimit,
      m.getAccountCpuLimit .wrapping a maximumElasticResourceMultiplier = .ok cpuLimit
        ∧ m.getAccountNetLimit .wrapping a maximumElasticResourceMultiplier = .ok netLimit := by
  unfold maxBandwidthBilledAccountsCanPay at h
  rw [hbill] at h
  obtain ⟨_, hfold, _⟩ := bind_eq_ok.1 h
  obtain ⟨_, hlower, _⟩ := bind_eq_ok.1 hfold
  obtain ⟨netLimit, hnet, cpuLimit, hcpu, _⟩ := bind₂_eq_ok.1 hlower
  exact ⟨cpuLimit, netLimit, hcpu, hnet⟩

end TransactionContext

section Charge

variable {ρ : Type} {env : PushEnv ρ} {σ : ChainState ρ} {ctx : TransactionContext}
  {m : ResourceLimitsManager} {a : AccountName} {head : Nat}

theorem toNat_ofInt {n : Int} (hnonneg : 0 ≤ n) (hlt : n < 2 ^ 32) :
    ((ofInt n).toNat : Int) = n := by
  show ((ofNat (n % 2 ^ 32).toNat).toNat) = n
  rw [toNat_ofNat']
  omega

theorem exists_limitedCpuTime (hexplicit : env.explicitBilledCpuTime = false) {net cpu : Int}
    (hmax : maxBandwidthBilledAccountsCanPay m ctx.billToAccounts = .ok (net, cpu)) (hcpu : 0 ≤ cpu)
    (hobjective : 0 ≤ ctx.initialObjectiveDurationLimit) (cpuTimeToBillUs : UInt32) :
    ∃ limited, limitedCpuTime env m ctx cpuTimeToBillUs = .ok limited
      ∧ (limited.toNat : Int) ≤ cpu
      ∧ (limited.toNat : Int) ≤ ctx.initialObjectiveDurationLimit := by
  have hlt : (cpuTimeToBillUs.toNat : Int) < 2 ^ 32 := by
    have := cpuTimeToBillUs.toNat_lt
    omega
  have htime : ((ofInt (min (min (cpuTimeToBillUs.toNat : Int) cpu)
      ctx.initialObjectiveDurationLimit)).toNat : Int)
      = min (min (cpuTimeToBillUs.toNat : Int) cpu) ctx.initialObjectiveDurationLimit :=
    toNat_ofInt (by omega) (by omega)
  refine ⟨_, bind_eq_ok.2 ⟨(net, cpu), hmax, bind_eq_ok.2 ⟨(), ?_, rfl⟩⟩, ?_, ?_⟩
  · refine eosAssert_of fun h => ?_
    rw [hexplicit] at h
    cases h
  · omega
  · omega

theorem exists_addTransactionUsage (hblocks : BlocksFit m head) {m₁ : ResourceLimitsManager}
    {bill : FlatSet AccountName} {units slot : Nat}
    (hfold : bill.entries.foldlM (fun m a => m.chargeAccount .wrapping a units 0 slot) m = .ok m₁)
    (hstate : m₁.state = m.state) (hconfig : m₁.config = m.config)
    (hunits : m.state.pendingCpuUsage + units ≤ m.config.cpuLimitParameters.max) :
    ∃ m', m.addTransactionUsage .wrapping bill units 0 slot = .ok m' := by
  have hmax := hblocks.cpu.max_le
  have hnetMax := hblocks.net.max_le
  have hpending := hblocks.net.pendingUsage_le
  have hmost : mostBlockUsage = 155014656081 := rfl
  refine ⟨{ m₁ with state := { m.state with
    pendingCpuUsage := m.state.pendingCpuUsage + units
    pendingNetUsage := m.state.pendingNetUsage + 0 } }, bind_eq_ok.2 ⟨m₁, hfold, ?_⟩⟩
  rw [hstate, hconfig]
  refine bind_eq_ok.2 ⟨_, Arithmetic.fit_of_lt (by omega), ?_⟩
  refine bind_eq_ok.2 ⟨_, Arithmetic.fit_of_lt (by omega), ?_⟩
  refine bind_eq_ok.2 ⟨(), eosAssert_of hunits, ?_⟩
  exact bind_eq_ok.2 ⟨(), eosAssert_of hpending, rfl⟩

theorem chargeHardFailure_eq (hvalidating : env.validating = false) (cpuTimeToBillUs : UInt32)
    {slot : Nat} (hslot : env.slot.toNat = slot) :
    chargeHardFailure env ctx cpuTimeToBillUs σ = (do
      let rl ← σ.resources.updateAccountUsage .wrapping ctx.billToAccounts slot
      let limited ← limitedCpuTime env rl ctx cpuTimeToBillUs
      let resources ← rl.addTransactionUsage .wrapping ctx.billToAccounts limited.toNat 0 slot
      .ok (limited, { σ with resources })) := by
  unfold chargeHardFailure hardFailureBill
  rw [if_neg (by simp [hvalidating]), hslot]
  cases σ.resources.updateAccountUsage .wrapping ctx.billToAccounts slot with
  | error e => rfl
  | ok rl =>
    simp only [ok_bind]
    cases limitedCpuTime env rl ctx cpuTimeToBillUs <;> rfl

/-- **The charge for a hard failure** returns where every billed account is within its shares. -/
theorem chargeHardFailure_iff (hvalidating : env.validating = false)
    (hexplicit : env.explicitBilledCpuTime = false) (hm : Chargeable σ.resources)
    (hblocks : BlocksFit σ.resources head) (hroom : σ.resources.Roomy)
    (hbill : ctx.billToAccounts.entries = [] ∨ ∃ a, ctx.billToAccounts.entries = [a])
    (hobjective : 0 ≤ ctx.initialObjectiveDurationLimit
      ∧ ctx.initialObjectiveDurationLimit + σ.resources.state.pendingCpuUsage
        ≤ σ.resources.config.cpuLimitParameters.max) (cpuTimeToBillUs : UInt32) :
    (∃ charged, chargeHardFailure env ctx cpuTimeToBillUs σ = .ok charged)
      ↔ ∃ m, σ.resources.updateAccountUsage .wrapping ctx.billToAccounts env.slot.toNat = .ok m
        ∧ ∀ a ∈ ctx.billToAccounts, m.Solvent a := by
  rw [chargeHardFailure_eq hvalidating cpuTimeToBillUs rfl]
  constructor
  · rintro ⟨charged, h⟩
    obtain ⟨m, hupdate, limited, hlimited, m', hadd, _⟩ := bind₃_eq_ok.1 h
    refine ⟨m, hupdate, fun a ha => ?_⟩
    obtain hentries : ctx.billToAccounts.entries = [a] := by
      have ha : a ∈ ctx.billToAccounts.entries := ha
      rcases hbill with hnil | ⟨b, hb⟩
      · rw [hnil] at ha
        cases ha
      · rw [hb, List.mem_singleton] at ha
        rw [hb, ha]
    obtain ⟨limits, hmax, _⟩ := bind_eq_ok.1 hlimited
    obtain ⟨cpuLimit, netLimit, hcpu, hnet⟩ := limits_of_maxBandwidth hmax hentries
    obtain ⟨m₁, _, _, hfold, -, -, -⟩ := addTransactionUsage_eq_ok hadd
    rw [hentries] at hfold
    obtain ⟨m₂, hcharge, _⟩ := bind_eq_ok.1 hfold
    refine solvent_of_chargeAccount (hm.updateAccountUsage hupdate)
      (fun u hu howner => ?_) hcpu hnet hcharge
    exact slot_updateAccountUsage hupdate u hu (howner.symm ▸ ha)
  · rintro ⟨m, hupdate, hsolvent⟩
    have hm' := hm.updateAccountUsage hupdate
    have hblocks' := hblocks.updateAccountUsage hupdate
    have hroom' := hroom.updateAccountUsage hm hupdate
    obtain ⟨hstate, hconfig⟩ := frame_updateAccountUsage hupdate
    -- the time that is billed fits into the block
    have hfits : ∀ limited : UInt32,
        (limited.toNat : Int) ≤ ctx.initialObjectiveDurationLimit →
        m.state.pendingCpuUsage + limited.toNat ≤ m.config.cpuLimitParameters.max := by
      rw [hstate, hconfig]
      omega
    rcases hbill with hnil | ⟨a, ha⟩
    · have hmax : maxBandwidthBilledAccountsCanPay m ctx.billToAccounts
          = .ok (largeNumberNoOverflow, largeNumberNoOverflow) := by
        unfold maxBandwidthBilledAccountsCanPay
        rw [hnil]
        rfl
      obtain ⟨limited, hlimited, -, hle⟩ :=
        exists_limitedCpuTime hexplicit hmax (by decide) hobjective.1 cpuTimeToBillUs
      have hfold : ctx.billToAccounts.entries.foldlM (fun m a =>
          m.chargeAccount .wrapping a limited.toNat 0 env.slot.toNat) m = .ok m := by
        rw [hnil]
        rfl
      obtain ⟨m', hadd⟩ := exists_addTransactionUsage hblocks' hfold rfl rfl (hfits limited hle)
      exact ⟨_, bind_eq_ok.2 ⟨m, hupdate, bind_eq_ok.2 ⟨limited, hlimited,
        bind_eq_ok.2 ⟨m', hadd, rfl⟩⟩⟩⟩
    · have hmem : a ∈ ctx.billToAccounts := by
        show a ∈ ctx.billToAccounts.entries
        rw [ha]
        exact List.mem_singleton_self a
      obtain ⟨u, l, hu, hl, hcpu, hnet⟩ := hsolvent a hmem
      obtain ⟨hu', howner⟩ := get_eq_ok hu
      obtain ⟨net, cpu, hmax, hnonneg, haffords⟩ := exists_maxBandwidth hm' hu hl hcpu hnet ha
      obtain ⟨limited, hlimited, hlecpu, hle⟩ :=
        exists_limitedCpuTime hexplicit hmax hnonneg hobjective.1 cpuTimeToBillUs
      have hslot := slot_updateAccountUsage hupdate u hu' (of_decide_eq_true howner ▸ hmem)
      obtain ⟨m₁, hcharge, hstate₁, hconfig₁⟩ := exists_chargeAccount hm' hroom'
        hu hl hslot hcpu hnet limited.toNat_lt (haffords _ hlecpu)
      have hfold : ctx.billToAccounts.entries.foldlM (fun m a =>
          m.chargeAccount .wrapping a limited.toNat 0 env.slot.toNat) m = .ok m₁ := by
        rw [ha]
        exact bind_eq_ok.2 ⟨m₁, hcharge, rfl⟩
      obtain ⟨m', hadd⟩ := exists_addTransactionUsage hblocks' hfold hstate₁ hconfig₁
        (hfits limited hle)
      exact ⟨_, bind_eq_ok.2 ⟨m, hupdate, bind_eq_ok.2 ⟨limited, hlimited,
        bind_eq_ok.2 ⟨m', hadd, rfl⟩⟩⟩⟩

end Charge

/-! ## The context of a failed execution -/

section Context

variable {ρ : Type} {env : PushEnv ρ} {σ : ChainState ρ} {dtrx : Transaction}

theorem initialized_of_failure (hproducing : env.isProducingBlock = true) {e : Failure}
    {σ' : ChainState ρ} {ctx : TransactionContext}
    (h : env.trialScheduled dtrx (σ, {}) = .error e (σ', ctx)) (hobjective : env.subjective e = false) :
    Initialized σ dtrx ctx := by
  have hends : Ends (env.trialScheduled dtrx) (σ, {}) (fun _ _ => True)
      fun e t => env.subjective e = false → Initialized σ dtrx t.2 := by
    unfold PushEnv.trialScheduled executeScheduled initForDeferredTrx
    rw [ends_bind, ends_bind, ends_bind, ends_whenever]
    split
    · -- extensions are not allowed
      unfold disallowTransactionExtensions
      rw [if_pos hproducing]
      intro hobjective
      have hsubjective : env.subjective (.exception ⟨.subjectiveBlockProductionException,
          "no transaction extensions supported yet for deferred transactions"⟩) = true := by
        unfold PushEnv.subjective
        cases env.validating <;> rfl
      rw [hsubjective] at hobjective
      cases hobjective
    · refine (ends_init .transaction).mono (fun _ t ⟨_, ht⟩ => ?_) fun _ t ht _ => ht
      rw [ends_bind, ends_fallible]
      cases env.actorList with
      | some e => exact fun _ => ht
      | none =>
        unfold outer
        rw [ends_zoom]
        refine ends_of_cases (fun done σ₁ _ => ?_) fun _ _ _ _ => ht
        cases PushEnv.wholeWords done with
        | error e => exact fun _ => ht
        | ok u =>
          cases env.announced .executed with
          | some e => exact fun _ => ht
          | none => trivial
  exact hends.of_error h hobjective

end Context

/-! ## Retirement -/

section Retirement

variable {ρ : Type} {env : PushEnv ρ} {s : PendingState ρ} {trxId : Digest}
  {gto : GeneratedTransactionObject} {σ : ChainState ρ} {dtrx : Transaction} {e : Failure}
  {σ' : ChainState ρ} {ctx : TransactionContext}

/-- In a block that is being produced, a generated transaction is ready and unexpired, and its
execution in the state `σ` without it fails with an exception that is not subjective. -/
structure FailsObjectively (env : PushEnv ρ) (s : PendingState ρ) (trxId : Digest)
    (gto : GeneratedTransactionObject) (σ : ChainState ρ) (dtrx : Transaction) (e : Failure)
    (ctx : TransactionContext) : Prop where
  producing : env.blockStatus = .incomplete
  measured : env.explicitBilledCpuTime = false
  found : find s.db.current.generatedTransactions (·.trxId = trxId) = some gto
  removed : s.db.current.removeScheduledTransaction gto = .ok σ
  ready : gto.delayUntil ≤ env.pendingBlockTime
  unexpired : env.pendingBlockTime ≤ gto.expiration
  unpacked : env.unpack gto.packedTrx = .ok dtrx
  failed : ∃ σ', env.trialScheduled dtrx (σ, {}) = .error e (σ', ctx)
  caught : e.isCaught = true
  objective : env.subjective e = false

section

variable (env : PushEnv ρ)

def RetiredAsFailed (s : PendingState ρ) (trxId : Digest)
    (gto : GeneratedTransactionObject) : Prop :=
  Ends (pushScheduledTransaction env trxId) s
    (fun result t =>
      (∃ receipt, result.receipt = some receipt
        ∧ (receipt.status = .softFail ∨ receipt.status = .hardFail))
      ∧ gto ∉ t.db.current.generatedTransactions)
    fun _ _ => False

def PushEnv.SenderHandles (gto : GeneratedTransactionObject) (σ : ChainState ρ) : Prop :=
  gto.sender ≠ 0 ∧ ∃ done t, env.trialOnerror gto (σ, {}) = .ok done t

def PushEnv.SenderFails (gto : GeneratedTransactionObject) (σ : ChainState ρ) : Prop :=
  gto.sender = 0 ∨ ∃ e t, env.trialOnerror gto (σ, {}) = .error e t ∧ e.isCaught = true
    ∧ env.subjective e = false

/-- The verdict retires the transaction as failed, and its signals let nothing through. -/
def PushEnv.Concludes (verdict : Result (Verdict ρ)) : Prop :=
  ∃ exit o result, verdict = .ok (.retired exit o result) ∧ env.announcedLate exit = none
    ∧ ∃ receipt, result.receipt = some receipt
      ∧ (receipt.status = .softFail ∨ receipt.status = .hardFail)

end

variable {cpuTimeToBillUs : UInt32}

theorem concludes_failVerdict (hobjective : env.subjective e = false) :
    env.Concludes (env.failVerdict gto ctx e cpuTimeToBillUs σ)
      ↔ env.announced .hardFail = none
        ∧ ∃ charged, chargeHardFailure env ctx cpuTimeToBillUs σ = .ok charged := by
  unfold PushEnv.failVerdict
  rw [if_neg (by simp [hobjective])]
  cases hcharge : chargeHardFailure env ctx cpuTimeToBillUs σ with
  | error e' =>
    refine iff_of_false ?_ (by simp)
    rintro ⟨exit, o, result, h, -⟩
    cases h
  | ok charged =>
    constructor
    · rintro ⟨exit, o, result, h, hlate, -⟩
      cases h
      exact ⟨hlate, charged, rfl⟩
    · rintro ⟨hlate, -⟩
      exact ⟨_, _, _, rfl, hlate, _, rfl, .inr rfl⟩

theorem concludes_errorVerdict :
    env.Concludes (env.errorVerdict gto ctx σ)
      ↔ (env.announced .softFail = none ∧ ∃ done t, env.trialOnerror gto (σ, {}) = .ok done t)
        ∨ ∃ e t, env.trialOnerror gto (σ, {}) = .error e t ∧ e.isCaught = true
          ∧ env.Concludes (env.failVerdict gto ctx e
            (updateBilledCpuTime env t.1.configuration .onerror) σ) := by
  unfold PushEnv.errorVerdict
  cases htrial : env.trialOnerror gto (σ, {}) with
  | ok done t =>
    constructor
    · rintro ⟨exit, o, result, h, hlate, -⟩
      cases h
      exact .inl ⟨hlate, done, t, rfl⟩
    · rintro (⟨hlate, -⟩ | ⟨e, t, h, -⟩)
      · exact ⟨_, _, _, rfl, hlate, _, rfl, .inl rfl⟩
      · cases h
  | error e t =>
    dsimp only
    by_cases hcaught : e.isCaught = true
    · rw [if_pos hcaught]
      constructor
      · exact fun h => .inr ⟨e, t, rfl, hcaught, h⟩
      · rintro (⟨-, done, t, h⟩ | ⟨e, t, h, -, hfail⟩)
        · cases h
        · cases h
          exact hfail
    · rw [if_neg hcaught]
      refine iff_of_false ?_ ?_
      · rintro ⟨exit, o, result, h, -⟩
        cases h
      · rintro (⟨-, done, t, h⟩ | ⟨e, t, h, hcaught', -⟩)
        · cases h
        · cases h
          exact hcaught hcaught'

/-- A failure that nobody handles and that is subjective leaves no receipt. -/
theorem not_concludes_of_subjective (hsubjective : env.subjective e = true) :
    ¬ env.Concludes (env.failVerdict gto ctx e cpuTimeToBillUs σ) := by
  unfold PushEnv.failVerdict
  rw [if_pos hsubjective]
  rintro ⟨exit, o, result, h, -⟩
  cases h

namespace FailsObjectively

variable (h : FailsObjectively env s trxId gto σ dtrx e ctx)

include h

theorem isProducingBlock : env.isProducingBlock = true := decide_eq_true h.producing

theorem validating : env.validating = false := by
  unfold PushEnv.validating
  rw [h.isProducingBlock]
  rfl

theorem removed_eq : env.removed gto s.db.current = .ok σ := by
  refine bind_eq_ok.2 ⟨(), eosAssert_of fun hvalidating => ?_, h.removed⟩
  rw [h.validating] at hvalidating
  cases hvalidating

theorem exists_settleVerdict : ∃ cpuTimeToBillUs,
    env.settleVerdict gto σ = if gto.sender ≠ 0 then env.errorVerdict gto ctx σ
      else env.failVerdict gto ctx e cpuTimeToBillUs σ := by
  obtain ⟨σ', hfailed⟩ := h.failed
  refine ⟨updateBilledCpuTime env σ'.configuration .transaction, ?_⟩
  unfold PushEnv.settleVerdict
  simp only [eosAssert_of h.ready, ok_bind, h.unpacked, if_neg (Nat.not_lt.2 h.unexpired)]
  unfold PushEnv.retireVerdict
  rw [hfailed]
  simp only [if_pos h.caught, h.objective, and_true]

theorem retiredAsFailed_iff (hbelow : s.db.current.generatedTransactions.IdsBelow) :
    RetiredAsFailed env s trxId gto ↔ env.Concludes (env.settleVerdict gto σ) := by
  unfold RetiredAsFailed pushScheduledTransaction
  rw [ends_bind, ends_getThe, h.found]
  unfold Ends
  simp only [pushScheduled_apply, h.removed_eq]
  cases hverdict : env.settleVerdict gto σ with
  | error e' =>
    refine iff_of_false not_false ?_
    rintro ⟨exit, o, result, hok, -⟩
    cases hok
  | ok verdict =>
  cases verdict with
  | failed e' =>
    have hnot : ¬ env.Concludes (.ok (.failed e')) := by
      rintro ⟨exit, o, result, hok, -⟩
      cases hok
    cases env.announced .failed with
    | none =>
      refine iff_of_false ?_ hnot
      rintro ⟨⟨receipt, hreceipt, -⟩, -⟩
      cases hreceipt
    | some e'' => exact iff_of_false not_false hnot
  | retired exit o result =>
    have hgone := notMem_retired hbelow (find_eq_some h.found).1 h.removed_eq hverdict
    dsimp only
    cases hlate : env.announcedLate exit with
    | none =>
      constructor
      · rintro ⟨hreceipt, -⟩
        exact ⟨exit, o, result, rfl, hlate, hreceipt⟩
      · rintro ⟨exit', o', result', hok, -, hreceipt⟩
        cases hok
        exact ⟨hreceipt, hgone⟩
    | some e' =>
      refine iff_of_false not_false ?_
      rintro ⟨exit', o', result', hok, hnone, -⟩
      cases hok
      rw [hlate] at hnone
      cases hnone

end FailsObjectively

theorem ResourceState.run_netFits {r : ResourceState} (h : r.Run ChainConfig.Fits) :
    r.Run ChainConfig.NetFits := by
  have hfits : ∀ cfg : ChainConfig, cfg.Fits → cfg.NetFits := fun cfg hcfg =>
    Nat.le_trans hcfg (by decide)
  refine h.mono (fun r ⟨cfg, hvalid, hcfg, heq⟩ => ⟨cfg, hvalid, hfits cfg hcfg, heq⟩)
    fun r a ha => ?_
  cases a with
  | setBlockchainParameters cfg => exact hfits cfg ha
  | _ => exact ha

theorem resources_of_removed {τ : ChainState ρ} (h : τ.removeScheduledTransaction gto = .ok σ) :
    ∃ ramDelta accounts, τ.resources.accounts.addPendingRamUsage gto.payer ramDelta = .ok accounts
      ∧ σ.resources = { τ.resources with accounts } := by
  obtain ⟨accounts, hram, _, _, h⟩ := bind₂_eq_ok.1 h
  cases h
  exact ⟨_, accounts, hram, rfl⟩

/-- **A deferred transaction that fails objectively is retired** exactly where its sender handles the
failure, or does not and every billed account is within its shares, and the signals let nothing
through. -/
theorem deferred_failure_retired {r : ResourceState} (hrun : r.Run ChainConfig.Fits)
    (hresources : s.db.current.resources = r.limits) (hroom : s.db.current.resources.Roomy)
    (hbelow : s.db.current.generatedTransactions.IdsBelow)
    (h : FailsObjectively env s trxId gto σ dtrx e ctx) :
    RetiredAsFailed env s trxId gto
      ↔ (env.SenderHandles gto σ ∧ env.announced .softFail = none)
        ∨ (env.SenderFails gto σ ∧ env.announced .hardFail = none
          ∧ ∃ m, σ.resources.updateAccountUsage .wrapping ctx.billToAccounts env.slot.toNat = .ok m
            ∧ ∀ a ∈ ctx.billToAccounts, m.Solvent a) := by
  obtain ⟨ramDelta, accounts, hram, hσ⟩ := resources_of_removed h.removed
  have hm : Chargeable σ.resources := by
    rw [hσ]
    refine Chargeable.addPendingRamUsage ?_ hram
    rw [hresources]
    exact (ResourceState.charges_of_run (ResourceState.run_netFits hrun)).chargeable
  have hblocks : BlocksFit σ.resources r.headBlockNum := by
    have hinv := (ResourceState.inv_of_run hrun).blocks
    rw [← hresources] at hinv
    rw [hσ]
    exact ⟨hinv.cpu, hinv.net⟩
  have hroom' : σ.resources.Roomy := by
    rw [hσ]
    intro w hw
    obtain ⟨v, hv, hcpu, -⟩ := AccountResources.usage_addPendingRamUsage hram hw
    rw [hcpu]
    exact hroom v hv
  obtain ⟨σ', hfailed⟩ := h.failed
  obtain ⟨hobjective, hbill⟩ := initialized_of_failure h.isProducingBlock hfailed h.objective
  have hcharge : ∀ cpuTimeToBillUs,
      (∃ charged, chargeHardFailure env ctx cpuTimeToBillUs σ = .ok charged) ↔ _ :=
    chargeHardFailure_iff h.validating h.measured hm hblocks hroom' hbill
      (hobjective ▸ objectiveDurationLimit_le hblocks dtrx)
  obtain ⟨cpuTimeToBillUs, hsettle⟩ := h.exists_settleVerdict
  rw [h.retiredAsFailed_iff hbelow, hsettle]
  by_cases hsender : gto.sender = 0
  · rw [if_neg (by simp [hsender]), concludes_failVerdict h.objective, hcharge]
    constructor
    · exact fun ⟨hlate, hsolvent⟩ => .inr ⟨.inl hsender, hlate, hsolvent⟩
    · rintro (⟨⟨hne, -⟩, -⟩ | ⟨-, hlate, hsolvent⟩)
      · exact absurd hsender hne
      · exact ⟨hlate, hsolvent⟩
  · rw [if_pos hsender, concludes_errorVerdict]
    refine or_congr ?_ ?_
    · exact ⟨fun ⟨hlate, hok⟩ => ⟨⟨hsender, hok⟩, hlate⟩, fun ⟨⟨_, hok⟩, hlate⟩ => ⟨hlate, hok⟩⟩
    · constructor
      · rintro ⟨e', t, htrial, hcaught, hconcludes⟩
        have hobjective' : env.subjective e' = false := by
          rw [← Bool.not_eq_true]
          exact fun hsubjective => not_concludes_of_subjective hsubjective hconcludes
        rw [concludes_failVerdict hobjective', hcharge] at hconcludes
        exact ⟨.inr ⟨e', t, htrial, hcaught, hobjective'⟩, hconcludes⟩
      · rintro ⟨hsenderFails, hlate, hsolvent⟩
        obtain ⟨e', t, htrial, hcaught, hobjective'⟩ := hsenderFails.resolve_left hsender
        refine ⟨e', t, htrial, hcaught, ?_⟩
        rw [concludes_failVerdict hobjective', hcharge]
        exact ⟨hlate, hsolvent⟩

end Retirement

/-! ## A net weight that is lowered -/

def deferredUnsent : GeneratedTransactionObject := { deferredOnce with sender := 0, expiration := 20 }

def unsentIndex : GenericIndex GeneratedTransactionObject :=
  ⟨[], 0, 1, ⟨⟨[deferredUnsent], by decide⟩, by decide⟩⟩

def deferredWith (resources : ResourceLimitsManager) : PendingState Unit where
  db := {
    current := {
      configuration := {}
      resources
      generatedTransactions := unsentIndex
      rest := () }
    saved := []
    revision := 0 }
  transactions := ⟨[], [], []⟩

def assertionFailed : Failure := .exception ⟨.eosioAssertMessageException, ""⟩

/-- The transaction is removed and fails, and `check` holds of the chain state without it and the
context. -/
def failsWith (resources : ResourceLimitsManager)
    (check : ChainState Unit → TransactionContext → Bool) : Bool :=
  match (deferredWith resources).db.current.removeScheduledTransaction deferredUnsent with
  | .ok σ =>
    match (failingCalls none).trialScheduled { actions := [[1]] } (σ, {}) with
    | .error e (_, ctx) => e = assertionFailed ∧ resources.Roomy ∧ check σ ctx = true
    | .ok _ _ => false
  | .error _ => false

theorem failsObjectively_of_failsWith {resources : ResourceLimitsManager}
    {check : ChainState Unit → TransactionContext → Bool} (h : failsWith resources check = true) :
    ∃ σ ctx, FailsObjectively (failingCalls none) (deferredWith resources) 7 deferredUnsent σ
        { actions := [[1]] } assertionFailed ctx ∧ resources.Roomy ∧ check σ ctx = true := by
  unfold failsWith at h
  split at h
  · next σ hremoved =>
    split at h
    · next e σ' ctx htrial =>
      obtain ⟨rfl, hroom, hcheck⟩ := of_decide_eq_true h
      exact ⟨σ, ctx, ⟨rfl, rfl, rfl, hremoved, by decide, by decide, rfl, ⟨σ', htrial⟩, rfl, rfl⟩,
        hroom, hcheck⟩
    · cases h
  · cases h

def netUsed : List ResourceAction :=
  [.initializeAccount 1, .initializeAccount 2, .addPendingRamUsage 1 1000,
    .setResourceLimits 1 (-1) 1 (-1), .setResourceLimits 2 (-1) 1 (-1), .finalizeBlock,
    .addTransactionUsage (FlatSet.ofList [1]) 0 1000 1]

/-- The failed transaction of account 1 is billed to it and retired. -/
theorem hard_failure_retired :
    ∃ (r : ResourceState) (σ : ChainState Unit) (ctx : TransactionContext),
      r.Run ChainConfig.Fits ∧ r.limits.Roomy
      ∧ FailsObjectively (failingCalls none) (deferredWith r.limits) 7 deferredUnsent σ
        { actions := [[1]] } assertionFailed ctx
      ∧ RetiredAsFailed (failingCalls none) (deferredWith r.limits) 7 deferredUnsent := by
  have hstart : ResourceState.Run ChainConfig.Fits (.genesis {}) :=
    .start ⟨{}, by decide, by decide, rfl⟩
  have hreplay : (replay ResourceState.perform (ResourceState.Allows ChainConfig.Fits) (.genesis {})
      netUsed).any (fun r => failsWith r.limits fun σ ctx =>
        (σ.resources.updateAccountUsage .wrapping ctx.billToAccounts 1).toOption.any fun m =>
          ∀ a ∈ ctx.billToAccounts.entries, m.Solvent a) = true := by
    decide +kernel
  obtain ⟨r, hrun, hfails⟩ := hstart.replay hreplay
  obtain ⟨σ, ctx, hobjectively, hroom, hcheck⟩ := failsObjectively_of_failsWith hfails
  refine ⟨r, σ, ctx, hrun, hroom, hobjectively, ?_⟩
  refine (deferred_failure_retired hrun rfl hroom (show unsentIndex.IdsBelow by decide)
    hobjectively).2 (.inr ⟨.inl rfl, rfl, ?_⟩)
  cases hupdate : σ.resources.updateAccountUsage .wrapping ctx.billToAccounts 1 with
  | ok m =>
    rw [hupdate] at hcheck
    exact ⟨m, hupdate, of_decide_eq_true hcheck⟩
  | error e =>
    rw [hupdate] at hcheck
    cases hcheck

/-- **A failure that is not retired.** The net weight of account 1 has been lowered to nothing: its past
usage is more than its share, `add_transaction_usage` throws, and the transaction is still there. -/
theorem hard_failure_not_retired :
    ∃ (r : ResourceState) (σ : ChainState Unit) (ctx : TransactionContext),
      r.Run ChainConfig.Fits ∧ r.limits.Roomy
      ∧ FailsObjectively (failingCalls none) (deferredWith r.limits) 7 deferredUnsent σ
        { actions := [[1]] } assertionFailed ctx
      ∧ ¬ RetiredAsFailed (failingCalls none) (deferredWith r.limits) 7 deferredUnsent
      ∧ Ends (pushScheduledTransaction (failingCalls none) 7) (deferredWith r.limits)
        (fun _ _ => False) fun e t =>
          e = .exception ⟨.txNetUsageExceeded,
            "authorizing account '${n}' has insufficient net resources for this transaction"⟩
          ∧ deferredUnsent ∈ t.db.current.generatedTransactions := by
  have hstart : ResourceState.Run ChainConfig.Fits (.genesis {}) :=
    .start ⟨{}, by decide, by decide, rfl⟩
  have hreplay : (replay ResourceState.perform (ResourceState.Allows ChainConfig.Fits) (.genesis {})
      (netUsed ++ [.setResourceLimits 1 (-1) 0 (-1)])).any (fun r =>
        failsWith r.limits (fun _ _ => true)
          && Ends (pushScheduledTransaction (failingCalls none) 7) (deferredWith r.limits)
            (fun _ _ => False) fun e t =>
              e = .exception ⟨.txNetUsageExceeded,
                "authorizing account '${n}' has insufficient net resources for this transaction"⟩
              ∧ deferredUnsent ∈ t.db.current.generatedTransactions) = true := by
    decide +kernel
  obtain ⟨r, hrun, hcheck⟩ := hstart.replay hreplay
  obtain ⟨hfails, hends⟩ := (Bool.and_eq_true _ _).mp hcheck
  replace hends := of_decide_eq_true hends
  obtain ⟨σ, ctx, hobjectively, hroom, -⟩ := failsObjectively_of_failsWith hfails
  refine ⟨r, σ, ctx, hrun, hroom, hobjectively, fun hretired => ?_, hends⟩
  unfold RetiredAsFailed Ends at hretired
  unfold Ends at hends
  split at hends
  · exact hends
  · next h =>
    rw [h] at hretired
    exact hretired

end PotatoNode.Chain
