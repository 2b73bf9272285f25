import PotatoNode.Chain.PromisedUsage

/-!
# Accounts within their shares

A charge of cpu time to an account checks the past usage of both resources again, against the shares
that the account has now. What the account is asked to pay is no more than what is left of its cpu
share; if past usage is over a share, there is nothing left, and the charge of nothing fails.
-/

namespace PotatoNode.Chain

open Lib Chainbase Arithmetic UsageAccumulator Nat

/-! ## One resource of one account -/

/-- Past usage is within the share that the account has now, and the share can be reported. -/
def WithinShare (virtualLimit valueEx : Nat) (weight : Int) (totalWeight : Nat) : Prop :=
  0 ≤ weight → 0 < totalWeight →
    valueEx * 172800 / rateLimitingPrecision ≤ virtualLimit * 172800 * weight.toNat / totalWeight
      ∧ virtualLimit * 172800 * weight.toNat / totalWeight < 2 ^ 63

instance (virtualLimit valueEx : Nat) (weight : Int) (totalWeight : Nat) :
    Decidable (WithinShare virtualLimit valueEx weight totalWeight) :=
  inferInstanceAs (Decidable (_ → _ → _ ∧ _))

namespace ResourceLimitsManager

section Window

variable {virtualLimit blockMax valueEx totalWeight : Nat} {weight : Int}

theorem exists_accountLimit (blockMax : Nat) (hlimit : virtualLimit ≤ 1000 * mostNetUsage)
    (hweight : weight < 2 ^ 63) (hvalue : valueEx < 2 ^ 64)
    (h : WithinShare virtualLimit valueEx weight totalWeight) :
    ∃ arl, accountLimit .wrapping virtualLimit 172800 blockMax valueEx weight totalWeight
        maximumElasticResourceMultiplier = .ok (arl, false)
      ∧ (arl.available = -1 ∧ (weight < 0 ∨ totalWeight = 0)
        ∨ 0 ≤ arl.available ∧ 0 ≤ weight ∧ 0 < totalWeight) := by
  by_cases hunlimited : weight < 0 ∨ totalWeight = 0
  · exact ⟨⟨-1, -1, -1⟩, if_pos hunlimited, .inl ⟨rfl, hunlimited⟩⟩
  · obtain ⟨hnonneg, hpos⟩ : 0 ≤ weight ∧ 0 < totalWeight := by omega
    obtain ⟨-, hshare⟩ := h hnonneg hpos
    rw [mul_comm virtualLimit] at hshare
    have hused : integerDivideCeil (valueEx * 172800) rateLimitingPrecision ≤ 2 ^ 63 - 1 := by
      rw [integerDivideCeil_le_iff (by decide)]
      have hprecision : rateLimitingPrecision = 1000000 := rfl
      omega
    exact ⟨_, (accountLimit_eq_ok hlimit hweight hvalue hnonneg hpos).2
      ⟨virtualLimit, rfl, hused, le_sub_one_of_lt hshare, rfl⟩,
      .inr ⟨Int.natCast_nonneg _, hnonneg, hpos⟩⟩

theorem withinShare_of_checkWindow {value : Nat} {type : ExceptionType} {message : String}
    {result : AccountResourceLimit × Bool} (hlimit : virtualLimit ≤ 1000 * mostNetUsage)
    (hweight : weight < 2 ^ 63) (hvalue : valueEx < 2 ^ 64) (hle : valueEx ≤ value)
    (hlt : value < 2 ^ 64)
    (hcheck : checkWindow .wrapping virtualLimit 172800 value weight totalWeight type message = .ok ())
    (h : accountLimit .wrapping virtualLimit 172800 blockMax valueEx weight totalWeight
      maximumElasticResourceMultiplier = .ok result) :
    WithinShare virtualLimit valueEx weight totalWeight := by
  intro hnonneg hpos
  obtain ⟨arl, greylisted⟩ := result
  obtain ⟨limit, hgreylist, -, hmax, -⟩ :=
    (accountLimit_eq_ok hlimit hweight hvalue hnonneg hpos).1 h
  cases hgreylist
  have hused := (checkWindow_eq_ok hlimit hweight hlt).1 hcheck hnonneg hpos
  refine ⟨(Nat.div_le_div_right (Nat.mul_le_mul_right _ hle)).trans hused, ?_⟩
  rw [mul_comm virtualLimit]
  omega

end Window

/-! ## One account -/

section

variable (m : ResourceLimitsManager)

def Solvent (a : AccountName) : Prop :=
  ∃ u l, Chain.get m.accounts.usage (·.owner = a) = .ok u ∧ m.accounts.getAccountLimits a = .ok l
    ∧ WithinShare m.state.virtualCpuLimit u.cpuUsage.valueEx l.cpuWeight m.state.totalCpuWeight
    ∧ WithinShare m.state.virtualNetLimit u.netUsage.valueEx l.netWeight m.state.totalNetWeight

instance (a : AccountName) : Decidable (m.Solvent a) :=
  match hu : Chain.get m.accounts.usage (·.owner = a), hl : m.accounts.getAccountLimits a with
  | .ok u, .ok l =>
    decidable_of_iff
      (WithinShare m.state.virtualCpuLimit u.cpuUsage.valueEx l.cpuWeight m.state.totalCpuWeight
        ∧ WithinShare m.state.virtualNetLimit u.netUsage.valueEx l.netWeight m.state.totalNetWeight)
      ⟨fun h => ⟨u, l, hu, hl, h⟩, fun ⟨_, _, hu', hl', h⟩ => by
        cases hu.symm.trans hu'
        cases hl.symm.trans hl'
        exact h⟩
  | .error _, _ => .isFalse fun ⟨_, _, hu', _⟩ => by cases hu.symm.trans hu'
  | _, .error _ => .isFalse fun ⟨_, _, _, hl', _⟩ => by cases hl.symm.trans hl'

/-- The cpu accumulators have room for the time of one transaction. -/
def Roomy : Prop :=
  ∀ u ∈ m.accounts.usage,
    u.cpuUsage.consumed + 2 ^ 32 ≤ 2 ^ 64 ∧ u.cpuUsage.valueEx + 2 ^ 35 ≤ 2 ^ 64

instance : Decidable m.Roomy :=
  inferInstanceAs (Decidable (∀ u ∈ m.accounts.usage.indices.objects.entries, _))

end

variable {acc : UsageAccumulator} {units slot : Nat}

section

variable (hlast : acc.lastOrdinal = slot)
include hlast

theorem exists_add
    (hraw : units ≤ maxRawValue) (hconsumed : units ≤ uint64Max - acc.consumed)
    (hvalue : contribution units 172800 ≤ uint64Max - acc.valueEx) :
    ∃ acc', acc.add .wrapping units slot 172800 = .ok acc' :=
  ⟨⟨acc.lastOrdinal, _, _⟩, add_eq_ok.2 ⟨hraw, hconsumed, hvalue, acc, if_pos hlast,
    fit_wrapping _ _, fit_wrapping _ _, rfl⟩⟩

theorem exists_add_zero : ∃ acc', acc.add .wrapping 0 slot 172800 = .ok acc' :=
  exists_add hlast (zero_le _) (zero_le _) (zero_le _)

theorem exists_add_of_room
    (hunits : units < 2 ^ 32) (hconsumed : acc.consumed + 2 ^ 32 ≤ 2 ^ 64)
    (hvalue : acc.valueEx + 2 ^ 35 ≤ 2 ^ 64) :
    ∃ acc', acc.add .wrapping units slot 172800 = .ok acc' := by
  have hmax : uint64Max = 2 ^ 64 - 1 := rfl
  have hprecision : rateLimitingPrecision = 1000000 := rfl
  have hraw : maxRawValue = 18446744073709 := rfl
  have hcontrib : contribution units 172800 ≤ 2 ^ 35 - 1 := by
    rw [contribution, integerDivideCeil_le_iff (by decide), hprecision]
    omega
  exact exists_add hlast (by omega) (by omega) (by omega)

end

variable {m m' : ResourceLimitsManager} {a : AccountName} {u : ResourceUsageObject}
  {l : ResourceLimitsObject} {units slot : Nat}

/-- **An account that can pay the time is charged.** -/
theorem exists_chargeAccount (hm : Chargeable m) (hroom : m.Roomy)
    (hu : Chain.get m.accounts.usage (·.owner = a) = .ok u)
    (hl : m.accounts.getAccountLimits a = .ok l)
    (hslot : u.cpuUsage.lastOrdinal = slot ∧ u.netUsage.lastOrdinal = slot)
    (hcpu : WithinShare m.state.virtualCpuLimit u.cpuUsage.valueEx l.cpuWeight m.state.totalCpuWeight)
    (hnet : WithinShare m.state.virtualNetLimit u.netUsage.valueEx l.netWeight m.state.totalNetWeight)
    (hunits : units < 2 ^ 32)
    (hpays : units = 0 ∨ Affords m.state.virtualCpuLimit 172800 u.cpuUsage.valueEx l.cpuWeight
      m.state.totalCpuWeight units) :
    ∃ m', m.chargeAccount .wrapping a units 0 slot = .ok m' ∧ m'.state = m.state
      ∧ m'.config = m.config := by
  obtain ⟨hmem, howner⟩ := get_eq_ok hu
  obtain ⟨hweightCpu, hweightNet⟩ := hm.weights l (AccountResources.getAccountLimits_eq_ok hl)
  obtain ⟨hvalueCpu, hvalueNet⟩ := hm.values u hmem
  obtain ⟨net, hnetAdd⟩ := exists_add_zero hslot.2
  obtain ⟨cpu, hcpuAdd⟩ := exists_add_of_room hslot.1 hunits (hroom u hmem).1 (hroom u hmem).2
  obtain ⟨index, hmodify⟩ := exists_modify (m := fun v => { v with netUsage := net, cpuUsage := cpu })
    hmem (fun _ => rfl) fun _ => rfl
  have hcpuEx := valueEx_add_same hslot.1 hvalueCpu hcpuAdd
  have hnetEx := valueEx_add_same hslot.2 hvalueNet hnetAdd
  have hcpuLt := valueEx_lt_of_add hcpuAdd
  refine ⟨{ m with accounts := { m.accounts with usage := index } }, ?_, rfl, rfl⟩
  refine bind_eq_ok.2 ⟨u, hu, bind_eq_ok.2 ⟨l, hl, ?_⟩⟩
  rw [← hm.cpuWindow] at hcpuAdd
  rw [← hm.netWindow] at hnetAdd
  refine bind_eq_ok.2 ⟨_, bind_eq_ok.2 ⟨net, hnetAdd, bind_eq_ok.2 ⟨cpu, hcpuAdd,
    bind_eq_ok.2 ⟨index, hmodify, rfl⟩⟩⟩, ?_⟩
  refine bind_eq_ok.2 ⟨(), ?_, bind_eq_ok.2 ⟨(), ?_, rfl⟩⟩
  · show checkWindow _ _ m.config.accountCpuUsageAverageWindow cpu.valueEx _ _ _ _ = _
    rw [hm.cpuWindow]
    rcases hpays with rfl | haffords
    · have hsame : cpu.valueEx = u.cpuUsage.valueEx := hcpuEx
      rw [hsame]
      exact (checkWindow_eq_ok hm.virtualCpuLimit_le hweightCpu hvalueCpu).2
        fun hnonneg hpos => (hcpu hnonneg hpos).1
    · exact checkWindow_of_affords hm.virtualCpuLimit_le hweightCpu rfl hcpuLt hcpuEx haffords
  · show checkWindow _ _ m.config.accountNetUsageAverageWindow net.valueEx _ _ _ _ = _
    have hsame : net.valueEx = u.netUsage.valueEx := hnetEx
    rw [hm.netWindow, hsame]
    exact (checkWindow_eq_ok hm.virtualNetLimit_le hweightNet hvalueNet).2
      fun hnonneg hpos => (hnet hnonneg hpos).1

/-- **A charged account was within its shares**, if these can be reported. -/
theorem solvent_of_chargeAccount (hm : Chargeable m)
    (hslot : ∀ u ∈ m.accounts.usage, u.owner = a →
      u.cpuUsage.lastOrdinal = slot ∧ u.netUsage.lastOrdinal = slot)
    {cpuLimit netLimit : Int × Bool}
    (hcpu : m.getAccountCpuLimit .wrapping a maximumElasticResourceMultiplier = .ok cpuLimit)
    (hnet : m.getAccountNetLimit .wrapping a maximumElasticResourceMultiplier = .ok netLimit)
    (h : m.chargeAccount .wrapping a units 0 slot = .ok m') : m.Solvent a := by
  obtain ⟨u, hu, l, hl, h⟩ := bind₂_eq_ok.1 h
  obtain ⟨⟨u', m₁⟩, hadd, h⟩ := bind_eq_ok.1 h
  obtain ⟨_, hcheckCpu, _, hcheckNet, h⟩ := bind₂_eq_ok.1 h
  obtain ⟨hmem, howner⟩ := get_eq_ok hu
  obtain ⟨hslotCpu, hslotNet⟩ := hslot u hmem (of_decide_eq_true howner)
  obtain ⟨hweightCpu, hweightNet⟩ := hm.weights l (AccountResources.getAccountLimits_eq_ok hl)
  obtain ⟨hvalueCpu, hvalueNet⟩ := hm.values u hmem
  obtain ⟨net, cpu, index, hnetAdd, hcpuAdd, -, rfl, rfl⟩ := addUsage_eq_ok hadd
  have hcpuEx := valueEx_add_same hslotCpu hvalueCpu hcpuAdd
  have hnetEx := valueEx_add_same hslotNet hvalueNet hnetAdd
  obtain ⟨v, hv, l', hl', _, hcpu, _⟩ := bind₃_eq_ok.1 hcpu
  cases hu.symm.trans hv
  cases hl.symm.trans hl'
  obtain ⟨v, hv, l', hl', _, hnet, _⟩ := bind₃_eq_ok.1 hnet
  cases hu.symm.trans hv
  cases hl.symm.trans hl'
  rw [hm.cpuWindow] at hcheckCpu hcpu
  rw [hm.netWindow] at hcheckNet hnet
  exact ⟨u, l, hu, hl,
    withinShare_of_checkWindow hm.virtualCpuLimit_le hweightCpu hvalueCpu (by omega)
      (valueEx_lt_of_add hcpuAdd) hcheckCpu hcpu,
    withinShare_of_checkWindow hm.virtualNetLimit_le hweightNet hvalueNet (by omega)
      (valueEx_lt_of_add hnetAdd) hcheckNet hnet⟩

/-! ## Usage that is brought up to date -/

theorem room_add_zero {acc' : UsageAccumulator} (h : acc.add .wrapping 0 slot 172800 = .ok acc')
    (hconsumed : acc.consumed + 2 ^ 32 ≤ 2 ^ 64) (hvalue : acc.valueEx + 2 ^ 35 ≤ 2 ^ 64) :
    acc'.consumed + 2 ^ 32 ≤ 2 ^ 64 ∧ acc'.valueEx + 2 ^ 35 ≤ 2 ^ 64 := by
  obtain ⟨-, -, -, acc₁, hadvance, hfitConsumed, hfitValue, -⟩ := add_eq_ok.1 h
  obtain ⟨-, hvalue₁, hconsumed₁⟩ := frame_advance hadvance
  have hle := acc.decayed_le slot 172800
  have hconsumedLe := le_of_fit hfitConsumed
  have hvalueLe := le_of_fit hfitValue
  have hzero : contribution 0 172800 = 0 := rfl
  have hceil : acc₁.average ≤ 2 ^ 45 := by
    rw [average, integerDivideCeil_le_iff (by decide), show rateLimitingPrecision = 1000000 from rfl]
    omega
  omega

variable {accounts : FlatSet AccountName}

theorem frame_updateAccountUsage
    (h : m.updateAccountUsage .wrapping accounts slot = .ok m') :
    m'.state = m.state ∧ m'.config = m.config := by
  refine foldlM_invariant (I := fun m' => m'.state = m.state ∧ m'.config = m.config) h
    (fun m₁ a m₂ h₁ h => ?_) ⟨rfl, rfl⟩
  obtain ⟨usage, usage', -, hadd⟩ := decayUsage_eq_ok h
  obtain ⟨net, cpu, index, -, -, -, -, rfl⟩ := addUsage_eq_ok hadd
  exact h₁

theorem Roomy.updateAccountUsage (hm : Chargeable m)
    (hroom : m.Roomy) (h : m.updateAccountUsage .wrapping accounts slot = .ok m') : m'.Roomy := by
  refine (foldlM_invariant (I := fun m => Chargeable m ∧ m.Roomy) h
    (fun m a m' ⟨hm, hroom⟩ h => ?_) ⟨hm, hroom⟩).2
  obtain ⟨usage, usage', hget, hadd⟩ := decayUsage_eq_ok h
  refine ⟨hm.addUsage hadd, ?_⟩
  obtain ⟨net, cpu, index, -, hcpu, hmodify, -, rfl⟩ := addUsage_eq_ok hadd
  obtain ⟨v, hv, hid, hmodified⟩ := modify_eq_ok hmodify fun _ => rfl
  rw [hm.cpuWindow] at hcpu
  obtain ⟨hconsumed, hvalue⟩ := hroom usage (get_eq_ok hget).1
  intro w hw
  rcases hmodified.mem_iff.1 hw with rfl | ⟨hw, -⟩
  · exact room_add_zero hcpu hconsumed hvalue
  · exact hroom w hw

end ResourceLimitsManager

end PotatoNode.Chain
