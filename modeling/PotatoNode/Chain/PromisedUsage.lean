import PotatoNode.Chain.ElasticLimits

/-!
# What a transaction was promised it can pay

Before a transaction is executed, the resource limits are asked how much cpu and net each billed account
has left; after it, the usage is charged and checked again. The two sides round differently: the query
divides the past usage up, the charge rounds the new usage up and divides the sum down.
-/

namespace PotatoNode.Chain

open Lib Chainbase ResourceLimitsManager UsageAccumulator FlatSet Arithmetic List Nat

/-! ## Rounding -/

/-- **The charge is at most the promise.** -/
theorem used_le {windowSize precision : Nat} (hwindow : 0 < windowSize)
    (hle : windowSize ≤ precision) (valueEx units : Nat) :
    (valueEx + integerDivideCeil (units * precision) windowSize) * windowSize / precision
      ≤ units + integerDivideCeil (valueEx * windowSize) precision := by
  have hprecision : 0 < precision := lt_of_lt_of_le hwindow hle
  rw [← Nat.lt_succ_iff, Nat.div_lt_iff_lt_mul hprecision]
  have hnew := integerDivideCeil_mul_lt hwindow (units * precision)
  have hold := le_integerDivideCeil_mul hprecision (valueEx * windowSize)
  calc (valueEx + integerDivideCeil (units * precision) windowSize) * windowSize
      = valueEx * windowSize + integerDivideCeil (units * precision) windowSize * windowSize :=
        add_mul _ _ _
    _ < integerDivideCeil (valueEx * windowSize) precision * precision
          + (units * precision + precision) := by omega
    _ = (units + integerDivideCeil _ precision).succ * precision := by
        rw [succ_mul, add_mul]
        omega

/-- What the account may use more in the window, in exact arithmetic. -/
def Affords (virtualLimit windowSize valueEx : Nat) (weight : Int) (totalWeight units : Nat) : Prop :=
  0 ≤ weight → 0 < totalWeight →
    units + integerDivideCeil (valueEx * windowSize) rateLimitingPrecision
      ≤ virtualLimit * windowSize * weight.toNat / totalWeight

/-- The amount is available: without limit, or within what is left. -/
def Promises (available : Int) (units : Nat) : Prop :=
  available = -1 ∨ (0 < available ∧ units ≤ available)

/-- The failures that say that an account has used too much. -/
def Failure.UsageExceeded : Failure → Prop
  | .exception ⟨.txCpuUsageExceeded, _⟩ => True
  | .exception ⟨.txNetUsageExceeded, _⟩ => True
  | _ => False

/-! ## One resource of one account -/

/-- A thousand times this for every slot of the window, by a weight, is less than 2^128. -/
def mostNetUsage : Nat := 213503982334

section Window

variable {ar : Arithmetic} {virtualLimit blockMax valueEx totalWeight units : Nat}
  {weight : Int}

theorem window_lt (hlimit : virtualLimit ≤ 1000 * mostNetUsage) : virtualLimit * 172800 < 2 ^ 128 :=
  lt_of_le_of_lt (mul_le_mul_right _ hlimit) (by decide)

theorem share_lt (hlimit : virtualLimit ≤ 1000 * mostNetUsage) (hweight : weight < 2 ^ 63) :
    virtualLimit * 172800 * weight.toNat < 2 ^ 128 := by
  have hnat : weight.toNat ≤ 2 ^ 63 - 1 := by omega
  exact Nat.lt_of_le_of_lt (Nat.mul_le_mul (Nat.mul_le_mul_right _ hlimit) hnat) (by decide)

theorem value_lt (h : valueEx < 2 ^ 64) : valueEx * 172800 < 2 ^ 128 := by
  omega

namespace ResourceLimitsManager

variable {greylistLimit : Nat} {greylisted : Bool}

theorem greylistedLimit_le {limit : Nat}
    (h : greylistedLimit ar virtualLimit blockMax greylistLimit = .ok (limit, greylisted)) :
    limit ≤ virtualLimit := by
  unfold greylistedLimit at h
  split at h
  · obtain ⟨limit', _, h⟩ := bind_eq_ok.1 h
    split at h
    · next hlt =>
      cases h
      exact le_of_lt hlt
    · cases h
      exact le_refl _
  · cases h
    exact le_refl _

variable {max k : Nat}

theorem downgradeCast_eq_ok {val : Nat} : downgradeCast max val = .ok k ↔ val ≤ max ∧ val = k := by
  unfold downgradeCast
  simp [bind_eq_ok, eosAssert_eq_ok]

theorem availableInWindow_eq_ok {used : Nat} :
    availableInWindow max used = .ok k ↔ max - used ≤ 2 ^ 63 - 1 ∧ max - used = k := by
  unfold availableInWindow
  split
  · next hle => simp [Nat.sub_eq_zero_of_le hle]
  · exact downgradeCast_eq_ok

variable {arl : AccountResourceLimit} {type : ExceptionType} {message : String}
  (hlimit : virtualLimit ≤ 1000 * mostNetUsage) (hweight : weight < 2 ^ 63)
include hlimit hweight

section

variable (hvalue : valueEx < 2 ^ 64)
include hvalue

theorem accountLimit_eq_ok (hnonneg : 0 ≤ weight)
    (hpos : 0 < totalWeight) :
    accountLimit ar virtualLimit 172800 blockMax valueEx weight totalWeight greylistLimit
        = .ok (arl, greylisted)
      ↔ ∃ limit, greylistedLimit ar virtualLimit blockMax greylistLimit = .ok (limit, greylisted)
        ∧ integerDivideCeil (valueEx * 172800) rateLimitingPrecision ≤ 2 ^ 63 - 1
        ∧ 172800 * limit * weight.toNat / totalWeight ≤ 2 ^ 63 - 1
        ∧ arl = ⟨integerDivideCeil (valueEx * 172800) rateLimitingPrecision,
          (172800 * limit * weight.toNat / totalWeight
            - integerDivideCeil (valueEx * 172800) rateLimitingPrecision : Nat),
          (172800 * limit * weight.toNat / totalWeight : Nat)⟩ := by
  have hfits : ∀ {limit flag}, greylistedLimit ar virtualLimit blockMax greylistLimit
      = .ok (limit, flag) → 172800 * limit < 2 ^ 128 ∧ 172800 * limit * weight.toNat < 2 ^ 128 := by
    intro limit flag h
    have hle := le_trans (greylistedLimit_le h) hlimit
    rw [mul_comm 172800]
    exact ⟨window_lt hle, share_lt hle hweight⟩
  unfold accountLimit
  rw [if_neg (by omega), bind_eq_ok]
  constructor
  · rintro ⟨⟨limit, flag⟩, hgreylist, h⟩
    obtain ⟨hcapacity, hshare⟩ := hfits hgreylist
    simp only [fit_of_lt hcapacity, fit_of_lt hshare, fit_of_lt (value_lt hvalue), ok_bind] at h
    obtain ⟨available, havailable, used, hcastUsed, max, hcastMax, h⟩ := bind₃_eq_ok.1 h
    obtain ⟨-, rfl⟩ := availableInWindow_eq_ok.1 havailable
    obtain ⟨hused, rfl⟩ := downgradeCast_eq_ok.1 hcastUsed
    obtain ⟨hmax, rfl⟩ := downgradeCast_eq_ok.1 hcastMax
    cases h
    exact ⟨limit, hgreylist, hused, hmax, rfl⟩
  · rintro ⟨limit, hgreylist, hused, hmax, rfl⟩
    obtain ⟨hcapacity, hshare⟩ := hfits hgreylist
    refine ⟨_, hgreylist, ?_⟩
    simp only [fit_of_lt hcapacity, fit_of_lt hshare, fit_of_lt (value_lt hvalue), ok_bind]
    exact bind₃_eq_ok.2 ⟨_, availableInWindow_eq_ok.2 ⟨by omega, rfl⟩, _,
      downgradeCast_eq_ok.2 ⟨hused, rfl⟩, _, downgradeCast_eq_ok.2 ⟨hmax, rfl⟩, rfl⟩

theorem affords_of_accountLimit
    (h : accountLimit ar virtualLimit 172800 blockMax valueEx weight totalWeight greylistLimit
      = .ok (arl, greylisted)) (hpromise : Promises arl.available units) :
    Affords virtualLimit 172800 valueEx weight totalWeight units := by
  intro hnonneg hpos
  obtain ⟨limit, hgreylist, -, -, rfl⟩ :=
    (accountLimit_eq_ok hlimit hweight hvalue hnonneg hpos).1 h
  have hle : 172800 * limit * weight.toNat ≤ virtualLimit * 172800 * weight.toNat := by
    rw [mul_comm 172800]
    exact mul_le_mul_right _ (mul_le_mul_right _ (greylistedLimit_le hgreylist))
  refine Nat.le_trans ?_ (Nat.div_le_div_right hle)
  rcases hpromise with hunlimited | ⟨havailable, hunits⟩
  · exact absurd hunlimited (by dsimp only; omega)
  · dsimp only at havailable hunits
    omega

theorem checkWindow_eq_ok :
    checkWindow ar virtualLimit 172800 valueEx weight totalWeight type message = .ok ()
      ↔ (0 ≤ weight → 0 < totalWeight → valueEx * 172800 / rateLimitingPrecision
        ≤ virtualLimit * 172800 * weight.toNat / totalWeight) := by
  unfold checkWindow
  split
  · next hlimited =>
    simp only [fit_of_lt (window_lt hlimit), fit_of_lt (value_lt hvalue),
      fit_of_lt (share_lt hlimit hweight), ok_bind, eosAssert_eq_ok]
    exact ⟨fun h _ _ => h, fun h => h hlimited.1 hlimited.2⟩
  · next hunlimited => exact ⟨fun _ hnonneg hpos => absurd ⟨hnonneg, hpos⟩ hunlimited, fun _ => rfl⟩

end

theorem checkWindow_of_affords {windowSize valueEx' : Nat} (hwindow : windowSize = 172800)
    (hvalue : valueEx' < 2 ^ 64) (heq : valueEx' = valueEx + contribution units 172800)
    (h : Affords virtualLimit 172800 valueEx weight totalWeight units) :
    checkWindow ar virtualLimit windowSize valueEx' weight totalWeight type message = .ok () := by
  rw [hwindow, checkWindow_eq_ok hlimit hweight hvalue, heq]
  exact fun hnonneg hpos => le_trans (used_le (by decide) (by decide) valueEx units)
    (h hnonneg hpos)

end ResourceLimitsManager

end Window

/-! ## States in which no product wraps -/

def ChainConfig.NetFits (cfg : ChainConfig) : Prop := cfg.maxBlockNetUsage.toNat ≤ mostNetUsage

instance : DecidablePred ChainConfig.NetFits := fun cfg =>
  inferInstanceAs (Decidable (cfg.maxBlockNetUsage.toNat ≤ mostNetUsage))

/-- What keeps the products of a charge in 128 bits. -/
structure Chargeable (m : ResourceLimitsManager) : Prop where
  cpuWindow : m.config.accountCpuUsageAverageWindow = 172800
  netWindow : m.config.accountNetUsageAverageWindow = 172800
  virtualCpuLimit_le : m.state.virtualCpuLimit ≤ 1000 * mostNetUsage
  virtualNetLimit_le : m.state.virtualNetLimit ≤ 1000 * mostNetUsage
  weights : ∀ l ∈ m.accounts.limits, l.cpuWeight < 2 ^ 63 ∧ l.netWeight < 2 ^ 63
  values : ∀ u ∈ m.accounts.usage, u.cpuUsage.valueEx < 2 ^ 64 ∧ u.netUsage.valueEx < 2 ^ 64

theorem AccountResources.getAccountLimits_eq_ok {r : AccountResources} {account : AccountName}
    {l : ResourceLimitsObject} (h : r.getAccountLimits account = .ok l) : l ∈ r.limits := by
  unfold getAccountLimits at h
  split at h
  · next hfind =>
    cases h
    exact (find_eq_some hfind).1
  · exact (get_eq_ok h).1

namespace Chargeable

variable {m m' : ResourceLimitsManager} {ar : Arithmetic} {timeSlot : Nat} {cpuUsage netUsage : Nat}

theorem addUsage {usage usage' : ResourceUsageObject} (hm : Chargeable m)
    (h : m.addUsage ar usage cpuUsage netUsage timeSlot = .ok (usage', m')) : Chargeable m' := by
  obtain ⟨net, cpu, index, hnet, hcpu, hmodify, -, rfl⟩ := addUsage_eq_ok h
  obtain ⟨u, -, -, hmodified⟩ := modify_eq_ok hmodify fun _ => rfl
  refine { hm with values := fun v hv => ?_ }
  rcases hmodified.mem_iff.1 hv with rfl | ⟨hv, -⟩
  · exact ⟨valueEx_lt_of_add hcpu, valueEx_lt_of_add hnet⟩
  · exact hm.values v hv

variable {accounts : FlatSet AccountName}

theorem updateAccountUsage (hm : Chargeable m)
    (h : m.updateAccountUsage ar accounts timeSlot = .ok m') : Chargeable m' := by
  refine foldlM_invariant (I := Chargeable) h (fun m a m' hm h => ?_) hm
  obtain ⟨usage, usage', -, hadd⟩ := decayUsage_eq_ok h
  exact hm.addUsage hadd

theorem addTransactionUsage {timeSlot : Nat}
    (hm : Chargeable m)
    (h : m.addTransactionUsage ar accounts cpuUsage netUsage timeSlot = .ok m') :
    Chargeable m' := by
  obtain ⟨m₁, pendingCpu, pendingNet, hfold, -, -, rfl⟩ := addTransactionUsage_eq_ok h
  have hm₁ : Chargeable m₁ := by
    refine foldlM_invariant (I := Chargeable) hfold (fun m a m' hm h => ?_) hm
    obtain ⟨usage, usage', -, hadd⟩ := chargeAccount_eq_ok h
    exact hm.addUsage hadd
  exact { hm₁ with }

variable {account : AccountName}

theorem setAccountLimits {ramBytes netWeight cpuWeight : Int}
    {decreased : Bool} (hm : Chargeable m) (hnet : netWeight < 2 ^ 63) (hcpu : cpuWeight < 2 ^ 63)
    (h : m.setAccountLimits account ramBytes netWeight cpuWeight = .ok (decreased, m')) :
    Chargeable m' := by
  obtain ⟨limits, index, index', -, hindex, hmodify, rfl⟩ := setAccountLimits_eq_ok h
  obtain ⟨l, -, -, hmodified⟩ := modify_eq_ok hmodify fun _ => rfl
  refine { hm with weights := fun k hk => ?_ }
  rcases hmodified.mem_iff.1 hk with rfl | ⟨hk, -⟩
  · exact ⟨hcpu, hnet⟩
  · rcases hindex with ⟨-, rfl⟩ | ⟨⟨actual, hactual, -, hcpuEq, hnetEq⟩, hcreated⟩
    · exact hm.weights k hk
    · rcases hcreated.mem_iff.1 hk with rfl | hk
      · rw [hcpuEq, hnetEq]
        exact hm.weights actual hactual
      · exact hm.weights k hk

theorem applyPendingLimits {pending : ResourceLimitsObject} (hm : Chargeable m)
    (hpending : pending.cpuWeight < 2 ^ 63 ∧ pending.netWeight < 2 ^ 63)
    (h : m.applyPendingLimits pending = .ok m') : Chargeable m' := by
  obtain ⟨actual, _, _, _, index, index', -, hmodify, hremoved, rfl⟩ :=
    applyPendingLimits_eq_ok h
  obtain ⟨l, -, -, hmodified⟩ := modify_eq_ok hmodify fun _ => rfl
  refine { hm with weights := fun k hk => ?_ }
  rcases hmodified.mem_iff.1 (hremoved.mem_iff.1 hk).1 with rfl | ⟨hk, -⟩
  · exact hpending
  · exact hm.weights k hk

theorem processAccountLimitUpdates (hm : Chargeable m)
    (h : m.processAccountLimitUpdates = .ok m') : Chargeable m' := by
  have hloop : Meets m.processAccountLimitUpdates Chargeable fun _ => True := by
    refine (meets_foldlM (I := fun rest m => Chargeable m
      ∧ ∀ p ∈ rest, p.cpuWeight < 2 ^ 63 ∧ p.netWeight < 2 ^ 63) ?_ _ m ⟨hm, ?_⟩).mono
      (fun _ h => h.1) fun _ he => he
    · intro pending rest m ⟨hm, hrest⟩
      refine meets_ok_iff.2 fun m' h => ⟨?_, fun p hp => hrest p (mem_cons_of_mem _ hp)⟩
      exact hm.applyPendingLimits (hrest pending mem_cons_self) h
    · intro p hp
      rw [mem_insertionSort, mem_filter] at hp
      exact hm.weights p hp.1
  exact hloop.of_ok h

theorem addPendingRamUsage {ramDelta : Int} {accounts : AccountResources}
    (hm : Chargeable m) (h : m.accounts.addPendingRamUsage account ramDelta = .ok accounts) :
    Chargeable { m with accounts } := by
  refine { hm with
    weights := fun l hl => hm.weights l (AccountResources.limits_addPendingRamUsage h ▸ hl)
    values := fun w hw => ?_ }
  obtain ⟨v, hv, hcpu, hnet⟩ := AccountResources.usage_addPendingRamUsage h hw
  rw [hcpu, hnet]
  exact hm.values v hv

variable {params : ElasticLimitParameters}

theorem updateElasticLimit_le {currentLimit averageUsage limit : Nat}
    (h : params.updateElasticLimit ar currentLimit averageUsage = .ok limit) :
    limit ≤ params.max * params.maxMultiplier := by
  obtain ⟨result, _, most, hmost, h⟩ := bind₂_eq_ok.1 h
  cases h
  exact le_trans (min_le_right _ _) (le_of_fit hmost)

theorem processUsage_le {average average' : UsageAccumulator}
    {pendingUsage virtualLimit blockNum limit : Nat}
    (h : params.processUsage ar average pendingUsage virtualLimit blockNum = .ok (average', limit)) :
    limit ≤ params.max * params.maxMultiplier := by
  obtain ⟨_, _, _, hlimit, h⟩ := bind₂_eq_ok.1 h
  cases h
  exact updateElasticLimit_le hlimit

theorem updateBlock {cfg : ChainConfig} {blockNum : Nat} (hm : Chargeable m) (hcfg : cfg.NetFits)
    (h : m.updateBlock ar cfg blockNum = .ok m') : Chargeable m' := by
  obtain ⟨cpuParams, hcpuParams, h⟩ := bind_eq_ok.1 h
  obtain ⟨cpuTarget, _, hcpuParams⟩ := bind_eq_ok.1 hcpuParams
  cases hcpuParams
  obtain ⟨netParams, hnetParams, h⟩ := bind_eq_ok.1 h
  obtain ⟨netTarget, _, hnetParams⟩ := bind_eq_ok.1 hnetParams
  cases hnetParams
  obtain ⟨m₁, hset, h⟩ := bind_eq_ok.1 h
  have hset' := BlocksFit.setBlockParameters_eq_ok m cpuTarget cfg.maxBlockCpuUsage.toNat netTarget
    cfg.maxBlockNetUsage.toNat
  obtain rfl := Except.ok.inj (hset.symm.trans hset')
  obtain ⟨⟨averageCpu, virtualCpu⟩, hcpu, h⟩ := bind_eq_ok.1 h
  obtain ⟨⟨averageNet, virtualNet⟩, hnet, h⟩ := bind_eq_ok.1 h
  cases h
  have hcpuLe : virtualCpu ≤ cfg.maxBlockCpuUsage.toNat * 1000 := processUsage_le hcpu
  have hnetLe : virtualNet ≤ cfg.maxBlockNetUsage.toNat * 1000 := processUsage_le hnet
  have hcfg : cfg.maxBlockNetUsage.toNat ≤ mostNetUsage := hcfg
  have hcpuMax := cfg.maxBlockCpuUsage.toNat_lt
  have hmost : mostNetUsage = 213503982334 := rfl
  refine { hm with virtualCpuLimit_le := ?_, virtualNetLimit_le := ?_ }
  · show virtualCpu ≤ _
    omega
  · show virtualNet ≤ _
    omega

theorem initializeDatabase : Chargeable .initializeDatabase where
  cpuWindow := rfl
  netWindow := rfl
  virtualCpuLimit_le := by decide
  virtualNetLimit_le := by decide
  weights l hl := absurd hl (Table.notMem_empty l)
  values u hu := absurd hu (Table.notMem_empty u)

end Chargeable

namespace ResourceState

variable {s s' : ResourceState}

/-- What holds in every state of a chain with block maxima of at most `mostNetUsage`. -/
structure Charges (s : ResourceState) : Prop where
  fits : s.configuration.NetFits
  chargeable : Chargeable s.limits

theorem charges_perform {a : ResourceAction} (hs : s.Charges) (ha : s.Allows ChainConfig.NetFits a)
    (h : s.perform a = .ok s') : s'.Charges := by
  cases a with
  | initializeAccount account =>
    obtain ⟨accounts, hinit, h⟩ := bind_eq_ok.1 h
    cases h
    obtain ⟨⟨l, limits⟩, hlimits, hinit⟩ := bind_eq_ok.1 hinit
    obtain ⟨⟨u, usage⟩, husage, hinit⟩ := bind_eq_ok.1 hinit
    cases hinit
    obtain ⟨rfl, hlimits⟩ := create_eq_ok hlimits
    obtain ⟨rfl, husage⟩ := create_eq_ok husage
    refine ⟨hs.fits, { hs.chargeable with weights := fun k hk => ?_, values := fun v hv => ?_ }⟩
    · rcases hlimits.mem_iff.1 hk with rfl | hk
      · show (-1) < 2 ^ 63 ∧ (-1 : Int) < 2 ^ 63
        decide
      · exact hs.chargeable.weights k hk
    · rcases husage.mem_iff.1 hv with rfl | hv
      · show 0 < 2 ^ 64 ∧ 0 < 2 ^ 64
        decide
      · exact hs.chargeable.values v hv
  | addPendingRamUsage account ramDelta =>
    obtain ⟨accounts, hadd, h⟩ := bind_eq_ok.1 h
    cases h
    exact ⟨hs.fits, hs.chargeable.addPendingRamUsage hadd⟩
  | setResourceLimits account ramBytes netWeight cpuWeight =>
    obtain ⟨_, _, _, _, _, _, h⟩ := bind₃_eq_ok.1 h
    obtain ⟨⟨_, limits⟩, hset, h⟩ := bind_eq_ok.1 h
    cases h
    exact ⟨hs.fits, hs.chargeable.setAccountLimits netWeight.toInt_lt cpuWeight.toInt_lt hset⟩
  | updateAccountUsage accounts timeSlot =>
    obtain ⟨limits, hupdate, h⟩ := bind_eq_ok.1 h
    cases h
    exact ⟨hs.fits, hs.chargeable.updateAccountUsage hupdate⟩
  | addTransactionUsage accounts cpuUsage netUsage timeSlot =>
    obtain ⟨limits, hadd, h⟩ := bind_eq_ok.1 h
    cases h
    exact ⟨hs.fits, hs.chargeable.addTransactionUsage hadd⟩
  | setBlockchainParameters cfg =>
    obtain ⟨_, hvalid, h⟩ := bind_eq_ok.1 h
    cases h
    exact ⟨ha, hs.chargeable⟩
  | finalizeBlock =>
    obtain ⟨limits, hprocess, limits', hupdate, h⟩ := bind₂_eq_ok.1 h
    cases h
    exact ⟨hs.fits, (hs.chargeable.processAccountLimitUpdates hprocess).updateBlock hs.fits hupdate⟩

theorem charges_of_run (h : Run ChainConfig.NetFits s) : s.Charges := by
  refine h.invariant ?_ fun _ _ _ => charges_perform
  rintro _ ⟨cfg, -, hfits, rfl⟩
  exact ⟨hfits, .initializeDatabase⟩

end ResourceState

/-! ## The charge -/

/-- The account can pay what it will be billed, and its usage is that of the time slot. -/
structure CanPay (m : ResourceLimitsManager) (a : AccountName) (cpuUsage netUsage timeSlot : Nat) :
    Prop where
  slot : ∀ u ∈ m.accounts.usage, u.owner = a →
    u.cpuUsage.lastOrdinal = timeSlot ∧ u.netUsage.lastOrdinal = timeSlot
  affords : ∀ u ∈ m.accounts.usage, u.owner = a → ∀ l, m.accounts.getAccountLimits a = .ok l →
    Affords m.state.virtualCpuLimit 172800 u.cpuUsage.valueEx l.cpuWeight m.state.totalCpuWeight
      cpuUsage
    ∧ Affords m.state.virtualNetLimit 172800 u.netUsage.valueEx l.netWeight m.state.totalNetWeight
      netUsage

namespace ResourceLimitsManager

variable {m m' : ResourceLimitsManager} {ar : Arithmetic} {a : AccountName}
  {accounts : FlatSet AccountName} {cpuUsage netUsage timeSlot : Nat}

theorem slot_updateAccountUsage (h : m.updateAccountUsage ar accounts timeSlot = .ok m') :
    ∀ u ∈ m'.accounts.usage, u.owner ∈ accounts →
      u.cpuUsage.lastOrdinal = timeSlot ∧ u.netUsage.lastOrdinal = timeSlot := by
  have hloop : Meets (m.updateAccountUsage ar accounts timeSlot) (fun m' =>
      ∀ u ∈ m'.accounts.usage, u.owner ∈ accounts → u.owner ∈ ([])
        ∨ (u.cpuUsage.lastOrdinal = timeSlot ∧ u.netUsage.lastOrdinal = timeSlot))
      fun _ => True := by
    refine meets_foldlM (I := fun rest m' => ∀ u ∈ m'.accounts.usage, u.owner ∈ accounts →
      u.owner ∈ rest ∨ (u.cpuUsage.lastOrdinal = timeSlot ∧ u.netUsage.lastOrdinal = timeSlot))
      ?_ _ m fun u _ hu => .inl hu
    intro a rest m hrest
    refine meets_ok_iff.2 fun m' h u hu hmem => ?_
    obtain ⟨usage, usage', hget, hadd⟩ := decayUsage_eq_ok h
    obtain ⟨net, cpu, index, hnet, hcpu, hmodify, -, rfl⟩ := addUsage_eq_ok hadd
    obtain ⟨v, hv, hid, hmodified⟩ := modify_eq_ok hmodify fun _ => rfl
    rcases hmodified.mem_iff.1 hu with rfl | ⟨hold, hne⟩
    · exact .inr ⟨lastOrdinal_add hcpu, lastOrdinal_add hnet⟩
    · rcases hrest u hold hmem with hin | hdone
      · rcases mem_cons.1 hin with howner | hin
        · -- the object of `a` is the one that was modified
          obtain ⟨hmem', howner'⟩ := get_eq_ok hget
          have hclash : ValueType.clash u usage = true :=
            decide_eq_true (howner.trans (of_decide_eq_true howner').symm)
          obtain rfl : u = usage := m.accounts.usage.indices.unique u hold usage hmem' hclash
          exact absurd hid.symm hne
        · exact .inl hin
      · exact .inr hdone
  intro u hu hmem
  exact (hloop.of_ok h u hu hmem).resolve_left not_mem_nil

section Harmless

variable {α β : Type} {x : Result α}

/-- A failure of the computation does not say that an account has used too much. -/
def Harmless (x : Result α) : Prop := Meets x (fun _ => True) fun e => ¬ e.UsageExceeded

theorem Harmless.bind {f : α → Result β} (hx : Harmless x) (hf : ∀ a, Harmless (f a)) :
    Harmless (x >>= f) :=
  meets_bind.2 (hx.mono (fun a _ => hf a) fun _ he => he)

theorem Harmless.meets {Q : α → Prop} (hx : Harmless x) (h : ∀ a, x = .ok a → Q a) :
    Meets x Q fun e => ¬ e.UsageExceeded := by
  cases hcase : x with
  | ok a => exact h a hcase
  | error e => exact hx.of_error hcase

theorem harmless_ok (a : α) : Harmless (.ok a) := trivial

theorem harmless_assert {cond : Prop} [Decidable cond] {type : ExceptionType} {message : String}
    (h : ¬ (Failure.exception ⟨type, message⟩).UsageExceeded) :
    Harmless (eosAssert cond type message) :=
  meets_assert (fun _ => trivial) fun _ => h

theorem harmless_fit (bits n : Nat) : Harmless (ar.fit bits n) := by
  unfold fit
  split
  · exact harmless_ok _
  · cases ar with
    | wrapping => exact harmless_ok _
    | trapping => exact not_false

theorem harmless_advance (acc : UsageAccumulator) (windowSize : Nat) :
    Harmless (acc.advance ar timeSlot windowSize) := by
  unfold advance
  split
  · exact harmless_ok _
  · refine .bind (harmless_assert not_false) fun _ => ?_
    split
    · refine .bind (.bind (harmless_assert not_false) fun _ => ?_) fun _ => harmless_ok _
      exact (harmless_fit _ _).bind fun _ => harmless_ok _
    · exact harmless_ok _

theorem harmless_add (acc : UsageAccumulator) (units windowSize : Nat) :
    Harmless (acc.add ar units timeSlot windowSize) := by
  refine .bind (harmless_assert not_false) fun _ => .bind (harmless_assert not_false) fun _ =>
    (harmless_fit _ _).bind fun _ => .bind ?_ fun _ => .bind (harmless_assert not_false) fun _ => ?_
  · exact .bind (harmless_assert not_false) fun _ => harmless_ok _
  · exact (harmless_advance _ _).bind fun _ => (harmless_fit _ _).bind fun _ =>
      (harmless_fit _ _).bind fun _ => harmless_ok _

theorem harmless_addUsage (usage : ResourceUsageObject) :
    Harmless (m.addUsage ar usage cpuUsage netUsage timeSlot) := by
  refine (harmless_add _ _ _).bind fun net => (harmless_add _ _ _).bind fun cpu => ?_
  refine Harmless.bind ?_ fun _ => harmless_ok _
  unfold Chain.modify
  cases m.accounts.usage.modify usage.id _ with
  | ok index => exact harmless_ok _
  | error e => cases e <;> exact not_false

end Harmless

theorem canPay_addUsage {usage usage' : ResourceUsageObject} {cpu net : Nat}
    (husage : usage ∈ m.accounts.usage)
    (h : m.addUsage ar usage cpu net timeSlot = .ok (usage', m')) {b : AccountName}
    (hne : b ≠ usage.owner) (hb : CanPay m b cpuUsage netUsage timeSlot) :
    CanPay m' b cpuUsage netUsage timeSlot := by
  obtain ⟨net', cpu', index, -, -, hmodify, -, rfl⟩ := addUsage_eq_ok h
  obtain ⟨v, hv, hid, hmodified⟩ := modify_eq_ok hmodify fun _ => rfl
  obtain rfl : v = usage := eq_of_id_eq hv husage hid
  have hold : ∀ u ∈ index, u.owner = b → u ∈ m.accounts.usage := by
    intro u hu howner
    rcases hmodified.mem_iff.1 hu with rfl | ⟨hu, -⟩
    · exact absurd howner.symm hne
    · exact hu
  exact ⟨fun u hu howner => hb.slot u (hold u hu howner) howner,
    fun u hu howner l hl => hb.affords u (hold u hu howner) howner l hl⟩

/-- **One account.** An account that can pay is charged, or the charge fails for another reason. -/
theorem meets_chargeAccount (hm : Chargeable m) (hpays : CanPay m a cpuUsage netUsage timeSlot) :
    Meets (m.chargeAccount ar a cpuUsage netUsage timeSlot)
      (fun m' => Chargeable m' ∧ ∀ b ≠ a, CanPay m b cpuUsage netUsage timeSlot →
        CanPay m' b cpuUsage netUsage timeSlot) fun e => ¬ e.UsageExceeded := by
  refine meets_bind.2 ?_
  cases hget : Chain.get m.accounts.usage (·.owner = a) with
  | error e =>
    unfold Chain.get at hget
    split at hget
    · cases hget
      exact not_false
    · cases hget
  | ok usage =>
  obtain ⟨husage, howner⟩ := get_eq_ok hget
  replace howner : usage.owner = a := of_decide_eq_true howner
  refine meets_bind.2 ?_
  cases hlimits : m.accounts.getAccountLimits a with
  | error e =>
    unfold AccountResources.getAccountLimits Chain.get at hlimits
    split at hlimits
    · cases hlimits
    · split at hlimits
      · cases hlimits
        exact not_false
      · cases hlimits
  | ok limits =>
  refine meets_bind.2 ((harmless_addUsage usage).meets fun r hadd => ?_)
  obtain ⟨usage', m'⟩ := r
  have hrest : Chargeable m' ∧ ∀ b ≠ a, CanPay m b cpuUsage netUsage timeSlot →
      CanPay m' b cpuUsage netUsage timeSlot :=
    ⟨hm.addUsage hadd, fun b hb => canPay_addUsage husage hadd (howner.symm ▸ hb)⟩
  obtain ⟨net, cpu, index, hnet, hcpu, hmodify, rfl, rfl⟩ := addUsage_eq_ok hadd
  obtain ⟨hslotCpu, hslotNet⟩ := hpays.slot usage husage howner
  obtain ⟨haffordsCpu, haffordsNet⟩ := hpays.affords usage husage howner limits hlimits
  obtain ⟨hweightCpu, hweightNet⟩ :=
    hm.weights limits (AccountResources.getAccountLimits_eq_ok hlimits)
  obtain ⟨hvalueCpu, hvalueNet⟩ := hm.values usage husage
  rw [hm.cpuWindow] at hcpu
  rw [hm.netWindow] at hnet
  refine meets_bind.2 (meets_of_eq_ok (checkWindow_of_affords hm.virtualCpuLimit_le hweightCpu
    hm.cpuWindow (valueEx_lt_of_add hcpu) (valueEx_add_same hslotCpu hvalueCpu hcpu) haffordsCpu) ?_)
  exact meets_bind.2 (meets_of_eq_ok (checkWindow_of_affords hm.virtualNetLimit_le hweightNet
    hm.netWindow (valueEx_lt_of_add hnet) (valueEx_add_same hslotNet hvalueNet hnet) haffordsNet)
    hrest)

/-- **All accounts.** Each is billed once, so what the earlier ones are charged takes nothing from
the later ones. -/
theorem not_usageExceeded_of_canPay (hm : Chargeable m)
    (hpays : ∀ a ∈ accounts, CanPay m a cpuUsage netUsage timeSlot) {e : Failure}
    (h : m.addTransactionUsage ar accounts cpuUsage netUsage timeSlot = .error e) :
    ¬ e.UsageExceeded := by
  have hloop : Meets (m.addTransactionUsage ar accounts cpuUsage netUsage timeSlot)
      (fun _ => True) fun e => ¬ e.UsageExceeded := by
    refine meets_bind.2 ?_
    have hnodup : accounts.entries.Nodup := by
      have hkeys := accounts.nodup_keys
      rwa [map_id'] at hkeys
    refine (meets_foldlM (I := fun rest m => Chargeable m ∧ rest.Nodup
      ∧ ∀ a ∈ rest, CanPay m a cpuUsage netUsage timeSlot) ?_ _ m ⟨hm, hnodup, hpays⟩).mono
      (fun m _ => ?_) fun _ he => he
    · intro a rest m ⟨hm, hnodup, hpays⟩
      obtain ⟨hnew, hnodup⟩ := nodup_cons.1 hnodup
      refine (meets_chargeAccount hm (hpays a mem_cons_self)).mono ?_ fun _ he => he
      intro m' ⟨hm', hothers⟩
      refine ⟨hm', hnodup, fun b hb => ?_⟩
      have hne : b ≠ a := fun heq => hnew (heq ▸ hb)
      exact hothers b hne (hpays b (mem_cons_of_mem _ hb))
    · exact (harmless_fit _ _).bind fun _ => (harmless_fit _ _).bind fun _ =>
        .bind (harmless_assert not_false) fun _ => .bind (harmless_assert not_false) fun _ =>
        harmless_ok _
  exact hloop.of_error h

theorem canPay_of_promises (hm : Chargeable m)
    (hslot : ∀ u ∈ m.accounts.usage, u.owner = a →
      u.cpuUsage.lastOrdinal = timeSlot ∧ u.netUsage.lastOrdinal = timeSlot)
    {greylistCpu greylistNet : Nat} {availableCpu availableNet : Int} {flagCpu flagNet : Bool}
    (hcpu : m.getAccountCpuLimit ar a greylistCpu = .ok (availableCpu, flagCpu))
    (hpromiseCpu : Promises availableCpu cpuUsage)
    (hnet : m.getAccountNetLimit ar a greylistNet = .ok (availableNet, flagNet))
    (hpromiseNet : Promises availableNet netUsage) : CanPay m a cpuUsage netUsage timeSlot := by
  refine ⟨hslot, fun u hu howner l hl => ?_⟩
  obtain ⟨hweightCpu, hweightNet⟩ := hm.weights l (AccountResources.getAccountLimits_eq_ok hl)
  obtain ⟨hvalueCpu, hvalueNet⟩ := hm.values u hu
  have hunique : ∀ v, Chain.get m.accounts.usage (·.owner = a) = .ok v → v = u := by
    intro v hget
    obtain ⟨hv, hvowner⟩ := get_eq_ok hget
    exact m.accounts.usage.indices.unique v hv u hu
      (decide_eq_true ((of_decide_eq_true hvowner).trans howner.symm))
  constructor
  · obtain ⟨v, hget, l', hl', ⟨arl, flag⟩, hlimit, hcpu⟩ := bind₃_eq_ok.1 hcpu
    obtain rfl := hunique v hget
    obtain rfl := Except.ok.inj (hl.symm.trans hl')
    cases hcpu
    rw [hm.cpuWindow] at hlimit
    exact affords_of_accountLimit hm.virtualCpuLimit_le hweightCpu hvalueCpu hlimit hpromiseCpu
  · obtain ⟨v, hget, l', hl', ⟨arl, flag⟩, hlimit, hnet⟩ := bind₃_eq_ok.1 hnet
    obtain rfl := hunique v hget
    obtain rfl := Except.ok.inj (hl.symm.trans hl')
    cases hnet
    rw [hm.netWindow] at hlimit
    exact affords_of_accountLimit hm.virtualNetLimit_le hweightNet hvalueNet hlimit hpromiseNet

def Promised (m : ResourceLimitsManager) (a : AccountName) (cpuUsage netUsage : UInt64) : Prop :=
  (∃ (greylistLimit : UInt32) (available : Int) (greylisted : Bool),
    m.getAccountCpuLimit .wrapping a greylistLimit.toNat = .ok (available, greylisted)
      ∧ Promises available cpuUsage.toNat)
  ∧ ∃ (greylistLimit : UInt32) (available : Int) (greylisted : Bool),
    m.getAccountNetLimit .wrapping a greylistLimit.toNat = .ok (available, greylisted)
      ∧ Promises available netUsage.toNat

end ResourceLimitsManager

namespace ResourceState

variable {s : ResourceState}

/-- **What was promised can be paid.** In every state of a chain whose configurations have a net
maximum of at most `mostNetUsage`, amounts that the queries promise to every billed account, with any
greylist limits, are charged without exceeding a limit. -/
theorem charge_of_promise (h : Run ChainConfig.NetFits s) {accounts : FlatSet AccountName}
    {timeSlot : UInt32} {m : ResourceLimitsManager}
    (hupdate : s.limits.updateAccountUsage .wrapping accounts timeSlot.toNat = .ok m)
    {cpuUsage netUsage : UInt64} (hpromised : ∀ a ∈ accounts, m.Promised a cpuUsage netUsage)
    {e : Failure}
    (he : m.addTransactionUsage .wrapping accounts cpuUsage.toNat netUsage.toNat timeSlot.toNat
      = .error e) : ¬ e.UsageExceeded := by
  have hm : Chargeable m := (charges_of_run h).chargeable.updateAccountUsage hupdate
  refine not_usageExceeded_of_canPay hm (fun a ha => ?_) he
  obtain ⟨⟨_, _, _, hcpu, hpromiseCpu⟩, _, _, _, hnet, hpromiseNet⟩ := hpromised a ha
  refine canPay_of_promises hm (fun u hu howner => ?_) hcpu hpromiseCpu hnet
    hpromiseNet
  exact slot_updateAccountUsage hupdate u hu (howner.symm ▸ ha)

/-- The queries for the account 1 with the net greylist limit `greylistLimit`, where its cpu is
unlimited, and the charge of net usage after them. -/
def billsOne (s : ResourceState) (greylistLimit : UInt32) (available : Int) (greylisted : Bool)
    (netUsage : UInt64) (charge : ResourceLimitsManager → Bool) : Bool :=
  match s.limits.updateAccountUsage .wrapping (ofList [1]) 1 with
  | .ok m =>
    m.getAccountCpuLimit .wrapping 1 0 = .ok (-1, false)
      ∧ m.getAccountNetLimit .wrapping 1 greylistLimit.toNat = .ok (available, greylisted)
      ∧ 0 < available ∧ netUsage.toNat ≤ available ∧ charge m = true
  | .error _ => false

theorem promised_of_billsOne {greylistLimit : UInt32} {available : Int} {greylisted : Bool}
    {netUsage : UInt64} {charge : ResourceLimitsManager → Bool}
    (h : s.billsOne greylistLimit available greylisted netUsage charge = true) :
    ∃ m, s.limits.updateAccountUsage .wrapping (ofList [1]) (1 : UInt32).toNat = .ok m
      ∧ (∀ a ∈ ofList [1], m.Promised a 0 netUsage) ∧ charge m = true := by
  unfold billsOne at h
  split at h
  · next m hupdate =>
    obtain ⟨hcpu, hnet, hpos, hle, hcharge⟩ := of_decide_eq_true h
    refine ⟨m, hupdate, fun a ha => ?_, hcharge⟩
    obtain rfl : a = 1 := by simpa using mem_ofList.1 ha
    exact ⟨⟨0, -1, false, hcpu, .inl rfl⟩, greylistLimit, available, greylisted, hnet,
      .inr ⟨hpos, hle⟩⟩
  · cases h

def twoWeights : List ResourceAction :=
  [.initializeAccount 1, .initializeAccount 2,
    .setResourceLimits 1 (-1) 4611686018427387904 (-1),
    .setResourceLimits 2 (-1) 9223372036854775807 (-1), .finalizeBlock]

/-- A million bytes are promised to the account 1 and charged. -/
theorem charge_of_default_promise :
    ∃ s m, Run ChainConfig.NetFits s
      ∧ s.limits.updateAccountUsage .wrapping (ofList [1]) (1 : UInt32).toNat = .ok m
      ∧ (∀ a ∈ ofList [1], m.Promised a 0 1000000)
      ∧ ∀ e, m.addTransactionUsage .wrapping (ofList [1]) (0 : UInt64).toNat
        (1000000 : UInt64).toNat (1 : UInt32).toNat = .error e → ¬ e.UsageExceeded := by
  have hstart : Run ChainConfig.NetFits (genesis {}) := .start ⟨{}, by decide, by decide, rfl⟩
  have hreplay : (replay perform (Allows ChainConfig.NetFits) (genesis {}) twoWeights).any
      (fun s => s.billsOne 1000 60458400000 false 1000000 fun _ => true) = true := by
    decide +kernel
  obtain ⟨s, hrun, hbills⟩ := hstart.replay hreplay
  obtain ⟨m, hupdate, hpromised, -⟩ := promised_of_billsOne hbills
  exact ⟨s, m, hrun, hupdate, hpromised, fun e he => charge_of_promise hrun hupdate hpromised he⟩

/-- **A promise that is broken.** The virtual limit of the first configuration outlives it by a block,
and its product with the window and the weight of account 1 is 281 * 2^70 more than 2^128. The query
uses the greylist limit, and promises a third of what the smaller maximum gives; the charge wraps. -/
theorem promise_broken_by_wrapping :
    ∃ s m, Run (fun _ => True) s
      ∧ s.limits.updateAccountUsage .wrapping (ofList [1]) (1 : UInt32).toNat = .ok m
      ∧ (∀ a ∈ ofList [1], m.Promised a 0 1000000)
      ∧ m.addTransactionUsage .wrapping (ofList [1]) (0 : UInt64).toNat
        (1000000 : UInt64).toNat (1 : UInt32).toNat = .error (.exception ⟨.txNetUsageExceeded,
          "authorizing account '${n}' has insufficient net resources for this transaction"⟩) := by
  have hstart : Run (fun _ => True) (genesis { maxBlockNetUsage := 426580956704534 }) :=
    .start ⟨_, by decide +kernel, trivial, rfl⟩
  have hreplay : (replay perform (Allows fun _ => True)
      (genesis { maxBlockNetUsage := 426580956704534 })
      (twoWeights ++ [.setBlockchainParameters { maxBlockNetUsage := 106751991167300 },
        .finalizeBlock])).any
      (fun s => s.billsOne 1 6148914691236480000 true 1000000 fun m =>
        m.addTransactionUsage .wrapping (ofList [1]) (0 : UInt64).toNat
          (1000000 : UInt64).toNat (1 : UInt32).toNat = .error (.exception ⟨.txNetUsageExceeded,
          "authorizing account '${n}' has insufficient net resources for this transaction"⟩))
      = true := by
    decide +kernel
  obtain ⟨s, hrun, hbills⟩ := hstart.replay hreplay
  obtain ⟨m, hupdate, hpromised, hcharge⟩ := promised_of_billsOne hbills
  exact ⟨s, m, hrun, hupdate, hpromised, of_decide_eq_true hcharge⟩

end ResourceState

end PotatoNode.Chain
