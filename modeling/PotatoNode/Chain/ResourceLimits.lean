import PotatoNode.Chain.ResourceUsage

/-!
# The resource limits manager (`resource_limits.cpp`)

The cpu and net of blocks and of accounts. A block has a maximum of each; the *virtual* limit of a
resource is what the blocks are pretended to have while they are not congested, and an account gets
its share of the virtual limits over a day, in proportion to the weight it has staked.

The checks for cpu and for net differ in nothing but the numbers they read; `checkWindow` and
`accountLimit` are the two bodies, and the functions of the source are these at their own numbers.
-/

namespace PotatoNode.Chain

open Lib Chainbase

/-! ## Elastic limits -/

structure ElasticLimitParameters where
  /-- the desired usage -/
  target : Nat
  /-- the maximum usage -/
  max : Nat
  /-- the number of aggregation periods that contribute to the average usage -/
  periods : Nat
  /-- the multiplier by which virtual space can oversell usage when uncongested -/
  maxMultiplier : Nat
  /-- the rate at which a congested resource contracts its limit -/
  contractRate : Ratio
  /-- the rate at which an uncongested resource expands its limits -/
  expandRate : Ratio
deriving DecidableEq, Repr

namespace ElasticLimitParameters

def validate (params : ElasticLimitParameters) : Result Unit := do
  eosAssert (0 < params.periods) .resourceLimitException
    "elastic limit parameter 'periods' cannot be zero"
  eosAssert (0 < params.contractRate.denominator) .resourceLimitException
    "elastic limit parameter 'contract_rate' is not a well-defined ratio"
  eosAssert (0 < params.expandRate.denominator) .resourceLimitException
    "elastic limit parameter 'expand_rate' is not a well-defined ratio"

def updateElasticLimit (ar : Arithmetic) (currentLimit averageUsage : Nat)
    (params : ElasticLimitParameters) : Result Nat := do
  let rate := if params.target < averageUsage then params.contractRate else params.expandRate
  let result ← rate.scale ar currentLimit
  let most ← ar.fit 64 (params.max * params.maxMultiplier)
  .ok (min (Max.max result params.max) most)

/-- One resource in `process_block_usage`: the pending usage enters the average, and the virtual limit
follows the average. -/
def processUsage (ar : Arithmetic) (params : ElasticLimitParameters) (average : UsageAccumulator)
    (pendingUsage virtualLimit blockNum : Nat) : Result (UsageAccumulator × Nat) := do
  let average ← average.add ar pendingUsage blockNum params.periods
  let virtualLimit ← params.updateElasticLimit ar virtualLimit average.average
  .ok (average, virtualLimit)

end ElasticLimitParameters

def eosPercent (ar : Arithmetic) (value percentage : Nat) : Result Nat := do
  let product ← ar.fit 64 (value * percentage)
  .ok (product / 10000)

def maximumElasticResourceMultiplier : Nat := 1000

def blockIntervalMs : Nat := 500

def blockCpuUsageAverageWindow : Nat := 60 * 1000 / blockIntervalMs

def blockSizeAverageWindow : Nat := 60 * 1000 / blockIntervalMs

def blockParameters (target max periods : Nat) : ElasticLimitParameters :=
  ⟨target, max, periods, maximumElasticResourceMultiplier, ⟨99, 100⟩, ⟨1000, 999⟩⟩

/-! ## The objects of the manager -/

structure ResourceLimitsConfigObject where
  /-- `EOS_PERCENT(config::default_max_block_cpu_usage, config::default_target_block_cpu_usage_pct)` -/
  cpuLimitParameters : ElasticLimitParameters :=
    blockParameters (500000 * 1000 / 10000) 500000 blockCpuUsageAverageWindow
  netLimitParameters : ElasticLimitParameters :=
    blockParameters (1024 * 1024 * 1000 / 10000) (1024 * 1024) blockSizeAverageWindow
  accountCpuUsageAverageWindow : Nat := 24 * 60 * 60 * 1000 / blockIntervalMs
  accountNetUsageAverageWindow : Nat := 24 * 60 * 60 * 1000 / blockIntervalMs
deriving DecidableEq, Repr

structure ResourceLimitsStateObject where
  averageBlockNetUsage : UsageAccumulator := {}
  averageBlockCpuUsage : UsageAccumulator := {}
  pendingNetUsage : Nat := 0
  pendingCpuUsage : Nat := 0
  totalNetWeight : Nat := 0
  totalCpuWeight : Nat := 0
  totalRamBytes : Nat := 0
  virtualNetLimit : Nat := 0
  virtualCpuLimit : Nat := 0
deriving DecidableEq, Repr

/-- `resource_limits_manager`, with its objects. -/
structure ResourceLimitsManager where
  accounts : AccountResources := ⟨emptyIndex, emptyIndex⟩
  config : ResourceLimitsConfigObject := {}
  state : ResourceLimitsStateObject := {}

namespace ResourceLimitsManager

/-- `initialize_database`: start the chain off in a way that it is "congested" aka slow-start. -/
def initializeDatabase : ResourceLimitsManager :=
  let config : ResourceLimitsConfigObject := {}
  { config, state :=
    { virtualCpuLimit := config.cpuLimitParameters.max
      virtualNetLimit := config.netLimitParameters.max } }

variable (ar : Arithmetic) (m : ResourceLimitsManager)

def setBlockParameters (cpuLimitParameters netLimitParameters : ElasticLimitParameters) :
    Result ResourceLimitsManager := do
  cpuLimitParameters.validate
  netLimitParameters.validate
  if m.config.cpuLimitParameters = cpuLimitParameters
      ∧ m.config.netLimitParameters = netLimitParameters then .ok m
  else .ok { m with config := { m.config with cpuLimitParameters, netLimitParameters } }

def processBlockUsage (blockNum : Nat) : Result ResourceLimitsManager := do
  let s := m.state
  let (averageBlockCpuUsage, virtualCpuLimit) ← m.config.cpuLimitParameters.processUsage ar
    s.averageBlockCpuUsage s.pendingCpuUsage s.virtualCpuLimit blockNum
  let (averageBlockNetUsage, virtualNetLimit) ← m.config.netLimitParameters.processUsage ar
    s.averageBlockNetUsage s.pendingNetUsage s.virtualNetLimit blockNum
  .ok { m with state := { s with
    averageBlockCpuUsage, virtualCpuLimit, pendingCpuUsage := 0
    averageBlockNetUsage, virtualNetLimit, pendingNetUsage := 0 } }

/-! ## Accounts -/

def addUsage (usage : ResourceUsageObject) (cpuUsage netUsage timeSlot : Nat) :
    Result (ResourceUsageObject × ResourceLimitsManager) := do
  let net ← usage.netUsage.add ar netUsage timeSlot m.config.accountNetUsageAverageWindow
  let cpu ← usage.cpuUsage.add ar cpuUsage timeSlot m.config.accountCpuUsageAverageWindow
  let index ← Chain.modify m.accounts.usage usage.id fun u => { u with netUsage := net, cpuUsage := cpu }
  .ok ({ usage with netUsage := net, cpuUsage := cpu },
    { m with accounts := { m.accounts with usage := index } })

def decayUsage (a : AccountName) (timeSlot : Nat) : Result ResourceLimitsManager := do
  let usage ← Chain.get m.accounts.usage (·.owner = a)
  let (_, m) ← m.addUsage ar usage 0 0 timeSlot
  .ok m

def updateAccountUsage (accounts : FlatSet AccountName) (timeSlot : Nat) :
    Result ResourceLimitsManager :=
  accounts.entries.foldlM (fun m a => m.decayUsage ar a timeSlot) m

/-- The check of one resource in `add_transaction_usage`. -/
def checkWindow (virtualLimit windowSize valueEx : Nat) (weight : Int) (totalWeight : Nat)
    (type : ExceptionType) (message : String) : Result Unit :=
  if 0 ≤ weight ∧ 0 < totalWeight then do
    let virtualCapacityInWindow ← ar.fit 128 (virtualLimit * windowSize)
    let extended ← ar.fit 128 (valueEx * windowSize)
    let usedInWindow := extended / rateLimitingPrecision
    let share ← ar.fit 128 (virtualCapacityInWindow * weight.toNat)
    let maxUserUseInWindow := share / totalWeight
    eosAssert (usedInWindow ≤ maxUserUseInWindow) type message
  else .ok ()

def chargeAccount (a : AccountName) (cpuUsage netUsage timeSlot : Nat) :
    Result ResourceLimitsManager := do
  let usage ← Chain.get m.accounts.usage (·.owner = a)
  let limits ← m.accounts.getAccountLimits a
  let (usage, m) ← m.addUsage ar usage cpuUsage netUsage timeSlot
  checkWindow ar m.state.virtualCpuLimit m.config.accountCpuUsageAverageWindow
    usage.cpuUsage.valueEx limits.cpuWeight m.state.totalCpuWeight .txCpuUsageExceeded
    "authorizing account '${n}' has insufficient cpu resources for this transaction"
  checkWindow ar m.state.virtualNetLimit m.config.accountNetUsageAverageWindow
    usage.netUsage.valueEx limits.netWeight m.state.totalNetWeight .txNetUsageExceeded
    "authorizing account '${n}' has insufficient net resources for this transaction"
  .ok m

def addTransactionUsage (accounts : FlatSet AccountName) (cpuUsage netUsage timeSlot : Nat) :
    Result ResourceLimitsManager := do
  let m ← accounts.entries.foldlM (fun m a => m.chargeAccount ar a cpuUsage netUsage timeSlot) m
  -- account for this transaction in the block and do not exceed those limits either
  let pendingCpuUsage ← ar.fit 64 (m.state.pendingCpuUsage + cpuUsage)
  let pendingNetUsage ← ar.fit 64 (m.state.pendingNetUsage + netUsage)
  let m := { m with state := { m.state with pendingCpuUsage, pendingNetUsage } }
  eosAssert (pendingCpuUsage ≤ m.config.cpuLimitParameters.max) .blockResourceExhausted
    "Block has insufficient cpu resources"
  eosAssert (pendingNetUsage ≤ m.config.netLimitParameters.max) .blockResourceExhausted
    "Block has insufficient net resources"
  .ok m

/-! ## Weights -/

def findOrCreatePendingLimits (account : AccountName) :
    Result (ResourceLimitsObject × GenericIndex ResourceLimitsObject) :=
  match find m.accounts.limits fun l => l.pending = true ∧ l.owner = account with
  | some pending => .ok (pending, m.accounts.limits)
  | none => do
    let limits ← Chain.get m.accounts.limits fun l => l.pending = false ∧ l.owner = account
    create m.accounts.limits fun id =>
      { id, owner := limits.owner, pending := true, ramBytes := limits.ramBytes,
        netWeight := limits.netWeight, cpuWeight := limits.cpuWeight }

/-- `set_account_limits`; whether the RAM limit has become more restrictive is returned. -/
def setAccountLimits (account : AccountName) (ramBytes netWeight cpuWeight : Int) :
    Result (Bool × ResourceLimitsManager) := do
  let (limits, index) ← m.findOrCreatePendingLimits account
  let decreasedLimit := decide (0 ≤ ramBytes ∧ (limits.ramBytes < 0 ∨ ramBytes < limits.ramBytes))
  let index ← Chain.modify index limits.id fun l => { l with ramBytes, netWeight, cpuWeight }
  .ok (decreasedLimit, { m with accounts := { m.accounts with limits := index } })

def updateStateAndValue (total : Nat) (value pendingValue : Int) : Result Nat := do
  let total ←
    if 0 < value then do
      eosAssert (value ≤ total) .rateLimitingStateInconsistent
        "underflow when reverting old value to ${which}"
      .ok (total - value.toNat)
    else .ok total
  if 0 < pendingValue then do
    eosAssert (pendingValue ≤ uint64Max - total) .rateLimitingStateInconsistent
      "overflow when applying new value to ${which}"
    .ok (total + pendingValue.toNat)
  else .ok total

def applyPendingLimits (pending : ResourceLimitsObject) : Result ResourceLimitsManager := do
  let actual ← Chain.get m.accounts.limits fun l => l.pending = false ∧ l.owner = pending.owner
  let totalRamBytes ← updateStateAndValue m.state.totalRamBytes actual.ramBytes pending.ramBytes
  let totalCpuWeight ← updateStateAndValue m.state.totalCpuWeight actual.cpuWeight pending.cpuWeight
  let totalNetWeight ← updateStateAndValue m.state.totalNetWeight actual.netWeight pending.netWeight
  let index ← Chain.modify m.accounts.limits actual.id fun l =>
    { l with ramBytes := pending.ramBytes, netWeight := pending.netWeight,
             cpuWeight := pending.cpuWeight }
  let index ← remove index pending.id
  .ok { m with
    accounts := { m.accounts with limits := index }
    state := { m.state with totalRamBytes, totalCpuWeight, totalNetWeight } }

def processAccountLimitUpdates : Result ResourceLimitsManager :=
  ((m.accounts.limits.indices.objects.entries.filter (·.pending)).insertionSort
    (fun a b => a.owner ≤ b.owner)).foldlM (fun m pending => m.applyPendingLimits pending) m

/-! ## Queries -/

structure AccountResourceLimit where
  used : Int
  available : Int
  max : Int
deriving DecidableEq, Repr

def greylistedLimit (virtualLimit blockMax greylistLimit : Nat) : Result (Nat × Bool) :=
  if greylistLimit < maximumElasticResourceMultiplier then do
    let greylistedVirtualLimit ← ar.fit 64 (blockMax * greylistLimit)
    if greylistedVirtualLimit < virtualLimit then .ok (greylistedVirtualLimit, true)
    else .ok (virtualLimit, false)
  else .ok (virtualLimit, false)

def availableInWindow (maxUserUseInWindow usedInWindow : Nat) : Result Nat :=
  if maxUserUseInWindow ≤ usedInWindow then .ok 0
  else downgradeCast (2 ^ 63 - 1) (maxUserUseInWindow - usedInWindow)

/-- `get_account_cpu_limit_ex` and `get_account_net_limit_ex`. -/
def accountLimit (virtualLimit windowSize blockMax valueEx : Nat) (weight : Int)
    (totalWeight greylistLimit : Nat) : Result (AccountResourceLimit × Bool) :=
  if weight < 0 ∨ totalWeight = 0 then .ok (⟨-1, -1, -1⟩, false)
  else do
    let (limit, greylisted) ← greylistedLimit ar virtualLimit blockMax greylistLimit
    let virtualCapacityInWindow ← ar.fit 128 (windowSize * limit)
    let share ← ar.fit 128 (virtualCapacityInWindow * weight.toNat)
    let maxUserUseInWindow := share / totalWeight
    let extended ← ar.fit 128 (valueEx * windowSize)
    let usedInWindow := integerDivideCeil extended rateLimitingPrecision
    let available ← availableInWindow maxUserUseInWindow usedInWindow
    let used ← downgradeCast (2 ^ 63 - 1) usedInWindow
    let max ← downgradeCast (2 ^ 63 - 1) maxUserUseInWindow
    .ok (⟨used, available, max⟩, greylisted)

def getAccountCpuLimit (name : AccountName) (greylistLimit : Nat) : Result (Int × Bool) := do
  let usage ← Chain.get m.accounts.usage (·.owner = name)
  let limits ← m.accounts.getAccountLimits name
  let (arl, greylisted) ← accountLimit ar m.state.virtualCpuLimit
    m.config.accountCpuUsageAverageWindow m.config.cpuLimitParameters.max usage.cpuUsage.valueEx
    limits.cpuWeight m.state.totalCpuWeight greylistLimit
  .ok (arl.available, greylisted)

def getAccountNetLimit (name : AccountName) (greylistLimit : Nat) : Result (Int × Bool) := do
  let usage ← Chain.get m.accounts.usage (·.owner = name)
  let limits ← m.accounts.getAccountLimits name
  let (arl, greylisted) ← accountLimit ar m.state.virtualNetLimit
    m.config.accountNetUsageAverageWindow m.config.netLimitParameters.max usage.netUsage.valueEx
    limits.netWeight m.state.totalNetWeight greylistLimit
  .ok (arl.available, greylisted)

/-! ## What the calls on accounts leave alone -/

section Frames

variable {ar m} {m' : ResourceLimitsManager} {cpuUsage netUsage timeSlot : Nat}

theorem addUsage_eq_ok {usage usage' : ResourceUsageObject}
    (h : m.addUsage ar usage cpuUsage netUsage timeSlot = .ok (usage', m')) :
    ∃ net cpu index,
      usage.netUsage.add ar netUsage timeSlot m.config.accountNetUsageAverageWindow = .ok net
      ∧ usage.cpuUsage.add ar cpuUsage timeSlot m.config.accountCpuUsageAverageWindow = .ok cpu
      ∧ Chain.modify m.accounts.usage usage.id
          (fun u => { u with netUsage := net, cpuUsage := cpu }) = .ok index
      ∧ usage' = { usage with netUsage := net, cpuUsage := cpu }
      ∧ m' = { m with accounts := { m.accounts with usage := index } } := by
  obtain ⟨net, hnet, cpu, hcpu, index, hmodify, h⟩ := bind₃_eq_ok.1 h
  cases h
  exact ⟨net, cpu, index, hnet, hcpu, hmodify, rfl, rfl⟩

theorem decayUsage_eq_ok {a : AccountName} (h : m.decayUsage ar a timeSlot = .ok m') :
    ∃ usage usage', Chain.get m.accounts.usage (·.owner = a) = .ok usage
      ∧ m.addUsage ar usage 0 0 timeSlot = .ok (usage', m') := by
  obtain ⟨usage, hget, h⟩ := bind_eq_ok.1 h
  obtain ⟨⟨usage', m''⟩, hadd, h⟩ := bind_eq_ok.1 h
  cases h
  exact ⟨usage, usage', hget, hadd⟩

theorem chargeAccount_eq_ok {a : AccountName}
    (h : m.chargeAccount ar a cpuUsage netUsage timeSlot = .ok m') :
    ∃ usage usage', Chain.get m.accounts.usage (·.owner = a) = .ok usage
      ∧ m.addUsage ar usage cpuUsage netUsage timeSlot = .ok (usage', m') := by
  obtain ⟨usage, hget, limits, _, h⟩ := bind₂_eq_ok.1 h
  obtain ⟨⟨usage', m''⟩, hadd, h⟩ := bind_eq_ok.1 h
  obtain ⟨_, _, _, _, h⟩ := bind₂_eq_ok.1 h
  cases h
  exact ⟨usage, usage', hget, hadd⟩

theorem addTransactionUsage_eq_ok {accounts : FlatSet AccountName}
    (h : m.addTransactionUsage ar accounts cpuUsage netUsage timeSlot = .ok m') :
    ∃ m₁ pendingCpuUsage pendingNetUsage,
      accounts.entries.foldlM (fun m a => m.chargeAccount ar a cpuUsage netUsage timeSlot) m
        = .ok m₁
      ∧ pendingCpuUsage ≤ m₁.config.cpuLimitParameters.max
      ∧ pendingNetUsage ≤ m₁.config.netLimitParameters.max
      ∧ m' = { m₁ with state := { m₁.state with pendingCpuUsage, pendingNetUsage } } := by
  obtain ⟨m₁, hfold, pendingCpuUsage, _, pendingNetUsage, _, h⟩ := bind₃_eq_ok.1 h
  obtain ⟨_, hcpu, _, hnet, h⟩ := bind₂_eq_ok.1 h
  cases h
  exact ⟨m₁, pendingCpuUsage, pendingNetUsage, hfold, eosAssert_eq_ok.1 hcpu,
    eosAssert_eq_ok.1 hnet, rfl⟩

theorem setAccountLimits_eq_ok {account : AccountName} {ramBytes netWeight cpuWeight : Int}
    {decreased : Bool}
    (h : m.setAccountLimits account ramBytes netWeight cpuWeight = .ok (decreased, m')) :
    ∃ (limits : ResourceLimitsObject) (index index' : GenericIndex ResourceLimitsObject),
      (limits.pending = true ∧ limits.owner = account)
      ∧ ((limits ∈ m.accounts.limits ∧ index = m.accounts.limits)
        ∨ (∃ actual ∈ m.accounts.limits, (actual.pending = false ∧ actual.owner = account)
            ∧ limits.cpuWeight = actual.cpuWeight ∧ limits.netWeight = actual.netWeight)
          ∧ Created m.accounts.limits limits index)
      ∧ Chain.modify index limits.id (fun l => { l with ramBytes, netWeight, cpuWeight }) = .ok index'
      ∧ m' = { m with accounts := { m.accounts with limits := index' } } := by
  obtain ⟨⟨limits, index⟩, hlimits, h⟩ := bind_eq_ok.1 h
  obtain ⟨index', hmodify, h⟩ := bind_eq_ok.1 h
  cases h
  unfold findOrCreatePendingLimits at hlimits
  split at hlimits
  · next hfind =>
    cases hlimits
    obtain ⟨hmem, hkey⟩ := find_eq_some hfind
    exact ⟨limits, _, index', of_decide_eq_true hkey, .inl ⟨hmem, rfl⟩, hmodify, rfl⟩
  · obtain ⟨actual, hget, hcreate⟩ := bind_eq_ok.1 hlimits
    obtain ⟨heq, hcreated⟩ := create_eq_ok hcreate
    obtain ⟨hmem, hkey⟩ := get_eq_ok hget
    have hactual := of_decide_eq_true hkey
    refine ⟨limits, index, index', ?_, .inr ⟨⟨actual, hmem, hactual, ?_⟩, hcreated⟩, hmodify, rfl⟩
    · exact heq ▸ ⟨rfl, hactual.2⟩
    · exact heq ▸ ⟨rfl, rfl⟩

theorem applyPendingLimits_eq_ok {pending : ResourceLimitsObject}
    (h : m.applyPendingLimits pending = .ok m') :
    ∃ (actual : ResourceLimitsObject) (totalRamBytes totalCpuWeight totalNetWeight : Nat)
      (index index' : GenericIndex ResourceLimitsObject),
      (actual ∈ m.accounts.limits ∧ actual.pending = false)
      ∧ Chain.modify m.accounts.limits actual.id (fun l =>
        { l with ramBytes := pending.ramBytes, netWeight := pending.netWeight,
                 cpuWeight := pending.cpuWeight }) = .ok index
      ∧ Removed index pending.id index'
      ∧ m' = { m with
          accounts := { m.accounts with limits := index' }
          state := { m.state with totalRamBytes, totalCpuWeight, totalNetWeight } } := by
  obtain ⟨actual, hactual, totalRamBytes, _, totalCpuWeight, _, h⟩ := bind₃_eq_ok.1 h
  obtain ⟨totalNetWeight, _, index, hmodify, index', hremove, h⟩ := bind₃_eq_ok.1 h
  cases h
  obtain ⟨hactual, hfound⟩ := get_eq_ok hactual
  exact ⟨actual, totalRamBytes, totalCpuWeight, totalNetWeight, index, index',
    ⟨hactual, (of_decide_eq_true hfound).1⟩, hmodify, remove_eq_ok hremove, rfl⟩

/-- `process_account_limit_updates` leaves no pending limits. -/
theorem settled_of_processAccountLimitUpdates (h : m.processAccountLimitUpdates = .ok m') :
    ∀ l ∈ m'.accounts.limits, l.pending = false := by
  have hloop : Meets m.processAccountLimitUpdates
      (fun m => ∀ l ∈ m.accounts.limits, l.pending = true → l ∈ []) fun _ => True := by
    -- what is pending is yet to come
    refine meets_foldlM (I := fun rest m => ∀ l ∈ m.accounts.limits, l.pending = true → l ∈ rest) ?_
      _ m fun l hl hpending => ?_
    · intro pending rest m hrest
      refine meets_ok_iff.2 fun m' h l hl hpending => ?_
      obtain ⟨actual, _, _, _, index, index', ⟨hactual, hfalse⟩, hmodify, hremoved, rfl⟩ :=
        applyPendingLimits_eq_ok h
      obtain ⟨v, hv, hid, hmodified⟩ := modify_eq_ok hmodify fun _ => rfl
      obtain rfl : v = actual := eq_of_id_eq hv hactual hid
      obtain ⟨hl, hne⟩ := hremoved.mem_iff.1 hl
      rcases hmodified.mem_iff.1 hl with rfl | ⟨hl, -⟩
      · cases hfalse.symm.trans hpending
      · exact (List.mem_cons.1 (hrest l hl hpending)).resolve_left fun heq => hne (heq ▸ rfl)
    · rw [List.mem_insertionSort, List.mem_filter]
      exact ⟨hl, hpending⟩
  intro l hl
  refine eq_false_of_ne_true fun hpending => ?_
  cases hloop.of_ok h l hl hpending

end Frames

end ResourceLimitsManager

end PotatoNode.Chain
