import Mathlib.Data.UInt
import PotatoNode.Lib.Runs
import PotatoNode.Chain.ChainConfig
import PotatoNode.Chain.ResourceLimits

/-!
# Elastic limits under a changing configuration

The producers set the maxima of cpu and net usage by a configuration; `chain_config::validate` says
which ones are accepted. `finalize_block` derives the parameters of the elastic limits from it and
lets the virtual limits follow the usage of the block.
-/

namespace PotatoNode.Chain

open Lib Chainbase ResourceLimitsManager Nat

namespace ChainConfig

variable (ar : Arithmetic) (cfg : ChainConfig)

def cpuLimitParameters : Result ElasticLimitParameters := do
  let target ← eosPercent ar cfg.maxBlockCpuUsage.toNat cfg.targetBlockCpuUsagePct.toNat
  .ok (blockParameters target cfg.maxBlockCpuUsage.toNat blockCpuUsageAverageWindow)

def netLimitParameters : Result ElasticLimitParameters := do
  let target ← eosPercent ar cfg.maxBlockNetUsage.toNat cfg.targetBlockNetUsagePct.toNat
  .ok (blockParameters target cfg.maxBlockNetUsage.toNat blockSizeAverageWindow)

end ChainConfig

def ResourceLimitsManager.updateBlock (ar : Arithmetic) (m : ResourceLimitsManager)
    (cfg : ChainConfig) (blockNum : Nat) : Result ResourceLimitsManager := do
  let cpuLimitParameters ← cfg.cpuLimitParameters ar
  let netLimitParameters ← cfg.netLimitParameters ar
  let m ← m.setBlockParameters cpuLimitParameters netLimitParameters
  m.processBlockUsage ar blockNum

/-! ## Runs -/

structure ResourceState where
  headBlockNum : Nat
  configuration : ChainConfig
  limits : ResourceLimitsManager

inductive ResourceAction where
  /-- `newaccount` -/
  | initializeAccount (account : AccountName)
  | addPendingRamUsage (account : AccountName) (ramDelta : Int64)
  /-- the intrinsic `set_resource_limits` -/
  | setResourceLimits (account : AccountName) (ramBytes netWeight cpuWeight : Int64)
  /-- the start of a transaction -/
  | updateAccountUsage (accounts : FlatSet AccountName) (timeSlot : UInt32)
  /-- the end of a transaction -/
  | addTransactionUsage (accounts : FlatSet AccountName) (cpuUsage netUsage : UInt64)
      (timeSlot : UInt32)
  /-- the intrinsic `set_blockchain_parameters_packed` -/
  | setBlockchainParameters (cfg : ChainConfig)
  | finalizeBlock

namespace ResourceState

/-- The resource state after `controller_impl::initialize_database`. -/
def genesis (cfg : ChainConfig) : ResourceState := ⟨1, cfg, .initializeDatabase⟩

/-- The actions of a transaction that throws are undone, and a block that is not finalized is
aborted: the state changes only by actions that return. -/
def perform (s : ResourceState) : ResourceAction → Result ResourceState
  | .initializeAccount account => do
    let accounts ← s.limits.accounts.initializeAccount account
    .ok { s with limits := { s.limits with accounts } }
  | .addPendingRamUsage account ramDelta => do
    let accounts ← s.limits.accounts.addPendingRamUsage account ramDelta.toInt
    .ok { s with limits := { s.limits with accounts } }
  | .setResourceLimits account ramBytes netWeight cpuWeight => do
    eosAssert (-1 ≤ ramBytes.toInt) .wasmExecutionError
      "invalid value for ram resource limit expected [-1,INT64_MAX]"
    eosAssert (-1 ≤ netWeight.toInt) .wasmExecutionError
      "invalid value for net resource weight expected [-1,INT64_MAX]"
    eosAssert (-1 ≤ cpuWeight.toInt) .wasmExecutionError
      "invalid value for cpu resource weight expected [-1,INT64_MAX]"
    let (_, limits) ←
      s.limits.setAccountLimits account ramBytes.toInt netWeight.toInt cpuWeight.toInt
    .ok { s with limits }
  | .updateAccountUsage accounts timeSlot => do
    let limits ← s.limits.updateAccountUsage .wrapping accounts timeSlot.toNat
    .ok { s with limits }
  | .addTransactionUsage accounts cpuUsage netUsage timeSlot => do
    let limits ← s.limits.addTransactionUsage .wrapping accounts cpuUsage.toNat netUsage.toNat
      timeSlot.toNat
    .ok { s with limits }
  | .setBlockchainParameters cfg => do
    cfg.validate
    .ok { s with configuration := cfg }
  | .finalizeBlock => do
    let limits ← s.limits.processAccountLimitUpdates
    let blockNum := (s.headBlockNum + 1) % 2 ^ 32
    let limits ← limits.updateBlock .wrapping s.configuration blockNum
    .ok { s with headBlockNum := blockNum, limits }

variable (Q : ChainConfig → Prop)

def Starts (s : ResourceState) : Prop :=
  ∃ cfg : ChainConfig, cfg.validate = .ok () ∧ Q cfg ∧ s = genesis cfg

/-- Configurations are set that satisfy `Q`, and the block number fits. -/
def Allows (s : ResourceState) : ResourceAction → Prop
  | .setBlockchainParameters cfg => Q cfg
  | .finalizeBlock => s.headBlockNum + 1 < 2 ^ 32
  | _ => True

instance {Q : ChainConfig → Prop} [DecidablePred Q] (s : ResourceState) :
    ∀ a : ResourceAction, Decidable (s.Allows Q a)
  | .setBlockchainParameters cfg => inferInstanceAs (Decidable (Q cfg))
  | .finalizeBlock => inferInstanceAs (Decidable (s.headBlockNum + 1 < 2 ^ 32))
  | .initializeAccount .. | .addPendingRamUsage .. | .setResourceLimits .. | .updateAccountUsage ..
  | .addTransactionUsage .. => .isTrue trivial

/-- The states of a chain whose configurations all satisfy `Q`. -/
abbrev Run : ResourceState → Prop :=
  Reachable perform (Allows Q) (Starts Q)

end ResourceState

/-! ## One resource -/

/-- The largest maximum with which an average of full blocks can be scaled by 119 / 120 in 64 bits:
`119 * 155014656081 * 10 ^ 6 < 2 ^ 64`. -/
def mostBlockUsage : Nat := 155014656081

/-- What a full block adds to the average. -/
def mostContribution : Nat := 1291788800675000

/-- The usage of a resource fits: no block has used more than `mostBlockUsage`. -/
structure Elastic (params : ElasticLimitParameters) (average : UsageAccumulator)
    (pendingUsage virtualLimit head : Nat) : Prop where
  max_le : params.max ≤ mostBlockUsage
  pendingUsage_le : pendingUsage ≤ params.max
  average_bounded : average.Bounded 120 mostContribution
  lastOrdinal_le : average.lastOrdinal ≤ head
  virtualLimit_le : virtualLimit ≤ 1000 * mostBlockUsage

namespace Elastic

variable {params : ElasticLimitParameters} {average : UsageAccumulator}
  {pendingUsage virtualLimit head max : Nat}

theorem updateElasticLimit_eq_ok (target averageUsage : Nat)
    (hvirtual : virtualLimit ≤ 1000 * mostBlockUsage) (hmax : max ≤ mostBlockUsage) :
    ∃ limit, (∀ ar, (blockParameters target max 120).updateElasticLimit ar virtualLimit averageUsage
        = .ok limit) ∧ max ≤ limit ∧ limit ≤ 1000 * max := by
  have hmost : mostBlockUsage = 155014656081 := rfl
  obtain ⟨result, hresult⟩ : ∃ result, ∀ ar,
      (if target < averageUsage then (⟨99, 100⟩ : Ratio) else ⟨1000, 999⟩).scale ar virtualLimit
        = .ok result := by
    split
    · exact ⟨_, fun ar => (Ratio.scale_eq_ok (by decide)).2
        ⟨show virtualLimit * 99 < _ by omega, rfl⟩⟩
    · exact ⟨_, fun ar => (Ratio.scale_eq_ok (by decide)).2
        ⟨show virtualLimit * 1000 < _ by omega, rfl⟩⟩
  have hfits : max * 1000 < 2 ^ 64 := by omega
  refine ⟨min (Max.max result max) (max * 1000), fun ar => ?_, ?_, ?_⟩
  · exact bind_eq_ok.2 ⟨_, hresult ar, bind_eq_ok.2 ⟨_, Arithmetic.fit_of_lt hfits, rfl⟩⟩
  · exact Nat.le_min.2 ⟨Nat.le_max_right _ _, by omega⟩
  · exact le_trans (min_le_right _ _) (by omega)

/-- **One block.** The pending usage of a block is bounded by the old maximum, the virtual limit ends
between the new maximum and its thousandfold. -/
theorem processUsage_eq_ok (target : Nat)
    (h : Elastic params average pendingUsage virtualLimit head) (hmax : max ≤ mostBlockUsage)
    {blockNum : Nat} (hnum : head < blockNum) :
    ∃ average' limit, (∀ ar, (blockParameters target max 120).processUsage ar average pendingUsage
        virtualLimit blockNum = .ok (average', limit))
      ∧ max ≤ limit ∧ limit ≤ 1000 * max
      ∧ Elastic (blockParameters target max 120) average' 0 limit blockNum := by
  have hpending : pendingUsage * rateLimitingPrecision ≤ mostContribution * 120 := by
    have hle := le_trans h.pendingUsage_le h.max_le
    exact mul_le_mul_right 1000000 hle
  obtain ⟨average', hadd, hbounded, hlast⟩ := UsageAccumulator.add_of_bounded h.average_bounded
    (by decide) (by decide) (lt_of_le_of_lt h.lastOrdinal_le hnum) hpending
  obtain ⟨limit, hlimit, hmin, hmost⟩ :=
    updateElasticLimit_eq_ok target average'.average h.virtualLimit_le hmax
  refine ⟨average', limit, fun ar => ?_, hmin, hmost, hmax, zero_le _, hbounded,
    le_of_eq hlast, le_trans hmost (mul_le_mul_left 1000 hmax)⟩
  exact bind_eq_ok.2 ⟨_, hadd ar, bind_eq_ok.2 ⟨_, hlimit ar, rfl⟩⟩

end Elastic

/-! ## The manager -/

/-- Both resources of the blocks fit. -/
structure BlocksFit (m : ResourceLimitsManager) (head : Nat) : Prop where
  cpu : Elastic m.config.cpuLimitParameters m.state.averageBlockCpuUsage m.state.pendingCpuUsage
    m.state.virtualCpuLimit head
  net : Elastic m.config.netLimitParameters m.state.averageBlockNetUsage m.state.pendingNetUsage
    m.state.virtualNetLimit head

/-- The block maximum of net usage is small enough. That of cpu usage always is. -/
def ChainConfig.Fits (cfg : ChainConfig) : Prop := cfg.maxBlockNetUsage.toNat ≤ mostBlockUsage

instance : DecidablePred ChainConfig.Fits := fun cfg =>
  inferInstanceAs (Decidable (cfg.maxBlockNetUsage.toNat ≤ mostBlockUsage))

theorem ChainConfig.validate_eq_ok {cfg : ChainConfig} (h : cfg.validate = .ok ()) :
    cfg.targetBlockNetUsagePct.toNat ≤ 10000 ∧ cfg.targetBlockCpuUsagePct.toNat ≤ 10000 := by
  obtain ⟨_, hnet, _, _, _, hcpu, h⟩ := bind₃_eq_ok.1 h
  exact ⟨UInt32.le_iff_toNat_le.1 (eosAssert_eq_ok.1 hnet),
    UInt32.le_iff_toNat_le.1 (eosAssert_eq_ok.1 hcpu)⟩

namespace BlocksFit

variable {m m' : ResourceLimitsManager} {cfg : ChainConfig} {ar : Arithmetic} {head : Nat}

theorem eosPercent_eq_ok {value percentage : Nat} (hvalue : value ≤ mostBlockUsage)
    (hpercentage : percentage ≤ 10000) :
    eosPercent ar value percentage = .ok (value * percentage / 10000) := by
  have hfits : value * percentage < 2 ^ 64 := by
    have hle := Nat.mul_le_mul hvalue hpercentage
    exact lt_of_le_of_lt hle (by decide)
  exact bind_eq_ok.2 ⟨_, Arithmetic.fit_of_lt hfits, rfl⟩

theorem validate_blockParameters (target max : Nat) :
    (blockParameters target max 120).validate = .ok () := rfl

theorem setBlockParameters_eq_ok (m : ResourceLimitsManager) (cpuTarget cpuMax netTarget netMax : Nat) :
    m.setBlockParameters (blockParameters cpuTarget cpuMax 120) (blockParameters netTarget netMax 120)
      = .ok { m with config := { m.config with
          cpuLimitParameters := blockParameters cpuTarget cpuMax 120
          netLimitParameters := blockParameters netTarget netMax 120 } } := by
  refine bind_eq_ok.2 ⟨(), validate_blockParameters _ _, ?_⟩
  refine bind_eq_ok.2 ⟨(), validate_blockParameters _ _, ?_⟩
  split
  · next hsame => rw [← hsame.1, ← hsame.2]
  · rfl

/-- **A block that fits.** -/
theorem updateBlock_eq_ok (hm : BlocksFit m head) (hvalid : cfg.validate = .ok ())
    (hfits : cfg.Fits) {blockNum : Nat} (hnum : head < blockNum) :
    ∃ m', (∀ ar, m.updateBlock ar cfg blockNum = .ok m')
      ∧ (cfg.maxBlockCpuUsage.toNat ≤ m'.state.virtualCpuLimit
        ∧ m'.state.virtualCpuLimit ≤ 1000 * cfg.maxBlockCpuUsage.toNat)
      ∧ (cfg.maxBlockNetUsage.toNat ≤ m'.state.virtualNetLimit
        ∧ m'.state.virtualNetLimit ≤ 1000 * cfg.maxBlockNetUsage.toNat)
      ∧ BlocksFit m' blockNum := by
  obtain ⟨hnetPct, hcpuPct⟩ := ChainConfig.validate_eq_ok hvalid
  have hcpuMax : cfg.maxBlockCpuUsage.toNat ≤ mostBlockUsage := by
    have hlt := cfg.maxBlockCpuUsage.toNat_lt
    have hmost : mostBlockUsage = 155014656081 := rfl
    omega
  obtain ⟨averageCpu, virtualCpu, hcpu, hcpuMin, hcpuMost, hcpuElastic⟩ := hm.cpu.processUsage_eq_ok
    _ hcpuMax hnum
  obtain ⟨averageNet, virtualNet, hnet, hnetMin, hnetMost, hnetElastic⟩ := hm.net.processUsage_eq_ok
    _ hfits hnum
  refine ⟨{ m with
    config := { m.config with
      cpuLimitParameters := blockParameters _ _ 120
      netLimitParameters := blockParameters _ _ 120 }
    state := { m.state with
      averageBlockCpuUsage := averageCpu, virtualCpuLimit := virtualCpu, pendingCpuUsage := 0
      averageBlockNetUsage := averageNet, virtualNetLimit := virtualNet, pendingNetUsage := 0 } },
    fun ar => ?_, ⟨hcpuMin, hcpuMost⟩, ⟨hnetMin, hnetMost⟩, ⟨hcpuElastic, hnetElastic⟩⟩
  refine bind_eq_ok.2 ⟨_, bind_eq_ok.2 ⟨_, eosPercent_eq_ok hcpuMax hcpuPct, rfl⟩, ?_⟩
  refine bind_eq_ok.2 ⟨_, bind_eq_ok.2 ⟨_, eosPercent_eq_ok hfits hnetPct, rfl⟩, ?_⟩
  refine bind_eq_ok.2 ⟨_, setBlockParameters_eq_ok m _ _ _ _, ?_⟩
  exact bind_eq_ok.2 ⟨_, hcpu ar, bind_eq_ok.2 ⟨_, hnet ar, rfl⟩⟩

/-! ## What the accounts do to the blocks -/

variable {timeSlot : Nat} {cpuUsage netUsage : Nat}

theorem addUsage {usage usage' : ResourceUsageObject} {timeSlot : Nat}
    (hm : BlocksFit m head)
    (h : m.addUsage ar usage cpuUsage netUsage timeSlot = .ok (usage', m')) :
    BlocksFit m' head := by
  obtain ⟨net, cpu, index, -, -, -, -, rfl⟩ := addUsage_eq_ok h
  exact ⟨hm.cpu, hm.net⟩

variable {accounts : FlatSet AccountName}

section

variable (hm : BlocksFit m head)
include hm

theorem updateAccountUsage
    (h : m.updateAccountUsage ar accounts timeSlot = .ok m') : BlocksFit m' head := by
  refine foldlM_invariant (I := (BlocksFit · head)) h (fun m a m' hm h => ?_) hm
  obtain ⟨usage, usage', -, hadd⟩ := decayUsage_eq_ok h
  exact hm.addUsage hadd

theorem addTransactionUsage
    (h : m.addTransactionUsage ar accounts cpuUsage netUsage timeSlot = .ok m') :
    BlocksFit m' head := by
  obtain ⟨m₁, pendingCpu, pendingNet, hfold, hcpu, hnet, rfl⟩ := addTransactionUsage_eq_ok h
  have hm₁ : BlocksFit m₁ head := by
    refine foldlM_invariant (I := (BlocksFit · head)) hfold (fun m a m' hm h => ?_) hm
    obtain ⟨usage, usage', -, hadd⟩ := chargeAccount_eq_ok h
    exact hm.addUsage hadd
  exact ⟨{ hm₁.cpu with pendingUsage_le := hcpu }, { hm₁.net with pendingUsage_le := hnet }⟩

theorem setAccountLimits {account : AccountName} {ramBytes netWeight cpuWeight : Int}
    {decreased : Bool}
    (h : m.setAccountLimits account ramBytes netWeight cpuWeight = .ok (decreased, m')) :
    BlocksFit m' head := by
  obtain ⟨limits, index, index', -, -, -, rfl⟩ := setAccountLimits_eq_ok h
  exact ⟨hm.cpu, hm.net⟩

theorem processAccountLimitUpdates
    (h : m.processAccountLimitUpdates = .ok m') : BlocksFit m' head := by
  refine foldlM_invariant (I := (BlocksFit · head)) h (fun m pending m' hm h => ?_) hm
  obtain ⟨actual, _, _, _, index, index', -, -, -, rfl⟩ := applyPendingLimits_eq_ok h
  exact ⟨hm.cpu, hm.net⟩

end

theorem initializeDatabase : BlocksFit .initializeDatabase 1 := by
  constructor <;> exact ⟨by decide, by decide, ⟨by decide, by decide⟩, by decide, by decide⟩

end BlocksFit

/-! ## Whole chains -/

namespace ResourceState

/-- What holds in every state of a chain with small block maxima. -/
structure Inv (s : ResourceState) : Prop where
  valid : s.configuration.validate = .ok ()
  fits : s.configuration.Fits
  blocks : BlocksFit s.limits s.headBlockNum

variable {s s' : ResourceState}

theorem inv_perform {a : ResourceAction} (hs : s.Inv) (ha : s.Allows ChainConfig.Fits a)
    (h : s.perform a = .ok s') : s'.Inv := by
  cases a with
  | initializeAccount account | addPendingRamUsage account ramDelta =>
    obtain ⟨accounts, _, h⟩ := bind_eq_ok.1 h
    cases h
    exact ⟨hs.valid, hs.fits, hs.blocks.cpu, hs.blocks.net⟩
  | setResourceLimits account ramBytes netWeight cpuWeight =>
    obtain ⟨_, _, _, _, _, _, h⟩ := bind₃_eq_ok.1 h
    obtain ⟨⟨_, limits⟩, hset, h⟩ := bind_eq_ok.1 h
    cases h
    exact ⟨hs.valid, hs.fits, hs.blocks.setAccountLimits hset⟩
  | updateAccountUsage accounts timeSlot =>
    obtain ⟨limits, hupdate, h⟩ := bind_eq_ok.1 h
    cases h
    exact ⟨hs.valid, hs.fits, hs.blocks.updateAccountUsage hupdate⟩
  | addTransactionUsage accounts cpuUsage netUsage timeSlot =>
    obtain ⟨limits, hadd, h⟩ := bind_eq_ok.1 h
    cases h
    exact ⟨hs.valid, hs.fits, hs.blocks.addTransactionUsage hadd⟩
  | setBlockchainParameters cfg =>
    obtain ⟨_, hvalid, h⟩ := bind_eq_ok.1 h
    cases h
    exact ⟨hvalid, ha, hs.blocks⟩
  | finalizeBlock =>
    obtain ⟨limits, hprocess, limits', hupdate, h⟩ := bind₂_eq_ok.1 h
    cases h
    have hnum : s.headBlockNum < (s.headBlockNum + 1) % 2 ^ 32 := by
      have hlt : s.headBlockNum + 1 < 2 ^ 32 := ha
      omega
    obtain ⟨m, hm, -, -, hfit⟩ :=
      (hs.blocks.processAccountLimitUpdates hprocess).updateBlock_eq_ok hs.valid hs.fits hnum
    rw [hm] at hupdate
    cases hupdate
    exact ⟨hs.valid, hs.fits, hfit⟩

theorem inv_of_run (h : Run ChainConfig.Fits s) : s.Inv :=
  h.invariant (fun _ ⟨_, hvalid, hfits, hs⟩ => hs ▸ ⟨hvalid, hfits, .initializeDatabase⟩)
    fun _ _ _ => inv_perform

/-- **Small block maxima cannot stop the chain.** In every state of a chain whose configurations have
a net maximum of at most `mostBlockUsage`, the updates with any such accepted configuration return,
whether arithmetic wraps or traps, and the virtual limits end between the maximum and its
thousandfold. -/
theorem updateBlock_of_run (h : Run ChainConfig.Fits s) (hnum : s.headBlockNum + 1 < 2 ^ 32)
    {m : ResourceLimitsManager}
    (hm : m = s.limits ∨ s.limits.processAccountLimitUpdates = .ok m)
    (cfg : ChainConfig) (hvalid : cfg.validate = .ok ()) (hfits : cfg.Fits) :
    ∃ m', (∀ ar, m.updateBlock ar cfg ((s.headBlockNum + 1) % 2 ^ 32) = .ok m')
      ∧ (cfg.maxBlockCpuUsage.toNat ≤ m'.state.virtualCpuLimit
        ∧ m'.state.virtualCpuLimit ≤ 1000 * cfg.maxBlockCpuUsage.toNat)
      ∧ (cfg.maxBlockNetUsage.toNat ≤ m'.state.virtualNetLimit
        ∧ m'.state.virtualNetLimit ≤ 1000 * cfg.maxBlockNetUsage.toNat) := by
  have hblocks : BlocksFit m s.headBlockNum := by
    rcases hm with rfl | hm
    · exact (inv_of_run h).blocks
    · exact (inv_of_run h).blocks.processAccountLimitUpdates hm
  obtain ⟨m', hupdate, hcpu, hnet, -⟩ :=
    hblocks.updateBlock_eq_ok hvalid hfits (by omega : s.headBlockNum < (s.headBlockNum + 1) % 2 ^ 32)
  exact ⟨m', hupdate, hcpu, hnet⟩

/-- The third block of a chain with the default configuration. -/
theorem updateBlock_after_default_block :
    ∃ s, Run ChainConfig.Fits s ∧ s.headBlockNum = 2
      ∧ ∃ m', (∀ ar, s.limits.updateBlock ar {} ((s.headBlockNum + 1) % 2 ^ 32) = .ok m')
        ∧ (500000 ≤ m'.state.virtualCpuLimit ∧ m'.state.virtualCpuLimit ≤ 1000 * 500000)
        ∧ (1048576 ≤ m'.state.virtualNetLimit ∧ m'.state.virtualNetLimit ≤ 1000 * 1048576) := by
  have hstart : Run ChainConfig.Fits (genesis {}) := .start ⟨{}, by decide, by decide, rfl⟩
  have hreplay : (replay perform (Allows ChainConfig.Fits) (genesis {}) [.finalizeBlock]).any
      (fun s => s.headBlockNum = 2) = true := by
    decide +kernel
  obtain ⟨s, hrun, hhead⟩ := hstart.replay hreplay
  have hhead : s.headBlockNum = 2 := of_decide_eq_true hhead
  exact ⟨s, hrun, hhead,
    updateBlock_of_run hrun (by rw [hhead]; decide) (.inl rfl) {} (by decide) (by decide)⟩

def largeBlocks : ChainConfig := { maxBlockNetUsage := 2 ^ 60 }

/-- **An accepted configuration that stops the chain.** The first block sets the virtual limit to
2^60, which cannot be scaled by 1000 / 999; no second block can be finalized. -/
theorem updateBlock_fails_at_largeBlocks :
    ∃ s, Run (fun _ => True) s ∧ s.configuration = largeBlocks ∧ largeBlocks.validate = .ok ()
      ∧ s.limits.updateBlock .wrapping largeBlocks ((s.headBlockNum + 1) % 2 ^ 32)
        = .error (.exception ⟨.rateLimitingStateInconsistent,
          "Usage exceeds maximum value representable after extending for precision"⟩) := by
  have hstart : Run (fun _ => True) (genesis largeBlocks) :=
    .start ⟨largeBlocks, by decide +kernel, trivial, rfl⟩
  have hreplay : (replay perform (Allows fun _ => True) (genesis largeBlocks) [.finalizeBlock]).any
      (fun s => s.configuration = largeBlocks
        ∧ s.limits.updateBlock .wrapping largeBlocks ((s.headBlockNum + 1) % 2 ^ 32)
        = .error (.exception ⟨.rateLimitingStateInconsistent,
          "Usage exceeds maximum value representable after extending for precision"⟩)) = true := by
    decide +kernel
  obtain ⟨s, hrun, hfails⟩ := hstart.replay hreplay
  have hfails := of_decide_eq_true hfails
  exact ⟨s, hrun, hfails.1, by decide +kernel, hfails.2⟩

end ResourceState

end PotatoNode.Chain
