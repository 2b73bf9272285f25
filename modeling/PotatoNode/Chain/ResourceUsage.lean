import PotatoNode.Chain.Objects
import PotatoNode.Chain.ProducerSchedule
import PotatoNode.Chain.UsageAccumulator

/-!
# RAM usage of accounts (`resource_limits.cpp`)

Every account has a limits object and a usage object. `add_pending_ram_usage` adds a signed delta to
the 64-bit usage after checking that the sum stays in range, so the addition is exact
(`addPendingRamUsage_eq_ok`).
-/

namespace PotatoNode.Chain

open Lib Chainbase

structure ResourceLimitsObject where
  id : Int
  owner : AccountName
  pending : Bool := false
  ramBytes : Int := -1
  netWeight : Int := -1
  cpuWeight : Int := -1
deriving DecidableEq, Repr

instance : ValueType ResourceLimitsObject where
  id := ResourceLimitsObject.id
  clash a b := a.pending = b.pending ∧ a.owner = b.owner
  clash_comm a b := by simp only [eq_comm]

structure ResourceUsageObject where
  id : Int
  owner : AccountName
  ramUsage : UInt64 := 0
  netUsage : UsageAccumulator := {}
  cpuUsage : UsageAccumulator := {}
deriving DecidableEq, Repr

instance : ValueType ResourceUsageObject where
  id := ResourceUsageObject.id
  clash a b := a.owner = b.owner
  clash_comm a b := by simp only [eq_comm]

/-- The objects of `resource_limits_manager` that belong to accounts. -/
structure AccountResources where
  limits : GenericIndex ResourceLimitsObject
  usage : GenericIndex ResourceUsageObject

namespace AccountResources

section

variable (r : AccountResources) (account : AccountName)

def initializeAccount : Result AccountResources := do
  let (_, limits) ← create r.limits fun id => { id, owner := account }
  let (_, usage) ← create r.usage fun id => { id, owner := account }
  .ok { limits, usage }

def addPendingRamUsage (ramDelta : Int) : Result AccountResources :=
  if ramDelta = 0 then .ok r
  else do
    let usage ← Chain.get r.usage (·.owner = account)
    eosAssert (ramDelta ≤ 0 ∨ ramDelta ≤ 2 ^ 64 - 1 - usage.ramUsage.toNat) .transactionException
      "Ram usage delta would overflow UINT64_MAX"
    eosAssert (0 ≤ ramDelta ∨ -ramDelta ≤ usage.ramUsage.toNat) .transactionException
      "Ram usage delta would underflow UINT64_MAX"
    let usage ← Chain.modify r.usage usage.id fun u =>
      { u with ramUsage := .ofNat ((u.ramUsage.toNat + ramDelta) % 2 ^ 64).toNat }
    .ok { r with usage }

/-- `get_account_limits`: the object that has the three limits. -/
def getAccountLimits : Result ResourceLimitsObject :=
  match find r.limits fun l => l.pending = true ∧ l.owner = account with
  | some pending => .ok pending
  | none => Chain.get r.limits fun l => l.pending = false ∧ l.owner = account

def verifyAccountRamUsage : Result Unit := do
  let limits ← r.getAccountLimits account
  let usage ← Chain.get r.usage (·.owner = account)
  eosAssert (limits.ramBytes < 0 ∨ usage.ramUsage.toNat ≤ limits.ramBytes) .ramUsageExceeded
    "account ${account} has insufficient ram; needs ${needs} bytes has ${available} bytes"

/-! ## The charged usage -/

def ramUsage : Nat :=
  ((find r.usage (·.owner = account)).map (·.ramUsage.toNat)).getD 0

end

variable {r r' : AccountResources} {account : AccountName} {ramDelta : Int}

theorem ramUsage_of_mem {u : ResourceUsageObject} (hu : u ∈ r.usage) (howner : u.owner = account) :
    r.ramUsage account = u.ramUsage.toNat := by
  unfold ramUsage
  cases hfind : find r.usage (·.owner = account) with
  | none => exact absurd (by simpa using howner) (find_eq_none hfind u hu)
  | some v =>
    obtain ⟨hv, hvowner⟩ := find_eq_some hfind
    have hclash : ValueType.clash v u = true := 
      decide_eq_true ((of_decide_eq_true hvowner).trans howner.symm)
    simp [r.usage.indices.unique v hv u hu hclash]

theorem ramUsage_of_forall_ne (h : ∀ u ∈ r.usage, u.owner ≠ account) : r.ramUsage account = 0 := by
  unfold ramUsage
  cases hfind : find r.usage (·.owner = account) with
  | none => rfl
  | some u =>
    obtain ⟨hu, howner⟩ := find_eq_some hfind
    exact absurd (of_decide_eq_true howner) (h u hu)

theorem ramUsage_of_modified {u v : ResourceUsageObject} (h : Modified r.usage v r'.usage)
    (hu : u ∈ r.usage) (hid : u.id = v.id) (howner : u.owner = v.owner)
    (hne : account ≠ v.owner) : r'.ramUsage account = r.ramUsage account := by
  by_cases hexists : ∃ x ∈ r.usage, x.owner = account
  · obtain ⟨x, hx, rfl⟩ := hexists
    have hxid : ValueType.id x ≠ ValueType.id v := by
      intro heq
      obtain rfl : x = u := eq_of_id_eq hx hu (heq.trans hid.symm)
      exact hne howner
    have hx' : x ∈ r'.usage := h.mem_iff.2 (.inr ⟨hx, hxid⟩)
    rw [ramUsage_of_mem hx rfl, ramUsage_of_mem hx' rfl]
  · simp only [not_exists, not_and] at hexists
    have hexists' : ∀ x ∈ r'.usage, x.owner ≠ account := by
      intro x hx
      rcases h.mem_iff.1 hx with rfl | ⟨hx, -⟩
      · exact hne.symm
      · exact hexists x hx
    rw [ramUsage_of_forall_ne hexists, ramUsage_of_forall_ne hexists']

section

variable (h : r.addPendingRamUsage account ramDelta = .ok r')
include h

theorem limits_addPendingRamUsage : r'.limits = r.limits := by
  unfold addPendingRamUsage at h
  split at h
  · cases h
    rfl
  · obtain ⟨u, _, h⟩ := bind_eq_ok.1 h
    obtain ⟨_, _, _, _, usage, _, h⟩ := bind₃_eq_ok.1 h
    cases h
    rfl

theorem usage_addPendingRamUsage
    {w : ResourceUsageObject} (hw : w ∈ r'.usage) :
    ∃ v ∈ r.usage, w.cpuUsage = v.cpuUsage ∧ w.netUsage = v.netUsage := by
  unfold addPendingRamUsage at h
  split at h
  · cases h
    exact ⟨w, hw, rfl, rfl⟩
  · obtain ⟨u, _, h⟩ := bind_eq_ok.1 h
    obtain ⟨_, _, _, _, usage, hmodify, h⟩ := bind₃_eq_ok.1 h
    cases h
    obtain ⟨v, hv, -, hmodified⟩ := modify_eq_ok hmodify fun _ => rfl
    rcases hmodified.mem_iff.1 hw with rfl | ⟨hw, -⟩
    · exact ⟨v, hv, rfl, rfl⟩
    · exact ⟨w, hw, rfl, rfl⟩

/-- **The usage is charged exactly.** The delta is added to the usage of the account, and to no
other. -/
theorem addPendingRamUsage_eq_ok
    (a : AccountName) :
    (r'.ramUsage a : Int) = r.ramUsage a + if a = account then ramDelta else 0 := by
  unfold addPendingRamUsage at h
  split at h
  · next hzero =>
    cases h
    simp [hzero]
  · obtain ⟨u, hget, h⟩ := bind_eq_ok.1 h
    obtain ⟨_, hover, _, hunder, usage, hmodify, h⟩ := bind₃_eq_ok.1 h
    cases h
    rw [eosAssert_eq_ok] at hover hunder
    obtain ⟨hu, howner⟩ := get_eq_ok hget
    obtain ⟨v, hv, hid, hmodified⟩ := modify_eq_ok hmodify fun _ => rfl
    obtain rfl : v = u := eq_of_id_eq hv hu hid
    obtain rfl : v.owner = account := of_decide_eq_true howner
    split
    · next hself =>
      subst hself
      have hnew : ({ r with usage } : AccountResources).ramUsage v.owner = _ :=
        ramUsage_of_mem (hmodified.mem_iff.2 (.inl rfl)) rfl
      rw [hnew, ramUsage_of_mem hu rfl, UInt64.toNat_ofNat']
      have hlt := v.ramUsage.toNat_lt
      omega
    · next hother =>
      have hsame : ({ r with usage } : AccountResources).ramUsage a = r.ramUsage a :=
        ramUsage_of_modified hmodified hu rfl rfl hother
      rw [hsame, Int.add_zero]

end

end AccountResources

end PotatoNode.Chain
