import Mathlib.Algebra.Order.BigOperators.Group.List
import Mathlib.Algebra.Order.Group.Nat
import Mathlib.Data.Prod.Lex
import PotatoNode.Lib.Table
import PotatoNode.Lib.ThresholdRules
import PotatoNode.Chain.Name

/-!
# Authorities (`authority.hpp`, `action.hpp`)

An authority is what a permission demands: keys, permissions of other accounts and waits, each with
a 16-bit weight, and the 32-bit threshold that the weights have to reach. `validate` is the check
every authority passes before it is stored.

To the derivations of `Lib.ThresholdRules` an authority is a rule (`Authority.rule`): its premises
are the entries in the order in which the checker visits them, the leaves are the keys and waits,
and the nodes are the permission levels.
-/

namespace PotatoNode.Chain

open Lib List Nat

/-! ## Permission levels -/

@[ext]
structure PermissionLevel where
  actor : AccountName
  permission : PermissionName
deriving DecidableEq, Repr

namespace PermissionLevel

def tie (p : PermissionLevel) : ℕ ×ₗ ℕ := toLex (p.actor, p.permission)

theorem tie_injective : Function.Injective tie := by
  intro p q h
  exact PermissionLevel.ext (congrArg Prod.fst h) (congrArg Prod.snd h)

instance : LinearOrder PermissionLevel := LinearOrder.lift' tie tie_injective

def wildcard (p : PermissionLevel) : PermissionLevel := ⟨p.actor, 0⟩

end PermissionLevel

/-! ## Authorities -/

structure PermissionLevelWeight where
  permission : PermissionLevel
  weight : Nat
deriving DecidableEq, Repr

structure WaitWeight where
  waitSec : Nat
  weight : Nat
deriving DecidableEq, Repr

/-- `authority`, and its copy `shared_authority` in the database. -/
structure Authority where
  threshold : Nat
  keys : List KeyWeight
  accounts : List PermissionLevelWeight
  waits : List WaitWeight
deriving DecidableEq, Repr

/-- A loop of `validate`: consecutive entries ascend. -/
def ascending {α κ : Type} [LinearOrder κ] (key : α → κ) : List α → Bool
  | a :: b :: l => key a < key b && ascending key (b :: l)
  | _ => true

namespace Authority

variable (a : Authority)

def size : Nat := a.keys.length + a.accounts.length + a.waits.length

/-- The weights of the entries, in the order in which `validate` adds them. -/
def weights : List Nat :=
  a.keys.map KeyWeight.weight ++ a.accounts.map PermissionLevelWeight.weight
    ++ a.waits.map WaitWeight.weight

def validate : Bool :=
  a.size ≤ 2 ^ 16 && a.threshold ≠ 0
    && ascending KeyWeight.key a.keys
    && ascending PermissionLevelWeight.permission a.accounts
    && a.waits.head?.all (fun w => w.waitSec ≠ 0)
    && ascending WaitWeight.waitSec a.waits
    && a.threshold ≤ a.weights.foldl (fun total w => (total + w) % 2 ^ 32) 0

/-- What holds of every stored authority: the weights are 16-bit numbers, there are few enough
entries for a 32-bit sum, and the threshold is not zero. -/
structure WellFormed : Prop where
  weight_lt : ∀ w ∈ a.weights, w < 2 ^ 16
  size_le : a.size ≤ 2 ^ 16
  threshold_pos : 0 < a.threshold

instance : Decidable a.WellFormed :=
  decidable_of_iff ((∀ w ∈ a.weights, w < 2 ^ 16) ∧ a.size ≤ 2 ^ 16 ∧ 0 < a.threshold)
    ⟨fun h => ⟨h.1, h.2.1, h.2.2⟩, fun h => ⟨h.weight_lt, h.size_le, h.threshold_pos⟩⟩

variable {a}

theorem WellFormed.of_validate (hweights : ∀ w ∈ a.weights, w < 2 ^ 16) (h : a.validate = true) :
    a.WellFormed := by
  simp only [validate, Bool.and_eq_true, decide_eq_true_eq] at h
  obtain ⟨⟨⟨⟨⟨⟨hsize, hthreshold⟩, -⟩, -⟩, -⟩, -⟩, -⟩ := h
  exact ⟨hweights, hsize, pos_of_ne_zero hthreshold⟩

end Authority

/-! ## The order of evaluation -/

/-- What an authority can ask for besides permissions. -/
inductive Factor where
  | key (k : PublicKey)
  | wait (waitSec : Nat)
deriving DecidableEq, Repr

/-- An entry of `meta_permission_map`. -/
abbrev MetaPermission := Premise PermissionLevel Factor

/-- The `priority` with which an entry is emplaced. -/
def MetaPermission.priority : MetaPermission → Nat
  | .node _ _ => 1
  | .leaf (.key _) _ => 2
  | .leaf (.wait _) _ => 3

/-- The order of `meta_permission_map`: the entry with the greater weight comes first, and among
equal weights the one with the greater priority. -/
def MetaPermission.before (m m' : MetaPermission) : Prop :=
  m'.weight < m.weight ∨ (m'.weight = m.weight ∧ m'.priority ≤ m.priority)

instance : DecidableRel MetaPermission.before := fun m m' =>
  inferInstanceAs (Decidable (m'.weight < m.weight ∨ (m'.weight = m.weight ∧
    m'.priority ≤ m.priority)))

namespace Authority

variable (a : Authority)

def emplaced : List MetaPermission :=
  a.accounts.map (fun e => .node e.permission e.weight)
    ++ a.keys.map (fun e => .leaf (.key e.key) e.weight)
    ++ a.waits.map (fun e => .leaf (.wait e.waitSec) e.weight)

/-- `meta_permission_map permissions`, as the loop reads it: entries with equal keys stay in the
order in which they were emplaced, as in a stable sort. -/
def metaPermissions : List MetaPermission := a.emplaced.insertionSort MetaPermission.before

def rule : ThresholdRule PermissionLevel Factor := ⟨a.threshold, a.metaPermissions⟩

theorem metaPermissions_perm : a.metaPermissions.Perm a.emplaced := perm_insertionSort _ _

variable {a}

theorem weights_perm : (a.metaPermissions.map Premise.weight).Perm a.weights := by
  refine (a.metaPermissions_perm.map _).trans ?_
  have hemplaced : a.emplaced.map Premise.weight
      = a.accounts.map PermissionLevelWeight.weight ++ a.keys.map KeyWeight.weight
        ++ a.waits.map WaitWeight.weight := by
    simp only [emplaced, map_append, map_map]
    rfl
  rw [hemplaced]
  exact perm_append_comm.append_right _

theorem WellFormed.sum_weights_lt (h : a.WellFormed) :
    (a.metaPermissions.map Premise.weight).sum < 2 ^ 32 := by
  have hsum : a.weights.sum ≤ a.weights.length * (2 ^ 16 - 1) := by
    exact sum_le_card_nsmul _ _ fun w hw => le_sub_one_of_lt (h.weight_lt w hw)
  have hlength : a.weights.length = a.size := by
    simp [weights, size, add_assoc]
  have hsize := h.size_le
  rw [weights_perm.sum_eq]
  calc a.weights.sum ≤ a.size * (2 ^ 16 - 1) := hlength ▸ hsum
    _ ≤ 2 ^ 16 * _ := mul_le_mul_right _ hsize
    _ < 2 ^ 32 := by decide

end Authority

/-! ## Permission graphs -/

/-- The authorities that `get_permission` finds, by permission level. -/
structure PermissionGraph where
  authorityOf : PermissionLevel → Option Authority
  /-- `get_permission` refuses empty names. -/
  named : ∀ p, p.actor = 0 ∨ p.permission = 0 → authorityOf p = none
  wellFormed : ∀ p a, authorityOf p = some a → a.WellFormed

def lookupAuthority (l : List (PermissionLevel × Authority)) (p : PermissionLevel) :
    Option Authority :=
  if p.actor = 0 ∨ p.permission = 0 then none else l.lookup p

theorem mem_of_lookupAuthority {l : List (PermissionLevel × Authority)} {p : PermissionLevel}
    {a : Authority} (h : lookupAuthority l p = some a) : (p, a) ∈ l := by
  unfold lookupAuthority at h
  split at h
  · cases h
  · obtain ⟨l₁, l₂, rfl, -⟩ := lookup_eq_some_iff.1 h
    simp

def PermissionGraph.ofList (l : List (PermissionLevel × Authority))
    (h : ∀ e ∈ l, e.2.WellFormed) : PermissionGraph where
  authorityOf := lookupAuthority l
  named _ hp := if_pos hp
  wellFormed p a ha := h (p, a) (mem_of_lookupAuthority ha)

def PermissionGraph.rules (g : PermissionGraph) (p : PermissionLevel) :
    Option (ThresholdRule PermissionLevel Factor) :=
  (g.authorityOf p).map Authority.rule

end PotatoNode.Chain
