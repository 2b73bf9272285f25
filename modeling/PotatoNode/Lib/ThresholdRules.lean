import Mathlib.Algebra.GroupWithZero.Nat
import Mathlib.Data.List.Sublists

/-!
# Weighted rules with a threshold

A node may be *given*, or it may have a rule: a list of premises, each with a weight, and a
threshold. A premise is a leaf, which holds or does not, or another node. A node is granted when
it is given, or when premises of its rule that hold weigh at least the threshold; the rules may
refer to each other in circles, and only finite derivations count (`Derives`).
-/

namespace PotatoNode.Lib

variable {N L : Type}

/-- A premise of a rule, with its weight. -/
inductive Premise (N L : Type) where
  | leaf (l : L) (weight : Nat)
  | node (n : N) (weight : Nat)
deriving DecidableEq, Repr

namespace Premise

def weight : Premise N L → Nat
  | leaf _ w => w
  | node _ w => w

def Holds (leaf : L → Prop) (D : N → Prop) : Premise N L → Prop
  | .leaf l _ => leaf l
  | .node n _ => D n

end Premise

/-- The premises of a rule and the weight they have to reach. -/
structure ThresholdRule (N L : Type) where
  threshold : Nat
  premises : List (Premise N L)

/-! ## Held weight -/

open Classical in
/-- What the premises that satisfy `H` weigh together. -/
noncomputable def heldWeight (H : Premise N L → Prop) : List (Premise N L) → Nat
  | [] => 0
  | m :: ms => (if H m then m.weight else 0) + heldWeight H ms

section HeldWeight

variable {H : Premise N L → Prop} {m : Premise N L} {l l' : List (Premise N L)}

@[simp] theorem heldWeight_nil : heldWeight H [] = 0 := rfl

theorem heldWeight_cons_of_holds (h : H m) : heldWeight H (m :: l) = m.weight + heldWeight H l := by
  rw [heldWeight, if_pos h]

theorem heldWeight_cons_of_not (h : ¬ H m) : heldWeight H (m :: l) = heldWeight H l := by
  rw [heldWeight, if_neg h, Nat.zero_add]

theorem heldWeight_append : heldWeight H (l ++ l') = heldWeight H l + heldWeight H l' := by
  induction l with
  | nil => simp
  | cons m l ih => simp only [List.cons_append, heldWeight, ih, Nat.add_assoc]

theorem sum_le_heldWeight {S : List (Premise N L)} (hS : S.Sublist l) (hold : ∀ m ∈ S, H m) :
    (S.map Premise.weight).sum ≤ heldWeight H l := by
  induction hS with
  | slnil => exact le_rfl
  | cons m _ ih => exact (ih hold).trans (by rw [heldWeight]; omega)
  | cons_cons m _ ih =>
    rw [List.map_cons, heldWeight_cons_of_holds (hold m List.mem_cons_self)]
    exact Nat.add_le_add_left (ih fun m hm => hold m (List.mem_cons_of_mem _ hm)) _

theorem exists_sublist_heldWeight (H : Premise N L → Prop) (l : List (Premise N L)) :
    ∃ S : List (Premise N L), S.Sublist l ∧ (∀ m ∈ S, H m) ∧
      (S.map Premise.weight).sum = heldWeight H l := by
  induction l with
  | nil => exact ⟨[], .slnil, by simp, rfl⟩
  | cons m l ih =>
    obtain ⟨S, hS, hold, hsum⟩ := ih
    by_cases hm : H m
    · refine ⟨m :: S, hS.cons_cons m, ?_, ?_⟩
      · simpa [hm] using hold
      · rw [List.map_cons, List.sum_cons, hsum, heldWeight_cons_of_holds hm]
    · exact ⟨S, hS.cons m, hold, hsum.trans (heldWeight_cons_of_not hm).symm⟩

end HeldWeight

/-! ## Derivations -/

variable (rules : N → Option (ThresholdRule N L)) (leaf : L → Prop) (given : N → Prop)

/-- There is a finite derivation of the node. -/
inductive Derives : N → Prop where
  | given {n : N} : given n → Derives n
  | rule {n : N} {r : ThresholdRule N L} {S : List (Premise N L)} :
      rules n = some r → S.Sublist r.premises →
      (∀ l w, .leaf l w ∈ S → leaf l) → (∀ m w, .node m w ∈ S → Derives m) →
      r.threshold ≤ (S.map Premise.weight).sum → Derives n

abbrev Premise.Granted : Premise N L → Prop :=
  Premise.Holds leaf (Derives rules leaf given)

def ThresholdRule.Granted (r : ThresholdRule N L) : Prop :=
  ∃ S : List (Premise N L), S.Sublist r.premises ∧
    (∀ m ∈ S, m.Granted rules leaf given) ∧ r.threshold ≤ (S.map Premise.weight).sum

variable {rules leaf given} {leaf' : L → Prop} {given' : N → Prop} {n : N} {r : ThresholdRule N L}

theorem ThresholdRule.granted_iff :
    r.Granted rules leaf given ↔
      r.threshold ≤ heldWeight (Premise.Granted rules leaf given) r.premises := by
  constructor
  · rintro ⟨S, hS, hold, hsum⟩
    exact hsum.trans (sum_le_heldWeight hS hold)
  · intro h
    obtain ⟨S, hS, hold, hsum⟩ := exists_sublist_heldWeight _ r.premises
    exact ⟨S, hS, hold, hsum ▸ h⟩

theorem derives_of_granted (hr : rules n = some r) (h : r.Granted rules leaf given) :
    Derives rules leaf given n := by
  obtain ⟨S, hS, hold, hsum⟩ := h
  exact .rule hr hS (fun l w hm => hold _ hm) (fun m w hm => hold _ hm) hsum

theorem derives_iff :
    Derives rules leaf given n ↔ given n ∨ ∃ r, rules n = some r ∧ r.Granted rules leaf given := by
  constructor
  · intro h
    cases h with
    | given hn => exact .inl hn
    | @rule _ r S hr hS hleaf hnode hsum =>
      refine .inr ⟨r, hr, S, hS, fun m hm => ?_, hsum⟩
      cases m with
      | leaf l w => exact hleaf l w hm
      | node m w => exact hnode m w hm
  · rintro (hn | ⟨r, hr, h⟩)
    · exact .given hn
    · exact derives_of_granted hr h

theorem Derives.mono (hleaf : ∀ l, leaf l → leaf' l) (hgiven : ∀ n, given n → given' n)
    (h : Derives rules leaf given n) : Derives rules leaf' given' n := by
  induction h with
  | given hn => exact .given (hgiven _ hn)
  | rule hr hS hl _ hsum ih => exact .rule hr hS (fun l w hm => hleaf l (hl l w hm)) ih hsum

end PotatoNode.Lib
