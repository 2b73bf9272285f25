import Mathlib.Algebra.Order.BigOperators.Group.Multiset

/-!
# Ledgers of items in counted groups

Items belong to groups. A group that has items has a header, which counts them; somebody pays for
each item according to its size, and for each header a fixed size. A ledger has the headers, the
items and what everybody has been charged.

`Move` is what may happen to a ledger: every change of the items comes with a change of the header
and with the charges. A ledger is `Charged` and `Counted` when the charges and the counts are those
of the items that are there; moves keep both, whatever the payers and the sizes are.
-/

namespace PotatoNode.Lib

open Multiset Nat

namespace Ledger

/-- An item, with who pays for it. -/
structure Item (A G : Type) where
  payer : A
  group : G
  size : Nat
deriving DecidableEq, Repr

/-- The header of a group. -/
structure Header (A G : Type) where
  payer : A
  group : G
  count : Nat
deriving DecidableEq, Repr

end Ledger

open Ledger in
/-- Headers, items and charges. -/
structure Ledger (A G : Type) where
  headers : Multiset (Header A G)
  items : Multiset (Item A G)
  usage : A → Int

namespace Ledger

variable {A G : Type}

section Billed

variable [DecidableEq A] {headerSize : Nat} {H : Multiset (Header A G)} {I : Multiset (Item A G)}
  {u : A → Int} {h : Header A G} {i : Item A G} {a : A}

def charge (usage : A → Int) (payer : A) (amount : Int) (a : A) : Int :=
  usage a + if a = payer then amount else 0

def billed (headerSize : Nat) (l : Ledger A G) (a : A) : Nat :=
  ((l.items.filter (·.payer = a)).map (·.size)).sum + headerSize * l.headers.countP (·.payer = a)

theorem billed_cons_item (v : A → Int) :
    (billed headerSize ⟨H, i ::ₘ I, u⟩ a : Int)
      = billed headerSize ⟨H, I, v⟩ a + if a = i.payer then (i.size : Int) else 0 := by
  unfold billed
  by_cases hpayer : i.payer = a
  · simp [hpayer]
    omega
  · simp [hpayer, Ne.symm hpayer]

theorem billed_cons_header (v : A → Int) :
    (billed headerSize ⟨h ::ₘ H, I, u⟩ a : Int)
      = billed headerSize ⟨H, I, v⟩ a + if a = h.payer then (headerSize : Int) else 0 := by
  unfold billed
  by_cases hpayer : h.payer = a
  · simp [hpayer, mul_succ]
    omega
  · simp [hpayer, Ne.symm hpayer]

end Billed

section Members

variable [DecidableEq G] {H : Multiset (Header A G)} {g : G}

def members (l : Ledger A G) (g : G) : Nat := l.items.countP (·.group = g)

/-- What the headers of a group count. -/
def counts (H : Multiset (Header A G)) (g : G) : Nat := ((H.filter (·.group = g)).map (·.count)).sum

theorem counts_cons {h : Header A G} :
    counts (h ::ₘ H) g = counts H g + if h.group = g then h.count else 0 := by
  unfold counts
  split
  · next hg => simp [hg, add_comm]
  · next hg => simp [hg]

theorem counts_eq_zero (h : ∀ x ∈ H, x.group ≠ g) : counts H g = 0 := by
  rw [counts, filter_eq_nil.2 h]
  rfl

theorem counts_of_mem (hunique : (H.map (·.group)).Nodup) {x : Header A G} (hx : x ∈ H) :
    counts H x.group = x.count := by
  obtain ⟨H, rfl⟩ := exists_cons_of_mem hx
  rw [map_cons, nodup_cons] at hunique
  rw [counts_cons, if_pos rfl, counts_eq_zero, zero_add]
  exact fun y hy heq => hunique.1 (heq ▸ mem_map_of_mem _ hy)

end Members

variable [DecidableEq A]

/-- A change of the items, with the counts and the charges that go with it. -/
inductive Move (headerSize : Nat) : Ledger A G → Ledger A G → Prop where
  | store {h : Header A G} {i : Item A G} {H : Multiset (Header A G)} {I : Multiset (Item A G)}
      {u : A → Int} : i.group = h.group →
      Move headerSize ⟨h ::ₘ H, I, u⟩
        ⟨{ h with count := h.count + 1 } ::ₘ H, i ::ₘ I, charge u i.payer i.size⟩
  /-- the first item of a group -/
  | storeFirst {h : Header A G} {i : Item A G} {H : Multiset (Header A G)}
      {I : Multiset (Item A G)} {u : A → Int} :
      i.group = h.group → h.count = 1 → (∀ h' ∈ H, h'.group ≠ h.group) →
      Move headerSize ⟨H, I, u⟩
        ⟨h ::ₘ H, i ::ₘ I, charge (charge u h.payer headerSize) i.payer i.size⟩
  | replace {i j : Item A G} {H : Multiset (Header A G)} {I : Multiset (Item A G)} {u : A → Int} :
      j.group = i.group →
      Move headerSize ⟨H, i ::ₘ I, u⟩
        ⟨H, j ::ₘ I, charge (charge u i.payer (-i.size)) j.payer j.size⟩
  | remove {h : Header A G} {i : Item A G} {H : Multiset (Header A G)} {I : Multiset (Item A G)}
      {u : A → Int} : i.group = h.group → 0 < h.count →
      Move headerSize ⟨{ h with count := h.count + 1 } ::ₘ H, i ::ₘ I, u⟩
        ⟨h ::ₘ H, I, charge u i.payer (-i.size)⟩
  /-- the last item of a group -/
  | removeLast {h : Header A G} {i : Item A G} {H : Multiset (Header A G)}
      {I : Multiset (Item A G)} {u : A → Int} : i.group = h.group → h.count = 1 →
      Move headerSize ⟨h ::ₘ H, i ::ₘ I, u⟩
        ⟨H, I, charge (charge u i.payer (-i.size)) h.payer (-headerSize)⟩

/-! ## Exact ledgers -/

/-- Everybody has been charged, over `base`, for the items and headers that are there. -/
def Charged (headerSize : Nat) (base : A → Int) (l : Ledger A G) : Prop :=
  ∀ a, l.usage a = base a + l.billed headerSize a

/-- The counts are those of the items. -/
structure Counted [DecidableEq G] (l : Ledger A G) : Prop where
  unique : (l.headers.map (·.group)).Nodup
  count : ∀ h ∈ l.headers, h.count = l.members h.group
  positive : ∀ h ∈ l.headers, 0 < h.count
  covered : ∀ i ∈ l.items, ∃ h ∈ l.headers, h.group = i.group

variable {headerSize : Nat} {base : A → Int} {l l' : Ledger A G}

theorem Move.charged (hm : Move headerSize l l') (hl : l.Charged headerSize base) :
    l'.Charged headerSize base := by
  intro a
  have ha := hl a
  cases hm with
  | @store h i H I u _ | @remove h i H I u _ _ =>
    simp only [billed_cons_item u, billed_cons_header u, charge] at ha ⊢
    split_ifs at ha ⊢ <;> omega
  | @storeFirst h i H I u _ _ _ =>
    simp only [billed_cons_item u, billed_cons_header u, charge] at ha ⊢
    split_ifs <;> omega
  | @replace i j H I u _ =>
    simp only [billed_cons_item u, charge] at ha ⊢
    split_ifs at ha ⊢ <;> omega
  | @removeLast h i H I u _ _ =>
    simp only [billed_cons_item u, billed_cons_header u] at ha
    show charge (charge u i.payer (-i.size)) h.payer (-headerSize) a
      = base a + billed headerSize ⟨H, I, u⟩ a
    unfold charge
    split_ifs at ha ⊢ <;> omega

section Counts

variable [DecidableEq G]

omit [DecidableEq A] in
theorem Counted.exists_header_iff (hl : l.Counted) {g : G} :
    (∃ x ∈ l.headers, x.group = g) ↔ 0 < l.members g := by
  constructor
  · rintro ⟨x, hx, rfl⟩
    rw [← hl.count x hx]
    exact hl.positive x hx
  · intro hpos
    obtain ⟨i, hi, hg⟩ := countP_pos.1 hpos
    obtain ⟨x, hx, hxg⟩ := hl.covered i hi
    exact ⟨x, hx, hxg.trans hg⟩

omit [DecidableEq A] in
theorem counted_iff : l.Counted ↔ (l.headers.map (·.group)).Nodup
    ∧ (∀ g, counts l.headers g = l.members g) ∧ ∀ h ∈ l.headers, 0 < h.count := by
  constructor
  · intro hl
    refine ⟨hl.unique, fun g => ?_, hl.positive⟩
    by_cases hg : ∃ x ∈ l.headers, x.group = g
    · obtain ⟨x, hx, rfl⟩ := hg
      rw [counts_of_mem hl.unique hx, hl.count x hx]
    · have hzero := Nat.eq_zero_of_not_pos (mt hl.exists_header_iff.2 hg)
      rw [hzero, counts_eq_zero fun x hx hxg => hg ⟨x, hx, hxg⟩]
  · rintro ⟨hunique, hcounts, hpos⟩
    refine ⟨hunique, fun h hh => ?_, hpos, fun i hi => ?_⟩
    · rw [← hcounts, counts_of_mem hunique hh]
    · by_contra hnone
      have hzero := hcounts i.group
      rw [counts_eq_zero fun x hx hxg => hnone ⟨x, hx, hxg⟩] at hzero
      exact countP_eq_zero.1 hzero.symm i hi rfl

theorem Move.counted (hm : Move headerSize l l') (hl : l.Counted) : l'.Counted := by
  rw [counted_iff] at hl ⊢
  obtain ⟨hunique, hcounts, hpos⟩ := hl
  cases hm with
  | @store h i H I u hg =>
    refine ⟨by simpa using hunique, fun g => ?_, forall_mem_cons.2 ⟨succ_pos _, ?_⟩⟩
    · have hcount := hcounts g
      simp only [counts_cons, members, countP_cons, hg] at hcount ⊢
      split_ifs at hcount ⊢ <;> omega
    · exact (forall_mem_cons.1 hpos).2
  | @storeFirst h i H I u hg hcount hnew =>
    refine ⟨?_, fun g => ?_, forall_mem_cons.2 ⟨by omega, hpos⟩⟩
    · rw [map_cons, nodup_cons]
      refine ⟨fun hmem => ?_, hunique⟩
      obtain ⟨x, hx, hxg⟩ := mem_map.1 hmem
      exact hnew x hx hxg
    · rw [counts_cons, hcounts, hcount]
      simp only [members, countP_cons, hg]
  | @replace i j H I u hg =>
    refine ⟨hunique, fun g => ?_, hpos⟩
    rw [hcounts]
    simp only [members, countP_cons, hg]
  | @remove h i H I u hg hcount =>
    refine ⟨by simpa using hunique, fun g => ?_, forall_mem_cons.2 ⟨hcount, ?_⟩⟩
    · have hcount := hcounts g
      simp only [counts_cons, members, countP_cons, hg] at hcount ⊢
      split_ifs at hcount ⊢ <;> omega
    · exact (forall_mem_cons.1 hpos).2
  | @removeLast h i H I u hg hcount =>
    rw [map_cons, nodup_cons] at hunique
    refine ⟨hunique.2, fun g => ?_, (forall_mem_cons.1 hpos).2⟩
    have hgroup := hcounts g
    simp only [counts_cons, members, countP_cons, hg, hcount] at hgroup
    exact add_right_cancel hgroup

end Counts

end Ledger

end PotatoNode.Lib
