import PotatoNode.Chain.ForkDatabase

/-!
# The tree of the fork database

What holds of the fork database after every sequence of calls, thrown exceptions included: its
blocks are a tree on top of the root, the head is the root or a validated block, and no validated
block is preferred over the head.
-/

namespace PotatoNode.Chain

open Lib ForkIndex Table List BlockState

/-! ## Choice -/

section Choice

variable {index : ForkIndex} {a b c : BlockState}

theorem validated_of_byLibBlockNum_le (h : a.byLibBlockNum ≤ b.byLibBlockNum)
    (hb : b.validated = true) : a.validated = true := by
  have hle : (!a.validated) ≤ (!b.validated) := (Prod.Lex.le_iff'.1 h).1
  rw [hb] at hle
  cases ha : a.validated with
  | true => rfl
  | false =>
    rw [ha] at hle
    exact absurd hle (by decide)

theorem preference_le_of_byLibBlockNum_le (h : a.byLibBlockNum ≤ b.byLibBlockNum)
    (hv : a.validated = b.validated) : b.preference ≤ a.preference := by
  have hrest := (Prod.Lex.le_iff'.1 h).2 (congrArg (!·) hv)
  obtain ⟨hlib, hnum⟩ := Prod.Lex.le_iff'.1 hrest
  refine Prod.Lex.le_iff'.2 ⟨OrderDual.toDual_le_toDual.1 hlib, fun heq => ?_⟩
  have hnum := (Prod.Lex.le_iff'.1 (hnum (congrArg OrderDual.toDual heq.symm))).1
  exact OrderDual.toDual_le_toDual.1 hnum

namespace ForkIndex

theorem notMem_of_first_none (h : index.first = none) : b ∉ index := by
  have hnil : index.entries = [] := argmin_eq_none.1 h
  intro hb
  rw [mem_def, hnil] at hb
  cases hb

section

variable (h : index.first = some c)
include h

theorem mem_of_first : c ∈ index := argmin_mem h

theorem first_le (hb : b ∈ index) :
    c.byLibBlockNum ≤ b.byLibBlockNum := le_of_mem_argmin hb h

theorem first_best (hb : b ∈ index) (hv : b.validated = true) :
    c.validated = true ∧ b.preference ≤ c.preference := by
  have hle := first_le h hb
  have hc := validated_of_byLibBlockNum_le hle hv
  exact ⟨hc, preference_le_of_byLibBlockNum_le hle (hc.trans hv.symm)⟩

end

theorem firstUnvalidated_best (h : index.firstUnvalidated = some c) :
    c ∈ index ∧ c.validated = false
      ∧ ∀ b ∈ index, b.validated = false → b.preference ≤ c.preference := by
  have hc := List.mem_filter.1 (List.argmin_mem h)
  have hcv : c.validated = false := by simpa using hc.2
  refine ⟨hc.1, hcv, fun b hb hbv => ?_⟩
  have hmem : b ∈ index.entries.filter fun b => !b.validated :=
    List.mem_filter.2 ⟨hb, by simpa using hbv⟩
  exact preference_le_of_byLibBlockNum_le (le_of_mem_argmin hmem h) (hcv.trans hbv.symm)

theorem validated_of_firstUnvalidated_none (h : index.firstUnvalidated = none) (hb : b ∈ index) :
    b.validated = true := by
  have hnil := argmin_eq_none.1 h
  have := filter_eq_nil_iff.1 hnil b hb
  simpa using this

end ForkIndex

end Choice

/-! ## Reaching blocks along `by_prev` -/

namespace ForkIndex

variable {index : ForkIndex}

theorem mem_successors {id x : BlockId} :
    x ∈ index.successors id ↔ ∃ b ∈ index, b.prev = id ∧ b.id = x := by
  unfold successors
  rw [mem_map]
  constructor
  · rintro ⟨b, hb, hx⟩
    obtain ⟨hmem, hp⟩ := List.mem_filter.1 hb
    exact ⟨b, hmem, by simpa using hp, hx⟩
  · rintro ⟨b, hmem, hp, hx⟩
    exact ⟨b, List.mem_filter.2 ⟨hmem, by simpa using hp⟩, hx⟩

/-- Ids are unique and numbers grow along `by_prev`, whatever the container holds. -/
theorem forest (index : ForkIndex) :
    Lib.Forest index.successors (index.entries.map (·.id)) numFromId where
  mem h := by
    obtain ⟨b, hb, -, rfl⟩ := mem_successors.1 h
    exact mem_map_of_mem hb
  nodup id := index.nodup_keys.sublist (filter_sublist.map _)
  parent h h' := by
    obtain ⟨b, hb, rfl, hx⟩ := mem_successors.1 h
    obtain ⟨b', hb', rfl, hx'⟩ := mem_successors.1 h'
    rw [eq_of_mem_of_key_eq hb hb' (hx.trans hx'.symm)]
  rank_lt h := by
    obtain ⟨b, -, rfl, rfl⟩ := mem_successors.1 h
    have := b.blockNum_prev
    omega

end ForkIndex

/-- `x` is `id` or the id of a block above it. -/
def ForkIndex.Below (index : ForkIndex) (id x : BlockId) : Prop := Reaches index.successors id x

variable {index : ForkIndex}

theorem ForkIndex.Below.child {id : BlockId} {b : BlockState}
    (h : index.Below id b.prev) (hb : b ∈ index) : index.Below id b.id :=
  Reaches.tail h (mem_successors.2 ⟨b, hb, rfl, rfl⟩)

theorem ForkIndex.Below.mono {index' : ForkIndex} {id x : BlockId} (h : index.Below id x)
    (hsub : ∀ b ∈ index, b ∈ index') : index'.Below id x := by
  induction h with
  | refl => exact Reaches.refl
  | tail _ hyz ih =>
    obtain ⟨b, hb, hprev, hid⟩ := mem_successors.1 hyz
    exact ih.tail (mem_successors.2 ⟨b, hsub b hb, hprev, hid⟩)

/-! ## `remove` -/

namespace ForkDatabase

/-- `d'` is `d` without the block `id` and the blocks above it. -/
structure Pruned (d : ForkDatabase) (id : BlockId) (d' : ForkDatabase) : Prop where
  root : d'.root = d.root
  head : d'.head = d.head
  mem : ∀ b, b ∈ d'.index ↔ b ∈ d.index ∧ ¬ d.index.Below id b.id

theorem mem_foldl_erase {b : BlockState} :
    ∀ (ids : List BlockId) (index : ForkIndex),
      b ∈ ids.foldl (fun index blockId => index.erase blockId) index ↔ b ∈ index ∧ b.id ∉ ids
  | [], index => by simp
  | id :: ids, index => by
    rw [foldl_cons, mem_foldl_erase ids, mem_erase, mem_cons, not_or, and_assoc]

def removesHead : Failure :=
  .exception ⟨.forkDatabaseException,
    "removing the block and its descendants would remove the current head block"⟩

theorem removeVisit_head (d : ForkDatabase) : d.removeVisit d.head.id = .error removesHead := by
  unfold removeVisit eosAssert
  rw [if_neg (not_not.2 rfl)]
  rfl

variable {d d' : ForkDatabase}

theorem removeVisit_of_ne {x : BlockId} (h : x ≠ d.head.id) :
    d.removeVisit x = .ok (d.index.successors x) := by
  unfold removeVisit eosAssert
  rw [if_pos h]
  rfl

/-- **`remove`.** It throws, with no change, if the head is the block or above it; otherwise
exactly these blocks are gone. -/
theorem remove_cases (d : ForkDatabase) (id : BlockId) :
    (d.index.Below id d.head.id ∧ d.remove id = .error removesHead)
    ∨ (¬ d.index.Below id d.head.id ∧ ∃ d', d.remove id = .ok d' ∧ d.Pruned id d') := by
  have hvisit : ∀ x, d.removeVisit x = .ok (d.index.successors x)
      ∨ ∃ e, d.removeVisit x = .error e := by
    intro x
    by_cases hx : x = d.head.id
    · exact .inr ⟨removesHead, hx ▸ d.removeVisit_head⟩
    · exact .inl (removeVisit_of_ne hx)
  have hfuel : (d.index.entries.map (·.id)).length + 1 ≤ d.index.size + 1 := by
    rw [length_map]
    exact Nat.le_refl _
  rcases worklist_spec Failure.divergence d.index.forest hvisit _ [] [id]
    worklistInv_start (fun x hx => by cases hx) hfuel with
    ⟨queue, hloop, hmem, hok⟩ | ⟨x, e, hreach, herr, hloop⟩
  · right
    constructor
    · -- the head was not visited
      intro hbelow
      have hhead := hok d.head.id ((hmem _).2 hbelow)
      rw [removeVisit_head] at hhead
      cases hhead
    · refine ⟨{ d with index := queue.foldl (fun index blockId => index.erase blockId) d.index },
        by rw [remove, hloop]; rfl, rfl, rfl, fun b => ?_⟩
      rw [mem_foldl_erase, hmem]
      exact Iff.rfl
  · left
    -- only the visit of the head throws
    by_cases hx : x = d.head.id
    · subst hx
      rw [removeVisit_head] at herr
      injection herr with herr
      subst herr
      exact ⟨hreach, by rw [remove, hloop]; rfl⟩
    · rw [removeVisit_of_ne hx] at herr
      cases herr

theorem Pruned.of_remove {id : BlockId} (h : d.remove id = .ok d') :
    d.Pruned id d' ∧ ¬ d.index.Below id d.head.id := by
  rcases d.remove_cases id with ⟨-, herr⟩ | ⟨hhead, d₁, hok, hpruned⟩
  · rw [herr] at h
    cases h
  · rw [hok] at h
    injection h with h
    exact ⟨h ▸ hpruned, hhead⟩

/-! ## The invariant -/

/-- The blocks are a tree on top of the root, and the head is a best validated block. -/
structure TreeInv (d : ForkDatabase) : Prop where
  /-- every block is a child of the root or of a block of the container -/
  linked : ∀ b ∈ d.index, b.prev = d.root.id ∨ ∃ p ∈ d.index, p.id = b.prev
  root_notMem : ∀ b ∈ d.index, b.id ≠ d.root.id
  head_mem : d.head = d.root ∨ (d.head ∈ d.index ∧ d.head.validated = true)
  head_best : ∀ b ∈ d.index, b.validated = true → ¬ firstPreferred b d.head

theorem TreeInv.root_lt (h : d.TreeInv) (b : BlockState)
    (hlink : b.prev = d.root.id ∨ ∃ p ∈ d.index, p.id = b.prev) :
    numFromId d.root.id < numFromId b.id := by
  -- by induction on the block number, from the parent
  induction hn : numFromId b.id using Nat.strong_induction_on generalizing b with
  | _ n ih =>
    have hnum := b.blockNum_prev
    rcases hlink with hroot | ⟨p, hp, hid⟩
    · rw [hroot] at hnum
      omega
    · have hlt := ih _ (by rw [hid]; omega) p (h.linked p hp) rfl
      rw [hid] at hlt
      omega

theorem treeInv_reset (rootBhs : BlockState) : (reset rootBhs).TreeInv where
  linked b hb := absurd hb (notMem_empty b)
  root_notMem b hb := absurd hb (notMem_empty b)
  head_mem := .inl rfl
  head_best b hb := absurd hb (notMem_empty b)

section Calls

variable {d d' : ForkDatabase} {b n newRoot : BlockState} {id : BlockId}

theorem mem_rollbackHeadToRoot :
    b ∈ d.rollbackHeadToRoot.index ↔ ∃ a ∈ d.index, a.setValidated false = b :=
  mem_map fun a => a.setValidated_id false

theorem TreeInv.rollbackHeadToRoot (h : d.TreeInv) : d.rollbackHeadToRoot.TreeInv where
  linked b hb := by
    obtain ⟨a, ha, rfl⟩ := mem_rollbackHeadToRoot.1 hb
    refine (h.linked a ha).imp_right ?_
    intro ⟨p, hp, hid⟩
    exact ⟨p.setValidated false, mem_rollbackHeadToRoot.2 ⟨p, hp, rfl⟩, hid⟩
  root_notMem b hb := by
    obtain ⟨a, ha, rfl⟩ := mem_rollbackHeadToRoot.1 hb
    exact h.root_notMem a ha
  head_mem := .inl rfl
  head_best b hb hv := by
    obtain ⟨a, -, rfl⟩ := mem_rollbackHeadToRoot.1 hb
    cases hv

variable {ignoreDuplicate : Bool}

theorem add_eq_ok (h : d.add n ignoreDuplicate = .ok d') :
    (ignoreDuplicate = true ∧ (∃ b ∈ d.index, b.id = n.id) ∧ d' = d)
    ∨ ((n.prev = d.root.id ∨ ∃ p ∈ d.index, p.id = n.prev) ∧ (∀ b ∈ d.index, b.id ≠ n.id)
      ∧ d' = d.takeValidated (d.index.insert n)) := by
  obtain ⟨_, hlink, h⟩ := bind_eq_ok.1 h
  rw [eosAssert_eq_ok] at hlink
  split at h
  · next hknown =>
    left
    obtain ⟨b, hb⟩ := Option.isSome_iff_exists.1 hknown
    split at h
    · next hignore =>
      injection h with h
      exact ⟨hignore, ⟨b, find?_eq_some_iff.1 hb⟩, h.symm⟩
    · cases h
  · next hnew =>
    right
    injection h with h
    refine ⟨?_, ?_, h.symm⟩
    · unfold getBlockHeader at hlink
      split at hlink
      · next hroot => exact .inl hroot.symm
      · obtain ⟨p, hp⟩ := Option.isSome_iff_exists.1 hlink
        obtain ⟨hmem, hid⟩ := find?_eq_some_iff.1 hp
        exact .inr ⟨p, hmem, hid⟩
    · rw [Option.not_isSome_iff_eq_none] at hnew
      exact find?_eq_none_iff.1 hnew

theorem mem_insert_of_new (hnew : ∀ x ∈ d.index, x.id ≠ n.id) :
    b ∈ d.index.insert n ↔ b = n ∨ b ∈ d.index := by
  rw [mem_insert]
  exact or_congr_right ⟨fun hb => hb.1, fun hb => ⟨hb, hnew b hb⟩⟩

theorem takeValidated_head (d : ForkDatabase) (index : ForkIndex) :
    ((∀ b ∈ index, b.validated = false) ∧ (d.takeValidated index).head = d.head)
    ∨ ((d.takeValidated index).head ∈ index ∧ (d.takeValidated index).head.validated = true
      ∧ ∀ b ∈ index, b.validated = true → ¬ firstPreferred b (d.takeValidated index).head) := by
  cases hfirst : index.first with
  | none =>
    left
    refine ⟨fun b hb => absurd hb (notMem_of_first_none hfirst), ?_⟩
    simp only [takeValidated, hfirst]
  | some c =>
    cases hc : c.validated with
    | true =>
      right
      have hhead : (d.takeValidated index).head = c := by simp [takeValidated, hfirst, hc]
      rw [hhead]
      refine ⟨mem_of_first hfirst, hc, fun b hb hv => ?_⟩
      exact not_lt.2 (first_best hfirst hb hv).2
    | false =>
      left
      refine ⟨fun b hb => ?_, by simp [takeValidated, hfirst, hc]⟩
      cases hv : b.validated with
      | false => rfl
      | true =>
        have hc' := (first_best hfirst hb hv).1
        rw [hc] at hc'
        cases hc'

theorem TreeInv.add (h : d.TreeInv) (hadd : d.add n ignoreDuplicate = .ok d') : d'.TreeInv := by
  rcases add_eq_ok hadd with ⟨-, -, rfl⟩ | ⟨hlink, hnew, rfl⟩
  · exact h
  have hmem := fun b => mem_insert_of_new (b := b) hnew
  refine ⟨?_, ?_, ?_, ?_⟩
  · intro b hb
    have hb : b.prev = d.root.id ∨ ∃ p ∈ d.index, p.id = b.prev := by
      rcases (hmem b).1 hb with rfl | hold
      · exact hlink
      · exact h.linked b hold
    exact hb.imp_right fun ⟨p, hp, hid⟩ => ⟨p, (hmem p).2 (.inr hp), hid⟩
  · intro b hb
    rcases (hmem b).1 hb with rfl | hold
    · intro hid
      have hlt := h.root_lt b hlink
      rw [hid] at hlt
      exact lt_irrefl _ hlt
    · exact h.root_notMem b hold
  · rcases d.takeValidated_head _ with ⟨hnone, hhead⟩ | ⟨hin, hv, -⟩
    · rw [hhead]
      rcases h.head_mem with hroot | ⟨hin, hv⟩
      · exact .inl hroot
      · rw [hnone _ ((hmem _).2 (.inr hin))] at hv
        cases hv
    · exact .inr ⟨hin, hv⟩
  · rcases d.takeValidated_head _ with ⟨hnone, -⟩ | ⟨-, -, hbest⟩
    · intro b hb hv
      rw [hnone b hb] at hv
      cases hv
    · exact hbest

theorem takePreferred_head (d : ForkDatabase)
    (hv : ∃ b ∈ index, b.validated = true) :
    ((∀ b ∈ index, b.validated = true → ¬ firstPreferred b d.head)
      ∧ (d.takePreferred index).head = d.head)
    ∨ ((d.takePreferred index).head ∈ index ∧ (d.takePreferred index).head.validated = true
      ∧ firstPreferred (d.takePreferred index).head d.head
      ∧ ∀ b ∈ index, b.validated = true → ¬ firstPreferred b (d.takePreferred index).head) := by
  obtain ⟨v, hmem, hvalid⟩ := hv
  cases hfirst : index.first with
  | none => exact absurd hmem (notMem_of_first_none hfirst)
  | some c =>
    have hbest : ∀ b ∈ index, b.validated = true → b.preference ≤ c.preference :=
      fun b hb hv => (first_best hfirst hb hv).2
    by_cases hpref : firstPreferred c d.head
    · right
      have hhead : (d.takePreferred index).head = c := by simp [takePreferred, hfirst, hpref]
      rw [hhead]
      exact ⟨mem_of_first hfirst, (first_best hfirst hmem hvalid).1, hpref,
        fun b hb hv => not_lt.2 (hbest b hb hv)⟩
    · left
      refine ⟨fun b hb hv => ?_, by simp [takePreferred, hfirst, hpref]⟩
      exact not_lt.2 ((hbest b hb hv).trans (not_lt.1 hpref))

theorem markValid_eq_ok (h : d.markValid n = .ok d') : (n.validated = true ∧ d' = d)
    ∨ (n.validated = false ∧ ∃ b ∈ d.index, b.id = n.id
      ∧ d' = d.takePreferred (d.index.insert (b.setValidated true))) := by
  unfold markValid at h
  split at h
  · next hv =>
    injection h with h
    exact .inl ⟨hv, h.symm⟩
  · next hv =>
    rw [Bool.not_eq_true] at hv
    split at h
    · next b hb =>
      obtain ⟨hmem, hid⟩ := find?_eq_some_iff.1 hb
      injection h with h
      exact .inr ⟨hv, b, hmem, hid, h.symm⟩
    · cases h

theorem mem_insert_setValidated {c : BlockState} (hb : b ∈ d.index) :
    c ∈ d.index.insert (b.setValidated true) ↔ c = b.setValidated true ∨ (c ∈ d.index ∧ c ≠ b) := by
  rw [mem_insert]
  refine or_congr_right (and_congr_right fun hc => ?_)
  exact not_congr ⟨fun hid => eq_of_mem_of_key_eq hc hb hid, fun hcb => hcb ▸ rfl⟩

theorem TreeInv.markValid (h : d.TreeInv) (hmark : d.markValid n = .ok d') : d'.TreeInv := by
  rcases markValid_eq_ok hmark with ⟨-, rfl⟩ | ⟨-, b, hb, -, rfl⟩
  · exact h
  have hmem := fun c => mem_insert_setValidated (c := c) hb
  -- every block has a counterpart with the same id and parent, before and after
  have hold : ∀ c ∈ d.index.insert (b.setValidated true), ∃ a ∈ d.index, a.id = c.id ∧ a.prev = c.prev := by
    intro c hc
    rcases (hmem c).1 hc with rfl | ⟨hc, -⟩
    · exact ⟨b, hb, rfl, rfl⟩
    · exact ⟨c, hc, rfl, rfl⟩
  have hnew : ∀ a ∈ d.index, ∃ c ∈ d.index.insert (b.setValidated true), c.id = a.id := by
    intro a ha
    by_cases hab : a = b
    · exact ⟨b.setValidated true, (hmem _).2 (.inl rfl), hab ▸ rfl⟩
    · exact ⟨a, (hmem a).2 (.inr ⟨ha, hab⟩), rfl⟩
  have hvalid : ∃ c ∈ d.index.insert (b.setValidated true), c.validated = true :=
    ⟨b.setValidated true, (hmem _).2 (.inl rfl), rfl⟩
  refine ⟨?_, ?_, ?_, ?_⟩
  · intro c hc
    obtain ⟨a, ha, -, hprev⟩ := hold c hc
    rw [← hprev]
    refine (h.linked a ha).imp_right fun ⟨p, hp, hid⟩ => ?_
    obtain ⟨q, hq, hqid⟩ := hnew p hp
    exact ⟨q, hq, hqid.trans hid⟩
  · intro c hc
    obtain ⟨a, ha, hid, -⟩ := hold c hc
    exact hid ▸ h.root_notMem a ha
  · rcases d.takePreferred_head hvalid with ⟨-, hhead⟩ | ⟨hin, hv, -, -⟩
    · rw [hhead]
      refine h.head_mem.imp_right fun ⟨hin, hv⟩ => ⟨(hmem _).2 ?_, hv⟩
      by_cases hab : d.head = b
      · exact .inl (by rw [← hab, setValidated_eq hv])
      · exact .inr ⟨hin, hab⟩
    · exact .inr ⟨hin, hv⟩
  · rcases d.takePreferred_head hvalid with ⟨hbest, hhead⟩ | ⟨-, -, -, hbest⟩
    · rw [hhead]
      exact hbest
    · exact hbest

/-- What `remove` leaves is still linked, and closed under parents. -/
theorem Pruned.parent_mem {p : BlockState} (hp : d.Pruned id d') (hb : b ∈ d'.index)
    (hmem : p ∈ d.index) (hid : p.id = b.prev) : p ∈ d'.index := by
  obtain ⟨hold, hnot⟩ := (hp.mem b).1 hb
  refine (hp.mem p).2 ⟨hmem, fun hbelow => hnot ?_⟩
  rw [hid] at hbelow
  exact hbelow.child hold

theorem TreeInv.remove (h : d.TreeInv) (hremove : d.remove id = .ok d') : d'.TreeInv := by
  obtain ⟨hp, hhead⟩ := Pruned.of_remove hremove
  refine ⟨?_, ?_, ?_, ?_⟩
  · intro b hb
    rw [hp.root]
    exact (h.linked b ((hp.mem b).1 hb).1).imp_right fun ⟨p, hmem, hid⟩ =>
      ⟨p, hp.parent_mem hb hmem hid, hid⟩
  · intro b hb
    rw [hp.root]
    exact h.root_notMem b ((hp.mem b).1 hb).1
  · rw [hp.head, hp.root]
    exact h.head_mem.imp_right fun ⟨hin, hv⟩ => ⟨(hp.mem _).2 ⟨hin, hhead⟩, hv⟩
  · intro b hb
    rw [hp.head]
    exact h.head_best b ((hp.mem b).1 hb).1

/-! ## `advance_root` -/

theorem root_mem_blocksToRemove : ∀ {fuel : Nat} {b : BlockState} {ids : List BlockId},
    d.blocksToRemove fuel b = .ok ids → d.root.id ∈ ids
  | 0, _, _, h => by cases h
  | fuel + 1, b, ids, h => by
    unfold blocksToRemove at h
    split at h
    · obtain ⟨rest, hrest, h⟩ := bind_eq_ok.1 h
      injection h with h
      exact h ▸ mem_cons_of_mem _ (root_mem_blocksToRemove hrest)
    · obtain ⟨_, hroot, h⟩ := bind_eq_ok.1 h
      injection h with h
      rw [eosAssert_eq_ok] at hroot
      exact h ▸ hroot ▸ mem_singleton_self b.prev

theorem checkNewRoot_eq_ok {ids : List BlockId} (h : d.checkNewRoot id = .ok (newRoot, ids)) :
    newRoot ∈ d.index ∧ newRoot.id = id ∧ newRoot.validated = true
      ∧ d.blocksToRemove newRoot.blockNum newRoot = .ok ids := by
  unfold checkNewRoot at h
  split at h
  · cases h
  · next b hb =>
    obtain ⟨hmem, hid⟩ := find?_eq_some_iff.1 hb
    obtain ⟨_, hv, ids', hids, h⟩ := bind₂_eq_ok.1 h
    injection h with h
    injection h with h1 h2
    subst h1 h2
    exact ⟨hmem, hid, eosAssert_eq_ok.1 hv, hids⟩

/-- While `advance_root` removes blocks: the new root is gone and its children stay; everything
else is linked to the old root; the ids that were removed have no blocks on top. -/
structure Advancing (d : ForkDatabase) (newRoot : BlockState) (done : List BlockId)
    (d' : ForkDatabase) : Prop where
  root : d'.root = d.root
  head : d'.head = d.head
  sub : ∀ b ∈ d'.index, b ∈ d.index ∧ b ≠ newRoot
  linked : ∀ b ∈ d'.index, b.prev = d.root.id ∨ b.prev = newRoot.id ∨ ∃ p ∈ d'.index, p.id = b.prev
  head_mem : d.head ∈ d.index → d.head ≠ newRoot → d.head ∈ d'.index
  removed : ∀ id ∈ done, id ≠ d.head.id ∧ ∀ b ∈ d'.index, b.prev ≠ id

theorem advancing_start (h : d.TreeInv) (hnew : newRoot ∈ d.index) :
    Advancing d newRoot [] { d with index := d.index.erase newRoot.id } := by
  have hmem : ∀ b, b ∈ d.index.erase newRoot.id ↔ b ∈ d.index ∧ b ≠ newRoot := by
    intro b
    rw [mem_erase]
    refine and_congr_right fun hb => not_congr ⟨fun hid => ?_, fun heq => heq ▸ rfl⟩
    exact eq_of_mem_of_key_eq hb hnew hid
  refine ⟨rfl, rfl, fun b hb => (hmem b).1 hb, fun b hb => ?_,
    fun hin hne => (hmem _).2 ⟨hin, hne⟩, fun id hid => by cases hid⟩
  rcases h.linked b ((hmem b).1 hb).1 with hroot | ⟨p, hp, hid⟩
  · exact .inl hroot
  · by_cases hpn : p = newRoot
    · exact .inr (.inl (hpn ▸ hid.symm))
    · exact .inr (.inr ⟨p, (hmem p).2 ⟨hp, hpn⟩, hid⟩)

theorem Advancing.step {done : List BlockId} {d₁ d₂ : ForkDatabase}
    (h : Advancing d newRoot done d₁) (hremove : d₁.remove id = .ok d₂) :
    Advancing d newRoot (done ++ [id]) d₂ := by
  obtain ⟨hp, hhead⟩ := Pruned.of_remove hremove
  rw [h.head] at hhead
  refine ⟨hp.root.trans h.root, hp.head.trans h.head, ?_, ?_, ?_, ?_⟩
  · intro b hb
    exact h.sub b ((hp.mem b).1 hb).1
  · intro b hb
    exact (h.linked b ((hp.mem b).1 hb).1).imp_right (Or.imp_right fun ⟨p, hmem, hid⟩ =>
      ⟨p, hp.parent_mem hb hmem hid, hid⟩)
  · intro hin hne
    exact (hp.mem _).2 ⟨h.head_mem hin hne, hhead⟩
  · intro x hx
    rcases mem_append.1 hx with hold | hlast
    · exact ⟨(h.removed x hold).1, fun b hb => (h.removed x hold).2 b ((hp.mem b).1 hb).1⟩
    · rw [mem_singleton.1 hlast]
      refine ⟨fun heq => hhead (heq ▸ Reaches.refl), fun b hb hprev => ?_⟩
      obtain ⟨hold, hnot⟩ := (hp.mem b).1 hb
      have hself : d₁.index.Below id b.prev := hprev ▸ Reaches.refl
      exact hnot (hself.child hold)

theorem advanceRoot_eq_ok (h : d.TreeInv) (hadv : advanceRoot id d = .ok () d') :
    ∃ newRoot ids d₁, newRoot ∈ d.index ∧ newRoot.id = id ∧ newRoot.validated = true
      ∧ d.root.id ∈ ids ∧ Advancing d newRoot ids d₁ ∧ d' = { d₁ with root := newRoot } := by
  have hends : Ends (advanceRoot id) d (fun _ d' => ∃ newRoot ids d₁, newRoot ∈ d.index
      ∧ newRoot.id = id ∧ newRoot.validated = true ∧ d.root.id ∈ ids
      ∧ Advancing d newRoot ids d₁ ∧ d' = { d₁ with root := newRoot }) fun _ _ => True := by
    unfold advanceRoot
    rw [ends_bind, ends_compute]
    split
    · next r hr =>
      obtain ⟨newRoot, ids⟩ := r
      obtain ⟨hmem, hid, hv, hids⟩ := checkNewRoot_eq_ok hr
      rw [ends_bind, ends_modify, ends_bind]
      have hloop := ends_forM (I := Advancing d newRoot) (E := fun _ _ => True)
        ids [] _
        (fun done blockId s _ hs => by
          rw [ends_attempt]
          split
          · next t ht => exact hs.step ht
          · trivial)
        (hid ▸ advancing_start h hmem)
      refine hloop.mono (fun _ t ht => ?_) fun _ _ _ => trivial
      exact ⟨newRoot, ids, t, hmem, hid, hv, root_mem_blocksToRemove hids, ht, rfl⟩
    · trivial
  exact hends.of_ok hadv

theorem TreeInv.advanceRoot (h : d.TreeInv) (hadv : advanceRoot id d = .ok () d') : d'.TreeInv := by
  obtain ⟨newRoot, ids, d₁, hmem, -, -, hroot, hdone, rfl⟩ := advanceRoot_eq_ok h hadv
  obtain ⟨hrootHead, hrootless⟩ := hdone.removed _ hroot
  refine ⟨?_, ?_, ?_, ?_⟩
  · -- the old root was removed last, so nothing is linked to it any more
    intro b hb
    exact (hdone.linked b hb).resolve_left (hrootless b hb)
  · intro b hb hid
    obtain ⟨hin, hne⟩ := hdone.sub b hb
    exact hne (eq_of_mem_of_key_eq hin hmem hid)
  · show d₁.head = newRoot ∨ _
    rw [hdone.head]
    rcases h.head_mem with hr | ⟨hin, hv⟩
    · exact absurd (congrArg (fun b : BlockState => b.id) hr).symm hrootHead
    · by_cases hnew : d.head = newRoot
      · exact .inl hnew
      · exact .inr ⟨hdone.head_mem hin hnew, hv⟩
  · intro b hb
    show b.validated = true → ¬ firstPreferred b d₁.head
    rw [hdone.head]
    exact h.head_best b (hdone.sub b hb).1

end Calls

theorem pendingHead_cases (d : ForkDatabase) : d.pendingHead = d.head
    ∨ (d.pendingHead ∈ d.index ∧ d.pendingHead.validated = false
      ∧ firstPreferred d.pendingHead d.head) := by
  unfold pendingHead
  cases hfirst : d.index.firstUnvalidated with
  | none => exact .inl rfl
  | some cand =>
    obtain ⟨hmem, hv, -⟩ := firstUnvalidated_best hfirst
    by_cases hpref : firstPreferred cand d.head
    · simp only [if_pos hpref]
      exact .inr ⟨hmem, hv, hpref⟩
    · exact .inl (if_neg hpref)

theorem TreeInv.pendingHead_best (h : d.TreeInv) :
    ∀ b ∈ d.index, ¬ firstPreferred b d.pendingHead := by
  intro b hb
  have hvalid : b.validated = true → b.preference ≤ d.head.preference :=
    fun hv => not_lt.1 (h.head_best b hb hv)
  apply not_lt.2
  unfold pendingHead
  cases hfirst : d.index.firstUnvalidated with
  | none => exact hvalid (validated_of_firstUnvalidated_none hfirst hb)
  | some c =>
    obtain ⟨-, -, hbest⟩ := firstUnvalidated_best hfirst
    show b.preference ≤ preference (if firstPreferred c d.head then c else d.head)
    cases hv : b.validated with
    | true =>
      split
      · next hpref => exact (hvalid hv).trans (le_of_lt hpref)
      · exact hvalid hv
    | false =>
      split
      · exact hbest b hb hv
      · next hpref => exact (hbest b hb hv).trans (not_lt.1 hpref)

/-! ## Runs -/

theorem TreeInv.run (h : d.TreeInv) (c : ForkCall) (hc : c.run d = .ok () d') : d'.TreeInv := by
  cases c with
  | reset rootBhs =>
    injection hc with _ hc
    exact hc ▸ treeInv_reset rootBhs
  | add n ignoreDuplicate =>
    simp only [ForkCall.run, attempt_eq_ok] at hc
    exact h.add hc
  | markValid n =>
    simp only [ForkCall.run, attempt_eq_ok] at hc
    exact h.markValid hc
  | remove id =>
    simp only [ForkCall.run, attempt_eq_ok] at hc
    exact h.remove hc
  | advanceRoot id => exact h.advanceRoot hc
  | rollbackHeadToRoot =>
    injection hc with _ hc
    exact hc ▸ h.rollbackHeadToRoot

theorem run_eq_error {c : ForkCall} {e : Failure} (hc : ∀ id, c ≠ .advanceRoot id)
    (h : c.run d = .error e d') : d' = d := by
  cases c with
  | reset rootBhs => cases h
  | add n ignoreDuplicate | markValid n | remove id =>
    simp only [ForkCall.run, attempt_eq_error] at h
    exact h.2
  | advanceRoot id => exact absurd rfl (hc id)
  | rollbackHeadToRoot => cases h

theorem treeInv_of_forkRun (run : ForkRun d) : d.TreeInv := by
  induction run with
  | reset rootBhs => exact treeInv_reset rootBhs
  | returns _ h ih => exact ih.run _ h
  | throws _ hc h ih => exact run_eq_error hc h ▸ ih

/-- **The fork database.** After every sequence of calls the blocks are a tree on top of the
root, the head is a best validated block, and the pending head is a best block. -/
theorem forkTree_of_forkRun {d : ForkDatabase} (run : ForkRun d) :
    d.TreeInv ∧ ∀ b ∈ d.index, ¬ firstPreferred b d.pendingHead := by
  have hinv := treeInv_of_forkRun run
  exact ⟨hinv, hinv.pendingHead_best⟩

/-- Two branches on the genesis block. One is validated up to its second block, and the root moves
to its first block; the other branch is dropped. -/
theorem forkTree_two_branches :
    let a := BlockState.genesis.child 1 0
    let b := a.child 1 1
    let c := b.child 1 1
    ∃ d, ForkRun d ∧ d.root = a.setValidated true ∧ d.head = b.setValidated true
      ∧ d.pendingHead = c ∧ d.TreeInv ∧ ∀ x ∈ d.index, ¬ firstPreferred x d.pendingHead := by
  intro a b c
  obtain ⟨d, run, hP⟩ := exists_forkRun_of_runForkCalls genesis
    [.add a false, .add (genesis.child 2 0) false, .markValid a, .add b false,
      .markValid b, .add c false, .advanceRoot a.id]
    (P := fun d => d.root = a.setValidated true ∧ d.head = b.setValidated true
      ∧ d.pendingHead = c)
    (by decide +kernel)
  obtain ⟨hroot, hhead, hpending⟩ := of_decide_eq_true hP
  exact ⟨d, run, hroot, hhead, hpending, forkTree_of_forkRun run⟩

end ForkDatabase

end PotatoNode.Chain
