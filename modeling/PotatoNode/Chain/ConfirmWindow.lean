import Mathlib.Data.List.GetD
import PotatoNode.Chain.HeaderChain

/-!
# The confirmation window

`confirm_count` holds, for the newest blocks of a chain, how many confirmations each still needs.
`next` appends an entry for the new block (at the cap of 1024 the oldest entry makes room),
walks back over the blocks the new block confirms and, when an entry reaches zero, makes that
block the proposal and cuts the window behind it.
-/

namespace PotatoNode.Chain

open Lib BlockHeaderState List Nat

theorem u8Pred_of_pos {x : Nat} (hpos : 0 < x) (hlt : x < 2 ^ 8) : u8Pred x = x - 1 := by
  unfold u8Pred
  omega

theorem u32Sub_of_le {a b : Nat} (h : b ≤ a) : u32Sub a b = a - b := by
  unfold u32Sub
  rw [if_pos h]

/-! ## The loop -/

/-- The outcome `r` of the confirmation loop over the entries below `remaining`, the last
`blocksToConfirm` of which it may decrement. -/
structure LoopOutcome (blockNum remaining blocksToConfirm : Nat) (cc : List Nat) (proposed : Nat)
    (r : List Nat × Nat) (dropped : Nat) : Prop where
  dropped_le : dropped ≤ cc.length
  length : r.1.length = cc.length - dropped
  confirmed : ∀ j, j < r.1.length → remaining - blocksToConfirm ≤ dropped + j →
    dropped + j < remaining →
      r.1.getD j 0 = u8Pred (cc.getD (dropped + j) 0) ∧ r.1.getD j 0 ≠ 0
  untouched : ∀ j, j < r.1.length →
    dropped + j < remaining - blocksToConfirm ∨ remaining ≤ dropped + j →
      r.1.getD j 0 = cc.getD (dropped + j) 0
  proposal : (dropped = 0 ∧ r.2 = proposed) ∨
    (0 < dropped ∧ remaining - blocksToConfirm ≤ dropped - 1 ∧ dropped ≤ remaining
      ∧ u8Pred (cc.getD (dropped - 1) 0) = 0 ∧ r.2 = u32Sub blockNum (cc.length - dropped))

variable {blockNum blocksToConfirm proposed : Nat} {cc : List Nat} {s : BlockHeaderState} {fc : Fc}
  {g : GenesisState} {older chain : List BlockHeaderState}

theorem LoopOutcome.done {remaining : Nat} (h : remaining - blocksToConfirm = remaining) :
    LoopOutcome blockNum remaining blocksToConfirm cc proposed (cc, proposed) 0 where
  dropped_le := zero_le _
  length := rfl
  confirmed := fun j _ h₁ h₂ => absurd h₂ (by omega)
  untouched := fun j _ _ => by rw [zero_add]
  proposal := .inl ⟨rfl, rfl⟩

/-- Entry `i` reached zero: the window keeps what is above it. -/
theorem LoopOutcome.cut {i : Nat} (hi : i < cc.length) (hzero : u8Pred (cc.getD i 0) = 0) :
    LoopOutcome blockNum (i + 1) (blocksToConfirm + 1) cc proposed
      (cc.drop (i + 1), u32Sub blockNum (cc.length - (i + 1))) (i + 1) where
  dropped_le := hi
  length := length_drop
  confirmed := fun j _ _ h => absurd h (by omega)
  untouched := fun j _ _ => by
    simp only [getD_eq_getElem?_getD, getElem?_drop]
  proposal := .inr ⟨succ_pos i, by omega, le_rfl, hzero, rfl⟩

theorem LoopOutcome.step {blockNum i blocksToConfirm : Nat} {cc : List Nat} {proposed dropped : Nat}
    {r : List Nat × Nat} (hi : i < cc.length) (hne : u8Pred (cc.getD i 0) ≠ 0)
    (h : LoopOutcome blockNum i blocksToConfirm (cc.set i (u8Pred (cc.getD i 0))) proposed r
      dropped) :
    LoopOutcome blockNum (i + 1) (blocksToConfirm + 1) cc proposed r dropped := by
  -- below `i` the decremented window is the old one
  have hself : (cc.set i (u8Pred (cc.getD i 0))).getD i 0 = u8Pred (cc.getD i 0) := by
    simp [getD_eq_getElem?_getD, hi]
  have hother : ∀ k, k ≠ i → (cc.set i (u8Pred (cc.getD i 0))).getD k 0 = cc.getD k 0 := by
    intro k hk
    simp only [getD_eq_getElem?_getD, getElem?_set_ne (Ne.symm hk)]
  have hsub : i + 1 - (blocksToConfirm + 1) = i - blocksToConfirm := by omega
  refine ⟨?_, ?_, ?_, ?_, ?_⟩
  · simpa using h.dropped_le
  · simpa using h.length
  · intro j hj hlow hhigh
    rw [hsub] at hlow
    by_cases hji : dropped + j = i
    · have hval := h.untouched j hj (.inr hji.ge)
      rw [hji, hself] at hval
      rw [hji]
      exact ⟨hval, hval ▸ hne⟩
    · have hval := h.confirmed j hj hlow (by omega)
      rw [hother _ hji] at hval
      exact hval
  · intro j hj hout
    have hji : dropped + j ≠ i := by omega
    rw [h.untouched j hj (by omega), hother _ hji]
  · rcases h.proposal with hnone | ⟨hpos, hlow, hle, hzero, hnum⟩
    · exact .inl hnone
    · rw [hother _ (by omega)] at hzero
      rw [length_set] at hnum
      exact .inr ⟨hpos, by omega, by omega, hzero, hnum⟩

/-- **What the confirmation loop does**, by induction on the entries it has left to visit. -/
theorem confirmLoop_spec (blockNum : Nat) (proposed : Nat) (remaining : Nat) :
    ∀ (blocksToConfirm : Nat) (cc : List Nat), remaining ≤ cc.length →
      ∃ dropped, LoopOutcome blockNum remaining blocksToConfirm cc proposed
        (confirmLoop blockNum remaining blocksToConfirm cc proposed) dropped := by
  induction remaining with
  | zero =>
    intro blocksToConfirm cc _
    exact ⟨0, by cases blocksToConfirm <;> exact LoopOutcome.done (by omega)⟩
  | succ i ih =>
    intro blocksToConfirm cc hle
    cases blocksToConfirm with
    | zero => exact ⟨0, LoopOutcome.done (by omega)⟩
    | succ blocksToConfirm =>
      by_cases hzero : u8Pred (cc.getD i 0) = 0
      · have hcut : confirmLoop blockNum (i + 1) (blocksToConfirm + 1) cc proposed
            = (cc.drop (i + 1), u32Sub blockNum (cc.length - (i + 1))) := by
          simp only [confirmLoop, hzero, if_true, length_set]
          rw [show cc.length - 1 - i = cc.length - (i + 1) by omega]
          split
          · rw [drop_eq_nil_of_le (by omega)]
          · rw [drop_set_of_lt (lt_succ_self i)]
        rw [hcut]
        exact ⟨i + 1, LoopOutcome.cut hle hzero⟩
      · have hstep : confirmLoop blockNum (i + 1) (blocksToConfirm + 1) cc proposed
            = confirmLoop blockNum i blocksToConfirm (cc.set i (u8Pred (cc.getD i 0)))
                proposed := by
          simp only [confirmLoop, hzero, if_false]
        obtain ⟨dropped, hout⟩ := ih blocksToConfirm (cc.set i (u8Pred _))
          (by rw [length_set]; omega)
        rw [hstep]
        exact ⟨dropped, LoopOutcome.step hle hzero hout⟩

theorem confirmBlocks_spec (s : BlockHeaderState) (confirmed : Nat) :
    ∃ dropped, LoopOutcome (s.blockNum + 1) s.growConfirmCount.length (confirmed + 1)
      s.growConfirmCount s.dposProposedIrreversibleBlocknum (s.confirmBlocks confirmed) dropped :=
  confirmLoop_spec _ _ _ _ _ le_rfl

/-! ## Where the window stands -/

/-- The window is short and lies above the proposal; what is derived from proposals lies at or
below it. -/
structure DposInv (s : BlockHeaderState) : Prop where
  length_le : s.confirmCount.length ≤ maximumTrackedDposConfirmations
  length_lt : s.confirmCount.length < s.blockNum
  above : s.confirmCount.length + s.dposProposedIrreversibleBlocknum ≤ s.blockNum
  implied_le : ∀ q v, s.producerToLastImpliedIrb.get? q = some v →
    v ≤ s.dposProposedIrreversibleBlocknum
  lib_le : s.dposIrreversibleBlocknum ≤ s.dposProposedIrreversibleBlocknum

theorem growConfirmCount_length :
    s.growConfirmCount.length ≤ s.confirmCount.length + 1
      ∧ (s.confirmCount.length ≤ maximumTrackedDposConfirmations →
          s.growConfirmCount.length ≤ maximumTrackedDposConfirmations) := by
  unfold growConfirmCount
  split <;> rw [length_append, length_singleton]
  · omega
  · have hcap : maximumTrackedDposConfirmations = 1024 := rfl
    rw [length_drop]
    omega

theorem calcDposLastIrreversible_le (h : DposInv s) (p : AccountName) :
    s.calcDposLastIrreversible p ≤ s.dposProposedIrreversibleBlocknum := by
  unfold calcDposLastIrreversible
  dsimp only
  split
  · exact zero_le _
  · rename_i hne
    obtain ⟨y, hy⟩ := nthElement_isSome (l := s.impliedBlocknums p)
      (i := ((s.impliedBlocknums p).length - 1) / 3) (by omega)
    rw [hy]
    obtain ⟨⟨q, v⟩, hmem, rfl⟩ := mem_map.1 (mem_of_nthElement hy)
    split
    · exact le_rfl
    · exact h.implied_le q v (FlatMap.get?_eq_some_iff.2 hmem)

section Step

variable {fc : Fc} {s s' : BlockHeaderState} {pro : ProducerAuthority}

section

variable (hacc : Accepts fc s s' pro) (h : DposInv s)
include hacc h

theorem Accepts.lib_le_proposed :
    s'.dposIrreversibleBlocknum ≤ s.dposProposedIrreversibleBlocknum :=
  hacc.lib ▸ calcDposLastIrreversible_le h _

/-- **The proposal never moves back.** Either no entry reached zero, or the new proposal is a
block of the window. -/
theorem Accepts.proposed_mono :
    s.dposProposedIrreversibleBlocknum ≤ s'.dposProposedIrreversibleBlocknum := by
  obtain ⟨dropped, hout⟩ := confirmBlocks_spec s s'.header.confirmed
  rw [hacc.proposed_eq]
  have hlen := (growConfirmCount_length (s := s)).1
  have habove := h.above
  rcases hout.proposal with ⟨-, hprop⟩ | ⟨hpos, -, -, -, hprop⟩
  · exact hprop.ge
  · rw [hprop, u32Sub_of_le (by omega)]
    omega

theorem Accepts.implied_le_proposed {q : AccountName}
    {v : Nat} (hv : s'.producerToLastImpliedIrb.get? q = some v) :
    v ≤ s.dposProposedIrreversibleBlocknum := by
  rw [hacc.impliedIrb] at hv
  split at hv
  · rw [get?_rebuildProducerMap] at hv
    split at hv
    · injection hv with hv
      subst hv
      split
      · exact le_rfl
      · cases hold : s.producerToLastImpliedIrb.get? q with
        | none => exact hacc.lib_le_proposed h
        | some w => exact h.implied_le q w hold
    · cases hv
  · rw [FlatMap.get?_set] at hv
    split at hv
    · injection hv with hv
      exact hv.ge
    · exact h.implied_le q v hv

theorem dposInv_step : DposInv s' := by
  obtain ⟨dropped, hout⟩ := confirmBlocks_spec s s'.header.confirmed
  have hmono := hacc.proposed_mono h
  have hlib := hacc.lib_le_proposed h
  obtain ⟨hgrow, hcap⟩ := growConfirmCount_length (s := s)
  have hcap := hcap h.length_le
  have hlen : s'.confirmCount.length = s.growConfirmCount.length - dropped :=
    hacc.confirmCount_eq ▸ hout.length
  have hnum := hacc.blockNum
  have hlt := h.length_lt
  have habove := h.above
  refine ⟨by omega, by omega, ?_, ?_, hlib.trans hmono⟩
  · rw [hacc.proposed_eq]
    rcases hout.proposal with ⟨hzero, hprop⟩ | ⟨hpos, -, -, -, hprop⟩
    · omega
    · rw [hprop, u32Sub_of_le (by omega)]
      omega
  · exact fun q v hv => (hacc.implied_le_proposed h hv).trans hmono

end

end Step

theorem dposInv_genesis (fc : Fc) (g : GenesisState) : DposInv (g.headerState fc) where
  length_le := zero_le _
  length_lt := by rw [headerState_blockNum]; exact zero_lt_one
  above := by rw [headerState_blockNum]; exact zero_le 1
  implied_le := fun q v hv => by cases hv
  lib_le := le_rfl

theorem HeaderChain.dposInv (h : HeaderChain fc g (s :: older)) : DposInv s := by
  refine invariant (P := fun c => ∀ s ∈ c.head?, DposInv s) ?_ ?_ h s rfl
  · rintro s ⟨⟩
    exact dposInv_genesis fc g
  · rintro s s' older pro - hacc ih t ⟨⟩
    exact dposInv_step hacc (ih s rfl)

theorem HeaderChain.proposed_le (h : HeaderChain fc g (s :: older)) :
    ∀ t ∈ older, t.dposProposedIrreversibleBlocknum ≤ s.dposProposedIrreversibleBlocknum := by
  refine invariant (P := fun c => ∀ s older, c = s :: older → ∀ t ∈ older,
    t.dposProposedIrreversibleBlocknum ≤ s.dposProposedIrreversibleBlocknum) ?_ ?_ h s older rfl
  · intro s older heq t ht
    cases heq
    cases ht
  · intro s s' older pro hchain hacc ih s₁ older₁ heq t ht
    cases heq
    have hmono := hacc.proposed_mono hchain.dposInv
    rcases mem_cons.1 ht with rfl | ht
    · exact hmono
    · exact (ih s older rfl t ht).trans hmono

/-! ## What an entry counts

`n` is the block that entry `j` stands for: `n + size = block_num + 1 + j`. -/

/-- Every block of the chain needs a number of confirmations that a `uint8_t` can hold. -/
def FitsUint8 (chain : List BlockHeaderState) : Prop :=
  ∀ t ∈ chain, t.requiredConfs < 2 ^ 8

/-- Every entry of `cc`, the window that ends at block `last`, is positive and is what its block
still needs. -/
def Counted (chain : List BlockHeaderState) (cc : List Nat) (last : Nat) : Prop :=
  ∀ j n, j < cc.length → n + cc.length = last + 1 + j →
    0 < cc.getD j 0 ∧ cc.getD j 0 + (confirmers chain n).length = requiredConfsAt chain n

theorem requiredConfsAt_lt (h : FitsUint8 chain) (n : Nat) : requiredConfsAt chain n < 2 ^ 8 := by
  unfold requiredConfsAt
  split
  · rename_i t ht
    exact h t (mem_of_find?_eq_some ht)
  · decide

theorem confirmers_eq_nil {n : Nat} (h : ∀ t ∈ chain, t.blockNum < n) :
    confirmers chain n = [] := by
  unfold confirmers
  rw [filter_eq_nil_iff]
  intro t ht
  have := h t ht
  simp [confirms]
  omega

section Step

variable {s' : BlockHeaderState} {pro : ProducerAuthority}
  (hchain : HeaderChain fc g (s :: older)) (hfits : FitsUint8 (s :: older))
  (h : Counted (s :: older) s.confirmCount s.blockNum)
include hchain hfits h

/-- Growing the window: the new entry is all that the next block needs. -/
theorem counted_growConfirmCount :
    Counted (s :: older) s.growConfirmCount (s.blockNum + 1) := by
  have hreq : s.requiredConfs % 2 ^ 8 = s.requiredConfs := mod_eq_of_lt (hfits s mem_cons_self)
  have hnew : 0 < s.requiredConfs ∧ s.requiredConfs
      + (confirmers (s :: older) (s.blockNum + 1)).length
        = requiredConfsAt (s :: older) (s.blockNum + 1) := by
    rw [confirmers_eq_nil, requiredConfsAt_cons_self]
    · exact ⟨succ_pos _, rfl⟩
    · exact fun t ht => lt_succ_of_le (hchain.blockNum_le t ht)
  have hcap := hchain.dposInv.length_le
  intro j n hj hn
  unfold growConfirmCount at hj hn ⊢
  rw [hreq] at hj hn ⊢
  split at hj <;> rename_i hlen
  · rw [if_pos hlen] at hn ⊢
    rw [length_append, length_singleton] at hj hn
    by_cases hlast : j = s.confirmCount.length
    · obtain rfl : n = s.blockNum + 1 := by omega
      rw [getD_append_right _ _ _ _ hlast.ge, hlast, Nat.sub_self]
      exact hnew
    · rw [getD_append _ _ _ _ (by omega)]
      exact h j n (by omega) (by omega)
  · -- at the cap: entry `j` is the old entry `j + 1`
    rw [if_neg hlen] at hn ⊢
    rw [length_append, length_singleton, length_drop] at hj hn
    by_cases hlast : j = s.confirmCount.length - 1
    · obtain rfl : n = s.blockNum + 1 := by omega
      rw [getD_append_right _ _ _ _ (by rw [length_drop]; omega), length_drop, hlast, Nat.sub_self]
      exact hnew
    · rw [getD_append _ _ _ _ (by rw [length_drop]; omega), getD_eq_getElem?_getD, getElem?_drop]
      exact h (1 + j) n (by omega) (by omega)

/-- A block keeps the window right. -/
theorem counted_step (hacc : Accepts fc s s' pro) :
    Counted (s' :: s :: older) s'.confirmCount s'.blockNum := by
  have hgrow := counted_growConfirmCount hchain hfits h
  obtain ⟨dropped, hout⟩ := confirmBlocks_spec s s'.header.confirmed
  rw [← hacc.window] at hout
  intro j n hj hn
  have hlen : s'.confirmCount.length = s.growConfirmCount.length - dropped := hout.length
  have hnum := hacc.blockNum
  obtain ⟨hpos, hcount⟩ := hgrow (dropped + j) n (by omega) (by omega)
  have hlt := requiredConfsAt_lt hfits n
  rw [requiredConfsAt_cons_of_le (by omega), confirmers_cons]
  -- the loop decrements the entry exactly when the new block confirms `n`
  by_cases hconf : s'.confirms n = true
  · have hreach : s'.blockNum ≤ n + s'.header.confirmed := by
      simp only [confirms, Bool.and_eq_true, decide_eq_true_eq] at hconf
      exact hconf.2
    obtain ⟨hval, hne⟩ := hout.confirmed j hj (by omega) (by omega)
    rw [u8Pred_of_pos hpos (by omega)] at hval
    rw [if_pos hconf, length_cons]
    simp only at hval hne
    omega
  · have hreach : n + s'.header.confirmed < s'.blockNum := by
      simp only [confirms, Bool.and_eq_true, decide_eq_true_eq] at hconf
      omega
    have hval := hout.untouched j hj (.inl (by omega))
    rw [if_neg hconf]
    simp only at hval
    omega

theorem confirmers_length_of_advance (hacc : Accepts fc s s' pro)
    (hadv : s.dposProposedIrreversibleBlocknum < s'.dposProposedIrreversibleBlocknum) :
    0 < requiredConfsAt (s :: older) s'.dposProposedIrreversibleBlocknum
      ∧ s'.dposProposedIrreversibleBlocknum ≤ s'.blockNum
      ∧ (confirmers (s' :: s :: older) s'.dposProposedIrreversibleBlocknum).length
        = requiredConfsAt (s :: older) s'.dposProposedIrreversibleBlocknum := by
  have hgrow := counted_growConfirmCount hchain hfits h
  have hinv := hchain.dposInv
  have hglen := (growConfirmCount_length (s := s)).1
  obtain ⟨dropped, hout⟩ := confirmBlocks_spec s s'.header.confirmed
  rw [← hacc.window] at hout
  have hle := hout.dropped_le
  have hnum := hacc.blockNum
  have hlt := hinv.length_lt
  rcases hout.proposal with ⟨-, hprop⟩ | ⟨hdpos, hlow, -, hzero, hprop⟩
  · simp only at hprop
    omega
  · simp only at hprop
    rw [u32Sub_of_le (by omega)] at hprop
    set k := s'.dposProposedIrreversibleBlocknum with hk
    obtain ⟨hpos, hcount⟩ := hgrow (dropped - 1) k (by omega) (by omega)
    have hreq := requiredConfsAt_lt hfits k
    -- the entry reached zero by one decrement, and the new block is what decremented it
    have hone : s.growConfirmCount.getD (dropped - 1) 0 = 1 := by
      rw [u8Pred_of_pos hpos (by omega)] at hzero
      omega
    have hconf : s'.confirms k = true := by
      simp only [confirms, Bool.and_eq_true, decide_eq_true_eq]
      omega
    rw [confirmers_cons, if_pos hconf, length_cons]
    omega

end Step

theorem HeaderChain.counted (h : HeaderChain fc g (s :: older)) (hfits : FitsUint8 (s :: older)) :
    Counted (s :: older) s.confirmCount s.blockNum := by
  refine invariant (P := fun c => FitsUint8 c → ∀ s ∈ c.head?, Counted c s.confirmCount s.blockNum)
    ?_ ?_ h hfits s rfl
  · rintro - s ⟨⟩ j n hj
    cases hj
  · rintro s s' older pro hchain hacc ih hfits t ⟨⟩
    have hfits' : FitsUint8 (s :: older) := fun t ht => hfits t (mem_cons_of_mem _ ht)
    exact counted_step hchain hfits' (ih hfits' s rfl) hacc

theorem fitsUint8_of_maxProducers
    (h : ∀ t ∈ chain, t.activeSchedule.producers.length ≤ maxProducers) : FitsUint8 chain := by
  intro t ht
  have hle : t.activeSchedule.producers.length ≤ 125 := h t ht
  unfold requiredConfs
  omega

theorem Counted.pos_of_mem {last : Nat} (hfits : FitsUint8 chain) (h : Counted chain cc last)
    (hlen : cc.length ≤ last) : ∀ c ∈ cc, 0 < c ∧ u8Pred c + 1 = c := by
  intro c hc
  obtain ⟨j, hj, rfl⟩ := mem_iff_getElem.1 hc
  obtain ⟨hpos, hcount⟩ := h j (last + 1 + j - cc.length) hj (by omega)
  have hlt := requiredConfsAt_lt hfits (last + 1 + j - cc.length)
  rw [getD_eq_getElem _ _ hj] at hpos hcount
  have hpred := u8Pred_of_pos hpos (by omega)
  omega

/-- **The confirmation window.** With schedules of at most 125 producers every entry is positive,
also in the grown window that the next block decrements, so no decrement wraps; there are at most
1024 entries; entry `j` is what block `block_num - (size - 1 - j)`, above the proposal, still
needs. The proposal never moves back and bounds the last irreversible block. -/
theorem confirmCount_window {fc : Fc} {g : GenesisState} {s : BlockHeaderState}
    {older : List BlockHeaderState} (h : HeaderChain fc g (s :: older))
    (hsize : ∀ t ∈ s :: older, t.activeSchedule.producers.length ≤ maxProducers) :
    (∀ c ∈ s.confirmCount, 0 < c)
    ∧ (∀ c ∈ s.growConfirmCount, 0 < c ∧ u8Pred c + 1 = c)
    ∧ s.confirmCount.length ≤ maximumTrackedDposConfirmations
    ∧ (∀ j, j < s.confirmCount.length →
        s.dposProposedIrreversibleBlocknum < s.blockNum - (s.confirmCount.length - 1 - j)
        ∧ s.confirmCount.getD j 0
            + (confirmers (s :: older) (s.blockNum - (s.confirmCount.length - 1 - j))).length
          = requiredConfsAt (s :: older) (s.blockNum - (s.confirmCount.length - 1 - j)))
    ∧ (∀ t ∈ older, t.dposProposedIrreversibleBlocknum ≤ s.dposProposedIrreversibleBlocknum)
    ∧ s.dposIrreversibleBlocknum ≤ s.dposProposedIrreversibleBlocknum := by
  have hfits := fitsUint8_of_maxProducers hsize
  have hcounted := h.counted hfits
  have hinv := h.dposInv
  have habove := hinv.above
  have hgrown := (growConfirmCount_length (s := s)).1
  refine ⟨?_, ?_, hinv.length_le, ?_, h.proposed_le, hinv.lib_le⟩
  · exact fun c hc => (hcounted.pos_of_mem hfits (by omega) c hc).1
  · exact (counted_growConfirmCount h hfits hcounted).pos_of_mem hfits (by omega)
  · intro j hj
    refine ⟨by omega, (hcounted j _ hj ?_).2⟩
    omega

/-- A chain of four producers whose window holds two blocks. -/
theorem confirmCount_window_four_producers :
    ∃ s older, HeaderChain Fc.sample GenesisState.sample (s :: older)
      ∧ s.confirmCount = [1, 2] ∧ ∀ c ∈ s.confirmCount, 0 < c := by
  obtain ⟨chain, hchain, hP⟩ := exists_headerChain
    [.plain 2 0, .introducing 3 0 1 [1, 2, 3, 4], .plain 4 0, .plain 48 0, .plain 60 1]
    (P := fun chain => match chain with
      | s :: older => s.confirmCount = [1, 2]
        ∧ (∀ t ∈ s :: older, t.activeSchedule.producers.length ≤ maxProducers)
      | [] => false)
    (by decide +kernel)
  cases chain with
  | nil => cases hP
  | cons s older =>
    obtain ⟨hcc, hsize⟩ := of_decide_eq_true hP
    exact ⟨s, older, hchain, hcc, (confirmCount_window hchain hsize).1⟩

end PotatoNode.Chain
