import Mathlib.Data.List.Perm.Subperm
import PotatoNode.Chain.Irreversibility

/-!
# How far irreversibility lags behind

A lone producer confirms its own blocks at once: each of its blocks is proposed as it is produced
and irreversible with the next. With two or more producers a block waits for somebody else: the
proposal stays below the block that makes it (`Accepts.proposed_le_of_two`), and the last
irreversible block is something that another producer implied before
(`Accepts.exists_implied_ge`). The schedule protocol of the controller depends on this lag.
-/

namespace PotatoNode.Chain

open Lib List Nat FlatMap

theorem promotesPending_genesis (fc : Fc) (g : GenesisState) (lib : Nat) :
    (g.headerState fc).promotesPending lib = true := by
  rw [promotesPending_iff]
  exact ⟨cons_ne_nil _ _, .inl (zero_le _)⟩

theorem HeaderChain.implied_keys {fc : Fc} {g : GenesisState} {s : BlockHeaderState}
    {older : List BlockHeaderState} (h : HeaderChain fc g (s :: older)) (hnum : 2 ≤ s.blockNum)
    (q : AccountName) :
    (∃ v, s.producerToLastImpliedIrb.get? q = some v) ↔ q ∈ s.activeSchedule.names := by
  refine invariant (P := fun c => ∀ s ∈ c.head?, 2 ≤ s.blockNum → ∀ q,
    (∃ v, s.producerToLastImpliedIrb.get? q = some v) ↔ q ∈ s.activeSchedule.names) ?_ ?_ h s rfl
    hnum q
  · rintro s ⟨⟩ hnum
    rw [headerState_blockNum] at hnum
    cases not_succ_le_self 1 hnum
  · rintro s s' older pro hchain hacc ih t ⟨⟩ - q
    rw [hacc.active, hacc.impliedIrb]
    by_cases hprom : s.promotesPending s'.dposIrreversibleBlocknum = true
    · rw [if_pos hprom, if_pos hprom, get?_rebuildProducerMap]
      show (∃ v, (if q ∈ s.pendingSchedule.schedule.names then _ else none) = some v) ↔ _
      by_cases hq : q ∈ s.pendingSchedule.schedule.names
      · simp [hq]
      · simp [hq]
    · rw [if_neg hprom, if_neg hprom, get?_set]
      have hnum : 2 ≤ s.blockNum := by
        cases hchain with
        | genesis => exact absurd (promotesPending_genesis fc g _) hprom
        | next hchain' hok =>
          obtain ⟨pro', hacc', -⟩ := accepts_of_nextHeader hok
          have := hacc'.blockNum
          have := hchain'.dposInv.length_lt
          omega
      by_cases hq : q = pro.producerName
      · subst hq
        have hmem : pro.producerName ∈ s.activeSchedule.names := mem_map_of_mem hacc.scheduled_mem
        simp [hmem]
      · rw [if_neg hq]
        exact ih s rfl hnum q

/-! ## One producer -/

section Step

variable {fc : Fc} {s s' : BlockHeaderState} {pro : ProducerAuthority}

theorem growConfirmCount_last (s : BlockHeaderState) :
    0 < s.growConfirmCount.length
      ∧ s.growConfirmCount.getD (s.growConfirmCount.length - 1) 0 = s.requiredConfs % 2 ^ 8 := by
  unfold BlockHeaderState.growConfirmCount
  split <;> simp [getD_eq_getElem?_getD]

section

variable (hacc : Accepts fc s s' pro)
include hacc

theorem Accepts.proposed_eq_of_one
    (hone : s.activeSchedule.producers.length = 1) :
    s'.dposProposedIrreversibleBlocknum = s'.blockNum := by
  obtain ⟨hpos, hlast⟩ := growConfirmCount_last s
  have hzero : u8Pred (s.growConfirmCount.getD (s.growConfirmCount.length - 1) 0) = 0 := by
    rw [hlast, BlockHeaderState.requiredConfs, hone]
    rfl
  obtain ⟨dropped, hout⟩ := confirmBlocks_spec s s'.header.confirmed
  -- an entry that reaches zero does not stay, so the loop dropped the whole window
  have hall : dropped = s.growConfirmCount.length := by
    by_contra hne
    have hle := hout.dropped_le
    have hlen := hout.length
    obtain ⟨hval, hne0⟩ := hout.confirmed (s.growConfirmCount.length - 1 - dropped)
      (by omega) (by omega) (by omega)
    rw [show dropped + (s.growConfirmCount.length - 1 - dropped)
      = s.growConfirmCount.length - 1 by omega] at hval
    exact hne0 (hval.trans hzero)
  rw [hacc.proposed_eq, hacc.blockNum]
  rcases hout.proposal with ⟨hnone, -⟩ | ⟨-, -, -, -, hprop⟩
  · omega
  · rw [hprop, hall, Nat.sub_self, u32Sub_of_le (Nat.zero_le _), Nat.sub_zero]

theorem Accepts.proposed_le_of_two (hinv : DposInv s)
    (htwo : 2 ≤ s.activeSchedule.producers.length)
    (hmax : s.activeSchedule.producers.length ≤ maxProducers) :
    s'.dposProposedIrreversibleBlocknum ≤ s.blockNum := by
  obtain ⟨hpos, hlast⟩ := growConfirmCount_last s
  have hle125 : s.activeSchedule.producers.length ≤ 125 := hmax
  have hreq : 2 ≤ s.requiredConfs ∧ s.requiredConfs < 2 ^ 8 := by
    unfold BlockHeaderState.requiredConfs
    omega
  have hglen := (growConfirmCount_length (s := s)).1
  have habove := hinv.above
  obtain ⟨dropped, hout⟩ := confirmBlocks_spec s s'.header.confirmed
  have hle := hout.dropped_le
  rw [hacc.proposed_eq]
  rcases hout.proposal with ⟨-, hprop⟩ | ⟨hdpos, -, -, hzero, hprop⟩
  · omega
  · -- the newest entry needs a second confirmation, so it was not the one that reached zero
    have hne : dropped ≠ s.growConfirmCount.length := by
      intro heq
      rw [heq, hlast, mod_eq_of_lt hreq.2, u8Pred_of_pos (by omega) hreq.2] at hzero
      omega
    rw [hprop, u32Sub_of_le (by omega)]
    omega

theorem Accepts.lib_eq_of_one (hinv : DposInv s)
    (hkeys : ∀ q, (∃ v, s.producerToLastImpliedIrb.get? q = some v) ↔ q ∈ s.activeSchedule.names)
    (hone : s.activeSchedule.producers.length = 1) :
    s'.dposIrreversibleBlocknum = s.dposProposedIrreversibleBlocknum := by
  obtain ⟨a, ha⟩ := length_eq_one_iff.1 hone
  obtain rfl : pro = a := by simpa [ha] using hacc.scheduled_mem
  have hname : ∀ q, q ∈ s.activeSchedule.names ↔ q = pro.producerName := by
    simp [ProducerAuthoritySchedule.names, ha]
  rw [hacc.lib]
  refine le_antisymm (calcDposLastIrreversible_le hinv _) ?_
  obtain ⟨v, hv⟩ := (hkeys pro.producerName).2 ((hname _).2 rfl)
  rw [le_calcDposLastIrreversible_iff le_rfl (ne_nil_of_mem (get?_eq_some_iff.1 hv))]
  have hcount : s.producerToLastImpliedIrb.entries.countP
      (fun e => e.1 ≠ pro.producerName ∧ e.2 < s.dposProposedIrreversibleBlocknum) = 0 := by
    rw [countP_eq_zero]
    rintro ⟨q, w⟩ hmem
    have hq := (hname q).1 ((hkeys q).1 ⟨w, get?_eq_some_iff.2 hmem⟩)
    simp [hq]
  rw [hcount]
  exact zero_le _

theorem Accepts.exists_implied_ge (hinv : DposInv s)
    (hkeys : ∀ q, (∃ v, s.producerToLastImpliedIrb.get? q = some v) ↔ q ∈ s.activeSchedule.names)
    (hnodup : s.activeSchedule.names.Nodup) (htwo : 2 ≤ s.activeSchedule.producers.length) :
    ∃ q v, s.producerToLastImpliedIrb.get? q = some v ∧ s'.dposIrreversibleBlocknum ≤ v := by
  set entries := s.producerToLastImpliedIrb.entries with hentries
  have hlen : 2 ≤ entries.length := by
    have hsub : s.activeSchedule.names ⊆ entries.map Prod.fst := by
      intro q hq
      obtain ⟨v, hv⟩ := (hkeys q).2 hq
      exact mem_map_of_mem (get?_eq_some_iff.1 hv)
    have hle := (subperm_of_subset hnodup hsub).length_le
    rw [length_map, ProducerAuthoritySchedule.names, length_map] at hle
    omega
  have hne : entries ≠ [] := ne_nil_of_length_pos (by omega)
  have hstat := (le_calcDposLastIrreversible_iff (hacc.lib_le_proposed hinv) hne).1 hacc.lib.le
  rw [← hentries] at hstat
  by_contra hnone
  push Not at hnone
  -- otherwise everybody but the producer of the block is below it: all entries but one
  have hall : entries.countP (fun e => e.1 ≠ pro.producerName ∧ e.2 < s'.dposIrreversibleBlocknum)
      = entries.countP (fun e => e.1 ≠ pro.producerName) := by
    refine countP_congr fun e hmem => ?_
    have hlow := hnone e.1 e.2 (get?_eq_some_iff.2 hmem)
    simp [hlow]
  have hself : entries.countP (fun e => e.1 = pro.producerName) ≤ 1 := by
    have hcount := nodup_iff_count_le_one.1 s.producerToLastImpliedIrb.nodup_keys pro.producerName
    rw [count_eq_countP, countP_map] at hcount
    refine le_trans (le_of_eq (countP_congr fun e _ => ?_)) hcount
    simp
  have hsplit : entries.length = entries.countP (fun e => e.1 = pro.producerName)
      + entries.countP (fun e => e.1 ≠ pro.producerName) := by
    simpa using length_eq_countP_add_countP
      (fun e : AccountName × Nat => decide (e.1 = pro.producerName)) (l := entries)
  omega

end

end Step

end PotatoNode.Chain
