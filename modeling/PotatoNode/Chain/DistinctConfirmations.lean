import Mathlib.Data.List.Dedup
import Mathlib.Data.List.Infix
import PotatoNode.Chain.ConfirmWindow

/-!
# Do confirmations come from distinct producers?

A proposal is meant to rest on `required_confs` *different* producers. The counters of the window
count blocks, not producers; what keeps a producer from confirming twice is the guard on
`producer_to_last_produced`: the range a block confirms must begin after its producer's last
block. Two things break it. The guard subtracts on `uint32_t` and passes when the confirmed range
reaches below block zero; and a promotion drops the record of producers that leave the schedule,
so that one that an emergency promotion takes back early may confirm its own blocks again. (A
counter also wraps when a block needs more than 255 confirmations.)

`ConfirmsOnce` is the condition under which none of this happens. The proof carries
`LastProducedInv` (the map knows the last block of whoever may produce, as far as it lies above
the proposal) and `ReadmitInv` (what a pending producer without a record has produced is older
than the pending schedule) along the chain.
-/

namespace PotatoNode.Chain

open Lib List

/-- Block `k` is confirmed by at least as many different producers as the schedule that signed it
requires. -/
def DistinctlyConfirmed (chain : List BlockHeaderState) (k : Nat) : Prop :=
  ∃ parent ∈ chain, parent.blockNum + 1 = k
    ∧ parent.requiredConfs ≤ ((confirmers chain k).map (·.header.producer)).dedup.length

instance (chain : List BlockHeaderState) (k : Nat) : Decidable (DistinctlyConfirmed chain k) :=
  inferInstanceAs (Decidable (∃ parent ∈ chain, _))

/-- What a block on `s` must respect so that nobody confirms twice: it confirms no more blocks
than there are, its confirmations fit their counter, and if the standby block has been reached,
a producer that the pending schedule takes back without a record has produced nothing above the
proposal. -/
structure ConfirmsOnce (s : BlockHeaderState) (older : List BlockHeaderState)
    (header : SignedBlockHeader) : Prop where
  confirmed_le : header.confirmed ≤ s.blockNum + 1
  fits : s.requiredConfs < 2 ^ 8
  readmitted : s.standbyDue = true → ∀ q ∈ s.pendingSchedule.schedule.names,
    s.producerToLastProduced.get? q = none →
      ∀ t ∈ s :: older, t.header.producer = q → t.blockNum ≤ s.dposProposedIrreversibleBlocknum

section

variable (s : BlockHeaderState) (older : List BlockHeaderState)

instance (header : SignedBlockHeader) :
    Decidable (ConfirmsOnce s older header) :=
  decidable_of_iff
    (header.confirmed ≤ s.blockNum + 1 ∧ s.requiredConfs < 2 ^ 8
      ∧ (s.standbyDue = true → ∀ q ∈ s.pendingSchedule.schedule.names,
          s.producerToLastProduced.get? q = none → ∀ t ∈ s :: older, t.header.producer = q →
            t.blockNum ≤ s.dposProposedIrreversibleBlocknum))
    ⟨fun h => ⟨h.1, h.2.1, h.2.2⟩, fun h => ⟨h.1, h.2, h.3⟩⟩

def ReadmitInv : Prop :=
  ∀ q ∈ s.pendingSchedule.schedule.names, s.producerToLastProduced.get? q = none →
    ∀ t ∈ s :: older, t.header.producer = q → t.blockNum < s.pendingSchedule.scheduleLibNum

def LastProducedInv : Prop :=
  ∀ t ∈ s :: older, s.dposProposedIrreversibleBlocknum < t.blockNum →
    (∀ v, s.producerToLastProduced.get? t.header.producer = some v → t.blockNum ≤ v)
    ∧ (s.producerToLastProduced.get? t.header.producer = none →
        t.header.producer ∉ s.activeSchedule.names)

def DistinctInv : Prop :=
  ∀ n, s.dposProposedIrreversibleBlocknum < n →
    ((confirmers (s :: older) n).map (·.header.producer)).Nodup

end

section Step

variable {fc : Fc} {g : GenesisState} {s s' : BlockHeaderState} {older : List BlockHeaderState}
  {pro : ProducerAuthority}

section

variable (hacc : Accepts fc s s' pro)
include hacc

theorem Accepts.get?_lastProduced (q : AccountName) :
    s'.producerToLastProduced.get? q
      = if q = pro.producerName then some s'.blockNum
        else if s.promotesPending s'.dposIrreversibleBlocknum then
          if q ∈ s.pendingSchedule.schedule.names then
            some ((s.producerToLastProduced.get? q).getD s'.dposIrreversibleBlocknum)
          else none
        else s.producerToLastProduced.get? q := by
  rw [hacc.lastProduced]
  by_cases hq : q = pro.producerName
  · split <;> rw [FlatMap.get?_set, if_pos hq]
  · split
    · rw [FlatMap.get?_set, if_neg hq, get?_rebuildProducerMap, if_neg hq]
      rfl
    · rw [FlatMap.get?_set, if_neg hq]

theorem Accepts.producer_mem_names : pro.producerName ∈ s.activeSchedule.names :=
  mem_map_of_mem hacc.scheduled_mem

theorem Accepts.mem_old {t : BlockHeaderState}
    (ht : t ∈ s' :: s :: older) (hne : t.header.producer ≠ pro.producerName) :
    t ∈ s :: older := by
  rcases mem_cons.1 ht with rfl | ht
  · exact absurd hacc.producer hne
  · exact ht

end

theorem readmitInv_step (hchain : HeaderChain fc g (s :: older)) (hacc : Accepts fc s s' pro)
    (h : ReadmitInv s older) : ReadmitInv s' (s :: older) := by
  intro q hq hnone t ht htq
  rw [hacc.get?_lastProduced] at hnone
  have hne : q ≠ pro.producerName := by
    intro heq
    rw [if_pos heq] at hnone
    cases hnone
  rw [if_neg hne] at hnone
  have hold : t ∈ s :: older := hacc.mem_old ht (htq ▸ hne)
  cases hchange : scheduleChange s'.headerExts with
  | some new =>
    -- a schedule introduced now is newer than every block before
    rw [hacc.pending_of_change hchange]
    show t.blockNum < s'.blockNum
    rw [hacc.blockNum]
    exact Nat.lt_succ_of_le (hchain.blockNum_le t hold)
  | none =>
    rw [hacc.scheduleLibNum_of_noChange hchange]
    rw [hacc.schedule_of_noChange hchange] at hq
    by_cases hprom : s.promotesPending s'.dposIrreversibleBlocknum = true
    · rw [hprom] at hq
      rw [if_pos hprom] at hnone
      cases hflag : s.enableStandbySchedule with
      | false =>
        rw [hflag] at hq
        cases hq
      | true =>
        -- in standby mode the schedule stays pending, but now its producers have records
        rw [hflag] at hq
        rw [if_pos (by exact hq)] at hnone
        cases hnone
    · rw [if_neg hprom] at hnone
      rw [Bool.not_eq_true] at hprom
      rw [hprom] at hq
      exact h q hq hnone t hold htq

theorem lastProducedInv_step (hchain : HeaderChain fc g (s :: older))
    (hacc : Accepts fc s s' pro) (hcond : ConfirmsOnce s older s'.header)
    (hread : ReadmitInv s older) (h : LastProducedInv s older) :
    LastProducedInv s' (s :: older) := by
  have hinv := hchain.dposInv
  have hmono := hacc.proposed_mono hinv
  have hlib := hacc.lib_le_proposed hinv
  intro t ht habove
  rw [hacc.get?_lastProduced]
  by_cases hself : t.header.producer = pro.producerName
  · rw [if_pos hself]
    refine ⟨fun v hv => ?_, fun hnone => by cases hnone⟩
    injection hv with hv
    subst hv
    rcases mem_cons.1 ht with rfl | ht
    · exact le_rfl
    · have := hchain.blockNum_le t ht
      have hnum := hacc.blockNum
      omega
  · rw [if_neg hself]
    have hold := hacc.mem_old ht hself
    obtain ⟨hsome, hnone⟩ := h t hold (by omega)
    have hactive := hacc.active
    by_cases hprom : s.promotesPending s'.dposIrreversibleBlocknum = true
    · rw [if_pos hprom] at hactive ⊢
      by_cases hq : t.header.producer ∈ s.pendingSchedule.schedule.names
      · rw [if_pos hq]
        refine ⟨fun v hv => ?_, fun hn => by cases hn⟩
        injection hv with hv
        cases hrec : s.producerToLastProduced.get? t.header.producer with
        | some w =>
          rw [hrec] at hv
          exact hv ▸ hsome w hrec
        | none =>
          -- taken back without a record: what it has produced lies below the proposal
          rcases (promotesPending_iff.1 hprom).2 with hreg | hdue
          · have := hread _ hq hrec t hold rfl
            omega
          · have := hcond.readmitted hdue _ hq hrec t hold rfl
            omega
      · rw [if_neg hq]
        refine ⟨fun v hv => (by cases hv), fun _ => ?_⟩
        rw [hactive]
        exact hq
    · rw [if_neg hprom] at hactive ⊢
      rw [hactive]
      exact ⟨hsome, hnone⟩

theorem nodup_confirmers_step (hacc : Accepts fc s s' pro)
    (hcond : ConfirmsOnce s older s'.header) (hlast : LastProducedInv s older)
    (h : DistinctInv s older) {n : Nat} (hn : s.dposProposedIrreversibleBlocknum < n) :
    ((confirmers (s' :: s :: older) n).map (·.header.producer)).Nodup := by
  rw [confirmers_cons]
  by_cases hconf : s'.confirms n = true
  · rw [if_pos hconf, map_cons, nodup_cons]
    refine ⟨?_, h n hn⟩
    intro hmem
    obtain ⟨t, ht, htp⟩ := mem_map.1 hmem
    obtain ⟨hmemt, htconf⟩ := mem_filter.1 ht
    simp only [BlockHeaderState.confirms, Bool.and_eq_true, decide_eq_true_eq] at hconf htconf
    rw [hacc.producer] at htp
    obtain ⟨hsome, hnone⟩ := hlast t hmemt (by omega)
    rw [htp] at hsome hnone
    cases hrec : s.producerToLastProduced.get? pro.producerName with
    | none => exact hnone hrec hacc.producer_mem_names
    | some v =>
      have hguard := hacc.notDoubleConfirming v hrec
      rw [u32Sub_of_le hcond.confirmed_le] at hguard
      have hle := hsome v hrec
      have hnum := hacc.blockNum
      omega
  · rw [if_neg hconf]
    exact h n hn

end Step

/-- The three invariants at the newest block. -/
structure OnceInv (s : BlockHeaderState) (older : List BlockHeaderState) : Prop where
  readmit : ReadmitInv s older
  lastProduced : LastProducedInv s older
  distinct : DistinctInv s older

theorem onceInv_genesis (fc : Fc) (g : GenesisState) : OnceInv (g.headerState fc) [] where
  readmit := by
    intro q hq _ t ht htq
    obtain rfl := mem_singleton.1 ht
    obtain rfl : q = systemAccountName := mem_singleton.1 hq
    have hname : (0 : AccountName) = systemAccountName := htq
    exact absurd hname (by decide)
  lastProduced := by
    intro t ht _
    obtain rfl := mem_singleton.1 ht
    refine ⟨fun v hv => (by cases hv), fun _ hmem => ?_⟩
    have hname : (0 : AccountName) = systemAccountName := mem_singleton.1 hmem
    exact absurd hname (by decide)
  distinct := by
    intro n _
    rw [confirmers_cons]
    split <;> simp [confirmers]

def AllConfirmOnce (chain : List BlockHeaderState) : Prop :=
  ∀ s' s older, s' :: s :: older <:+ chain → ConfirmsOnce s older s'.header

theorem HeaderChain.onceInv {fc : Fc} {g : GenesisState} {s : BlockHeaderState}
    {older : List BlockHeaderState} (h : HeaderChain fc g (s :: older))
    (hcond : AllConfirmOnce (s :: older)) : OnceInv s older := by
  refine invariant (P := fun c => AllConfirmOnce c → ∀ s older, c = s :: older → OnceInv s older)
    ?_ ?_ h hcond s older rfl
  · intro _ s older heq
    cases heq
    exact onceInv_genesis fc g
  · intro s s' older pro hchain hacc ih hcond s₁ older₁ heq
    cases heq
    have hstep : ConfirmsOnce s older s'.header := hcond s' s older suffix_rfl
    have hold := ih (fun a b c hc => hcond a b c (hc.trans (suffix_cons _ _))) s older rfl
    refine ⟨readmitInv_step hchain hacc hold.readmit,
      lastProducedInv_step hchain hacc hstep hold.readmit hold.lastProduced, ?_⟩
    intro n hn
    have hmono := hacc.proposed_mono hchain.dposInv
    exact nodup_confirmers_step hacc hstep hold.lastProduced hold.distinct (by omega)

theorem AllConfirmOnce.fits {s' : BlockHeaderState} {chain : List BlockHeaderState}
    (h : AllConfirmOnce (s' :: chain)) : FitsUint8 chain := by
  intro t ht
  obtain ⟨newer, older, rfl⟩ := append_of_mem ht
  -- the block after `t` was built on `t`
  rcases eq_nil_or_concat newer with rfl | ⟨front, b, rfl⟩
  · exact (h s' t older suffix_rfl).fits
  · refine (h b t older ?_).fits
    exact ⟨s' :: front, by simp⟩

/-- **Confirmations come from distinct producers** on every chain whose blocks all respect
`ConfirmsOnce`: whenever the proposal advances to block `k`, at least `required_confs(k)`
different producers have confirmed `k`. -/
theorem distinctlyConfirmed_of_confirmsOnce {fc : Fc} {g : GenesisState}
    {chain : List BlockHeaderState} (h : HeaderChain fc g chain) (hcond : AllConfirmOnce chain) :
    ∀ s' s older, s' :: s :: older <:+ chain →
      s.dposProposedIrreversibleBlocknum < s'.dposProposedIrreversibleBlocknum →
        DistinctlyConfirmed (s' :: s :: older) s'.dposProposedIrreversibleBlocknum := by
  intro s' s older hsuff hadv
  have hc := h.of_suffix hsuff (cons_ne_nil _ _)
  have hall : AllConfirmOnce (s' :: s :: older) := fun a b c hc => hcond a b c (hc.trans hsuff)
  have hall' : AllConfirmOnce (s :: older) :=
    fun a b c hc => hall a b c (hc.trans (suffix_cons _ _))
  obtain ⟨pro, hacc⟩ := hc.accepts
  have hinv := hc.tail.onceInv hall'
  obtain ⟨hpos, -, hlen⟩ := confirmers_length_of_advance hc.tail hall.fits
    (hc.tail.counted hall.fits) hacc hadv
  have hnodup := nodup_confirmers_step hacc (hall s' s older suffix_rfl) hinv.lastProduced
    hinv.distinct hadv
  -- the block was signed by the schedule of its parent, which is on the chain
  unfold requiredConfsAt at hpos hlen
  split at hpos
  · rename_i parent hfind
    rw [hfind] at hlen
    have hnum : parent.blockNum + 1 = s'.dposProposedIrreversibleBlocknum := by
      simpa using find?_some hfind
    refine ⟨parent, mem_cons_of_mem _ (mem_of_find?_eq_some hfind), hnum, ?_⟩
    rw [hnodup.dedup, length_map, hlen]
  · cases hpos

/-- A test of `ConfirmsOnce` for the last block of a chain. -/
def confirmsOnce : List BlockHeaderState → Bool
  | s' :: s :: older => ConfirmsOnce s older s'.header
  | _ => true

/-- Two producers take over after block 4 and confirm each other's blocks: block 5 is proposed
with both of them. -/
theorem distinctlyConfirmed_two_producers :
    ∃ s' s older, HeaderChain Fc.sample GenesisState.sample (s' :: s :: older)
      ∧ s'.dposProposedIrreversibleBlocknum = 5
      ∧ DistinctlyConfirmed (s' :: s :: older) s'.dposProposedIrreversibleBlocknum := by
  obtain ⟨s', s, older, hchain, htest⟩ := exists_lastTwo
    [.plain 2 0, .introducing 3 0 1 [1, 2], .plain 4 0, .plain 24 0, .plain 36 1]
    (P := fun s' s older => s'.dposProposedIrreversibleBlocknum = 5
      ∧ s.dposProposedIrreversibleBlocknum < 5 ∧ (s' :: s :: older).tails.all confirmsOnce)
    (by decide +kernel)
  obtain ⟨hprop, hlt, hall⟩ := of_decide_eq_true htest
  refine ⟨s', s, older, hchain, hprop, ?_⟩
  refine distinctlyConfirmed_of_confirmsOnce hchain ?_ s' s older suffix_rfl (hprop ▸ hlt)
  intro a b c hsuff
  exact of_decide_eq_true (all_eq_true.1 hall _ ((mem_tails _ _).2 hsuff))

/-- Two producers take over after block 4. The first signs blocks 5 and 6; block 6 claims to
confirm a hundred blocks, its guard wraps, and block 5 is proposed with one producer of two. -/
theorem proposed_by_one_of_two :
    ∃ s' s older, HeaderChain Fc.sample GenesisState.sample (s' :: s :: older)
      ∧ s.dposProposedIrreversibleBlocknum < s'.dposProposedIrreversibleBlocknum
      ∧ ¬ DistinctlyConfirmed (s' :: s :: older) s'.dposProposedIrreversibleBlocknum := by
  obtain ⟨s', s, older, hchain, htest⟩ := exists_lastTwo
    [.plain 2 0, .introducing 3 0 1 [1, 2], .plain 4 0, .plain 24 0, .plain 25 100]
    (P := fun s' s older =>
      s.dposProposedIrreversibleBlocknum < s'.dposProposedIrreversibleBlocknum
        ∧ ¬ DistinctlyConfirmed (s' :: s :: older) s'.dposProposedIrreversibleBlocknum)
    (by decide +kernel)
  exact ⟨s', s, older, hchain, of_decide_eq_true htest⟩

end PotatoNode.Chain
