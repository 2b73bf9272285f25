import Mathlib.Data.List.Infix
import PotatoNode.Chain.ConfirmWindow

/-!
# Can the last irreversible block move back?

`dpos_irreversible_blocknum` is an order statistic: of the blocks that the producers of the map
`producer_to_last_implied_irb` hold irreversible, the one at position `(n - 1) / 3`. It is at
least `x` exactly when at most `(n - 1) / 3` producers hold a block below `x`
(`le_calcDposLastIrreversible_iff`).

As long as the map keeps its producers their values grow, and so does the order statistic. A
promotion replaces the map: a producer that both schedules have keeps its old value, however far
it lags behind the last irreversible block, and the position is taken in the new, possibly much
smaller map. So the block after a promotion, and only that one, can lower the last irreversible
block (`lib_monotone_iff`), and it does (`lib_falls_after_promotion`).
-/

namespace PotatoNode.Chain

open Lib List Table

def BlockHeaderState.laggards (s : BlockHeaderState) (producer : AccountName) : Nat :=
  s.producerToLastImpliedIrb.entries.countP
    (fun e => e.1 ≠ producer ∧ e.2 < s.dposIrreversibleBlocknum)

/-- **The order statistic as a count of laggards.** A value up to the proposal is reached unless
more than a third of the map, the next producer aside, is below it. -/
theorem le_calcDposLastIrreversible_iff {s : BlockHeaderState} {p : AccountName} {x : Nat}
    (hx : x ≤ s.dposProposedIrreversibleBlocknum)
    (hne : s.producerToLastImpliedIrb.entries ≠ []) :
    x ≤ s.calcDposLastIrreversible p ↔
      s.producerToLastImpliedIrb.entries.countP (fun e => e.1 ≠ p ∧ e.2 < x)
        ≤ (s.producerToLastImpliedIrb.entries.length - 1) / 3 := by
  have hlen : (s.impliedBlocknums p).length = s.producerToLastImpliedIrb.entries.length :=
    length_map _
  have hpos : 0 < s.producerToLastImpliedIrb.entries.length := length_pos_of_ne_nil hne
  obtain ⟨y, hy⟩ := nthElement_isSome (l := s.impliedBlocknums p)
    (i := ((s.impliedBlocknums p).length - 1) / 3) (by omega)
  have hcalc : s.calcDposLastIrreversible p = y := by
    unfold BlockHeaderState.calcDposLastIrreversible
    rw [if_neg (by omega), hy, Option.getD_some]
  rw [hcalc, le_nthElement_iff hy, hlen]
  unfold BlockHeaderState.impliedBlocknums
  rw [countP_map]
  -- the producer of the next block implies the proposal, which is not below `x`
  have hpred : ∀ e : AccountName × Nat,
      ((fun v => decide (v < x)) ∘ fun i : AccountName × Nat =>
        if i.1 = p then s.dposProposedIrreversibleBlocknum else i.2) e
        = decide (e.1 ≠ p ∧ e.2 < x) := by
    intro e
    by_cases he : e.1 = p
    · simp [he, hx]
    · simp [he]
  rw [countP_congr fun e _ => by rw [hpred e]]

section Step

variable {fc : Fc} {s s' : BlockHeaderState} {pro : ProducerAuthority}

section

variable (hacc : Accepts fc s s' pro)
include hacc

theorem Accepts.implied_ne_nil : s'.producerToLastImpliedIrb.entries ≠ [] := by
  -- some producer has an entry: the first of the new schedule, or the one of the block
  have hsome : ∃ q v, s'.producerToLastImpliedIrb.get? q = some v := by
    rw [hacc.impliedIrb]
    split
    · rename_i hprom
      obtain ⟨p₀, rest, hcons⟩ := exists_cons_of_ne_nil (hacc.pending_ne_nil hprom)
      exact ⟨p₀.producerName, _, by rw [get?_rebuildProducerMap, if_pos (by simp [hcons])]⟩
    · exact ⟨pro.producerName, _, by rw [FlatMap.get?_set, if_pos rfl]⟩
  obtain ⟨q, v, hqv⟩ := hsome
  exact ne_nil_of_mem (FlatMap.get?_eq_some_iff.1 hqv)

theorem Accepts.lib_le_iff (hinv : DposInv s)
    (hne : s.producerToLastImpliedIrb.entries ≠ []) :
    s.dposIrreversibleBlocknum ≤ s'.dposIrreversibleBlocknum ↔
      s.laggards s'.header.producer ≤ (s.producerToLastImpliedIrb.entries.length - 1) / 3 := by
  rw [hacc.lib, hacc.producer]
  exact le_calcDposLastIrreversible_iff hinv.lib_le hne

/-- Without a promotion no more than a third lags behind: the producers below the new value are
those that the order statistic left below it. -/
theorem Accepts.laggards_le (hinv : DposInv s)
    (hprom : s.promotesPending s'.dposIrreversibleBlocknum = false) (p : AccountName) :
    s'.laggards p ≤ (s'.producerToLastImpliedIrb.entries.length - 1) / 3 := by
  have hmap : s'.producerToLastImpliedIrb = s.producerToLastImpliedIrb.insert
      (pro.producerName, s.dposProposedIrreversibleBlocknum) := by
    rw [hacc.impliedIrb, hprom]
    rfl
  have hlib := hacc.lib_le_proposed hinv
  set x := s'.dposIrreversibleBlocknum with hxdef
  set entry : AccountName × Nat := _ with he
  -- the fresh entry is not below `x`, the others are those of the old map
  have hfresh : s'.laggards p ≤ (s'.producerToLastImpliedIrb.entries.filter
      (fun e => e.1 ≠ pro.producerName)).countP (fun e => e.2 < x) := by
    unfold BlockHeaderState.laggards
    rw [countP_filter]
    refine countP_mono_left fun e hmem hlag => ?_
    have hlow : e.2 < x := (of_decide_eq_true hlag).2
    have hother : e.1 ≠ pro.producerName := by
      intro heq
      have hfound : e = entry := by
        have hmem' : e ∈ s.producerToLastImpliedIrb.insert entry := hmap ▸ hmem
        exact eq_of_mem_of_key_eq hmem' (mem_insert.2 (.inl rfl)) heq
      rw [hfound] at hlow
      exact absurd hlow (not_lt.2 hlib)
    simp [hlow, hother]
  have hold : s'.producerToLastImpliedIrb.entries.filter (fun e => e.1 ≠ pro.producerName)
      = s.producerToLastImpliedIrb.entries.filter (fun e => e.1 ≠ pro.producerName) := by
    have herase := erase_insert s.producerToLastImpliedIrb entry
    rw [hmap]
    exact congrArg entries herase
  have hcount : s'.laggards p ≤ s.producerToLastImpliedIrb.entries.countP
      (fun e => e.1 ≠ pro.producerName ∧ e.2 < x) := by
    refine hfresh.trans (le_of_eq ?_)
    rw [hold, countP_filter]
    exact countP_congr fun e _ => by simp [and_comm]
  have hgrow : s.producerToLastImpliedIrb.entries.length
      ≤ s'.producerToLastImpliedIrb.entries.length := hmap ▸ length_le_insert _ _
  by_cases hne : s.producerToLastImpliedIrb.entries = []
  · rw [hne, countP_nil] at hcount
    omega
  · have hstat := (le_calcDposLastIrreversible_iff hlib hne).1 hacc.lib.le
    omega

end

end Step

/-- **When irreversibility goes back.** On every chain, the last irreversible block never falls
if and only if every block that follows a promotion finds at most a third of the new schedule's
producers, its own aside, below the last irreversible block. -/
theorem lib_monotone_iff {fc : Fc} {g : GenesisState} {chain : List BlockHeaderState}
    (h : HeaderChain fc g chain) :
    (∀ s' s older, s' :: s :: older <:+ chain →
      s.dposIrreversibleBlocknum ≤ s'.dposIrreversibleBlocknum)
    ↔ ∀ s' s s₀ older, s' :: s :: s₀ :: older <:+ chain →
        s₀.promotesPending s.dposIrreversibleBlocknum = true →
        s.laggards s'.header.producer
          ≤ (s.producerToLastImpliedIrb.entries.length - 1) / 3 := by
  constructor
  · intro hmono s' s s₀ older hsuff _
    have hc := h.of_suffix hsuff (cons_ne_nil _ _)
    obtain ⟨pro, hacc⟩ := hc.accepts
    obtain ⟨pro₀, hacc₀⟩ := hc.tail.accepts
    exact (hacc.lib_le_iff hc.tail.dposInv hacc₀.implied_ne_nil).1 (hmono s' s _ hsuff)
  · intro hlag s' s older hsuff
    have hc := h.of_suffix hsuff (cons_ne_nil _ _)
    obtain ⟨pro, hacc⟩ := hc.accepts
    cases older with
    | nil =>
      -- `s` is the genesis state
      cases hc.tail
      exact Nat.zero_le _
    | cons s₀ older =>
      obtain ⟨pro₀, hacc₀⟩ := hc.tail.accepts
      rw [hacc.lib_le_iff hc.tail.dposInv hacc₀.implied_ne_nil]
      cases hprom : s₀.promotesPending s.dposIrreversibleBlocknum with
      | true => exact hlag s' s s₀ older hsuff hprom
      | false => exact hacc₀.laggards_le hc.tail.tail.dposInv hprom _

/-- Four producers, the fourth of which never produces, confirm blocks up to number 7, which has
introduced the schedule of the fourth and the first. Its promotion leaves a map of two producers
whose minimum is what the fourth implied when it was elected: block 3. -/
theorem lib_falls_after_promotion :
    ∃ s' s older, HeaderChain Fc.sample GenesisState.sample (s' :: s :: older)
      ∧ s.dposIrreversibleBlocknum = 7 ∧ s'.dposIrreversibleBlocknum = 3 := by
  obtain ⟨s', s, older, hchain, hfall⟩ := exists_lastTwo
    [.plain 2 0, .introducing 3 0 1 [1, 2, 3, 4], .plain 4 0, .plain 48 0, .plain 60 1,
      .introducing 72 2 2 [4, 1], .plain 96 2, .plain 108 2, .plain 120 2, .plain 144 2,
      .plain 156 2, .plain 180 0]
    (P := fun s' s _ => s.dposIrreversibleBlocknum = 7 ∧ s'.dposIrreversibleBlocknum = 3)
    (by decide +kernel)
  exact ⟨s', s, older, hchain, of_decide_eq_true hfall⟩

def fewLaggards : List BlockHeaderState → Bool
  | s' :: s :: s₀ :: _ => s₀.promotesPending s.dposIrreversibleBlocknum = true →
      s.laggards s'.header.producer ≤ (s.producerToLastImpliedIrb.entries.length - 1) / 3
  | _ => true

/-- The same chain up to the promotion: the last irreversible block has never fallen. -/
theorem lib_monotone_iff_before_promotion :
    ∃ chain, HeaderChain Fc.sample GenesisState.sample chain ∧ chain.length = 12
      ∧ ∀ s' s older, s' :: s :: older <:+ chain →
        s.dposIrreversibleBlocknum ≤ s'.dposIrreversibleBlocknum := by
  obtain ⟨chain, hchain, hP⟩ := exists_headerChain
    [.plain 2 0, .introducing 3 0 1 [1, 2, 3, 4], .plain 4 0, .plain 48 0, .plain 60 1,
      .introducing 72 2 2 [4, 1], .plain 96 2, .plain 108 2, .plain 120 2, .plain 144 2,
      .plain 156 2]
    (P := fun chain => chain.length = 12 ∧ chain.tails.all fewLaggards)
    (by decide +kernel)
  obtain ⟨hlen, hall⟩ := of_decide_eq_true hP
  refine ⟨chain, hchain, hlen, (lib_monotone_iff hchain).2 ?_⟩
  intro s' s s₀ older hsuff hprom
  have hcond := all_eq_true.1 hall _ ((mem_tails _ _).2 hsuff)
  exact of_decide_eq_true hcond hprom

end PotatoNode.Chain
