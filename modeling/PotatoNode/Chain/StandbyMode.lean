import PotatoNode.Chain.ScheduleProtocol

/-!
# What standby mode guarantees

The emergency clause of `next` promotes whatever is pending once the standby block is reached, and
`start_block` leaves standby mode only when the active version is the one stored with the standby
list. Neither looks at the list itself. So two calls spoil the mode while it counts down: a
proposal replaces the standby list among the proposals, in the enabling block or after the list
has become pending, and is then promoted in its place; and setting the standby list anew resets
the stored version, which the active one then never meets.
-/

namespace PotatoNode.Chain

open Lib ProducerAuthoritySchedule GenesisState List Bool

def newestIntroduction (chain : List BlockHeaderState) : Option BlockHeaderState :=
  chain.find? fun t => (scheduleChange t.headerExts).isSome

variable {fc : Fc} {g : GenesisState} {s : BlockHeaderState} {b b' : BuildingBlock}
  {c : ScheduleCall} {L : List ProducerAuthority}

theorem HeaderChain.pending_introduced {older : List BlockHeaderState}
    (h : HeaderChain fc g (s :: older)) (h2 : 2 ≤ s.blockNum)
    (hne : s.pendingSchedule.schedule.producers ≠ []) :
    ∃ t, newestIntroduction (s :: older) = some t
      ∧ scheduleChange t.headerExts = some s.pendingSchedule.schedule
      ∧ t.blockNum = s.pendingSchedule.scheduleLibNum := by
  refine invariant (P := fun c => ∀ s ∈ c.head?, 2 ≤ s.blockNum →
    s.pendingSchedule.schedule.producers ≠ [] → ∃ t, newestIntroduction c = some t
      ∧ scheduleChange t.headerExts = some s.pendingSchedule.schedule
      ∧ t.blockNum = s.pendingSchedule.scheduleLibNum) ?_ ?_ h s rfl h2 hne
  · rintro s ⟨⟩ h2
    rw [headerState_blockNum] at h2
    cases Nat.not_succ_le_self 1 h2
  · rintro s s' older pro hchain hacc ih t ⟨⟩ - hne
    cases hchange : scheduleChange s'.headerExts with
    | some new =>
      refine ⟨s', ?_, ?_, ?_⟩
      · exact find?_cons_of_pos (by rw [hchange]; rfl)
      · rw [hacc.pending_of_change hchange, hchange]
      · rw [hacc.pending_of_change hchange]
    | none =>
      have hsched := hacc.schedule_of_noChange hchange
      have hkeep : ¬ (s.promotesPending s'.dposIrreversibleBlocknum && !s.enableStandbySchedule)
          = true := by
        intro hwas
        rw [hsched, if_pos hwas] at hne
        exact hne rfl
      rw [if_neg hkeep] at hsched
      have h2 : 2 ≤ s.blockNum := by
        cases hchain with
        | genesis =>
          -- what genesis leaves pending is promoted and gone
          refine absurd ?_ hkeep
          rfl
        | next hchain' hok =>
          obtain ⟨pro', hacc', -⟩ := accepts_of_nextHeader hok
          have := hacc'.blockNum
          have := hchain'.dposInv.length_lt
          omega
      obtain ⟨i, hfind, hi, hnum⟩ := ih s rfl h2 (hsched ▸ hne)
      refine ⟨i, ?_, by rw [hsched, hi], by rw [hacc.scheduleLibNum_of_noChange hchange, hnum]⟩
      exact (find?_cons_of_neg (by rw [hchange]; decide)).trans hfind

/-! ## Safe activation -/

/-- What a schedule change must satisfy: the active list of block `a`, if it differs from that of its
parent, was introduced by a block that is irreversible now, or was enabled as standby list. -/
def SafeActivation (fc : Fc) (g : GenesisState) (a : AppliedBlock) (older : List AppliedBlock) :
    Prop :=
  a.state.activeSchedule.producers ≠ (headOf fc g older).activeSchedule.producers →
    (∃ t, newestIntroduction (statesOf fc g older) = some t
      ∧ scheduleChange t.headerExts = some a.state.activeSchedule
      ∧ t.blockNum ≤ a.state.dposIrreversibleBlocknum)
    ∨ ∃ e ∈ older, e.finished.enabledProducers = some a.state.activeSchedule.producers

def ScheduleCall.proposes : ScheduleCall → Bool
  | .setProposedProducersEx .. => true
  | _ => false

def ScheduleCall.setsStandby : ScheduleCall → Bool
  | .setStandbyProducers .. => true
  | _ => false

def QuietCall (b : BuildingBlock) (c : ScheduleCall) : Prop :=
  c.proposes = true → b.gpo.enableStandbySchedule = true →
    ∀ n, b.gpo.standbyScheduleBlockNum = some n → n ≤ b.head.blockNum + 1

/-- In standby mode an enabled list, one that `R` holds of, is proposed or, from the standby block
on at the latest, pending. -/
def Held (R : List ProducerAuthority → Prop) (v : ScheduleView) (gpo : GlobalProperties) : Prop :=
  gpo.enableStandbySchedule = true → ∃ b L, gpo.standbyScheduleBlockNum = some (b + 4) ∧ R L
    ∧ ((v.blockNum < b + 4 ∧ gpo.proposedScheduleBlockNum = some b
          ∧ gpo.proposedSchedule.producers = L)
      ∨ (v.pending.schedule.producers = L ∧ L ≠ []
          ∧ (v.blockNum < b + 4 → gpo.proposedScheduleBlockNum = none)))

variable {p : PendingBlockHeaderState} {gpo gpo' : GlobalProperties}
  {new : Option ProducerAuthoritySchedule}

theorem held_start {R : List ProducerAuthority → Prop} (hst : Starting s p gpo)
    (h : Held R s.view gpo) (hpp : promoteProposed p gpo = .ok (new, gpo')) :
    Held R (startView fc p new) (leaveStandby p gpo') := by
  have hbn := hst.step.blockNum
  intro hflag'
  rcases leaveStandby_cases p gpo' with ⟨hsame, -⟩ | ⟨-, -, hclear⟩
  swap
  · rw [hclear] at hflag'
    cases hflag'
  rw [hsame] at hflag' ⊢
  rcases promoteProposed_eq_ok hpp with ⟨hno, rfl, rfl⟩ | ⟨hyes, rfl, rfl⟩
  · obtain ⟨b, L, hnum, hR, hcase⟩ := h hflag'
    refine ⟨b, L, hnum, hR, ?_⟩
    rcases hcase with ⟨hlt, hn, hL⟩ | ⟨hL, hne, hnone⟩
    · -- the standby block would have made it pending
      have hlt : s.blockNum < b + 4 := hlt
      refine .inl ⟨?_, hn, hL⟩
      show p.blockNum < b + 4
      by_contra hge
      exact hno (promotesProposed_iff.2
        ⟨b, hn, .inr ⟨hflag', by rw [hnum]; exact congrArg some (by omega)⟩⟩)
    · refine .inr ⟨?_, hne, fun hlt => hnone ?_⟩
      · show (p.nextPendingSchedule fc none).schedule.producers = L
        rw [hst.pending_of_flag fc hflag']
        exact hL
      · have hlt : p.blockNum < b + 4 := hlt
        show s.blockNum < b + 4
        omega
  · obtain ⟨b, L, hnum, hR, hcase⟩ := h hflag'
    obtain ⟨n, hn, hrule⟩ := promotesProposed_iff.1 hyes
    refine ⟨b, L, hnum, hR, .inr ?_⟩
    rcases hcase with ⟨-, -, hL⟩ | ⟨hL, hne, hnone⟩
    · exact ⟨hL, hL ▸ (hst.inv.proposedValid n hn).1, fun _ => rfl⟩
    · -- an enabled list that is pending is not replaced
      exfalso
      rcases hrule with ⟨-, hnil⟩ | ⟨-, hlast⟩
      · rw [hst.step.prevPending] at hnil
        exact hne (hL.symm.trans hnil)
      · rw [hnum] at hlast
        injection hlast with hlast
        rw [hnone (show s.blockNum < b + 4 by omega)] at hn
        cases hn

def EnabledBy (older : List AppliedBlock) (b : BuildingBlock) (L : List ProducerAuthority) : Prop :=
  (∃ e ∈ older, e.finished.enabledProducers = some L) ∨ b.enabledProducers = some L

variable {older : List AppliedBlock}

theorem held_call (hnum : b.pbhs.blockNum = b.head.blockNum + 1)
    (hquiet : QuietCall b c) (heff : CallEffect b c b')
    (h : Held (EnabledBy older b) (b.view fc) b.gpo) :
    Held (EnabledBy older b') (b'.view fc) b'.gpo := by
  cases heff with
  | unchanged => exact h
  | proposed hvalid hn =>
    intro hflag
    obtain ⟨e, L, hse, hR, hcase⟩ := h hflag
    have hdue : e + 4 ≤ b.head.blockNum + 1 := hquiet rfl hflag _ hse
    refine ⟨e, L, hse, hR, .inr ?_⟩
    rcases hcase with ⟨hlt, -, -⟩ | ⟨hL, hne, -⟩
    · have hlt : b.pbhs.blockNum < e + 4 := hlt
      omega
    · refine ⟨hL, hne, fun hlt => ?_⟩
      have hlt : b.pbhs.blockNum < e + 4 := hlt
      omega
  | standbySet hvalid => exact h
  | enabled hoff hne =>
    intro _
    refine ⟨b.head.blockNum + 1, b.gpo.standbySchedule.producers, rfl, .inr rfl, .inl ⟨?_, rfl, rfl⟩⟩
    show b.pbhs.blockNum < _
    omega
  | notEnabled hoff =>
    intro hflag
    cases hflag

def EnabledIn (blocks : List AppliedBlock) (L : List ProducerAuthority) : Prop :=
  ∃ e ∈ blocks, e.finished.enabledProducers = some L

def RunSatisfies (Q : BuildingBlock → ScheduleCall → Prop) (blocks : List AppliedBlock) : Prop :=
  ∀ a ∈ blocks, TransactionsSatisfy Q a.started a.transactions

theorem held_of_quiet {blocks : List AppliedBlock} (run : ScheduleRun fc g blocks)
    (hquiet : RunSatisfies QuietCall blocks) :
    Held (EnabledIn blocks) (headOf fc g blocks).view (gpoOf blocks) := by
  induction blocks with
  | nil => intro hflag; cases run; cases hflag
  | cons a older ih =>
    have hblock := run.blockStep
    have hold := ih run.tail fun e he => hquiet e (mem_cons_of_mem _ he)
    obtain ⟨gpo', hpp, hgpo⟩ := hblock.started
    have hstart : Held (EnabledBy older a.started) (a.started.view fc) a.started.gpo := by
      rw [hgpo]
      intro hflag
      obtain ⟨b, L, hb, hR, hcase⟩ := held_start hblock.starting hold hpp hflag
      exact ⟨b, L, hb, .inl hR, hcase⟩
    have hfin : Held (EnabledBy older a.finished) (a.finished.view fc) a.finished.gpo :=
      hblock.finish (hquiet a mem_cons_self) hstart
        fun b c b' hnum hq heff h => held_call hnum hq heff h
    intro hflag
    obtain ⟨b, L, hb, hR, hcase⟩ := hfin hflag
    refine ⟨b, L, hb, ?_, hblock.committed.view ▸ hcase⟩
    rcases hR with ⟨e, he, hL⟩ | hL
    · exact ⟨e, mem_cons_of_mem _ he, hL⟩
    · exact ⟨a, mem_cons_self, hL⟩

/-- **A schedule becomes active only when it is safe**, in every run in which no schedule is
proposed while standby mode counts down. -/
theorem safeActivation_of_quiet {fc : Fc} {g : GenesisState} {blocks : List AppliedBlock}
    (run : ScheduleRun fc g blocks) (hquiet : RunSatisfies QuietCall blocks) :
    ∀ a older, a :: older <:+ blocks → SafeActivation fc g a older := by
  intro a older hsuff hchanged
  have run' := run.of_suffix hsuff
  have hblock := run'.blockStep
  have hst := hblock.starting
  set s := headOf fc g older with hs
  -- the active list changed, so the pending schedule was promoted
  have hprom : s.promotesPending a.started.pbhs.dposIrreversibleBlocknum = true := by
    by_contra hno
    rw [hblock.active, hst.active_of_notPromoted hno] at hchanged
    exact hchanged rfl
  have hactive : a.state.activeSchedule = s.pendingSchedule.schedule := by
    rw [hblock.active, hst.active_of_promoted hprom]
  obtain ⟨hne, hreg | hdue⟩ := promotesPending_iff.1 hprom
  · refine .inl ?_
    have h2 : 2 ≤ s.blockNum := by
      cases older with
      | nil =>
        -- genesis promotes its own schedule
        rw [hactive] at hchanged
        exact absurd rfl hchanged
      | cons e rest =>
        have hnum := run'.tail.blockStep.blockNum
        have hpos := (runInv_of_scheduleRun run'.tail.tail).inv.pos
        have hpos : 1 ≤ (headOf fc g rest).blockNum := hpos
        have hs' : s.blockNum = e.state.blockNum := rfl
        omega
    obtain ⟨states, hstates⟩ := statesOf_eq_cons fc g older
    have hchain := (runInv_of_scheduleRun run'.tail).chain
    rw [hstates] at hchain ⊢
    obtain ⟨t, hfind, ht, hnum⟩ := hchain.pending_introduced h2 hne
    exact ⟨t, hfind, by rw [ht, hactive], by rw [hnum, hblock.lib]; exact hreg⟩
  · refine .inr ?_
    have hall : RunSatisfies QuietCall older := fun e he =>
      hquiet e (hsuff.subset (mem_cons_of_mem _ he))
    rw [BlockHeaderState.standbyDue, and_eq_true, hst.flag] at hdue
    obtain ⟨b, L, hnum, ⟨e, he, hL⟩, hcase⟩ := held_of_quiet run'.tail hall hdue.1
    have hreached : b + 4 ≤ s.blockNum := by
      have hany := hdue.2
      rw [hst.num, hnum] at hany
      simpa using hany
    rcases hcase with ⟨hlt, -, -⟩ | ⟨hpend, -, -⟩
    · have hlt : s.blockNum < b + 4 := hlt
      omega
    · refine ⟨e, he, ?_⟩
      rw [hL, hactive]
      exact congrArg some hpend.symm

instance (b : BuildingBlock) (c : ScheduleCall) : Decidable (QuietCall b c) :=
  inferInstanceAs (Decidable (_ → _ → _))

instance (Q : BuildingBlock → ScheduleCall → Prop) [∀ b c, Decidable (Q b c)]
    (blocks : List AppliedBlock) : Decidable (RunSatisfies Q blocks) :=
  inferInstanceAs (Decidable (∀ a ∈ blocks, _))

/-- Two producers become active in block 4. Block 5 makes the given calls, and five more blocks
follow. -/
def standbyInputs (calls : List ScheduleCall) : List BlockInput :=
  [⟨2, 0, [[.propose [1, 2]]]⟩, ⟨3, 0, []⟩, ⟨4, 0, []⟩, ⟨24, 0, [calls]⟩, ⟨25, 0, []⟩, ⟨26, 0, []⟩,
    ⟨27, 0, []⟩, ⟨28, 0, []⟩, ⟨29, 0, []⟩]

/-- Standby mode for the third producer ends well when nobody interferes. -/
theorem safeActivation_undisturbed :
    ∃ a older, ScheduleRun Fc.sample sample (a :: older)
      ∧ a.state.activeSchedule.names = [3] ∧ a.state.dposIrreversibleBlocknum = 3
      ∧ SafeActivation Fc.sample sample a older := by
  obtain ⟨blocks, hrun, hP⟩ := exists_scheduleRun_of_runBlocks Fc.sample sample id
    (standbyInputs [.standby [3], .enableStandbyProducers])
    (P := fun blocks => match blocks with
      | a :: older => a.state.activeSchedule.names = [3] ∧ a.state.dposIrreversibleBlocknum = 3
        ∧ RunSatisfies QuietCall (a :: older)
      | [] => false)
    (by decide +kernel)
  match blocks, hrun, hP with
  | a :: older, hrun, hP =>
    obtain ⟨hnames, hlib, hquiet⟩ := of_decide_eq_true hP
    exact ⟨a, older, hrun, hnames, hlib,
      safeActivation_of_quiet hrun hquiet a older suffix_rfl⟩

/-- Block 5 enables the standby list of the third producer and then proposes the fourth. Block 9
introduces the fourth and block 10 makes it active, with block 3 the last irreversible one. -/
theorem proposal_displaces_standby :
    ∃ a older, ScheduleRun Fc.sample sample (a :: older)
      ∧ ¬ SafeActivation Fc.sample sample a older := by
  obtain ⟨blocks, hrun, hP⟩ := exists_scheduleRun_of_runBlocks Fc.sample sample id
    (standbyInputs [.standby [3], .enableStandbyProducers, .propose [4]])
    (P := fun blocks => match blocks with
      | a :: older =>
        a.state.activeSchedule.producers
            ≠ (headOf Fc.sample sample older).activeSchedule.producers
          ∧ (∀ t, newestIntroduction (statesOf Fc.sample sample older) = some t →
              ¬ t.blockNum ≤ a.state.dposIrreversibleBlocknum)
          ∧ ∀ e ∈ older, e.finished.enabledProducers ≠ some a.state.activeSchedule.producers
      | [] => false)
    (by decide +kernel)
  match blocks, hrun, hP with
  | a :: older, hrun, hP =>
    obtain ⟨hchanged, hlate, hnever⟩ := of_decide_eq_true hP
    refine ⟨a, older, hrun, fun hsafe => ?_⟩
    rcases hsafe hchanged with ⟨t, hfind, -, hle⟩ | ⟨e, he, henabled⟩
    · exact hlate t hfind hle
    · exact hnever e he henabled

/-! ## The end of standby mode -/

/-- In one of the first five of the given blocks, newest first, `start_block` clears the flag, with
`L` active. -/
def StandbyEnds (L : List ProducerAuthority) (newer : List AppliedBlock) : Prop :=
  ∃ after c before, newer = after ++ c :: before ∧ before.length < 5
    ∧ (∀ e ∈ before, e.finished.gpo.enableStandbySchedule = true)
    ∧ c.started.gpo.enableStandbySchedule = false ∧ c.state.activeSchedule.producers = L

def CalmCall (b : BuildingBlock) (c : ScheduleCall) : Prop :=
  QuietCall b c ∧ (b.gpo.enableStandbySchedule = true → c.setsStandby = false)

/-- Standby mode was enabled in block `e` with the list `L`, which is still proposed, or pending
and not yet active, under the version that will end the mode. -/
structure CountsDown (e : Nat) (L : List ProducerAuthority) (v : ScheduleView)
    (gpo : GlobalProperties) : Prop where
  flag : gpo.enableStandbySchedule = true
  num : gpo.standbyScheduleBlockNum = some (e + 4)
  cases : (v.blockNum < e + 4 ∧ gpo.proposedScheduleBlockNum = some e
      ∧ gpo.proposedSchedule = ⟨gpo.standbySchedule.version, L⟩)
    ∨ (v.blockNum ≤ e + 4 ∧ v.pending.schedule = ⟨gpo.standbySchedule.version, L⟩ ∧ L ≠ []
      ∧ v.active.version < gpo.standbySchedule.version
      ∧ (v.blockNum < e + 4 → gpo.proposedScheduleBlockNum = none))

theorem countsDown_start (fc : Fc) {e : Nat} (hst : Starting s p gpo)
    (h : CountsDown e L s.view gpo) (hpp : promoteProposed p gpo = .ok (new, gpo')) :
    CountsDown e L (startView fc p new) (leaveStandby p gpo')
    ∨ ((leaveStandby p gpo').enableStandbySchedule = false ∧ p.activeSchedule.producers = L) := by
  have hbn := hst.step.blockNum
  have hstay : gpo'.standbySchedule = gpo.standbySchedule →
      p.activeSchedule.version < gpo.standbySchedule.version → leaveStandby p gpo' = gpo' := by
    intro hsb hlt
    rcases leaveStandby_cases p gpo' with ⟨hsame, -⟩ | ⟨-, hver, -⟩
    · exact hsame
    · rw [hsb] at hver
      omega
  rcases h.cases with ⟨hlt, hn, hprop⟩ | ⟨hle, hpend, hne, hact, hnone⟩
  · -- proposed: it may become pending, nothing as new as it becomes active
    have hact : p.activeSchedule.version < gpo.standbySchedule.version := by
      have := hst.active_lt_proposed hn
      rw [hprop] at this
      exact this
    have hlt : s.blockNum < e + 4 := hlt
    left
    rcases promoteProposed_eq_ok hpp with ⟨hno, rfl, rfl⟩ | ⟨hyes, rfl, rfl⟩
    · rw [hstay rfl hact]
      refine ⟨h.flag, h.num, .inl ⟨?_, hn, hprop⟩⟩
      show p.blockNum < e + 4
      by_contra hge
      exact hno (promotesProposed_iff.2
        ⟨e, hn, .inr ⟨h.flag, by rw [h.num]; exact congrArg some (by omega)⟩⟩)
    · rw [hstay rfl hact]
      refine ⟨h.flag, h.num, .inr ⟨show p.blockNum ≤ e + 4 by omega, hprop, ?_, hact, fun _ => rfl⟩⟩
      have hvalid := (hst.inv.proposedValid e hn).1
      rw [hprop] at hvalid
      exact hvalid
  · -- pending: no other schedule takes its place
    have hpend : s.pendingSchedule.schedule = ⟨gpo.standbySchedule.version, L⟩ := hpend
    have hno : ¬ promotesProposed p gpo = true := by
      intro hyes
      obtain ⟨n, hn, ⟨-, hnil⟩ | ⟨-, hlast⟩⟩ := promotesProposed_iff.1 hyes
      · rw [hst.step.prevPending, hpend] at hnil
        exact hne hnil
      · rw [h.num] at hlast
        injection hlast with hlast
        rw [hnone (show s.blockNum < e + 4 by omega)] at hn
        cases hn
    rcases promoteProposed_eq_ok hpp with ⟨-, rfl, rfl⟩ | ⟨hyes, -, -⟩
    swap
    · exact absurd hyes hno
    by_cases hprom : s.promotesPending p.dposIrreversibleBlocknum = true
    · right
      have hactive := hst.active_of_promoted hprom
      rw [hpend] at hactive
      rcases leaveStandby_cases p gpo' with ⟨-, hkeep⟩ | ⟨-, -, hclear⟩
      · exact absurd (congrArg version hactive) (hkeep h.flag)
      · rw [hclear, hactive]
        exact ⟨rfl, rfl⟩
    · left
      have hactive := hst.active_of_notPromoted hprom
      rw [hstay rfl (hactive ▸ hact)]
      refine ⟨h.flag, h.num, .inr ⟨?_, ?_, hne, ?_, fun hlt => hnone ?_⟩⟩
      · -- past the standby block it would have been promoted
        show p.blockNum ≤ e + 4
        by_contra hgt
        exact hprom (promotesPending_iff.2 ⟨by rw [hpend]; exact hne,
          .inr ((hst.standbyDue_iff h.num).2 ⟨h.flag, by omega⟩)⟩)
      · show (p.nextPendingSchedule fc none).schedule = _
        rw [hst.pending_of_flag fc h.flag, hpend]
      · show p.activeSchedule.version < _
        rw [hactive]
        exact hact
      · have hlt : p.blockNum < e + 4 := hlt
        show s.blockNum < e + 4
        omega

theorem countsDown_call {e : Nat} (hnum : b.pbhs.blockNum = b.head.blockNum + 1)
    (hcalm : CalmCall b c) (heff : CallEffect b c b') (h : CountsDown e L (b.view fc) b.gpo) :
    CountsDown e L (b'.view fc) b'.gpo := by
  cases heff with
  | unchanged => exact h
  | proposed hvalid hn =>
    have hdue : e + 4 ≤ b.head.blockNum + 1 := hcalm.1 rfl h.flag _ h.num
    refine ⟨h.flag, h.num, .inr ?_⟩
    rcases h.cases with ⟨hlt, -, -⟩ | ⟨hle, hpend, hne, hact, -⟩
    · have hlt : b.pbhs.blockNum < e + 4 := hlt
      omega
    · refine ⟨hle, hpend, hne, hact, fun hlt => ?_⟩
      have hlt : b.pbhs.blockNum < e + 4 := hlt
      omega
  | standbySet hvalid => cases hcalm.2 h.flag
  | enabled hoff hne | notEnabled hoff => rw [h.flag] at hoff; cases hoff

theorem countsDown_enabling (hnum : b.pbhs.blockNum = b.head.blockNum + 1) (hcalm : CalmCall b c)
    (heff : CallEffect b c b')
    (h : b.enabledProducers = some L → CountsDown b.pbhs.blockNum L (b.view fc) b.gpo) :
    b'.enabledProducers = some L → CountsDown b'.pbhs.blockNum L (b'.view fc) b'.gpo := by
  intro hL
  by_cases hsame : b'.enabledProducers = b.enabledProducers
  · rw [heff.frame.2.1]
    exact countsDown_call hnum hcalm heff (h (hsame ▸ hL))
  · cases heff with
    | enabled hoff hne =>
      injection hL with hL
      subst hL
      have hdue : b.head.blockNum + 1 + 4 = b.pbhs.blockNum + 4 := by omega
      have hsoon : b.pbhs.blockNum < b.pbhs.blockNum + 4 := by omega
      exact ⟨rfl, congrArg some hdue, .inl ⟨hsoon, congrArg some hnum.symm, rfl⟩⟩
    | _ => exact absurd rfl hsame

theorem standbyEnds_or_countsDown {a : AppliedBlock}
    (hL : a.finished.enabledProducers = some L) (newer : List AppliedBlock)
    (run : ScheduleRun fc g (newer ++ a :: older)) (hcalm : RunSatisfies CalmCall (newer ++ [a])) :
    StandbyEnds L newer
    ∨ (CountsDown a.state.blockNum L (headOf fc g (newer ++ a :: older)).view
          (gpoOf (newer ++ a :: older))
      ∧ (headOf fc g (newer ++ a :: older)).blockNum = a.state.blockNum + newer.length
      ∧ ∀ e ∈ newer, e.finished.gpo.enableStandbySchedule = true) := by
  induction newer with
  | nil =>
    right
    have hblock := run.blockStep
    have hcount : a.finished.enabledProducers = some L →
        CountsDown a.finished.pbhs.blockNum L (a.finished.view fc) a.finished.gpo :=
      hblock.finish (P := fun b => b.enabledProducers = some L →
          CountsDown b.pbhs.blockNum L _ b.gpo)
        (hcalm a mem_cons_self)
        (fun hsome => by rw [hblock.fresh] at hsome; cases hsome)
        fun b c b' hnum hq heff h => countsDown_enabling hnum hq heff h
    have hview := hblock.committed.view
    have hnum : a.state.blockNum = a.finished.pbhs.blockNum := congrArg ScheduleView.blockNum hview
    have hcount := hcount hL
    rw [← hview, ← hnum] at hcount
    exact ⟨hcount, rfl, fun e he => by cases he⟩
  | cons c rest ih =>
    have run : ScheduleRun fc g (c :: (rest ++ a :: older)) := run
    have hblock := run.blockStep
    rcases ih run.tail fun e he => hcalm e (mem_cons_of_mem _ he) with
      ⟨after, d, before, heq, hlen, hflags, hclear, hact⟩ | ⟨hcount, hnum, hflags⟩
    · exact .inl ⟨c :: after, d, before, congrArg (c :: ·) heq, hlen, hflags, hclear, hact⟩
    obtain ⟨gpo', hpp, hgpo⟩ := hblock.started
    rcases countsDown_start fc hblock.starting hcount hpp with hgo | ⟨hclear, hact⟩
    · right
      have hstart : CountsDown a.state.blockNum L (c.started.view fc) c.started.gpo := hgpo ▸ hgo
      have hfin : CountsDown a.state.blockNum L (c.finished.view fc) c.finished.gpo :=
        hblock.finish (hcalm c mem_cons_self) hstart
          fun b d b' hnum hq heff h => countsDown_call hnum hq heff h
      have hnext := hblock.blockNum
      refine ⟨hblock.committed.view ▸ hfin, ?_, ?_⟩
      · show c.state.blockNum = _
        rw [length_cons]
        omega
      · intro e he
        rcases mem_cons.1 he with rfl | he
        · exact hfin.flag
        · exact hflags e he
    · left
      refine ⟨[], c, rest, rfl, ?_, hflags, hgpo ▸ hclear, hblock.active ▸ hact⟩
      -- the count is over at block `a + 4`
      have hbound : (headOf fc g (rest ++ a :: older)).blockNum ≤ a.state.blockNum + 4 := by
        rcases hcount.cases with ⟨hlt, -, -⟩ | ⟨hle, -, -, -, -⟩
        · exact le_of_lt hlt
        · exact hle
      omega

/-- **Standby mode ends.** When a block has enabled the standby list `L` and five more blocks
follow, and none of them, the enabling one included, proposes a schedule before the standby block
or sets the standby list in standby mode, then one of the five clears the flag with `L` active. -/
theorem standby_ends_of_calm {fc : Fc} {g : GenesisState} {L : List ProducerAuthority}
    {newer older : List AppliedBlock} {a : AppliedBlock}
    (run : ScheduleRun fc g (newer ++ a :: older)) (hL : a.finished.enabledProducers = some L)
    (hlen : 5 ≤ newer.length) (hcalm : RunSatisfies CalmCall (newer ++ [a])) :
    StandbyEnds L newer := by
  rcases standbyEnds_or_countsDown hL newer run hcalm with hends | ⟨hcount, hnum, -⟩
  · exact hends
  · exfalso
    rcases hcount.cases with ⟨hlt, -, -⟩ | ⟨hle, -, -, -, -⟩
    · have hlt : (headOf fc g (newer ++ a :: older)).blockNum < a.state.blockNum + 4 := hlt
      omega
    · have hle : (headOf fc g (newer ++ a :: older)).blockNum ≤ a.state.blockNum + 4 := hle
      omega

instance (b : BuildingBlock) (c : ScheduleCall) : Decidable (CalmCall b c) :=
  inferInstanceAs (Decidable (_ ∧ (_ → _)))

/-- The sixth newest block enables the standby list of the third producer. -/
theorem exists_standbyRun (calls : List ScheduleCall) {P : List AppliedBlock → AppliedBlock → Bool}
    (h : (runBlocks Fc.sample sample id [] (standbyInputs calls)).toOption.any (fun blocks =>
      blocks[5]?.any fun a => a.finished.enabledProducers = some (sample 0 [3]).producers
        && P (blocks.take 5) a) = true) :
    ∃ newer a older, ScheduleRun Fc.sample sample (newer ++ a :: older) ∧ newer.length = 5
      ∧ a.finished.enabledProducers = some (sample 0 [3]).producers ∧ P newer a = true := by
  obtain ⟨blocks, hrun, hany⟩ := exists_scheduleRun_of_runBlocks Fc.sample sample id _ h
  obtain ⟨a, ha, hP⟩ := (Option.any_eq_true _ _).1 hany
  obtain ⟨henabled, hP⟩ := and_eq_true_iff.1 hP
  obtain ⟨hn, rfl⟩ := List.getElem?_eq_some_iff.1 ha
  refine ⟨_, _, blocks.drop 6, ?_, length_take_of_le (Nat.le_of_lt hn), of_decide_eq_true henabled, hP⟩
  rw [getElem_cons_drop, take_append_drop]
  exact hrun

/-- Block 5 enables the standby list of the third producer; it is active in block 10. -/
theorem standby_ends_undisturbed :
    ∃ newer a older, ScheduleRun Fc.sample sample (newer ++ a :: older)
      ∧ newer.length = 5 ∧ a.finished.enabledProducers = some (sample 0 [3]).producers
      ∧ StandbyEnds (sample 0 [3]).producers newer := by
  obtain ⟨newer, a, older, hrun, hlen, henabled, hcalm⟩ := exists_standbyRun
    [.standby [3], .enableStandbyProducers] (P := fun newer a => RunSatisfies CalmCall (newer ++ [a]))
    (by decide +kernel)
  exact ⟨newer, a, older, hrun, hlen, henabled,
    standby_ends_of_calm hrun henabled hlen.ge (of_decide_eq_true hcalm)⟩

/-- Block 5 enables the standby list of the third producer and then sets another one, whose version
is 0. No active schedule has that version, and the flag stays. -/
theorem standby_goes_on :
    ∃ newer a older, ScheduleRun Fc.sample sample (newer ++ a :: older)
      ∧ newer.length = 5 ∧ a.finished.enabledProducers = some (sample 0 [3]).producers
      ∧ ¬ StandbyEnds (sample 0 [3]).producers newer := by
  obtain ⟨newer, a, older, hrun, hlen, henabled, hflags⟩ := exists_standbyRun
    [.standby [3], .enableStandbyProducers, .standby [5]]
    (P := fun newer _ => ∀ c ∈ newer, c.started.gpo.enableStandbySchedule = true) (by decide +kernel)
  refine ⟨newer, a, older, hrun, hlen, henabled, ?_⟩
  rintro ⟨after, c, before, heq, _, _, hclear, _⟩
  have hon := of_decide_eq_true hflags c (heq ▸ mem_append_right after mem_cons_self)
  rw [hclear] at hon
  cases hon

end PotatoNode.Chain
