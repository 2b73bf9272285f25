import PotatoNode.Chain.DposLag
import PotatoNode.Chain.ScheduleController

/-!
# The schedule protocol between contract, global properties and headers

Three parties hold a piece of a schedule change: the global properties (what is proposed, the
standby list, the flag), the header state (what is pending and active) and the block being built.
`ProtocolInv` relates them at every moment of a run, from one call to the next. It follows that the
controller never trips over its own schedule assertions (`finishNextCore_of_scheduleRun`).
-/

namespace PotatoNode.Chain

open Lib List Nat Bool

/-- The template `p` of a block on `s`, as far as schedules depend on it. -/
structure TemplateStep (s : BlockHeaderState) (p : PendingBlockHeaderState) : Prop where
  blockNum : p.blockNum = s.blockNum + 1
  prevPending : p.prevPendingSchedule = s.pendingSchedule
  activeVersion : p.activeScheduleVersion = s.activeSchedule.version
  active : p.activeSchedule
    = if s.promotesPending p.dposIrreversibleBlocknum then s.pendingSchedule.schedule
      else s.activeSchedule
  wasPromoted : p.wasPendingPromoted
    = (s.promotesPending p.dposIrreversibleBlocknum && !s.enableStandbySchedule)
  proposed_le : p.dposProposedIrreversibleBlocknum ≤ p.blockNum
  implied_le : ∀ q u, p.producerToLastImpliedIrb.get? q = some u →
    u ≤ s.dposProposedIrreversibleBlocknum
  prevProposed_le : s.dposProposedIrreversibleBlocknum ≤ s.blockNum
  one : s.activeSchedule.producers.length = 1 →
    p.dposProposedIrreversibleBlocknum = p.blockNum
    ∧ (2 ≤ s.blockNum → p.dposIrreversibleBlocknum = s.dposProposedIrreversibleBlocknum)
  two : 2 ≤ s.activeSchedule.producers.length →
    s.activeSchedule.producers.length ≤ maxProducers → s.activeSchedule.names.Nodup →
      p.dposProposedIrreversibleBlocknum ≤ s.blockNum
      ∧ (2 ≤ s.blockNum → ∃ q u, s.producerToLastImpliedIrb.get? q = some u
          ∧ p.dposIrreversibleBlocknum ≤ u)

variable {s : BlockHeaderState} {p : PendingBlockHeaderState} {gpo : GlobalProperties}
  {fc : Fc} {t : BlockTimestamp} {confirmed : Nat}

theorem exists_accepts_of_next
    (hnext : s.next fc t confirmed = .ok p) :
    ∃ s' pro, Accepts fc s s' pro
      ∧ s'.dposProposedIrreversibleBlocknum = p.dposProposedIrreversibleBlocknum
      ∧ s'.dposIrreversibleBlocknum = p.dposIrreversibleBlocknum
      ∧ s'.producerToLastImpliedIrb = p.producerToLastImpliedIrb ∧ s'.blockNum = p.blockNum := by
  have hfin : p.finishNextCore fc (p.makeBlockHeader 0 0 none false none) = .ok _ :=
    PendingBlockHeaderState.finishNextCore_eq_ok.2 ⟨⟨rfl, rfl, rfl, rfl, rfl⟩, [], rfl, rfl, rfl⟩
  obtain ⟨pro, hacc, -, -⟩ := accepts_of_next_finishNextCore hnext hfin
  exact ⟨_, pro, hacc, rfl, rfl, rfl, rfl⟩

theorem templateStep_of_next {g : GenesisState} {older : List BlockHeaderState}
    (hchain : HeaderChain fc g (s :: older))
    (hnext : s.next fc t confirmed = .ok p) : TemplateStep s p := by
  obtain ⟨s', pro, hacc, hprop, hlib, himp, hnum⟩ := exists_accepts_of_next hnext
  obtain ⟨t', pro', merkle, -, -, -, -, -, rfl⟩ := BlockHeaderState.next_eq_ok hnext
  have hinv := hchain.dposInv
  have habove := hinv.above
  have habove' := (dposInv_step hacc hinv).above
  refine
    { blockNum := rfl, prevPending := rfl, activeVersion := rfl, active := rfl, wasPromoted := rfl
      proposed_le := by rw [← hnum]; omega
      implied_le := fun q u hu => hacc.implied_le_proposed hinv (himp ▸ hu)
      prevProposed_le := by omega
      one := ?_, two := ?_ }
  · intro hone
    rw [← hprop, ← hlib, ← hnum]
    exact ⟨hacc.proposed_eq_of_one hone,
      fun h2 => hacc.lib_eq_of_one hinv (hchain.implied_keys h2) hone⟩
  · intro htwo hmax hnodup
    rw [← hprop, ← hlib]
    exact ⟨hacc.proposed_le_of_two hinv htwo hmax,
      fun h2 => hacc.exists_implied_ge hinv (hchain.implied_keys h2) hnodup htwo⟩

/-! ## The invariant -/

def ValidProducers (producers : List ProducerAuthority) : Prop :=
  producers ≠ [] ∧ producers.length ≤ maxProducers
    ∧ (producers.map ProducerAuthority.producerName).Nodup

theorem validProducers_of_checkProducers {ctx : PrivilegedContext} {validateKeys : Bool}
    {producers : List ProducerAuthority} {u : Unit}
    (h : checkProducers ctx validateKeys producers = .ok u) : ValidProducers producers := by
  simp only [checkProducers, bind_eq_ok, eosAssert_eq_ok, exists_const] at h
  obtain ⟨hmax, hpos, -, -, hnodup⟩ := h
  exact ⟨ne_nil_of_length_pos hpos, hmax, hnodup⟩

/-- The header state at the end of a block, finished or being built, as far as schedules depend
on it. -/
structure ScheduleView where
  blockNum : Nat
  proposed : Nat
  implied : FlatMap AccountName Nat
  active : ProducerAuthoritySchedule
  pending : ScheduleInfo

def BlockHeaderState.view (s : BlockHeaderState) : ScheduleView :=
  ⟨s.blockNum, s.dposProposedIrreversibleBlocknum, s.producerToLastImpliedIrb, s.activeSchedule,
    s.pendingSchedule⟩

def BuildingBlock.view (fc : Fc) (b : BuildingBlock) : ScheduleView :=
  ⟨b.pbhs.blockNum, b.pbhs.dposProposedIrreversibleBlocknum, b.pbhs.producerToLastImpliedIrb,
    b.pbhs.activeSchedule, b.pbhs.nextPendingSchedule fc b.newPendingProducerSchedule⟩

def ScheduleView.version (v : ScheduleView) : Nat :=
  if v.pending.schedule.producers = [] then v.active.version else v.pending.schedule.version

/-- Irreversibility behind block `b` when the active schedule has two producers or more. -/
structure Lags (b : Nat) (v : ScheduleView) : Prop where
  proposed_le : v.proposed ≤ max b (v.blockNum - 1)
  implied_le : ∀ q u, v.implied.get? q = some u → u ≤ max b (v.blockNum - 2)
  implied_lt : v.blockNum = b → ∀ q u, v.implied.get? q = some u → u < b

/-- Standby mode was enabled in block `b`: its schedule is still proposed. -/
structure Waiting (b : Nat) (v : ScheduleView) (gpo : GlobalProperties) : Prop where
  proposedNum : gpo.proposedScheduleBlockNum = some b
  version : gpo.proposedSchedule.version = gpo.standbySchedule.version
  one : v.pending.schedule.producers = [] → v.active.producers.length = 1 →
    v.blockNum ≤ b + 1 ∧ (v.blockNum = b + 1 → v.proposed = v.blockNum)
  two : v.pending.schedule.producers = [] → 2 ≤ v.active.producers.length → Lags b v

/-- Standby mode was enabled in block `b`: its schedule is pending and not yet active. -/
structure Introduced (b : Nat) (v : ScheduleView) (gpo : GlobalProperties) : Prop where
  ne_nil : v.pending.schedule.producers ≠ []
  version : v.pending.schedule.version = gpo.standbySchedule.version
  active_lt : v.active.version < gpo.standbySchedule.version
  one : v.active.producers.length = 1 →
    v.pending.scheduleLibNum = v.blockNum ∧ v.blockNum ≤ b + 2 ∧ v.proposed = v.blockNum
  two : 2 ≤ v.active.producers.length → b + 2 ≤ v.pending.scheduleLibNum ∧ Lags b v

/-- The schedule of genesis gives way within two blocks of the enabling one. -/
structure LeavesGenesis (b : Nat) (v : ScheduleView) (gpo : GlobalProperties) : Prop where
  enabling : v.blockNum = b → gpo.proposedScheduleBlockNum = some b
  next : v.blockNum = b + 1 → v.active.version ≠ 0 ∨ v.pending.schedule.producers ≠ []
  later : b + 2 ≤ v.blockNum → v.active.version ≠ 0

/-- Standby mode between the enabling block `b` and block `b + 3`. A zero version means that the
standby list has been set anew. -/
structure StandbyPhase (b : Nat) (v : ScheduleView) (gpo : GlobalProperties) : Prop where
  leavesGenesis : LeavesGenesis b v gpo
  versions : gpo.standbySchedule.version = 0 ∨ Waiting b v gpo ∨ Introduced b v gpo

structure ProtocolInv (v : ScheduleView) (gpo : GlobalProperties) : Prop where
  pos : 1 ≤ v.blockNum
  genesis : v.blockNum < 2 → v.active.producers.length = 1
    ∧ v.pending.schedule.producers.length = 1 ∧ v.pending.scheduleLibNum = 0
  activeValid : ValidProducers v.active.producers
  pendingValid : v.pending.schedule.producers ≠ [] → ValidProducers v.pending.schedule.producers
  proposedValid : ∀ n, gpo.proposedScheduleBlockNum = some n →
    ValidProducers gpo.proposedSchedule.producers
  standbyValid : gpo.standbySchedule.producers ≠ [] →
    ValidProducers gpo.standbySchedule.producers
  proposedVersion : ∀ n, gpo.proposedScheduleBlockNum = some n →
    gpo.proposedSchedule.version = v.version + 1 ∧ n ≤ v.blockNum
  active_le : v.pending.schedule.producers ≠ [] → v.active.version ≤ v.pending.schedule.version
  pending_pos : 2 ≤ v.blockNum → v.pending.schedule.producers ≠ [] →
    v.pending.schedule.version ≠ 0
  libNum_le : v.pending.schedule.producers ≠ [] → v.pending.scheduleLibNum ≤ v.blockNum
  proposed_le : v.proposed ≤ v.blockNum
  implied_lt : ∀ q u, v.implied.get? q = some u → u < v.blockNum
  genesisActive : 2 ≤ v.blockNum → v.active.version = 0 →
    v.active.producers.length = 1 ∧ v.proposed = v.blockNum
  standby : gpo.enableStandbySchedule = true → ∃ b, gpo.standbyScheduleBlockNum = some (b + 4)
    ∧ 2 ≤ b ∧ b ≤ v.blockNum ∧ (v.blockNum ≤ b + 3 → StandbyPhase b v gpo)

theorem ProtocolInv.active_le_version {v : ScheduleView} (h : ProtocolInv v gpo) :
    v.active.version ≤ v.version := by
  unfold ScheduleView.version
  split
  · exact le_rfl
  · rename_i hne
    exact h.active_le hne

theorem protocolInv_genesis (fc : Fc) (g : GenesisState) :
    ProtocolInv (g.headerState fc).view GlobalProperties.initial where
  pos := (headerState_blockNum fc g).ge
  genesis := fun _ => ⟨rfl, rfl, rfl⟩
  activeValid := ⟨cons_ne_nil _ _, le_of_ble_eq_true rfl, nodup_singleton _⟩
  pendingValid := fun _ => ⟨cons_ne_nil _ _, le_of_ble_eq_true rfl, nodup_singleton _⟩
  proposedValid := fun n hn => by cases hn
  standbyValid := fun h => absurd rfl h
  proposedVersion := fun n hn => by cases hn
  active_le := fun _ => le_rfl
  pending_pos := fun h2 => by
    have h1 : (g.headerState fc).blockNum = 1 := headerState_blockNum fc g
    have h2 : 2 ≤ (g.headerState fc).blockNum := h2
    omega
  libNum_le := fun _ => zero_le _
  proposed_le := zero_le _
  implied_lt := fun q u hu => by cases hu
  genesisActive := fun h2 => by
    have h1 : (g.headerState fc).blockNum = 1 := headerState_blockNum fc g
    have h2 : 2 ≤ (g.headerState fc).blockNum := h2
    omega
  standby := fun h => by cases h

/-! ## `start_block` -/

/-- A block is started on head `s`, whose header carried the global properties' standby fields. -/
structure Starting (s : BlockHeaderState) (p : PendingBlockHeaderState) (gpo : GlobalProperties) :
    Prop where
  inv : ProtocolInv s.view gpo
  step : TemplateStep s p
  flag : s.enableStandbySchedule = gpo.enableStandbySchedule
  num : s.standbyScheduleBlockNum = gpo.standbyScheduleBlockNum

/-- What `start_block` leaves of a template and the schedule it makes pending. -/
def startView (fc : Fc) (p : PendingBlockHeaderState) (new : Option ProducerAuthoritySchedule) :
    ScheduleView :=
  ⟨p.blockNum, p.dposProposedIrreversibleBlocknum, p.producerToLastImpliedIrb, p.activeSchedule,
    p.nextPendingSchedule fc new⟩

theorem promotesProposed_iff :
    promotesProposed p gpo = true ↔ ∃ n, gpo.proposedScheduleBlockNum = some n
      ∧ ((n ≤ p.dposIrreversibleBlocknum ∧ p.prevPendingSchedule.schedule.producers = [])
        ∨ (gpo.enableStandbySchedule = true ∧ some p.blockNum = gpo.standbyScheduleBlockNum)) := by
  unfold promotesProposed
  cases gpo.proposedScheduleBlockNum with
  | none => simp
  | some n => simp

theorem promoteProposed_eq_ok {gpo' : GlobalProperties} {new : Option ProducerAuthoritySchedule}
    (h : promoteProposed p gpo = .ok (new, gpo')) :
    (¬ promotesProposed p gpo = true ∧ new = none ∧ gpo' = gpo)
    ∨ (promotesProposed p gpo = true ∧ new = some gpo.proposedSchedule
      ∧ gpo' = { gpo with proposedScheduleBlockNum := none, proposedSchedule := ⟨0, []⟩ }) := by
  unfold promoteProposed at h
  cases hp : promotesProposed p gpo with
  | false =>
    rw [hp] at h
    cases h
    exact .inl ⟨false_ne_true, rfl, rfl⟩
  | true =>
    rw [hp] at h
    obtain ⟨u, -, h⟩ := bind_eq_ok.1 h
    cases h
    exact .inr ⟨rfl, rfl, rfl⟩

theorem leaveStandby_cases (p : PendingBlockHeaderState) (gpo : GlobalProperties) :
    (leaveStandby p gpo = gpo ∧ (gpo.enableStandbySchedule = true →
      p.activeSchedule.version ≠ gpo.standbySchedule.version))
    ∨ (gpo.enableStandbySchedule = true ∧ p.activeSchedule.version = gpo.standbySchedule.version
      ∧ leaveStandby p gpo
        = { gpo with enableStandbySchedule := false, standbyScheduleBlockNum := none }) := by
  unfold leaveStandby
  split
  · rename_i hcond
    exact .inr ⟨hcond.1, hcond.2, rfl⟩
  · rename_i hcond
    exact .inl ⟨rfl, fun hflag hver => hcond ⟨hflag, hver⟩⟩

theorem notPromoted_of_nil {lib : Nat} (hnil : s.pendingSchedule.schedule.producers = []) :
    ¬ s.promotesPending lib = true :=
  fun hprom => (promotesPending_iff.1 hprom).1 hnil

namespace Starting

variable {fc : Fc} {s : BlockHeaderState} {p : PendingBlockHeaderState} {gpo : GlobalProperties}

section Template

variable (h : Starting s p gpo)
include h

theorem active_of_promoted (hprom : s.promotesPending p.dposIrreversibleBlocknum = true) :
    p.activeSchedule = s.pendingSchedule.schedule := by
  rw [h.step.active, if_pos hprom]

theorem active_of_notPromoted (hprom : ¬ s.promotesPending p.dposIrreversibleBlocknum = true) :
    p.activeSchedule = s.activeSchedule := by
  rw [h.step.active, if_neg hprom]

theorem length_pos : 0 < s.activeSchedule.producers.length :=
  length_pos_of_ne_nil h.inv.activeValid.1

theorem pending_none_eq (fc : Fc) : (p.nextPendingSchedule fc none).schedule
    = if p.wasPendingPromoted then ⟨s.pendingSchedule.schedule.version, []⟩
      else s.pendingSchedule.schedule := by
  show (if p.wasPendingPromoted then _ else p.prevPendingSchedule.schedule) = _
  rw [h.step.prevPending]

theorem pending_of_flag (fc : Fc) (hflag : gpo.enableStandbySchedule = true) :
    (p.nextPendingSchedule fc none).schedule = s.pendingSchedule.schedule := by
  have hwas : p.wasPendingPromoted = false := by
    rw [h.step.wasPromoted, h.flag, hflag, Bool.not_true, Bool.and_false]
  rw [h.pending_none_eq, hwas]
  rfl

theorem pending_none (fc : Fc) (hne : (p.nextPendingSchedule fc none).schedule.producers ≠ []) :
    (p.nextPendingSchedule fc none).schedule = s.pendingSchedule.schedule := by
  rw [h.pending_none_eq] at hne ⊢
  split
  · rename_i hwas
    rw [if_pos hwas] at hne
    exact absurd rfl hne
  · rfl

theorem pending_ne_nil (fc : Fc) (hne : (p.nextPendingSchedule fc none).schedule.producers ≠ []) :
    s.pendingSchedule.schedule.producers ≠ [] :=
  h.pending_none fc hne ▸ hne

theorem libNum_none (fc : Fc) :
    (p.nextPendingSchedule fc none).scheduleLibNum = s.pendingSchedule.scheduleLibNum := by
  show p.prevPendingSchedule.scheduleLibNum = _
  rw [h.step.prevPending]

theorem version_none (fc : Fc) : (startView fc p none).version = s.view.version := by
  show (if (p.nextPendingSchedule fc none).schedule.producers = [] then p.activeSchedule.version
    else (p.nextPendingSchedule fc none).schedule.version)
    = if s.pendingSchedule.schedule.producers = [] then s.activeSchedule.version
      else s.pendingSchedule.schedule.version
  rw [h.pending_none_eq, h.step.wasPromoted]
  by_cases hprom : s.promotesPending p.dposIrreversibleBlocknum = true
  · have hne := (promotesPending_iff.1 hprom).1
    rw [h.active_of_promoted hprom, hprom, if_neg hne]
    cases s.enableStandbySchedule with
    | false => rfl
    | true => exact if_neg hne
  · rw [h.active_of_notPromoted hprom]
    rw [not_eq_true] at hprom
    rw [hprom]
    rfl

theorem baseVersion {b : BuildingBlock} (hb : b.pbhs = p)
    (hnew : ∀ n, b.newPendingProducerSchedule = some n → n.producers ≠ []) :
    b.baseSchedule.version = (b.view fc).version := by
  subst hb
  cases hcase : b.newPendingProducerSchedule with
  | some n =>
    have hne := hnew n hcase
    have hpend : b.pendingProducers = n := by
      rw [BuildingBlock.pendingProducers, hcase, Option.getD_some]
    have hview : (b.view fc).pending.schedule = n := by
      show (b.pbhs.nextPendingSchedule fc b.newPendingProducerSchedule).schedule = n
      rw [hcase]
      rfl
    rw [BuildingBlock.baseSchedule, hpend, if_neg (by simpa using hne), ScheduleView.version, hview,
      if_neg hne]
  | none =>
    have hview : b.view fc = startView fc b.pbhs none := by
      show startView fc b.pbhs b.newPendingProducerSchedule = _
      rw [hcase]
    have hpend : b.pendingProducers = s.pendingSchedule.schedule := by
      rw [BuildingBlock.pendingProducers, hcase, Option.getD_none, h.step.prevPending]
    rw [hview, h.version_none fc, BuildingBlock.baseSchedule, hpend]
    show _ = if s.pendingSchedule.schedule.producers = [] then s.activeSchedule.version
      else s.pendingSchedule.schedule.version
    by_cases hnil : s.pendingSchedule.schedule.producers = []
    · rw [if_pos (by simp [hnil]), if_pos hnil, BuildingBlock.activeProducers,
        h.active_of_notPromoted (notPromoted_of_nil hnil)]
    · rw [if_neg (by simpa using hnil), if_neg hnil]

end Template

/-! ### Standby mode across `start_block` -/

section Standby

variable {b : Nat} (h : Starting s p gpo)
include h

theorem active_ne_zero (h2 : 2 ≤ s.blockNum) (hne : s.activeSchedule.version ≠ 0) :
    p.activeSchedule.version ≠ 0 := by
  by_cases hprom : s.promotesPending p.dposIrreversibleBlocknum = true
  · rw [h.active_of_promoted hprom]
    exact h.inv.pending_pos h2 (promotesPending_iff.1 hprom).1
  · rw [h.active_of_notPromoted hprom]
    exact hne

theorem leavesGenesis_later (hb : 2 ≤ b) (hlt : b < s.blockNum)
    (hph : LeavesGenesis b s.view gpo) : p.activeSchedule.version ≠ 0 := by
  have h2 : 2 ≤ s.blockNum := by omega
  by_cases hzero : s.activeSchedule.version = 0
  · have hnext : s.blockNum = b + 1 := by
      by_contra hne
      exact hph.later (show b + 2 ≤ s.blockNum by omega) hzero
    have hpend : s.pendingSchedule.schedule.producers ≠ [] :=
      (hph.next hnext).resolve_left (not_not.2 hzero)
    obtain ⟨hone, hprop⟩ := h.inv.genesisActive h2 hzero
    have hlib := (h.step.one hone).2 h2
    have hnum : s.pendingSchedule.scheduleLibNum ≤ s.blockNum := h.inv.libNum_le hpend
    have hprop : s.dposProposedIrreversibleBlocknum = s.blockNum := hprop
    rw [h.active_of_promoted (promotesPending_iff.2 ⟨hpend, .inl (by omega)⟩)]
    exact h.inv.pending_pos h2 hpend
  · exact h.active_ne_zero h2 hzero

theorem active_le_start : p.activeSchedule.version ≤ s.view.version := by
  by_cases hprom : s.promotesPending p.dposIrreversibleBlocknum = true
  · rw [h.active_of_promoted hprom]
    exact (if_neg (promotesPending_iff.1 hprom).1).ge
  · rw [h.active_of_notPromoted hprom]
    exact h.inv.active_le_version

theorem active_lt_proposed {n : Nat} (hn : gpo.proposedScheduleBlockNum = some n) :
    p.activeSchedule.version < gpo.proposedSchedule.version := by
  rw [(h.inv.proposedVersion n hn).1]
  exact lt_succ_of_le h.active_le_start

theorem standbyDue_iff (hnum : gpo.standbyScheduleBlockNum = some (b + 4)) :
    s.standbyDue = true ↔ gpo.enableStandbySchedule = true ∧ b + 4 ≤ s.blockNum := by
  rw [BlockHeaderState.standbyDue, h.flag, h.num, hnum]
  simp

theorem introduced_one (h2 : 2 ≤ s.blockNum) (hi : Introduced b s.view gpo)
    (hone : s.activeSchedule.producers.length = 1) :
    s.promotesPending p.dposIrreversibleBlocknum = true := by
  obtain ⟨hnum, -, hprop⟩ := hi.one hone
  have hlib := (h.step.one hone).2 h2
  have hnum : s.pendingSchedule.scheduleLibNum = s.blockNum := hnum
  have hprop : s.dposProposedIrreversibleBlocknum = s.blockNum := hprop
  exact promotesPending_iff.2 ⟨hi.ne_nil, .inl (by omega)⟩

theorem active_ne_standby (hb : 2 ≤ b) (hlast : s.blockNum = b + 3)
    (hnum : gpo.standbyScheduleBlockNum = some (b + 4)) (hph : StandbyPhase b s.view gpo) :
    p.activeSchedule.version ≠ gpo.standbySchedule.version := by
  rcases hph.versions with hzero | hw | hi
  · rw [hzero]
    exact h.leavesGenesis_later hb (by omega) hph.leavesGenesis
  · exact (hw.version ▸ h.active_lt_proposed hw.proposedNum).ne
  · have hone : s.activeSchedule.producers.length ≠ 1 := by
      intro hone
      have hle : s.blockNum ≤ b + 2 := (hi.one hone).2.1
      omega
    have htwo : 2 ≤ s.activeSchedule.producers.length := by
      have := h.length_pos
      omega
    obtain ⟨hintro, hlag⟩ := hi.two htwo
    obtain ⟨q, u, hu, hle⟩ := (h.step.two htwo h.inv.activeValid.2.1 h.inv.activeValid.2.2).2
      (by omega)
    have hub : u ≤ max b (s.blockNum - 2) := hlag.implied_le q u hu
    have hintro : b + 2 ≤ s.pendingSchedule.scheduleLibNum := hintro
    have hprom : ¬ s.promotesPending p.dposIrreversibleBlocknum = true := by
      rw [promotesPending_iff, h.standbyDue_iff hnum]
      rintro ⟨-, hlib | ⟨-, hdue⟩⟩ <;> omega
    rw [h.active_of_notPromoted hprom]
    exact hi.active_lt.ne

theorem lags_start {new : Option ProducerAuthoritySchedule} (hle : b ≤ s.blockNum)
    (htwo : 2 ≤ s.activeSchedule.producers.length) (hlag : Lags b s.view) :
    Lags b (startView fc p new) := by
  have hprop := (h.step.two htwo h.inv.activeValid.2.1 h.inv.activeValid.2.2).1
  have hnum := h.step.blockNum
  have hold : s.dposProposedIrreversibleBlocknum ≤ max b (s.blockNum - 1) := hlag.proposed_le
  refine ⟨?_, ?_, ?_⟩
  · show p.dposProposedIrreversibleBlocknum ≤ max b (p.blockNum - 1)
    omega
  · intro q u hu
    have hu := h.step.implied_le q u hu
    show u ≤ max b (p.blockNum - 2)
    omega
  · intro heq
    have heq : p.blockNum = b := heq
    omega

theorem standbyPhase_introduce (hb : 2 ≤ b) (hle : b ≤ s.blockNum) (hk : s.blockNum ≤ b + 2)
    (hnum : gpo.standbyScheduleBlockNum = some (b + 4)) (hph : StandbyPhase b s.view gpo)
    (hpp : promotesProposed p gpo = true) :
    StandbyPhase b (startView fc p (some gpo.proposedSchedule))
      { gpo with proposedScheduleBlockNum := none, proposedSchedule := ⟨0, []⟩ } := by
  have hbn := h.step.blockNum
  obtain ⟨n, hn, hrule⟩ := promotesProposed_iff.1 hpp
  have hregular : n ≤ p.dposIrreversibleBlocknum
      ∧ p.prevPendingSchedule.schedule.producers = [] := by
    refine hrule.resolve_right ?_
    rintro ⟨-, hlast⟩
    rw [hnum] at hlast
    injection hlast with hlast
    omega
  have hnil : s.pendingSchedule.schedule.producers = [] := h.step.prevPending ▸ hregular.2
  have hactive := h.active_of_notPromoted (notPromoted_of_nil hnil)
  have hne : gpo.proposedSchedule.producers ≠ [] := (h.inv.proposedValid n hn).1
  have hbl : (startView fc p (some gpo.proposedSchedule)).blockNum = s.blockNum + 1 := hbn
  refine ⟨⟨fun heq => by omega, fun _ => .inr hne, ?_⟩, ?_⟩
  · intro hlater
    exact h.leavesGenesis_later hb (by omega) hph.leavesGenesis
  · rcases hph.versions with hzero | hw | hi
    · exact .inl hzero
    · refine .inr (.inr ⟨hne, hw.version, ?_, ?_, ?_⟩)
      · exact hw.version ▸ h.active_lt_proposed hw.proposedNum
      · intro hone
        have hone : s.activeSchedule.producers.length = 1 := hactive ▸ hone
        have hearly : s.blockNum ≤ b + 1 := (hw.one hnil hone).1
        exact ⟨rfl, by omega, (h.step.one hone).1⟩
      · intro htwo
        have htwo : 2 ≤ s.activeSchedule.producers.length := hactive ▸ htwo
        have hlag := hw.two hnil htwo
        refine ⟨?_, h.lags_start hle htwo hlag⟩
        show b + 2 ≤ p.blockNum
        -- in the block after the enabling one, that one is not yet irreversible
        by_contra hearly
        obtain ⟨q, u, hu, hlib⟩ := (h.step.two htwo h.inv.activeValid.2.1
          h.inv.activeValid.2.2).2 (by omega)
        have hub : u < b := hlag.implied_lt (show s.blockNum = b by omega) q u hu
        obtain rfl : n = b := by
          rw [hw.proposedNum] at hn
          injection hn with hn
          exact hn.symm
        omega
    · exact absurd hnil hi.ne_nil

theorem standbyPhase_keep (hb : 2 ≤ b) (hle : b ≤ s.blockNum) (hk : s.blockNum ≤ b + 2)
    (hflag : gpo.enableStandbySchedule = true)
    (hph : StandbyPhase b s.view gpo) (hpp : ¬ promotesProposed p gpo = true)
    (hkeep : p.activeSchedule.version ≠ gpo.standbySchedule.version) :
    StandbyPhase b (startView fc p none) gpo := by
  have hbn := h.step.blockNum
  have h2 : 2 ≤ s.blockNum := by omega
  have hpend : (startView fc p none).pending.schedule = s.view.pending.schedule :=
    h.pending_of_flag fc hflag
  have hbl : (startView fc p none).blockNum = s.blockNum + 1 := hbn
  -- a proposal of block `b` would become pending if `b` were irreversible
  have hstuck : gpo.proposedScheduleBlockNum = some b →
      s.pendingSchedule.schedule.producers = [] → p.dposIrreversibleBlocknum < b := by
    intro hn hnil
    by_contra hlib
    exact hpp (promotesProposed_iff.2
      ⟨b, hn, .inl ⟨by omega, by rw [h.step.prevPending]; exact hnil⟩⟩)
  refine ⟨⟨fun heq => by omega, ?_, ?_⟩, ?_⟩
  · intro hnext
    rw [hpend]
    by_cases hnil : s.pendingSchedule.schedule.producers = []
    · refine .inl ?_
      intro hzero
      rw [startView, h.active_of_notPromoted (notPromoted_of_nil hnil)] at hzero
      obtain ⟨hone, hprop⟩ := h.inv.genesisActive h2 hzero
      have hprop : s.dposProposedIrreversibleBlocknum = s.blockNum := hprop
      have hlib := (h.step.one hone).2 h2
      have := hstuck (hph.leavesGenesis.enabling (show s.blockNum = b by omega)) hnil
      omega
    · exact .inr hnil
  · intro hlater
    exact h.leavesGenesis_later hb (by omega) hph.leavesGenesis
  · rcases hph.versions with hzero | hw | hi
    · exact .inl hzero
    · refine .inr (.inl ⟨hw.proposedNum, hw.version, ?_, ?_⟩)
      · intro hnil hone
        have hnil : s.pendingSchedule.schedule.producers = [] := hpend ▸ hnil
        have hactive := h.active_of_notPromoted (notPromoted_of_nil hnil)
        have hone : s.activeSchedule.producers.length = 1 := hactive ▸ hone
        obtain ⟨hearly, hprop⟩ := hw.one hnil hone
        have hearly : s.blockNum ≤ b + 1 := hearly
        have hlib := (h.step.one hone).2 h2
        have hlow := hstuck hw.proposedNum hnil
        have hfirst : s.blockNum = b := by
          by_contra hne
          have : s.dposProposedIrreversibleBlocknum = s.blockNum :=
            hprop (show s.blockNum = b + 1 by omega)
          omega
        exact ⟨by omega, fun _ => (h.step.one hone).1⟩
      · intro hnil htwo
        have hnil : s.pendingSchedule.schedule.producers = [] := hpend ▸ hnil
        have hactive := h.active_of_notPromoted (notPromoted_of_nil hnil)
        have htwo : 2 ≤ s.activeSchedule.producers.length := hactive ▸ htwo
        exact h.lags_start hle htwo (hw.two hnil htwo)
    · -- its promotion would have cleared the flag
      have hprom : ¬ s.promotesPending p.dposIrreversibleBlocknum = true := by
        intro hprom
        rw [h.active_of_promoted hprom] at hkeep
        exact hkeep hi.version
      have hactive := h.active_of_notPromoted hprom
      refine .inr (.inr ⟨hpend ▸ hi.ne_nil, hpend ▸ hi.version, ?_, ?_, ?_⟩)
      · show p.activeSchedule.version < _
        rw [hactive]
        exact hi.active_lt
      · intro hone
        exact absurd (h.introduced_one h2 hi (hactive ▸ hone)) hprom
      · intro htwo
        have htwo : 2 ≤ s.activeSchedule.producers.length := hactive ▸ htwo
        obtain ⟨hintro, hlag⟩ := hi.two htwo
        refine ⟨?_, h.lags_start hle htwo hlag⟩
        show b + 2 ≤ (p.nextPendingSchedule fc none).scheduleLibNum
        rw [h.libNum_none fc]
        exact hintro

end Standby

/-! ### The invariant after `start_block` -/

section Invariant

variable (h : Starting s p gpo)
include h

theorem activeValid_start : ValidProducers p.activeSchedule.producers := by
  by_cases hprom : s.promotesPending p.dposIrreversibleBlocknum = true
  · rw [h.active_of_promoted hprom]
    exact h.inv.pendingValid (promotesPending_iff.1 hprom).1
  · rw [h.active_of_notPromoted hprom]
    exact h.inv.activeValid

theorem genesisActive_start (hzero : p.activeSchedule.version = 0) :
    p.activeSchedule.producers.length = 1 ∧ p.dposProposedIrreversibleBlocknum = p.blockNum := by
  have hone : s.activeSchedule.producers.length = 1 ∧ p.activeSchedule.producers.length = 1 := by
    by_cases h2 : 2 ≤ s.blockNum
    · -- a promoted schedule has a positive version
      have hprom : ¬ s.promotesPending p.dposIrreversibleBlocknum = true := by
        intro hprom
        rw [h.active_of_promoted hprom] at hzero
        exact h.inv.pending_pos h2 (promotesPending_iff.1 hprom).1 hzero
      rw [h.active_of_notPromoted hprom] at hzero ⊢
      have hone := (h.inv.genesisActive h2 hzero).1
      exact ⟨hone, hone⟩
    · obtain ⟨hactive, hpend, -⟩ := h.inv.genesis (show s.blockNum < 2 by omega)
      refine ⟨hactive, ?_⟩
      rw [h.step.active]
      split
      · exact hpend
      · exact hactive
  exact ⟨hone.2, (h.step.one hone.1).1⟩

theorem two_le_of_pending (fc : Fc)
    (hne : (p.nextPendingSchedule fc none).schedule.producers ≠ []) : 2 ≤ s.blockNum := by
  by_contra hlt
  obtain ⟨-, hlen, hlib⟩ := h.inv.genesis (show s.blockNum < 2 by omega)
  have hlib : s.pendingSchedule.scheduleLibNum = 0 := hlib
  have hprom : s.promotesPending p.dposIrreversibleBlocknum = true :=
    promotesPending_iff.2 ⟨ne_nil_of_length_pos (hlen.symm ▸ one_pos), .inl (by omega)⟩
  have hflag : gpo.enableStandbySchedule = false := by
    by_contra hflag
    obtain ⟨b, -, hb, hle, -⟩ := h.inv.standby (of_not_eq_false hflag)
    have hle : b ≤ s.blockNum := hle
    omega
  have hwas : p.wasPendingPromoted = true := by
    rw [h.step.wasPromoted, hprom, h.flag, hflag]
    rfl
  apply hne
  unfold PendingBlockHeaderState.nextPendingSchedule
  rw [hwas]
  rfl

theorem protocolInv_none (fc : Fc) :
    ProtocolInv (startView fc p none)
      { gpo with enableStandbySchedule := false, standbyScheduleBlockNum := none } := by
  have hbn := h.step.blockNum
  have hpos : 1 ≤ s.blockNum := h.inv.pos
  have hbl : (startView fc p none).blockNum = s.blockNum + 1 := hbn
  refine
    { pos := by omega
      genesis := fun hlt => by omega
      activeValid := h.activeValid_start
      pendingValid := ?_
      proposedValid := h.inv.proposedValid
      standbyValid := h.inv.standbyValid
      proposedVersion := ?_
      active_le := ?_
      pending_pos := ?_
      libNum_le := ?_
      proposed_le := h.step.proposed_le
      implied_lt := ?_
      genesisActive := fun _ hzero => h.genesisActive_start hzero
      standby := fun hflag => by cases hflag }
  · intro hne
    show ValidProducers (p.nextPendingSchedule fc none).schedule.producers
    rw [h.pending_none fc hne]
    exact h.inv.pendingValid (h.pending_ne_nil fc hne)
  · intro n hn
    obtain ⟨hver, hle⟩ := h.inv.proposedVersion n hn
    rw [h.version_none fc]
    have hle : n ≤ s.blockNum := hle
    exact ⟨hver, by omega⟩
  · intro hne
    have hle := h.active_le_start
    rw [← h.version_none fc] at hle
    exact hle.trans (if_neg hne).le
  · intro _ hne
    show (p.nextPendingSchedule fc none).schedule.version ≠ 0
    rw [h.pending_none fc hne]
    exact h.inv.pending_pos (h.two_le_of_pending fc hne) (h.pending_ne_nil fc hne)
  · intro hne
    show (p.nextPendingSchedule fc none).scheduleLibNum ≤ p.blockNum
    rw [h.libNum_none fc]
    have hle : s.pendingSchedule.scheduleLibNum ≤ s.blockNum :=
      h.inv.libNum_le (h.pending_ne_nil fc hne)
    omega
  · intro q u hu
    have hu := h.step.implied_le q u hu
    have hle := h.step.prevProposed_le
    show u < p.blockNum
    omega

theorem protocolInv_some (fc : Fc) (hpp : promotesProposed p gpo = true) :
    ProtocolInv (startView fc p (some gpo.proposedSchedule))
      ⟨none, ⟨0, []⟩, gpo.standbySchedule, false, none⟩ := by
  have hbn := h.step.blockNum
  have hpos : 1 ≤ s.blockNum := h.inv.pos
  have hbl : (startView fc p (some gpo.proposedSchedule)).blockNum = s.blockNum + 1 := hbn
  obtain ⟨n, hn, -⟩ := promotesProposed_iff.1 hpp
  obtain ⟨hver, -⟩ := h.inv.proposedVersion n hn
  have hactive := h.active_le_start
  refine
    { pos := by omega
      genesis := fun hlt => by omega
      activeValid := h.activeValid_start
      pendingValid := fun _ => h.inv.proposedValid n hn
      proposedValid := fun n hn => by cases hn
      standbyValid := h.inv.standbyValid
      proposedVersion := fun n hn => by cases hn
      active_le := ?_
      pending_pos := ?_
      libNum_le := fun _ => le_rfl
      proposed_le := h.step.proposed_le
      implied_lt := ?_
      genesisActive := fun _ hzero => h.genesisActive_start hzero
      standby := fun hflag => by cases hflag }
  · intro _
    show p.activeSchedule.version ≤ gpo.proposedSchedule.version
    omega
  · intro _ _
    show gpo.proposedSchedule.version ≠ 0
    omega
  · intro q u hu
    have hu := h.step.implied_le q u hu
    have hle := h.step.prevProposed_le
    show u < p.blockNum
    omega

theorem exists_standbyPhase (hflag : gpo.enableStandbySchedule = true) :
    ∃ b, gpo.standbyScheduleBlockNum = some (b + 4) ∧ 2 ≤ b ∧ b ≤ s.blockNum ∧ b ≤ p.blockNum
      ∧ (p.blockNum ≤ b + 3 → s.blockNum ≤ b + 2 ∧ StandbyPhase b s.view gpo) := by
  have hbn := h.step.blockNum
  obtain ⟨b, hnum, hb, hle, hph⟩ := h.inv.standby hflag
  have hle : b ≤ s.blockNum := hle
  exact ⟨b, hnum, hb, hle, by omega, fun hk => ⟨by omega, hph (show s.blockNum ≤ b + 3 by omega)⟩⟩

/-- **`start_block` keeps the invariant.** -/
theorem protocolInv_start {new : Option ProducerAuthoritySchedule} {gpo' : GlobalProperties}
    (hpp : promoteProposed p gpo = .ok (new, gpo')) :
    ProtocolInv (startView fc p new) (leaveStandby p gpo') := by
  rcases promoteProposed_eq_ok hpp with ⟨hno, rfl, rfl⟩ | ⟨hyes, rfl, rfl⟩
  · have hinv := h.protocolInv_none fc
    rcases leaveStandby_cases p gpo' with ⟨hsame, hkeep⟩ | ⟨-, -, hclear⟩
    · rw [hsame]
      refine { hinv with standby := fun hflag => ?_ }
      obtain ⟨b, hnum, hb, hle, hle', hph⟩ := h.exists_standbyPhase hflag
      exact ⟨b, hnum, hb, hle', fun hk => h.standbyPhase_keep hb hle (hph hk).1 hflag (hph hk).2
        hno (hkeep hflag)⟩
    · rw [hclear]
      exact hinv
  · have hinv := h.protocolInv_some fc hyes
    rcases leaveStandby_cases p { gpo with
        proposedScheduleBlockNum := none, proposedSchedule := ⟨0, []⟩ } with
      ⟨hsame, -⟩ | ⟨-, -, hclear⟩
    · rw [hsame]
      refine { hinv with standby := fun hflag => ?_ }
      obtain ⟨b, hnum, hb, hle, hle', hph⟩ := h.exists_standbyPhase hflag
      exact ⟨b, hnum, hb, hle', fun hk => h.standbyPhase_introduce hb hle (hph hk).1 hnum (hph hk).2
        hyes⟩
    · rw [hclear]
      exact hinv

end Invariant

end Starting

end PotatoNode.Chain
