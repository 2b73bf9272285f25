import PotatoNode.Chain.BlockHeaderState

/-!
# Chains of accepted headers

Everything that is proved about the header state machine is proved about chains: lists of header
states, newest first, that start at a genesis state and grow by headers that
`block_header_state::next` accepts. This module says once what an accepted header does to the
state (`Accepts`, with every check and every field), so that no later proof opens `next` or
`_finish_next` again.
-/

namespace PotatoNode.Chain

open Lib BlockHeaderState List

/-! ## What an accepted header does -/

/-- `s'` is the state after a block on `s` that `pro` was scheduled to produce. -/
structure Accepts (fc : Fc) (s s' : BlockHeaderState) (pro : ProducerAuthority) : Prop where
  scheduled : s.getScheduledProducer s'.header.timestamp = .ok pro
  timestamp_lt : s.header.timestamp.slot < s'.header.timestamp.slot
  notDoubleConfirming : ∀ last, s.producerToLastProduced.get? pro.producerName = some last →
    last < u32Sub (s.blockNum + 1) s'.header.confirmed
  producer : s'.header.producer = pro.producerName
  previous : s'.header.previous = s.id
  scheduleVersion : s'.header.scheduleVersion = s.activeSchedule.version
  id : s'.id = s'.header.toBlockHeader.id fc
  blockNum : s'.blockNum = s.blockNum + 1
  authority : s'.validBlockSigningAuthority = pro.authority
  merkle : s.blockrootMerkle.append fc.hashCanonicalPair s.id = .ok s'.blockrootMerkle
  window : (s'.confirmCount, s'.dposProposedIrreversibleBlocknum)
    = s.confirmBlocks s'.header.confirmed
  lib : s'.dposIrreversibleBlocknum = s.calcDposLastIrreversible pro.producerName
  active : s'.activeSchedule
    = if s.promotesPending s'.dposIrreversibleBlocknum then s.pendingSchedule.schedule
      else s.activeSchedule
  lastProduced : s'.producerToLastProduced
    = if s.promotesPending s'.dposIrreversibleBlocknum then
        (rebuildProducerMap s.pendingSchedule.schedule.producers
          pro.producerName s.producerToLastProduced s'.blockNum
          s'.dposIrreversibleBlocknum).set pro.producerName s'.blockNum
      else s.producerToLastProduced.set pro.producerName s'.blockNum
  impliedIrb : s'.producerToLastImpliedIrb
    = if s.promotesPending s'.dposIrreversibleBlocknum then
        rebuildProducerMap s.pendingSchedule.schedule.producers
          pro.producerName s.producerToLastImpliedIrb s.dposProposedIrreversibleBlocknum
          s'.dposIrreversibleBlocknum
      else s.producerToLastImpliedIrb.set pro.producerName s.dposProposedIrreversibleBlocknum
  standbyFlag : s'.enableStandbySchedule = s'.header.enableStandbySchedule
  standbyNum : s'.standbyScheduleBlockNum = s'.header.standbyScheduleBlockNum
  exts : s'.header.validateAndExtractHeaderExtensions = .ok s'.headerExts
  notPromoted : ∀ new, scheduleChange s'.headerExts = some new →
    (s.promotesPending s'.dposIrreversibleBlocknum && !s.enableStandbySchedule) = false
  versionSucc : ∀ new, scheduleChange s'.headerExts = some new →
    s'.header.enableStandbySchedule = true ∨ new.version = s'.activeSchedule.version + 1
  noPending : ∀ new, scheduleChange s'.headerExts = some new →
    s'.header.enableStandbySchedule = true ∨ s.pendingSchedule.schedule.producers = []
  pending : s'.pendingSchedule
    = match scheduleChange s'.headerExts with
      | some schedule => ⟨s'.blockNum, fc.hashSchedule schedule, schedule⟩
      | none =>
        { scheduleLibNum := s.pendingSchedule.scheduleLibNum
          scheduleHash := s.pendingSchedule.scheduleHash
          schedule :=
            if s.promotesPending s'.dposIrreversibleBlocknum && !s.enableStandbySchedule then
              ⟨s.pendingSchedule.schedule.version, []⟩
            else s.pendingSchedule.schedule }

namespace BlockHeaderState

variable {fc : Fc} {s : BlockHeaderState}

theorem nextTime_eq_ok {t t' : BlockTimestamp} (h : s.nextTime t = .ok t') :
    s.header.timestamp.slot < t'.slot ∧ (t ≠ ⟨0⟩ → t' = t) := by
  unfold nextTime at h
  by_cases ht : t ≠ ⟨0⟩
  · rw [if_pos ht] at h
    obtain ⟨u, hassert, h⟩ := bind_eq_ok.1 h
    injection h with h
    subst h
    exact ⟨eosAssert_eq_ok.1 hassert, fun _ => rfl⟩
  · rw [if_neg ht] at h
    injection h with h
    subst h
    exact ⟨Nat.lt_succ_self _, fun hne => absurd hne ht⟩

variable {confirmed : Nat}

theorem assertNotDoubleConfirming_eq_ok {producer : AccountName} {u : Unit} :
    s.assertNotDoubleConfirming producer confirmed = .ok u ↔
      ∀ last, s.producerToLastProduced.get? producer = some last →
        last < u32Sub (s.blockNum + 1) confirmed := by
  unfold assertNotDoubleConfirming
  cases s.producerToLastProduced.get? producer with
  | none => simp
  | some last => simp [eosAssert_eq_ok]

theorem next_eq_ok {t : BlockTimestamp} {p : PendingBlockHeaderState}
    (h : s.next fc t confirmed = .ok p) :
    ∃ t' pro merkle, s.header.timestamp.slot < t'.slot ∧ (t ≠ ⟨0⟩ → t' = t)
      ∧ s.getScheduledProducer t' = .ok pro
      ∧ (∀ last, s.producerToLastProduced.get? pro.producerName = some last →
          last < u32Sub (s.blockNum + 1) confirmed)
      ∧ s.blockrootMerkle.append fc.hashCanonicalPair s.id = .ok merkle
      ∧ p = s.nextTemplate t' pro confirmed merkle := by
  obtain ⟨t', ht', pro, hpro, h⟩ := bind₂_eq_ok.1 h
  obtain ⟨u, hguard, merkle, hmerkle, h⟩ := bind₂_eq_ok.1 h
  obtain ⟨hlt, hgiven⟩ := nextTime_eq_ok ht'
  injection h with h
  exact ⟨t', pro, merkle, hlt, hgiven, hpro, assertNotDoubleConfirming_eq_ok.1 hguard,
    hmerkle, h.symm⟩

/-- The template is that of its own time and confirmation count. -/
theorem next_timestamp {t : BlockTimestamp} {p : PendingBlockHeaderState}
    (h : s.next fc t confirmed = .ok p) : s.next fc p.timestamp p.confirmed = .ok p := by
  obtain ⟨t', pro, merkle, hlt, -, hpro, hguard, hmerkle, rfl⟩ := next_eq_ok h
  have htime : s.nextTime t' = .ok t' := by
    have hne : t' ≠ ⟨0⟩ := by
      rintro rfl
      exact Nat.not_lt_zero _ hlt
    unfold nextTime
    rw [if_pos hne, eosAssert_of hlt]
    rfl
  show s.next fc t' confirmed = _
  unfold next
  rw [htime, ok_bind, hpro, ok_bind, (assertNotDoubleConfirming_eq_ok (u := ())).2 hguard, hmerkle]
  rfl

theorem sign_eq_ok {signer : Digest → List Signature} {s' : BlockHeaderState}
    (h : s.sign fc signer = .ok s') :
    ∃ sig sigs, s' = { s with
        header := { s.header with producerSignature := sig }, additionalSignatures := sigs }
      ∧ s'.verifySignee fc = .ok () := by
  unfold sign at h
  dsimp only at h
  split at h
  · cases h
  · next sig _ =>
    obtain ⟨_, hverify, h⟩ := bind_eq_ok.1 h
    injection h with h
    exact ⟨sig, _, h.symm, h ▸ hverify⟩

end BlockHeaderState

namespace PendingBlockHeaderState

variable {fc : Fc} {p : PendingBlockHeaderState} {h : SignedBlockHeader}

theorem assertScheduleChange_eq_ok
    {change : Option ProducerAuthoritySchedule} {u : Unit} :
    p.assertScheduleChange h change = .ok u ↔ ∀ new, change = some new →
      p.wasPendingPromoted = false
      ∧ (h.enableStandbySchedule = true ∨ new.version = p.activeSchedule.version + 1)
      ∧ (h.enableStandbySchedule = true ∨ p.prevPendingSchedule.schedule.producers = []) := by
  cases change with
  | none => simp [assertScheduleChange]
  | some new =>
    simp [assertScheduleChange, assertNewSchedule, bind_eq_ok, eosAssert_eq_ok]

/-- The checks of `_finish_next` that do not look at the schedules. -/
structure HeaderMatches (p : PendingBlockHeaderState) (h : SignedBlockHeader) : Prop where
  timestamp : h.timestamp = p.timestamp
  previous : h.previous = p.previous
  confirmed : h.confirmed = p.confirmed
  producer : h.producer = p.producer
  scheduleVersion : h.scheduleVersion = p.activeScheduleVersion

theorem finishNextCore_eq_ok {s' : BlockHeaderState} :
    p.finishNextCore fc h = .ok s' ↔
      HeaderMatches p h ∧ ∃ exts, h.validateAndExtractHeaderExtensions = .ok exts
        ∧ p.assertScheduleChange h (scheduleChange exts) = .ok ()
        ∧ s' = { p.toBlockHeaderStateCommon with
            enableStandbySchedule := h.enableStandbySchedule
            standbyScheduleBlockNum := h.standbyScheduleBlockNum
            id := h.toBlockHeader.id fc
            header := h
            headerExts := exts
            pendingSchedule := p.nextPendingSchedule fc (scheduleChange exts)
            additionalSignatures := [] } := by
  unfold finishNextCore
  simp only [bind_eq_ok, eosAssert_eq_ok, exists_const]
  constructor
  · rintro ⟨ht, hprev, hconf, hprod, hver, exts, hexts, u, hsched, heq⟩
    injection heq with heq
    exact ⟨⟨ht, hprev, hconf, hprod, hver⟩, exts, hexts, hsched, heq.symm⟩
  · rintro ⟨⟨ht, hprev, hconf, hprod, hver⟩, exts, hexts, hsched, rfl⟩
    exact ⟨ht, hprev, hconf, hprod, hver, exts, hexts, (), hsched, rfl⟩

end PendingBlockHeaderState

variable {s : BlockHeaderState} {chain : List BlockHeaderState} {fc : Fc}

/-- **A header that matches its template is accepted.** -/
theorem accepts_of_next_finishNextCore {s' : BlockHeaderState}
    {p : PendingBlockHeaderState} {t : BlockTimestamp} {confirmed : Nat} {h : SignedBlockHeader}
    (hnext : s.next fc t confirmed = .ok p) (hfin : p.finishNextCore fc h = .ok s') :
    ∃ pro, Accepts fc s s' pro ∧ s'.header = h ∧ h.confirmed = confirmed := by
  obtain ⟨t', pro, merkle, hlt, -, hpro, hguard, hmerkle, rfl⟩ :=
    next_eq_ok hnext
  obtain ⟨hm, exts, hexts, hsched, rfl⟩ := PendingBlockHeaderState.finishNextCore_eq_ok.1 hfin
  have hts : h.timestamp = t' := hm.timestamp
  have hconf : h.confirmed = confirmed := hm.confirmed
  subst hts hconf
  have hassert := PendingBlockHeaderState.assertScheduleChange_eq_ok.1 hsched
  refine ⟨pro, ?_, rfl, rfl⟩
  exact
    { scheduled := hpro
      timestamp_lt := hlt
      notDoubleConfirming := hguard
      producer := hm.producer
      previous := hm.previous
      scheduleVersion := hm.scheduleVersion
      id := rfl
      blockNum := rfl
      authority := rfl
      merkle := hmerkle
      window := rfl
      lib := rfl
      active := rfl
      lastProduced := rfl
      impliedIrb := rfl
      standbyFlag := rfl
      standbyNum := rfl
      exts := hexts
      notPromoted := fun new hnew => (hassert new hnew).1
      versionSucc := fun new hnew => (hassert new hnew).2.1
      noPending := fun new hnew => (hassert new hnew).2.2
      pending := by
        cases scheduleChange exts <;> rfl }

theorem accepts_of_nextHeader {s' : BlockHeaderState} {h : SignedBlockHeader}
    {sigs : List Signature} {skip : Bool} (hok : s.nextHeader fc h sigs skip = .ok s') :
    ∃ pro, Accepts fc s s' pro ∧ s'.header = h := by
  obtain ⟨p, hnext, r, hfin, hok⟩ := bind₂_eq_ok.1 hok
  obtain ⟨pro, hacc, hh, -⟩ := accepts_of_next_finishNextCore hnext hfin
  have hs' : s' = { r with additionalSignatures := sigs } := by
    cases skip with
    | true => injection hok with hok; exact hok.symm
    | false =>
      obtain ⟨u, -, hok⟩ := bind_eq_ok.1 hok
      injection hok with hok
      exact hok.symm
  subst hs'
  exact ⟨pro, { hacc with }, hh⟩

/-! ## Consequences of one accepted header -/

theorem promotesPending_iff {lib : Nat} :
    s.promotesPending lib = true ↔ s.pendingSchedule.schedule.producers ≠ []
      ∧ (s.pendingSchedule.scheduleLibNum ≤ lib ∨ s.standbyDue = true) := by
  simp [promotesPending]

namespace Accepts

variable {fc : Fc} {s s' : BlockHeaderState} {pro : ProducerAuthority}

section

variable (h : Accepts fc s s' pro)
include h

theorem scheduled_mem : pro ∈ s.activeSchedule.producers := by
  have hs := h.scheduled
  unfold getScheduledProducer at hs
  dsimp only at hs
  split at hs
  · rename_i pro' hget
    injection hs with hs
    exact hs ▸ mem_of_getElem? hget
  · cases hs

theorem confirmCount_eq : s'.confirmCount = (s.confirmBlocks s'.header.confirmed).1 :=
  congrArg Prod.fst h.window

theorem proposed_eq :
    s'.dposProposedIrreversibleBlocknum = (s.confirmBlocks s'.header.confirmed).2 :=
  congrArg Prod.snd h.window

theorem pending_of_change {new : ProducerAuthoritySchedule}
    (hchange : scheduleChange s'.headerExts = some new) :
    s'.pendingSchedule = ⟨s'.blockNum, fc.hashSchedule new, new⟩ := by
  have hp := h.pending
  rw [hchange] at hp
  exact hp

section

variable (hchange : scheduleChange s'.headerExts = none)
include hchange

theorem scheduleLibNum_of_noChange :
    s'.pendingSchedule.scheduleLibNum = s.pendingSchedule.scheduleLibNum := by
  have hp := h.pending
  rw [hchange] at hp
  rw [hp]

theorem schedule_of_noChange :
    s'.pendingSchedule.schedule
      = if s.promotesPending s'.dposIrreversibleBlocknum && !s.enableStandbySchedule then
          ⟨s.pendingSchedule.schedule.version, []⟩
        else s.pendingSchedule.schedule := by
  have hp := h.pending
  rw [hchange] at hp
  rw [hp]

end

end

theorem pending_ne_nil (_h : Accepts fc s s' pro)
    (hp : s.promotesPending s'.dposIrreversibleBlocknum = true) :
    s.pendingSchedule.schedule.producers ≠ [] :=
  (promotesPending_iff.1 hp).1

end Accepts

section RebuildProducerMap

variable (producer : AccountName) (old : FlatMap AccountName Nat) (self fallback : Nat)

private theorem get?_foldl_rebuild (producers : List ProducerAuthority)
    (m : FlatMap AccountName Nat) (q : AccountName) :
    (producers.foldl (fun m pro => m.set pro.producerName
        (if pro.producerName = producer then self
          else (old.get? pro.producerName).getD fallback)) m).get? q
      = if q ∈ producers.map ProducerAuthority.producerName then
          some (if q = producer then self else (old.get? q).getD fallback)
        else m.get? q := by
  induction producers generalizing m with
  | nil => simp
  | cons pro rest ih =>
    rw [foldl_cons, ih, FlatMap.get?_set]
    by_cases hrest : q ∈ rest.map ProducerAuthority.producerName
    · simp [hrest]
    · by_cases hq : q = pro.producerName
      · subst hq; simp [hrest]
      · simp [hrest, hq]

theorem get?_rebuildProducerMap (producers : List ProducerAuthority) (q : AccountName) :
    (rebuildProducerMap producers producer old self fallback).get? q
      = if q ∈ producers.map ProducerAuthority.producerName then
          some (if q = producer then self else (old.get? q).getD fallback)
        else none := by
  unfold rebuildProducerMap
  rw [get?_foldl_rebuild, FlatMap.get?_empty]

end RebuildProducerMap

/-! ## Chains -/

theorem headerState_blockNum (fc : Fc) (g : GenesisState) : (g.headerState fc).blockNum = 1 := by
  show 0 / 2 ^ 224 + 1 = 1
  rw [Nat.zero_div]

/-- The chains of header states that grow from the genesis state `g`, newest state first. -/
inductive HeaderChain (fc : Fc) (g : GenesisState) : List BlockHeaderState → Prop where
  | genesis : HeaderChain fc g [g.headerState fc]
  | next {s s' : BlockHeaderState} {older : List BlockHeaderState} {h : SignedBlockHeader}
      {sigs : List Signature} {skip : Bool} (chain : HeaderChain fc g (s :: older))
      (hok : s.nextHeader fc h sigs skip = .ok s') : HeaderChain fc g (s' :: s :: older)

/-- What the producer of a block decides: its slot, how many blocks it confirms, the schedule it
introduces and the standby fields of its header. -/
structure BlockPlan where
  slot : Nat
  confirmed : Nat
  newProducers : Option ProducerAuthoritySchedule
  enableStandbySchedule : Bool
  standbyScheduleBlockNum : Option Nat

/-- The executable form of `HeaderChain`: blocks are built by `make_block_header` from their
plans, signed by `signer` and validated with their signatures. -/
def buildChain (fc : Fc) (signer : AccountName → Signature) : List BlockHeaderState →
    List BlockPlan → Result (List BlockHeaderState)
  | chain, [] => .ok chain
  | [], _ :: _ => .error .undefinedBehaviour
  | s :: older, b :: bs => do
    let p ← s.next fc ⟨b.slot⟩ b.confirmed
    let h := p.makeBlockHeader 0 0 b.newProducers b.enableStandbySchedule
      b.standbyScheduleBlockNum
    let s' ← s.nextHeader fc { h with producerSignature := signer p.producer } [] false
    buildChain fc signer (s' :: s :: older) bs

theorem headerChain_of_buildChain {signer : AccountName → Signature}
    {g : GenesisState} (bs : List BlockPlan) :
    ∀ {chain chain' : List BlockHeaderState}, HeaderChain fc g chain →
      buildChain fc signer chain bs = .ok chain' → HeaderChain fc g chain' := by
  induction bs with
  | nil =>
    intro chain chain' hc hrun
    cases chain <;> (injection hrun with hrun; exact hrun ▸ hc)
  | cons b bs ih =>
    intro chain chain' hc hrun
    cases chain with
    | nil => cases hrun
    | cons s older =>
      obtain ⟨p, -, s', hstep, hrun⟩ := bind₂_eq_ok.1 hrun
      exact ih (hc.next hstep) hrun

/-- A small instance of the cryptography: digests are sums and a signature is its key. -/
def Fc.sample : Fc where
  digest h := h.timestamp.slot
  hashSchedule s := s.version
  hashPair a b := a + b
  hashCanonicalPair a b := a + b
  recover sig _ := some sig

def GenesisState.sample : GenesisState := ⟨systemAccountName, ⟨1⟩, 0⟩

def buildSample (bs : List BlockPlan) : Result (List BlockHeaderState) :=
  buildChain Fc.sample id [GenesisState.sample.headerState Fc.sample] bs

/-- A property that can be computed holds of some chain if it holds of one that can be built. -/
theorem exists_headerChain (bs : List BlockPlan) {P : List BlockHeaderState → Bool}
    (h : (buildSample bs).toOption.any P = true) :
    ∃ chain, HeaderChain Fc.sample GenesisState.sample chain ∧ P chain = true := by
  cases hrun : buildSample bs with
  | error e => rw [hrun] at h; cases h
  | ok chain =>
    rw [hrun] at h
    exact ⟨chain, headerChain_of_buildChain bs .genesis hrun, h⟩

def lastTwo (P : BlockHeaderState → BlockHeaderState → List BlockHeaderState → Bool) :
    List BlockHeaderState → Bool
  | s' :: s :: older => P s' s older
  | _ => false

theorem exists_lastTwo (bs : List BlockPlan)
    {P : BlockHeaderState → BlockHeaderState → List BlockHeaderState → Bool}
    (h : (buildSample bs).toOption.any (lastTwo P) = true) : ∃ s' s older,
      HeaderChain Fc.sample GenesisState.sample (s' :: s :: older) ∧ P s' s older = true := by
  obtain ⟨chain, hchain, hP⟩ := exists_headerChain bs h
  unfold lastTwo at hP
  split at hP
  · exact ⟨_, _, _, hchain, hP⟩
  · cases hP

def ProducerAuthoritySchedule.sample (version : Nat) (names : List AccountName) :
    ProducerAuthoritySchedule :=
  ⟨version, names.map fun n => ⟨n, ⟨1, [⟨n, 1⟩]⟩⟩⟩

/-- A block that introduces no schedule, outside of standby mode. -/
def BlockPlan.plain (slot confirmed : Nat) : BlockPlan := ⟨slot, confirmed, none, false, none⟩

/-- A block that introduces a schedule, outside of standby mode. -/
def BlockPlan.introducing (slot confirmed version : Nat) (names : List AccountName) : BlockPlan :=
  ⟨slot, confirmed, some (.sample version names), false, none⟩

namespace HeaderChain

variable {fc : Fc} {g : GenesisState} {s s' : BlockHeaderState}
  {older chain c : List BlockHeaderState}

theorem accepts (h : HeaderChain fc g (s' :: s :: older)) : ∃ pro, Accepts fc s s' pro := by
  cases h with
  | next _ hok =>
    obtain ⟨pro, hacc, -⟩ := accepts_of_nextHeader hok
    exact ⟨pro, hacc⟩

theorem tail (h : HeaderChain fc g (s' :: s :: older)) : HeaderChain fc g (s :: older) := by
  cases h with
  | next hchain _ => exact hchain

theorem invariant {P : List BlockHeaderState → Prop} (hinit : P [g.headerState fc])
    (hstep : ∀ s s' older pro, HeaderChain fc g (s :: older) → Accepts fc s s' pro →
      P (s :: older) → P (s' :: s :: older))
    (h : HeaderChain fc g chain) : P chain := by
  induction h with
  | genesis => exact hinit
  | next hchain hok ih =>
    obtain ⟨pro, hacc, -⟩ := accepts_of_nextHeader hok
    exact hstep _ _ _ pro hchain hacc ih

theorem of_suffix (h : HeaderChain fc g chain) (hc : c <:+ chain) (hne : c ≠ []) :
    HeaderChain fc g c := by
  induction h with
  | genesis =>
    rcases suffix_cons_iff.1 hc with rfl | hnil
    · exact .genesis
    · exact absurd (suffix_nil.1 hnil) hne
  | next hchain hok ih =>
    rcases suffix_cons_iff.1 hc with rfl | hc
    · exact hchain.next hok
    · exact ih hc

theorem blockNum_lt (h : HeaderChain fc g (s :: older)) : ∀ t ∈ older, t.blockNum < s.blockNum := by
  refine invariant (P := fun c => ∀ s older, c = s :: older → ∀ t ∈ older, t.blockNum < s.blockNum)
    ?_ ?_ h s older rfl
  · intro s older heq t ht
    cases heq
    cases ht
  · intro s s' older pro _ hacc ih s₁ older₁ heq t ht
    cases heq
    have hnum := hacc.blockNum
    rcases mem_cons.1 ht with rfl | ht
    · omega
    · have := ih s older rfl t ht
      omega

theorem blockNum_le (h : HeaderChain fc g (s :: older)) :
    ∀ t ∈ s :: older, t.blockNum ≤ s.blockNum := by
  intro t ht
  rcases mem_cons.1 ht with rfl | ht
  · exact le_rfl
  · exact (h.blockNum_lt t ht).le

end HeaderChain

/-! ## Confirmations

Block `b` confirms itself and the `confirmed(b)` blocks before it. -/

def BlockHeaderState.confirms (t : BlockHeaderState) (n : Nat) : Bool :=
  n ≤ t.blockNum && t.blockNum ≤ n + t.header.confirmed

def confirmers (chain : List BlockHeaderState) (n : Nat) : List BlockHeaderState :=
  chain.filter (·.confirms n)

/-- `required_confs` of block `n`, which the schedule active after block `n - 1` signs. -/
def requiredConfsAt (chain : List BlockHeaderState) (n : Nat) : Nat :=
  match chain.find? (fun t => t.blockNum + 1 = n) with
  | some t => t.requiredConfs
  | none => 0

theorem confirmers_cons (s : BlockHeaderState) (chain : List BlockHeaderState) (n : Nat) :
    confirmers (s :: chain) n
      = if s.confirms n then s :: confirmers chain n else confirmers chain n := by
  simp only [confirmers, filter_cons]

theorem requiredConfsAt_cons_of_le {n : Nat} (hn : n ≤ s.blockNum) :
    requiredConfsAt (s :: chain) n = requiredConfsAt chain n := by
  have hne : ¬ (s.blockNum + 1 = n) := by omega
  simp [requiredConfsAt, hne]

theorem requiredConfsAt_cons_self :
    requiredConfsAt (s :: chain) (s.blockNum + 1) = s.requiredConfs := by
  simp [requiredConfsAt]

end PotatoNode.Chain
