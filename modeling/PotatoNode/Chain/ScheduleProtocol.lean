import PotatoNode.Chain.ScheduleInvariants

/-!
# Runs of the schedule protocol

A run alternates `start_block`, the calls of transactions and the acceptance of the header.
`CallEffect` lists what a call can do, so that an invariant of building blocks has five small
cases (`pushTransactions_invariant`); acceptance moves the view of the block being built into the
header state (`Committed`). With `Starting.protocolInv_start` this gives `ProtocolInv` for every
run, and from it that the node accepts the blocks it builds (`finishNextCore_of_scheduleRun`).
-/

namespace PotatoNode.Chain

open Lib GenesisState

/-! ## What a call can do -/

namespace BuildingBlock

variable (b : BuildingBlock)

/-- The block after `set_proposed_producers` has accepted a list. -/
def proposing (producers : List ProducerAuthority) : BuildingBlock :=
  { b with gpo := { b.gpo with
      proposedScheduleBlockNum := some (b.head.blockNum + 1)
      proposedSchedule := ⟨b.baseSchedule.version + 1, producers⟩ } }

def enabling : BuildingBlock :=
  { b with
    gpo :=
      { proposedScheduleBlockNum := some (b.head.blockNum + 1)
        proposedSchedule := ⟨b.baseSchedule.version + 1, b.gpo.standbySchedule.producers⟩
        standbySchedule := ⟨b.baseSchedule.version + 1, b.gpo.standbySchedule.producers⟩
        enableStandbySchedule := true
        standbyScheduleBlockNum := some (b.head.blockNum + 5) }
    enabledProducers := some b.gpo.standbySchedule.producers }

/-- The block after `enable_standby_producers` has failed and put things back. -/
def notEnabling : BuildingBlock :=
  { b with gpo := { b.gpo with enableStandbySchedule := false, standbyScheduleBlockNum := none } }

/-- A proposal is refused and changes nothing, or it is stored under the next version. -/
theorem setProposedProducers_cases (producers : List ProducerAuthority) :
    ((b.setProposedProducers producers).1 < 0 ∧ (b.setProposedProducers producers).2 = b)
    ∨ (producers ≠ [] ∧ (∀ n, b.gpo.proposedScheduleBlockNum = some n → n = b.head.blockNum + 1)
      ∧ b.setProposedProducers producers
        = ((b.baseSchedule.version : Int) + 1, b.proposing producers)) := by
  unfold setProposedProducers
  dsimp only
  split
  · exact .inl ⟨show (-1) < 0 by decide, rfl⟩
  · rename_i hlen
    split
    · exact .inl ⟨show (-2) < 0 by decide, rfl⟩
    · rename_i hany
      split
      · exact .inl ⟨show (-3) < 0 by decide, rfl⟩
      · split
        · exact .inl ⟨show (-1) < 0 by decide, rfl⟩
        · refine .inr ⟨by simpa using hlen, ?_, rfl⟩
          intro n hn
          rw [hn] at hany
          simpa using hany

theorem enableStandbyProducers_cases :
    (b.gpo.enableStandbySchedule = true ∧ b.enableStandbyProducers = (0, b))
    ∨ (b.gpo.enableStandbySchedule = false
      ∧ ((b.gpo.standbySchedule.producers ≠ []
          ∧ b.enableStandbyProducers = ((b.baseSchedule.version : Int) + 1, b.enabling))
        ∨ b.enableStandbyProducers.2 = b.notEnabling)) := by
  unfold enableStandbyProducers
  cases hflag : b.gpo.enableStandbySchedule with
  | true => exact .inl ⟨rfl, rfl⟩
  | false =>
    refine .inr ⟨rfl, ?_⟩
    rw [if_neg (by decide)]
    dsimp only
    rcases b.requestingStandby.setProposedProducers_cases b.gpo.standbySchedule.producers with
      ⟨hneg, hsame⟩ | ⟨hne, -, heq⟩
    · refine .inr ?_
      rw [if_neg (by omega), hsame]
      rfl
    · refine .inl ⟨hne, ?_⟩
      rw [heq]
      exact if_pos (show 0 < (b.baseSchedule.version : Int) + 1 by omega)

end BuildingBlock

/-- What a call that returns does to the block being built. -/
inductive CallEffect (b : BuildingBlock) : ScheduleCall → BuildingBlock → Prop where
  | unchanged (c : ScheduleCall) : CallEffect b c b
  | proposed {ctx : PrivilegedContext} {format : Nat} {producers : List ProducerAuthority}
      (hvalid : ValidProducers producers)
      (hnum : ∀ n, b.gpo.proposedScheduleBlockNum = some n → n = b.head.blockNum + 1) :
      CallEffect b (.setProposedProducersEx ctx format producers) (b.proposing producers)
  | standbySet {ctx : PrivilegedContext} {producers : List ProducerAuthority}
      (hvalid : ValidProducers producers) :
      CallEffect b (.setStandbyProducers ctx producers) (b.setStandbyProducers producers).2
  | enabled (hflag : b.gpo.enableStandbySchedule = false)
      (hne : b.gpo.standbySchedule.producers ≠ []) :
      CallEffect b .enableStandbyProducers b.enabling
  | notEnabled (hflag : b.gpo.enableStandbySchedule = false) :
      CallEffect b .enableStandbyProducers b.notEnabling

variable {b b' : BuildingBlock} {c : ScheduleCall} {fc : Fc} {s : BlockHeaderState}
  {p : PendingBlockHeaderState} {t : BlockTimestamp} {confirmed : Nat} {gpo : GlobalProperties}
  {g : GenesisState} {blocks : List AppliedBlock}

theorem callEffect_of_call {r : Int × BuildingBlock} (h : b.call c = .ok r) :
    CallEffect b c r.2 := by
  cases c with
  | setProposedProducers => cases h
  | setProposedProducersEx ctx format producers =>
    simp only [BuildingBlock.call] at h
    split at h
    · obtain ⟨u, hcheck, h⟩ := bind_eq_ok.1 h
      injection h with h
      subst h
      rcases b.setProposedProducers_cases producers with ⟨-, hsame⟩ | ⟨-, hnum, heq⟩
      · rw [hsame]
        exact .unchanged _
      · rw [heq]
        exact .proposed (validProducers_of_checkProducers hcheck) hnum
    · cases h
  | setStandbyProducers ctx producers =>
    obtain ⟨u, hcheck, h⟩ := bind_eq_ok.1 h
    injection h with h
    subst h
    exact .standbySet (validProducers_of_checkProducers hcheck)
  | enableStandbyProducers =>
    injection h with h
    subst h
    rcases b.enableStandbyProducers_cases with ⟨-, heq⟩ | ⟨hflag, ⟨hne, heq⟩ | heq⟩
    · rw [heq]
      exact .unchanged _
    · rw [heq]
      exact .enabled hflag hne
    · rw [heq]
      exact .notEnabled hflag

/-! ## Transactions -/

/-- `Q` holds of every call of a transaction at the block it is made on. -/
def CallsSatisfy (Q : BuildingBlock → ScheduleCall → Prop) : BuildingBlock → List ScheduleCall → Prop
  | _, [] => True
  | b, c :: calls => Q b c ∧ ∀ r, b.call c = .ok r → CallsSatisfy Q r.2 calls

/-- `Q` holds of every call of the transactions that are not undone. -/
def TransactionsSatisfy (Q : BuildingBlock → ScheduleCall → Prop) :
    BuildingBlock → List (List ScheduleCall) → Prop
  | _, [] => True
  | b, calls :: rest => (∀ b', b.runCalls calls = .ok b' → CallsSatisfy Q b calls)
    ∧ TransactionsSatisfy Q (b.pushTransaction calls) rest

instance decidableCallsSatisfy {Q : BuildingBlock → ScheduleCall → Prop}
    [∀ b c, Decidable (Q b c)] : ∀ b calls, Decidable (CallsSatisfy Q b calls)
  | _, [] => isTrue trivial
  | b, c :: calls =>
    let _ := fun r : Int × BuildingBlock => decidableCallsSatisfy (Q := Q) r.2 calls
    inferInstanceAs (Decidable (Q b c ∧ ∀ r, b.call c = .ok r → CallsSatisfy Q r.2 calls))

instance decidableTransactionsSatisfy {Q : BuildingBlock → ScheduleCall → Prop}
    [∀ b c, Decidable (Q b c)] : ∀ b transactions, Decidable (TransactionsSatisfy Q b transactions)
  | _, [] => isTrue trivial
  | b, calls :: rest =>
    let _ := decidableTransactionsSatisfy (Q := Q) (b.pushTransaction calls) rest
    inferInstanceAs (Decidable ((∀ b', b.runCalls calls = .ok b' → CallsSatisfy Q b calls) ∧ _))

section Transactions

variable {Q : BuildingBlock → ScheduleCall → Prop} {P : BuildingBlock → Prop}
  (hstep : ∀ b c b', Q b c → CallEffect b c b' → P b → P b')
include hstep

theorem runCalls_invariant (calls : List ScheduleCall) : ∀ {b b' : BuildingBlock},
    CallsSatisfy Q b calls → b.runCalls calls = .ok b' → P b → P b' := by
  induction calls with
  | nil =>
    intro b b' _ h hP
    injection h with h
    exact h ▸ hP
  | cons c calls ih =>
    intro b b' hQ h hP
    obtain ⟨r, hr, h⟩ := bind_eq_ok.1 h
    exact ih (hQ.2 r hr) h (hstep b c r.2 hQ.1 (callEffect_of_call hr) hP)

/-- **The invariant rule for the transactions of a block**: what every call keeps, they keep. -/
theorem pushTransactions_invariant (transactions : List (List ScheduleCall)) :
    ∀ {b : BuildingBlock}, TransactionsSatisfy Q b transactions → P b →
      P (b.pushTransactions transactions) := by
  induction transactions with
  | nil => exact fun _ hP => hP
  | cons calls rest ih =>
    intro b hQ hP
    refine ih hQ.2 ?_
    unfold BuildingBlock.pushTransaction
    cases hrun : b.runCalls calls with
    | error e => exact hP
    | ok b' => exact runCalls_invariant hstep calls (hQ.1 b' hrun) hrun hP

end Transactions

theorem callsSatisfy_true (calls : List ScheduleCall) :
    ∀ b, CallsSatisfy (fun _ _ => True) b calls := by
  induction calls with
  | nil => exact fun b => trivial
  | cons c calls ih => exact fun b => ⟨trivial, fun r _ => ih r.2⟩

theorem transactionsSatisfy_true (transactions : List (List ScheduleCall)) :
    ∀ b, TransactionsSatisfy (fun _ _ => True) b transactions := by
  induction transactions with
  | nil => exact fun b => trivial
  | cons calls rest ih => exact fun b => ⟨fun _ _ => callsSatisfy_true calls b, ih _⟩

theorem CallEffect.frame (h : CallEffect b c b') :
    b'.head = b.head ∧ b'.pbhs = b.pbhs
      ∧ b'.newPendingProducerSchedule = b.newPendingProducerSchedule := by
  cases h <;> exact ⟨rfl, rfl, rfl⟩

theorem CallEffect.flag_mono (h : CallEffect b c b') (hflag : b.gpo.enableStandbySchedule = true) :
    b'.gpo.enableStandbySchedule = true := by
  cases h with
  | unchanged | proposed | standbySet => exact hflag
  | enabled => rfl
  | notEnabled hoff => rw [hflag] at hoff; cases hoff

theorem pushTransactions_frame (b : BuildingBlock) (transactions : List (List ScheduleCall)) :
    (b.pushTransactions transactions).head = b.head
      ∧ (b.pushTransactions transactions).pbhs = b.pbhs
      ∧ (b.pushTransactions transactions).newPendingProducerSchedule
        = b.newPendingProducerSchedule := by
  refine pushTransactions_invariant
    (P := fun b' => b'.head = b.head ∧ b'.pbhs = b.pbhs
      ∧ b'.newPendingProducerSchedule = b.newPendingProducerSchedule) ?_ transactions
    (transactionsSatisfy_true transactions b) ⟨rfl, rfl, rfl⟩
  rintro b₁ c b₂ - heff ⟨hhead, hpbhs, hnew⟩
  obtain ⟨hhead', hpbhs', hnew'⟩ := heff.frame
  exact ⟨hhead'.trans hhead, hpbhs'.trans hpbhs, hnew'.trans hnew⟩

theorem pushTransactions_flag_mono (transactions : List (List ScheduleCall))
    (hflag : b.gpo.enableStandbySchedule = true) :
    (b.pushTransactions transactions).gpo.enableStandbySchedule = true :=
  pushTransactions_invariant (P := fun b => b.gpo.enableStandbySchedule = true)
    (fun _ _ _ _ heff h => heff.flag_mono h) transactions (transactionsSatisfy_true _ _) hflag

/-! ## The invariant while a block is built -/

/-- `ProtocolInv` for a block being built, with what its calls need to know of it. -/
structure BuildingInv (fc : Fc) (b : BuildingBlock) : Prop where
  inv : ProtocolInv (b.view fc) b.gpo
  base : b.baseSchedule.version = (b.view fc).version
  num : b.pbhs.blockNum = b.head.blockNum + 1
  two : 2 ≤ b.pbhs.blockNum

section Calls

variable {fc : Fc} {b : BuildingBlock} (h : BuildingInv fc b)
include h

variable {producers : List ProducerAuthority}

theorem buildingInv_proposing (hvalid : ValidProducers producers)
    (hnum : ∀ n, b.gpo.proposedScheduleBlockNum = some n → n = b.head.blockNum + 1) :
    ProtocolInv (b.view fc) (b.proposing producers).gpo := by
  have hbase := h.base
  have hcur : (b.view fc).blockNum = b.head.blockNum + 1 := h.num
  refine { h.inv with proposedValid := fun _ _ => hvalid, proposedVersion := ?_, standby := ?_ }
  · intro n hn
    injection hn with hn
    exact ⟨congrArg (· + 1) hbase, by omega⟩
  · intro hflag
    obtain ⟨e, hse, he, hle, hph⟩ := h.inv.standby hflag
    refine ⟨e, hse, he, hle, fun hk => ?_⟩
    obtain ⟨hgen, hver⟩ := hph hk
    refine ⟨⟨fun heq => congrArg some (by omega), hgen.next, hgen.later⟩, ?_⟩
    rcases hver with hzero | hw | hi
    · exact .inl hzero
    · -- only the enabling block itself may replace its proposal, by one of the same version
      have hcureq : e = b.head.blockNum + 1 := hnum e hw.proposedNum
      have hsame := (h.inv.proposedVersion e hw.proposedNum).1
      refine .inr (.inl ⟨congrArg some hcureq.symm, ?_, hw.one, hw.two⟩)
      have hw := hw.version
      show b.baseSchedule.version + 1 = b.gpo.standbySchedule.version
      omega
    · exact .inr (.inr ⟨hi.ne_nil, hi.version, hi.active_lt, hi.one, hi.two⟩)

theorem buildingInv_standbySet
    (hvalid : ValidProducers producers) :
    ProtocolInv (b.view fc) (b.setStandbyProducers producers).2.gpo := by
  refine { h.inv with standbyValid := fun _ => hvalid, standby := ?_ }
  intro hflag
  obtain ⟨e, hse, he, hle, hph⟩ := h.inv.standby hflag
  refine ⟨e, hse, he, hle, fun hk => ?_⟩
  have hgen := (hph hk).leavesGenesis
  exact ⟨⟨hgen.enabling, hgen.next, hgen.later⟩, .inl rfl⟩

theorem buildingInv_enabling (hne : b.gpo.standbySchedule.producers ≠ []) :
    ProtocolInv (b.view fc) b.enabling.gpo := by
  have hbase := h.base
  have hcur : (b.view fc).blockNum = b.head.blockNum + 1 := h.num
  have htwo : 2 ≤ (b.view fc).blockNum := h.two
  have hvalid := h.inv.standbyValid hne
  have hprop := h.inv.proposed_le
  refine { h.inv with
    proposedValid := fun _ _ => hvalid, standbyValid := fun _ => hvalid
    proposedVersion := ?_, standby := ?_ }
  · intro n hn
    injection hn with hn
    exact ⟨congrArg (· + 1) hbase, by omega⟩
  · intro _
    -- this block is the enabling one
    refine ⟨(b.view fc).blockNum, congrArg some (by omega), htwo, le_rfl, fun _ => ⟨⟨?_, ?_, ?_⟩, ?_⟩⟩
    · exact fun _ => congrArg some hcur.symm
    · exact fun heq => by omega
    · exact fun hle => by omega
    · refine .inr (.inl ⟨congrArg some hcur.symm, rfl, ?_, ?_⟩)
      · exact fun _ _ => ⟨Nat.le_succ _, fun heq => by omega⟩
      · refine fun _ _ => ⟨by omega, ?_, fun _ => h.inv.implied_lt⟩
        intro q u hu
        have := h.inv.implied_lt q u hu
        omega

theorem buildingInv_notEnabling : ProtocolInv (b.view fc) b.notEnabling.gpo :=
  { h.inv with standby := fun hflag => by cases hflag }

end Calls

/-- **Every call keeps the invariant.** -/
theorem buildingInv_call (heff : CallEffect b c b') (h : BuildingInv fc b) : BuildingInv fc b' := by
  cases heff with
  | unchanged => exact h
  | proposed hvalid hn =>
    have hinv := buildingInv_proposing h hvalid hn
    exact ⟨hinv, h.base, h.num, h.two⟩
  | standbySet hvalid =>
    have hinv := buildingInv_standbySet h hvalid
    exact ⟨hinv, h.base, h.num, h.two⟩
  | enabled _ hne =>
    have hinv := buildingInv_enabling h hne
    exact ⟨hinv, h.base, h.num, h.two⟩
  | notEnabled _ =>
    have hinv := buildingInv_notEnabling h
    exact ⟨hinv, h.base, h.num, h.two⟩

/-! ## Acceptance -/

theorem extensions_makeBlockHeader (p : PendingBlockHeaderState) (t a : Digest)
    (new : Option ProducerAuthoritySchedule) (flag : Bool) (num : Option Nat) :
    ∃ exts, (p.makeBlockHeader t a new flag num).validateAndExtractHeaderExtensions = .ok exts
      ∧ scheduleChange exts = new := by
  cases new with
  | none => exact ⟨[], rfl, rfl⟩
  | some n => exact ⟨[(1, n)], rfl, rfl⟩

/-- The header state `s'` accepted for the block `b`. -/
structure Committed (fc : Fc) (b : BuildingBlock) (s' : BlockHeaderState) : Prop where
  view : s'.view = b.view fc
  flag : s'.enableStandbySchedule = b.gpo.enableStandbySchedule
  num : s'.standbyScheduleBlockNum = b.gpo.standbyScheduleBlockNum
  lib : s'.dposIrreversibleBlocknum = b.pbhs.dposIrreversibleBlocknum
  change : scheduleChange s'.headerExts = b.newPendingProducerSchedule

theorem committed_of_nextHeader {fc : Fc} {s s' : BlockHeaderState} {b : BuildingBlock}
    {t : BlockTimestamp} {confirmed : Nat} {tm am : Digest} {sig : Signature}
    {sigs : List Signature} {skip : Bool} (hnext : s.next fc t confirmed = .ok b.pbhs)
    (hok : s.nextHeader fc { b.finalizeBlock tm am with producerSignature := sig } sigs skip
      = .ok s') : Committed fc b s' := by
  obtain ⟨p, hp, hok⟩ := bind_eq_ok.1 hok
  have hpb : p = b.pbhs := by
    have hp : s.next fc b.pbhs.timestamp b.pbhs.confirmed = .ok p := hp
    rw [BlockHeaderState.next_timestamp hnext] at hp
    injection hp with hp
    exact hp.symm
  subst hpb
  obtain ⟨r, hfin, hok⟩ := bind_eq_ok.1 hok
  obtain ⟨-, exts, hexts, -, rfl⟩ := PendingBlockHeaderState.finishNextCore_eq_ok.1 hfin
  obtain ⟨exts', hexts', hchange⟩ := extensions_makeBlockHeader b.pbhs tm am
    b.newPendingProducerSchedule b.gpo.enableStandbySchedule b.gpo.standbyScheduleBlockNum
  obtain rfl : exts' = exts := by
    have hexts : (b.pbhs.makeBlockHeader tm am b.newPendingProducerSchedule
      b.gpo.enableStandbySchedule
      b.gpo.standbyScheduleBlockNum).validateAndExtractHeaderExtensions = .ok exts := hexts
    rw [hexts'] at hexts
    injection hexts
  have hfields : s'.view = startView fc b.pbhs (scheduleChange exts')
      ∧ s'.enableStandbySchedule = b.gpo.enableStandbySchedule
      ∧ s'.standbyScheduleBlockNum = b.gpo.standbyScheduleBlockNum
      ∧ s'.dposIrreversibleBlocknum = b.pbhs.dposIrreversibleBlocknum
      ∧ s'.headerExts = exts' := by
    cases skip with
    | true =>
      injection hok with hok
      subst hok
      exact ⟨rfl, rfl, rfl, rfl, rfl⟩
    | false =>
      obtain ⟨u, -, hok⟩ := bind_eq_ok.1 hok
      injection hok with hok
      subst hok
      exact ⟨rfl, rfl, rfl, rfl, rfl⟩
  obtain ⟨hview, hflag, hnum, hlib, hext⟩ := hfields
  exact ⟨by rw [hview, hchange]; rfl, hflag, hnum, hlib, by rw [hext, hchange]⟩

/-! ## Runs -/

theorem startBlock_eq_ok {readMode : DbReadMode} {status : BlockStatus} {head : BlockHeaderState}
    (hmode : readMode = .speculative ∨ status ≠ .incomplete)
    (h : startBlock fc readMode status head gpo t confirmed = .ok b) :
    head.next fc t confirmed = .ok b.pbhs ∧ b.head = head ∧ b.enabledProducers = none
      ∧ ∃ gpo', promoteProposed b.pbhs gpo = .ok (b.newPendingProducerSchedule, gpo')
        ∧ b.gpo = leaveStandby b.pbhs gpo' := by
  obtain ⟨p, hnext, h⟩ := bind_eq_ok.1 h
  rw [if_pos hmode] at h
  obtain ⟨⟨new, gpo'⟩, hpp, h⟩ := bind_eq_ok.1 h
  injection h with h
  subst h
  exact ⟨hnext, rfl, rfl, gpo', hpp, rfl⟩

def statesOf (fc : Fc) (g : GenesisState) (blocks : List AppliedBlock) : List BlockHeaderState :=
  blocks.map AppliedBlock.state ++ [g.headerState fc]

theorem statesOf_eq_cons (fc : Fc) (g : GenesisState) (blocks : List AppliedBlock) :
    ∃ older, statesOf fc g blocks = headOf fc g blocks :: older := by
  cases blocks with
  | nil => exact ⟨[], rfl⟩
  | cons a rest => exact ⟨statesOf fc g rest, rfl⟩

/-- What holds between the blocks of a run. -/
structure RunInv (fc : Fc) (g : GenesisState) (blocks : List AppliedBlock) : Prop where
  chain : HeaderChain fc g (statesOf fc g blocks)
  inv : ProtocolInv (headOf fc g blocks).view (gpoOf blocks)
  flag : (headOf fc g blocks).enableStandbySchedule = (gpoOf blocks).enableStandbySchedule
  num : (headOf fc g blocks).standbyScheduleBlockNum = (gpoOf blocks).standbyScheduleBlockNum

theorem RunInv.starting (h : RunInv fc g blocks)
    (hnext : (headOf fc g blocks).next fc t confirmed = .ok p) :
    Starting (headOf fc g blocks) p (gpoOf blocks) := by
  obtain ⟨older, hstates⟩ := statesOf_eq_cons fc g blocks
  exact ⟨h.inv, templateStep_of_next (hstates ▸ h.chain) hnext, h.flag, h.num⟩

variable {gpo' : GlobalProperties}

theorem Starting.buildingInv (h : Starting s b.pbhs gpo)
    (hhead : b.head = s)
    (hpp : promoteProposed b.pbhs gpo = .ok (b.newPendingProducerSchedule, gpo'))
    (hgpo : b.gpo = leaveStandby b.pbhs gpo') : BuildingInv fc b := by
  have hinv : ProtocolInv (b.view fc) b.gpo := hgpo ▸ h.protocolInv_start hpp
  have hnum := h.step.blockNum
  have hpos : 1 ≤ s.blockNum := h.inv.pos
  refine ⟨hinv, h.baseVersion rfl ?_, by rw [hnum, hhead], by omega⟩
  intro n hn
  rcases promoteProposed_eq_ok hpp with ⟨-, hnone, -⟩ | ⟨hyes, hsome, -⟩
  · rw [hn] at hnone
    cases hnone
  · obtain ⟨m, hm, -⟩ := promotesProposed_iff.1 hyes
    rw [hn] at hsome
    injection hsome with hsome
    exact hsome ▸ (h.inv.proposedValid m hm).1

theorem runInv_of_scheduleRun (run : ScheduleRun fc g blocks) : RunInv fc g blocks := by
  induction run with
  | genesis => exact ⟨.genesis, protocolInv_genesis fc g, rfl, rfl⟩
  | @block blocks _ _ _ _ started transactions _ _ _ _ _ state _ hmode hstart hstate ih =>
    obtain ⟨hnext, hhead, -, gpo', hpp, hgpo⟩ := startBlock_eq_ok hmode hstart
    have hbuild : BuildingInv fc started := (ih.starting hnext).buildingInv hhead hpp hgpo
    have hfin : BuildingInv fc (started.pushTransactions transactions) :=
      pushTransactions_invariant (fun _ _ _ _ heff h => buildingInv_call heff h) transactions
        (transactionsSatisfy_true _ _) hbuild
    have hcomm : Committed fc (started.pushTransactions transactions) state :=
      committed_of_nextHeader (by rw [(pushTransactions_frame started transactions).2.1]; exact hnext)
        hstate
    refine ⟨?_, ?_, hcomm.flag, hcomm.num⟩
    · obtain ⟨older, hstates⟩ := statesOf_eq_cons fc g blocks
      have hchain := ih.chain
      show HeaderChain fc g (state :: statesOf fc g blocks)
      rw [hstates] at hchain ⊢
      exact hchain.next hstate
    · show ProtocolInv state.view (started.pushTransactions transactions).gpo
      rw [hcomm.view]
      exact hfin.inv

/-- How the newest block `a` of a run came about on the blocks before it. -/
structure BlockStep (fc : Fc) (g : GenesisState) (a : AppliedBlock) (older : List AppliedBlock) :
    Prop where
  starting : Starting (headOf fc g older) a.started.pbhs (gpoOf older)
  head : a.started.head = headOf fc g older
  fresh : a.started.enabledProducers = none
  started : ∃ gpo',
    promoteProposed a.started.pbhs (gpoOf older) = .ok (a.started.newPendingProducerSchedule, gpo')
    ∧ a.started.gpo = leaveStandby a.started.pbhs gpo'
  finished : a.finished = a.started.pushTransactions a.transactions
  committed : Committed fc a.finished a.state

variable {a : AppliedBlock} {older : List AppliedBlock}

theorem ScheduleRun.tail (run : ScheduleRun fc g (a :: older)) : ScheduleRun fc g older := by
  cases run with
  | block run => exact run

theorem ScheduleRun.blockStep (run : ScheduleRun fc g (a :: older)) : BlockStep fc g a older := by
  cases run with
  | @block _ _ _ _ _ started transactions _ _ _ _ _ state run hmode hstart hstate =>
    obtain ⟨hnext, hhead, hfresh, gpo', hpp, hgpo⟩ := startBlock_eq_ok hmode hstart
    have hst := (runInv_of_scheduleRun run).starting hnext
    rw [← (pushTransactions_frame started transactions).2.1] at hnext
    exact ⟨hst, hhead, hfresh, ⟨gpo', hpp, hgpo⟩, rfl, committed_of_nextHeader hnext hstate⟩

theorem ScheduleRun.of_suffix {c : List AppliedBlock} (run : ScheduleRun fc g blocks)
    (hc : c <:+ blocks) : ScheduleRun fc g c := by
  induction blocks with
  | nil => exact List.suffix_nil.1 hc ▸ run
  | cons a older ih =>
    rcases List.suffix_cons_iff.1 hc with rfl | hc
    · exact run
    · exact ih run.tail hc

namespace BlockStep

variable {fc : Fc} {g : GenesisState} {a : AppliedBlock} {older : List AppliedBlock}
  (h : BlockStep fc g a older)
include h

theorem blockNum : a.state.blockNum = (headOf fc g older).blockNum + 1 := by
  have hview := congrArg ScheduleView.blockNum h.committed.view
  have hframe := (pushTransactions_frame a.started a.transactions).2.1
  rw [← h.finished] at hframe
  calc a.state.blockNum = a.finished.pbhs.blockNum := hview
    _ = a.started.pbhs.blockNum := by rw [hframe]
    _ = (headOf fc g older).blockNum + 1 := h.starting.step.blockNum

theorem finish {Q : BuildingBlock → ScheduleCall → Prop} {P : BuildingBlock → Prop}
    (hcalls : TransactionsSatisfy Q a.started a.transactions) (hstart : P a.started)
    (hstep : ∀ b c b', b.pbhs.blockNum = b.head.blockNum + 1 → Q b c → CallEffect b c b' →
      P b → P b') : P a.finished := by
  rw [h.finished]
  refine (pushTransactions_invariant (P := fun b => b.pbhs.blockNum = b.head.blockNum + 1 ∧ P b)
    ?_ a.transactions hcalls ⟨?_, hstart⟩).2
  · intro b c b' hq heff hb
    exact ⟨by rw [heff.frame.1, heff.frame.2.1]; exact hb.1, hstep b c b' hb.1 hq heff hb.2⟩
  · rw [h.head, h.starting.step.blockNum]

theorem active : a.state.activeSchedule = a.started.pbhs.activeSchedule := by
  have hview := congrArg ScheduleView.active h.committed.view
  have hframe := (pushTransactions_frame a.started a.transactions).2.1
  rw [← h.finished] at hframe
  rw [← hframe]
  exact hview

theorem lib : a.state.dposIrreversibleBlocknum = a.started.pbhs.dposIrreversibleBlocknum := by
  have hframe := (pushTransactions_frame a.started a.transactions).2.1
  rw [← h.finished] at hframe
  rw [← hframe]
  exact h.committed.lib

end BlockStep

/-! ## The node accepts what it builds -/

theorem Starting.promoteProposed_ok (h : Starting s p gpo) :
    ∃ new gpo', promoteProposed p gpo = .ok (new, gpo') := by
  unfold promoteProposed
  by_cases hpp : promotesProposed p gpo = true
  · rw [if_pos hpp]
    refine ⟨_, _, bind_eq_ok.2 ⟨(), eosAssert_eq_ok.2 ?_, rfl⟩⟩
    obtain ⟨n, hn, ⟨-, hnil⟩ | ⟨hflag, -⟩⟩ := promotesProposed_iff.1 hpp
    · have hnil : s.pendingSchedule.schedule.producers = [] := h.step.prevPending ▸ hnil
      have hver := (h.inv.proposedVersion n hn).1
      have hbase : s.view.version = s.activeSchedule.version := if_pos hnil
      rw [h.step.activeVersion]
      exact .inr (by omega)
    · exact .inl hflag
  · rw [if_neg hpp]
    exact ⟨_, _, rfl⟩

theorem Starting.assertScheduleChange_ok
    {new : Option ProducerAuthoritySchedule} (h : Starting s p gpo)
    (hpp : promoteProposed p gpo = .ok (new, gpo')) {hd : SignedBlockHeader}
    (hflag : (leaveStandby p gpo').enableStandbySchedule = true → hd.enableStandbySchedule = true) :
    p.assertScheduleChange hd new = .ok () := by
  rw [PendingBlockHeaderState.assertScheduleChange_eq_ok]
  rintro n rfl
  rcases promoteProposed_eq_ok hpp with ⟨-, hnone, -⟩ | ⟨hyes, hsome, hgpo⟩
  · cases hnone
  injection hsome with hsome
  subst hsome
  obtain ⟨m, hm, ⟨-, hnil⟩ | ⟨hon, hlast⟩⟩ := promotesProposed_iff.1 hyes
  · -- the regular rule: nothing was pending, so nothing was promoted
    have hnil' : s.pendingSchedule.schedule.producers = [] := h.step.prevPending ▸ hnil
    have hprom : ¬ s.promotesPending p.dposIrreversibleBlocknum = true := notPromoted_of_nil hnil'
    have hver := (h.inv.proposedVersion m hm).1
    have hbase : s.view.version = s.activeSchedule.version := if_pos hnil'
    rw [h.active_of_notPromoted hprom, h.step.wasPromoted]
    rw [Bool.not_eq_true] at hprom
    rw [hprom]
    exact ⟨rfl, .inr (by omega), .inr hnil⟩
  · -- the standby block: the flag stays set in it
    obtain ⟨b, hnum, hb, hle, hph⟩ := h.inv.standby hon
    have hbn := h.step.blockNum
    have hlast : p.blockNum = b + 4 := by
      rw [hnum] at hlast
      injection hlast
    have hne := h.active_ne_standby hb (by omega) hnum (hph (show s.blockNum ≤ b + 3 by omega))
    have hstays : (leaveStandby p gpo').enableStandbySchedule = true := by
      rcases leaveStandby_cases p gpo' with ⟨hsame, -⟩ | ⟨-, hver, -⟩
      · rw [hsame, hgpo]
        exact hon
      · rw [hgpo] at hver
        exact absurd hver hne
    rw [h.step.wasPromoted, h.flag, hon, Bool.not_true, Bool.and_false]
    exact ⟨rfl, .inl (hflag hstays), .inl (hflag hstays)⟩

/-- **The node never rejects its own block because of schedules.** After every run, whenever the
template of a next block exists, `start_block` succeeds, and whatever its transactions call, the
header that `finalize_block` makes passes `_finish_next` with all its schedule assertions. -/
theorem finishNextCore_of_scheduleRun {fc : Fc} {g : GenesisState} {blocks : List AppliedBlock}
    (run : ScheduleRun fc g blocks) (readMode : DbReadMode) (status : BlockStatus)
    {t : BlockTimestamp} {confirmed : Nat} {p : PendingBlockHeaderState}
    (hnext : (headOf fc g blocks).next fc t confirmed = .ok p) :
    ∃ started, startBlock fc readMode status (headOf fc g blocks) (gpoOf blocks) t confirmed
        = .ok started
      ∧ ∀ transactions tm am, ∃ s', (started.pushTransactions transactions).pbhs.finishNextCore fc
          ((started.pushTransactions transactions).finalizeBlock tm am) = .ok s' := by
  have hst := (runInv_of_scheduleRun run).starting hnext
  obtain ⟨new, gpo', hpp⟩ := hst.promoteProposed_ok
  -- a built header matches its template; what is left are the schedule assertions
  have haccept : ∀ (b : BuildingBlock) (tm am : Digest), b.pbhs = p →
      p.assertScheduleChange (b.finalizeBlock tm am) b.newPendingProducerSchedule = .ok () →
        ∃ s', b.pbhs.finishNextCore fc (b.finalizeBlock tm am) = .ok s' := by
    rintro b tm am rfl hassert
    obtain ⟨exts, hexts, hchange⟩ := extensions_makeBlockHeader b.pbhs tm am
      b.newPendingProducerSchedule b.gpo.enableStandbySchedule b.gpo.standbyScheduleBlockNum
    exact ⟨_, PendingBlockHeaderState.finishNextCore_eq_ok.2
      ⟨⟨rfl, rfl, rfl, rfl, rfl⟩, exts, hexts, hchange ▸ hassert, rfl⟩⟩
  by_cases hmode : readMode = .speculative ∨ status ≠ .incomplete
  · refine ⟨⟨headOf fc g blocks, p, new, leaveStandby p gpo', none⟩, ?_, ?_⟩
    · refine bind_eq_ok.2 ⟨p, hnext, ?_⟩
      rw [if_pos hmode]
      exact bind_eq_ok.2 ⟨(new, gpo'), hpp, rfl⟩
    · intro transactions tm am
      obtain ⟨-, hpbhs, hnew⟩ := pushTransactions_frame
        ⟨headOf fc g blocks, p, new, leaveStandby p gpo', none⟩ transactions
      refine haccept _ tm am hpbhs ?_
      rw [hnew]
      exact hst.assertScheduleChange_ok hpp
        fun hflag => pushTransactions_flag_mono transactions hflag
  · refine ⟨⟨headOf fc g blocks, p, none, gpoOf blocks, none⟩, ?_, ?_⟩
    · refine bind_eq_ok.2 ⟨p, hnext, ?_⟩
      rw [if_neg hmode]
    · intro transactions tm am
      obtain ⟨-, hpbhs, hnew⟩ := pushTransactions_frame
        ⟨headOf fc g blocks, p, none, gpoOf blocks, none⟩ transactions
      refine haccept _ tm am hpbhs ?_
      rw [hnew]
      rfl

/-- Two producers are active, standby mode is on and block 9, the standby block, is next: the
node can build it. -/
theorem finishNextCore_standby_block :
    ∃ blocks, ScheduleRun Fc.sample sample blocks
      ∧ (gpoOf blocks).standbyScheduleBlockNum = some 9
      ∧ (headOf Fc.sample sample blocks).blockNum = 8
      ∧ ∃ started, startBlock Fc.sample .speculative .complete
          (headOf Fc.sample sample blocks) (gpoOf blocks) ⟨28⟩ 0 = .ok started
        ∧ ∃ s', started.pbhs.finishNextCore Fc.sample (started.finalizeBlock 0 0) = .ok s' := by
  obtain ⟨blocks, hrun, hP⟩ := exists_scheduleRun_of_runBlocks Fc.sample sample id
    [⟨2, 0, [[.propose [1, 2]]]⟩, ⟨3, 0, []⟩, ⟨4, 0, []⟩,
      ⟨24, 0, [[.standby [3], .enableStandbyProducers]]⟩, ⟨25, 0, []⟩, ⟨26, 0, []⟩, ⟨27, 0, []⟩]
    (P := fun blocks => (gpoOf blocks).standbyScheduleBlockNum = some 9
      ∧ (headOf Fc.sample sample blocks).blockNum = 8
      ∧ ((headOf Fc.sample sample blocks).next Fc.sample ⟨28⟩ 0).isOk)
    (by decide +kernel)
  obtain ⟨hnum, hhead, hok⟩ := of_decide_eq_true hP
  cases hnext : (headOf Fc.sample sample blocks).next Fc.sample ⟨28⟩ 0 with
  | error e => rw [hnext] at hok; cases hok
  | ok p =>
    obtain ⟨started, hstart, hfin⟩ := finishNextCore_of_scheduleRun hrun .speculative .complete hnext
    exact ⟨blocks, hrun, hnum, hhead, started, hstart, hfin [] 0 0⟩

end PotatoNode.Chain
