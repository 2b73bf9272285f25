import Mathlib.Order.CompletePartialOrder
import Mathlib.Order.Interval.Set.Disjoint
import PotatoNode.ProducerPlugin.BlockProduction

/-!
# A node does not sign conflicting blocks

Two blocks of one producer conflict if they have the same time or the same number, or if both
confirm a block. The watermark of a producer is above the blocks it has produced, and a block is
only produced above the watermark; so the blocks of a local producer never conflict, whatever the
forks, as long as the block that is signed is the one that was decided on.

That is the point where the code can slip. `start_block` may decide to produce and then return
early, because the production window is not open yet; a block that is already pending stays, and
from then on a transaction that exhausts it gets it signed. `KeepsSlot` says that the pending block
is then one for the time that was decided on.
-/

namespace PotatoNode.ProducerPlugin

open Lib Chain FlatMap List

/-! ## Conflicts -/

def confirmationRange (b : BlockState) : Set Nat :=
  Set.Icc (b.blockNum - b.header.confirmed) b.blockNum

/-- Two blocks that no producer may sign both. -/
def Conflict (a b : BlockState) : Prop :=
  a.header.timestamp = b.header.timestamp ∨ a.blockNum = b.blockNum
    ∨ ¬ Disjoint (confirmationRange a) (confirmationRange b)

/-- `newer` comes after `older`, and so does everything it confirms. -/
def After (newer older : BlockState) : Prop :=
  older.header.timestamp.slot < newer.header.timestamp.slot
    ∧ older.blockNum < newer.blockNum - newer.header.confirmed

theorem After.not_conflict {newer older : BlockState} (h : After newer older) :
    ¬ Conflict newer older := by
  rintro (htime | hnum | hrange)
  · have hlt := h.1
    rw [htime] at hlt
    exact lt_irrefl _ hlt
  · have hlt := h.2
    omega
  · apply hrange
    rw [Set.disjoint_left]
    intro i hnew hold
    exact absurd (hnew.1.trans hold.2) (not_le.2 h.2)

/-! ## What decides what is signed -/

/-- The part of a node that decides what it signs. -/
structure Signer where
  head : BlockState
  pbhs : Option PendingBlockHeaderState
  mode : PendingBlockMode
  watermarks : FlatMap AccountName Watermark
  produced : List BlockState

def Watermark.Covers (w : Watermark) (blockNum : Nat) (timestamp : BlockTimestamp) : Prop :=
  blockNum ≤ w.blockNum ∧ timestamp.slot ≤ w.timestamp.slot

section Watermarks

variable (cfg : Config) {ws : FlatMap AccountName Watermark} {p : AccountName} {w : Watermark}
  (producer : AccountName) (num : Nat) (t : BlockTimestamp)

theorem considerNewWatermark_mono (h : ws.get? p = some w) :
    ∃ w', (cfg.considerNewWatermark ws producer num t).get? p = some w'
      ∧ w'.Covers w.blockNum w.timestamp := by
  unfold Config.considerNewWatermark
  cases hold : ws.get? producer with
  | some old =>
    rw [get?_set]
    split
    · next heq =>
      rw [heq, hold] at h
      injection h with h
      subst h
      exact ⟨_, rfl, le_max_left _ _, le_max_left _ _⟩
    · exact ⟨w, h, le_rfl, le_rfl⟩
  | none =>
    show ∃ w', get? (if producer ∈ cfg.producers then _ else ws) p = some w' ∧ _
    have hne : p ≠ producer := by
      rintro rfl
      rw [hold] at h
      cases h
    split
    · rw [get?_set, if_neg hne]
      exact ⟨w, h, le_rfl, le_rfl⟩
    · exact ⟨w, h, le_rfl, le_rfl⟩

variable {cfg producer}

theorem considerNewWatermark_covers (hlocal : producer ∈ cfg.producers) :
    ∃ w', (cfg.considerNewWatermark ws producer num t).get? producer = some w'
      ∧ w'.Covers num t := by
  unfold Config.considerNewWatermark
  cases ws.get? producer with
  | some old =>
    refine ⟨⟨max old.blockNum num, ⟨max old.timestamp.slot t.slot⟩⟩, ?_, le_max_right _ _,
      le_max_right _ _⟩
    rw [get?_set, if_pos rfl]
  | none =>
    refine ⟨⟨num, t⟩, ?_, le_rfl, le_rfl⟩
    rw [if_pos hlocal, get?_set, if_pos rfl]

end Watermarks

namespace Signer

variable (cfg : Config) (s : Signer)

/-- The template is for the next block on the head, and confirms nothing that the watermark of
its producer covers, provided that the watermark is not above the head. -/
structure Built (p : PendingBlockHeaderState) : Prop where
  scheduled : ∃ pro, s.head.getScheduledProducer p.timestamp = .ok pro
    ∧ p.producer = pro.producerName
  range : ∀ w, s.watermarks.get? p.producer = some w → w.blockNum ≤ s.head.blockNum →
    w.blockNum < p.blockNum - p.confirmed

/-- The template is for a block of a local producer, above its watermark. -/
structure Allowed (p : PendingBlockHeaderState) : Prop where
  isLocal : p.producer ∈ cfg.producers
  above : ∀ w, s.watermarks.get? p.producer = some w →
    w.blockNum < p.blockNum - p.confirmed ∧ w.timestamp.slot < p.timestamp.slot

/-- The blocks produced so far are below the watermarks and after one another, and in producing
mode the pending block may be signed. -/
structure Inv : Prop where
  covered : ∀ b ∈ s.produced, b.header.producer ∈ cfg.producers →
    ∃ w, s.watermarks.get? b.header.producer = some w ∧ w.Covers b.blockNum b.header.timestamp
  after : s.produced.Pairwise fun newer older => newer.header.producer = older.header.producer →
    newer.header.producer ∈ cfg.producers → After newer older
  built : ∀ p, s.pbhs = some p → s.Built p
  allowed : s.mode = .producing → ∀ p, s.pbhs = some p → s.Allowed cfg p

variable {cfg s} {p : PendingBlockHeaderState} {mode : PendingBlockMode}

namespace Inv

section

variable (h : s.Inv cfg)
include h

theorem moved (head : BlockState) : Inv cfg { s with head, pbhs := none } :=
  ⟨h.covered, h.after, nofun, nofun⟩

theorem accepted (producer : AccountName) (num : Nat) (t : BlockTimestamp)
    (head : BlockState) :
    Inv cfg { s with
      head
      pbhs := none
      watermarks := cfg.considerNewWatermark s.watermarks producer num t } := by
  refine ⟨fun b hb hlocal => ?_, h.after, nofun, nofun⟩
  obtain ⟨w, hw, hcovers⟩ := h.covered b hb hlocal
  obtain ⟨w', hw', hrises⟩ := considerNewWatermark_mono cfg producer num t hw
  exact ⟨w', hw', hcovers.1.trans hrises.1, hcovers.2.trans hrises.2⟩

theorem started (hbuilt : s.Built p) (hallowed : mode = .producing → s.Allowed cfg p) :
    Inv cfg { s with pbhs := some p, mode } := by
  refine ⟨h.covered, h.after, fun q hq => ?_, fun hmode q hq => ?_⟩
  · obtain rfl := Option.some_inj.1 hq
    exact ⟨hbuilt.scheduled, hbuilt.range⟩
  · obtain rfl := Option.some_inj.1 hq
    exact ⟨(hallowed hmode).isLocal, (hallowed hmode).above⟩

theorem kept (hallowed : mode = .producing → ∀ p, s.pbhs = some p → s.Allowed cfg p) :
    Inv cfg { s with mode } :=
  ⟨h.covered, h.after, fun p hp => ⟨(h.built p hp).scheduled, (h.built p hp).range⟩,
    fun hmode p hp => ⟨(hallowed hmode p hp).isLocal, (hallowed hmode p hp).above⟩⟩

theorem signed (hallowed : s.Allowed cfg p) {b : BlockState}
    (hnum : b.blockNum = p.blockNum) (htime : b.header.timestamp = p.timestamp)
    (hproducer : b.header.producer = p.producer) (hconfirmed : b.header.confirmed = p.confirmed)
    (head : BlockState) :
    Inv cfg { s with
      head
      pbhs := none
      watermarks := cfg.considerNewWatermark s.watermarks b.header.producer b.blockNum
        b.header.timestamp
      produced := b :: s.produced } := by
  have haccepted := h.accepted b.header.producer b.blockNum b.header.timestamp head
  refine ⟨?_, pairwise_cons.2 ⟨?_, h.after⟩, nofun, nofun⟩
  · intro a ha hlocal
    rcases mem_cons.1 ha with rfl | ha
    · exact considerNewWatermark_covers _ _ hlocal
    · exact haccepted.covered a ha hlocal
  · -- an older block of the producer is covered by the watermark, which the new one is above
    intro a ha heq hlocal
    obtain ⟨w, hw, hcovers⟩ := h.covered a ha (heq ▸ hlocal)
    rw [← heq, hproducer] at hw
    obtain ⟨hrange, hlt⟩ := hallowed.above w hw
    rw [After, hnum, htime, hconfirmed]
    exact ⟨hcovers.2.trans_lt hlt, hcovers.1.trans_lt hrange⟩

theorem noConflicts :
    s.produced.Pairwise fun a b => a.header.producer = b.header.producer →
      a.header.producer ∈ cfg.producers → ¬ Conflict a b :=
  h.after.imp fun hafter heq hlocal => (hafter heq hlocal).not_conflict

end

end Inv

end Signer

theorem calculatePendingBlockTime_eq (now headTime : Nat) :
    calculatePendingBlockTime now headTime = (max now headTime / 500000 + 1) * 500000 := by
  show max now headTime + (500000 - max now headTime % 500000) = _
  omega

theorem slot_lt_blockTime (now : Nat) (head : BlockTimestamp) :
    head.slot < (toTimestamp (calculatePendingBlockTime now (toTimePoint head))).slot := by
  rw [calculatePendingBlockTime_eq]
  have hhead : toTimePoint head = (head.slot * 500 + 1577880000000) * 1000 := rfl
  show head.slot < ((max now (toTimePoint head) / 500000 + 1) * 500000 / 1000 - 1577880000000) / 500
  omega

namespace Node

variable {σ : Type} {cfg : Config} {n n' : Node σ} {x : LoopInput σ}

/-- If the production window is not open yet, a block that is pending is one for that window. -/
def KeepsSlot (n : Node σ) (x : LoopInput σ) : Prop :=
  ∀ p, n.pbhs = some p → x.now < n.blockTime x - blockIntervalUs →
    p.timestamp = toTimestamp (n.blockTime x)

/-! ## The decisions of `start_block` -/

def signer (n : Node σ) : Signer :=
  ⟨n.chain.head, n.pbhs, n.pendingBlockMode, n.producerWatermarks, n.produced⟩

@[simp] theorem signer_scheduleAtWakeUpTime : (n.scheduleAtWakeUpTime cfg).signer = n.signer := by
  unfold scheduleAtWakeUpTime
  split <;> rfl

@[simp] theorem signer_abortBlock : n.abortBlock.signer = { n.signer with pbhs := none } := by
  simp [abortBlock, signer]

theorem decideMode_eq_producing {age : Int} {scheduled : ProducerAuthority} {t : BlockTimestamp}
    (h : n.decideMode cfg age scheduled t = .producing) :
    scheduled.producerName ∈ cfg.producers
      ∧ ∀ w, n.getWatermark scheduled.producerName = some w →
        w.blockNum ≤ n.chain.head.blockNum ∧ w.timestamp.slot < t.slot := by
  unfold decideMode at h
  split at h
  · cases h
  split at h
  · cases h
  next hlocal =>
  split at h
  · cases h
  split at h
  · cases h
  split at h
  · cases h
  split at h
  · cases h
  next hexcludes =>
  refine ⟨not_not.1 hlocal, fun w hw => ?_⟩
  rw [hw] at hexcludes
  simpa [watermarkExcludes] using hexcludes

theorem lt_sub_blocksToConfirm {w : Watermark} {head : BlockState}
    (h : w.blockNum ≤ head.blockNum) :
    w.blockNum < head.blockNum + 1 - blocksToConfirm (some w) head := by
  have hle : blocksToConfirm (some w) head ≤ head.blockNum - w.blockNum := by
    apply (min_le_left _ _).trans
    show (if w.blockNum < head.blockNum then min (2 ^ 16 - 1) (head.blockNum - w.blockNum) else 0)
      ≤ head.blockNum - w.blockNum
    split
    · exact min_le_right _ _
    · exact Nat.zero_le _
  omega

section StartBlock

variable {scheduled : ProducerAuthority} {timestamp : BlockTimestamp}

def confirmCount (n : Node σ) (producer : AccountName) : Nat :=
  match n.pendingBlockMode with
  | .producing => blocksToConfirm (n.getWatermark producer) n.chain.head
  | .speculating => 0

theorem lt_sub_confirmCount {producer : AccountName} {w : Watermark}
    (hw : n.getWatermark producer = some w) (hle : w.blockNum ≤ n.chain.head.blockNum) :
    w.blockNum < n.chain.head.blockNum + 1 - n.confirmCount producer := by
  unfold confirmCount
  cases n.pendingBlockMode with
  | producing =>
    rw [hw]
    exact lt_sub_blocksToConfirm hle
  | speculating => exact Nat.lt_succ_of_le hle

variable {pbhs : PendingBlockHeaderState}

theorem built_of_next (ht : timestamp ≠ ⟨0⟩)
    (hscheduled : n.chain.head.getScheduledProducer timestamp = .ok scheduled)
    (hnext : n.chain.head.next cfg.fc timestamp (n.confirmCount scheduled.producerName) = .ok pbhs) :
    n.signer.Built pbhs ∧ pbhs.producer = scheduled.producerName ∧ pbhs.timestamp = timestamp := by
  obtain ⟨hnum, htime, hconfirmed, pro, hpro, hproducer⟩ := BlockHeaderState.next_fields hnext ht
  obtain rfl : scheduled = pro := Except.ok.inj (hscheduled.symm.trans hpro)
  refine ⟨⟨⟨scheduled, htime ▸ hpro, hproducer⟩, fun w hw hle => ?_⟩, hproducer, htime⟩
  rw [hnum, hconfirmed]
  rw [hproducer] at hw
  exact lt_sub_confirmCount hw hle

theorem allowed_of_built (hbuilt : n.signer.Built pbhs)
    (hproducer : pbhs.producer = scheduled.producerName) (htime : pbhs.timestamp = timestamp)
    (hdecided : scheduled.producerName ∈ cfg.producers
      ∧ ∀ w, n.getWatermark scheduled.producerName = some w →
        w.blockNum ≤ n.chain.head.blockNum ∧ w.timestamp.slot < timestamp.slot) :
    n.signer.Allowed cfg pbhs := by
  refine ⟨hproducer ▸ hdecided.1, fun w hw => ?_⟩
  obtain ⟨hle, hlt⟩ := hdecided.2 w (hproducer ▸ hw)
  exact ⟨hbuilt.range w hw hle, htime ▸ hlt⟩

theorem inv_startPending (h : n.abortBlock.signer.Inv cfg) (ht : timestamp ≠ ⟨0⟩)
    (hscheduled : n.chain.head.getScheduledProducer timestamp = .ok scheduled)
    (hdecided : n.pendingBlockMode = .producing → scheduled.producerName ∈ cfg.producers
      ∧ ∀ w, n.getWatermark scheduled.producerName = some w →
        w.blockNum ≤ n.chain.head.blockNum ∧ w.timestamp.slot < timestamp.slot) :
    (n.startPending cfg x scheduled timestamp).2.signer.Inv cfg := by
  unfold startPending
  dsimp only
  split
  · next chain _ => exact h.moved chain.head
  · next pbhs chain hstart =>
    obtain ⟨hnext, hhead⟩ := Controller.startNextBlock_eq_ok hstart
    have hcleared : n.abortBlock.chain.head = n.chain.head := n.chain.cleared_head
    rw [hcleared] at hnext hhead
    obtain ⟨hbuilt, hproducer, htime⟩ := built_of_next ht hscheduled hnext
    rw [signer_abortBlock] at h
    show Signer.Inv cfg ⟨chain.head, some pbhs, if _ then _ else _, _, _⟩
    rw [hhead]
    apply h.started ⟨hbuilt.scheduled, hbuilt.range⟩
    intro hmode
    have hallowed : n.signer.Allowed cfg pbhs := by
      refine allowed_of_built hbuilt hproducer htime (hdecided ?_)
      split at hmode
      · exact hmode
      · cases hmode
    exact ⟨hallowed.isLocal, hallowed.above⟩

/-- **`start_block` keeps the invariant**, if a block that it keeps is for the right slot. -/
theorem inv_startBlock (h : n.signer.Inv cfg) (hkeeps : n.KeepsSlot x) {result : StartBlockResult}
    (hstart : n.startBlock cfg x = .ok (result, n')) : n'.signer.Inv cfg := by
  unfold startBlock at hstart
  split at hstart
  · cases hstart
    exact h
  obtain ⟨scheduled, hscheduled, hstart⟩ := bind_eq_ok.1 hstart
  have ht : toTimestamp (n.blockTime x) ≠ ⟨0⟩ := by
    intro heq
    have hlt := slot_lt_blockTime x.pendingNow n.chain.head.header.timestamp
    rw [← blockTime, heq] at hlt
    exact absurd hlt (Nat.not_lt_zero _)
  cases hmode : n.decideMode cfg x.irreversibleBlockAge scheduled (toTimestamp (n.blockTime x)) with
  | producing =>
    have hdecided := decideMode_eq_producing hmode
    simp only [hmode] at hstart
    split at hstart
    · -- the pending block stays: it is for the slot that was decided on
      next hwindow =>
      cases hstart
      rw [signer_scheduleAtWakeUpTime]
      refine h.kept fun _ p hp => ?_
      obtain ⟨pro, hpro, hproducer⟩ := (h.built p hp).scheduled
      have htime := hkeeps p hp hwindow
      rw [htime] at hpro
      obtain rfl : scheduled = pro := Except.ok.inj (hscheduled.symm.trans hpro)
      exact allowed_of_built (h.built p hp) hproducer htime hdecided
    · injection hstart with hstart
      show (result, n').2.signer.Inv cfg
      rw [← hstart]
      refine inv_startPending (n := { n with pendingBlockMode := .producing }) ?_ ht hscheduled
        fun _ => hdecided
      rw [signer_abortBlock]
      exact (h.moved n.chain.head).kept nofun
  | speculating =>
    simp only [hmode] at hstart
    have hspeculating : Signer.Inv cfg { n.signer with mode := .speculating } := h.kept nofun
    split at hstart
    · cases hstart
      exact hspeculating
    split at hstart
    · cases hstart
      exact hspeculating
    · injection hstart with hstart
      show (result, n').2.signer.Inv cfg
      rw [← hstart]
      refine inv_startPending (n := { n with pendingBlockMode := .speculating }) ?_ ht hscheduled
        nofun
      rw [signer_abortBlock]
      exact hspeculating.moved n.chain.head

end StartBlock

@[simp] theorem signer_scheduleUnlessDisabled :
    (n.scheduleUnlessDisabled cfg x).signer = n.signer := by
  unfold scheduleUnlessDisabled
  split
  · exact signer_scheduleAtWakeUpTime
  · rfl

@[simp] theorem signer_scheduleNext (result : StartBlockResult) :
    (n.scheduleNext cfg x result).signer = n.signer := by
  have hproduce : (match n.pendingBlockMode with
      | .producing => { n with timer := some .produceBlock }
      | .speculating => n.scheduleUnlessDisabled cfg x).signer = n.signer := by
    split
    · rfl
    · exact signer_scheduleUnlessDisabled
  cases result with
  | succeeded | exhausted => exact hproduce
  | failed => rfl
  | waitingForBlock => exact signer_scheduleUnlessDisabled
  | waitingForProduction => rfl

theorem inv_scheduleProductionLoop (h : n.signer.Inv cfg) (hkeeps : n.KeepsSlot x)
    (hloop : n.scheduleProductionLoop cfg x = .ok n') : n'.signer.Inv cfg := by
  obtain ⟨⟨result, n₁⟩, hstart, hloop⟩ := bind_eq_ok.1 hloop
  injection hloop with hloop
  rw [← hloop, signer_scheduleNext]
  exact inv_startBlock h hkeeps hstart

theorem keepsSlot_of_none (h : n.pbhs = none) : n.KeepsSlot x := by
  intro p hp
  rw [h] at hp
  cases hp

/-! ## The other handlers -/

theorem inv_commitBlock {y : ProduceInput σ} {bsp : BlockState} {pbhs : PendingBlockHeaderState}
    {contents : BlockContents} {signer : Digest → List Signature}
    (h : Signer.Inv cfg { n.signer with pbhs := none }) (hallowed : n.signer.Allowed cfg pbhs)
    (hbsp : pbhs.assemble cfg.fc contents signer = .ok bsp) :
    (n.commitBlock cfg y bsp).signer.Inv cfg ∧ (n.commitBlock cfg y bsp).pbhs = none := by
  obtain ⟨hnum, htime, hproducer, hconfirmed, block, hblock, hheader⟩ :=
    PendingBlockHeaderState.assemble_eq_ok hbsp
  have hblockTime : block.timestamp = bsp.header.timestamp := congrArg (·.timestamp) hheader
  have hsigned := h.signed ⟨hallowed.isLocal, hallowed.above⟩ hnum htime hproducer hconfirmed
  unfold commitBlock onBlockHeader
  rw [hblock]
  dsimp only
  rw [hblockTime]
  cases y.availableSize with
  | some e => exact ⟨h.moved _, rfl⟩
  | none =>
    by_cases haccepts : n.chain.commitAccepts bsp
    · simp only [if_pos haccepts]
      cases Controller.commitBlock y.env true n.chain with
      | ok u chain => exact ⟨hsigned chain.head, rfl⟩
      | error e chain => exact ⟨hsigned chain.cleared.head, rfl⟩
    · simp only [if_neg haccepts]
      cases Controller.commitBlock y.env true n.chain with
      | ok u chain => exact ⟨h.moved chain.head, rfl⟩
      | error e chain => exact ⟨h.moved chain.cleared.head, rfl⟩

@[simp] theorem pbhs_onBlockHeader (bsp : BlockState) : (n.onBlockHeader cfg bsp).pbhs = n.pbhs := by
  unfold onBlockHeader
  split <;> rfl

section

variable (h : n.signer.Inv cfg)
include h

theorem inv_produceBlock (y : ProduceInput σ) :
    (n.produceBlock cfg y).signer.Inv cfg ∧ (n.produceBlock cfg y).pbhs = none := by
  have habort : n.abortBlock.signer.Inv cfg ∧ n.abortBlock.pbhs = none := by
    rw [signer_abortBlock]
    exact ⟨h.moved n.chain.head, rfl⟩
  unfold produceBlock
  cases hmode : n.pendingBlockMode with
  | speculating => exact habort
  | producing =>
    cases hpbhs : n.pbhs with
    | none => exact habort
    | some pbhs =>
      dsimp only
      split
      · exact habort
      rw [← hmode]
      cases hfinal : Controller.finalizeBlock cfg.fc y.finalizeEnv pbhs _ n.chain with
      | error e chain => exact ⟨h.moved chain.cleared.head, rfl⟩
      | ok bsp chain =>
        have hallowed := h.allowed hmode pbhs hpbhs
        exact inv_commitBlock (n := { n with chain }) (h.moved chain.head)
          ⟨hallowed.isLocal, hallowed.above⟩ (Controller.finalizeBlock_eq_ok hfinal).1

theorem inv_onBlockHeader (bsp : BlockState) (head : BlockState) :
    Signer.Inv cfg { (n.onBlockHeader cfg bsp).signer with head, pbhs := none } := by
  unfold onBlockHeader
  cases bsp.block with
  | none => exact h.moved head
  | some block => exact h.accepted _ _ _ head

theorem inv_pushBlock (hpbhs : n.pbhs = none) (z : IncomingBlock σ) :
    (n.pushBlock cfg z).signer.Inv cfg ∧ (n.pushBlock cfg z).pbhs = none := by
  unfold pushBlock
  cases z.state with
  | error e => exact ⟨h, hpbhs⟩
  | ok bsp =>
    have hheard : ∃ n' : Node σ, n' = (if Controller.pushAccepts z.env n.chain bsp
        then n.onBlockHeader cfg bsp else n) ∧ n'.pbhs = none
        ∧ ∀ head, Signer.Inv cfg { n'.signer with head, pbhs := none } := by
      refine ⟨_, rfl, ?_⟩
      split
      · exact ⟨(pbhs_onBlockHeader bsp).trans hpbhs, inv_onBlockHeader h bsp⟩
      · exact ⟨hpbhs, h.moved⟩
    obtain ⟨n', hn', hnone, hinv⟩ := hheard
    have hsigner : ∀ (chain : Controller σ) (enabled : Bool),
        { n' with chain, productionEnabled := enabled }.signer
          = { n'.signer with head := chain.head, pbhs := none } := by
      simp [signer, hnone]
    dsimp only
    rw [← hn']
    cases Controller.pushBlock z.env bsp n.chain with
    | error e chain => exact ⟨hsigner chain n'.productionEnabled ▸ hinv chain.head, hnone⟩
    | ok u chain => exact ⟨hsigner chain _ ▸ hinv chain.head, hnone⟩

theorem inv_restart
    (hloop : n.abortBlock.scheduleProductionLoop cfg x = .ok n') : n'.signer.Inv cfg := by
  refine inv_scheduleProductionLoop ?_ (keepsSlot_of_none rfl) hloop
  rw [signer_abortBlock]
  exact h.moved n.chain.head

theorem inv_reevaluate (hn' : n.reevaluate cfg x = .ok n') : n'.signer.Inv cfg := by
  unfold reevaluate at hn'
  split at hn'
  · exact inv_restart h hn'
  · cases hn'
    exact h

end

def Timely (n : Node σ) : Event σ → Prop
  | .timer _ x => n.timer = some .productionLoop → n.KeepsSlot x
  | _ => True

/-- **Every event keeps the invariant.** -/
theorem inv_handle {e : Event σ} (h : n.signer.Inv cfg) (htimely : n.Timely e)
    (hn' : n.handle cfg e = .ok n') : n'.signer.Inv cfg := by
  cases e with
  | timer y x =>
    change n.onTimer cfg y x = .ok n' at hn'
    unfold onTimer at hn'
    cases htimer : n.timer with
    | none =>
      simp only [htimer] at hn'
      cases hn'
      exact h
    | some t =>
      cases t with
      | productionLoop =>
        simp only [htimer] at hn'
        exact inv_scheduleProductionLoop (n := { n with timer := none }) h (htimely htimer) hn'
      | produceBlock =>
        simp only [htimer] at hn'
        have hproduced := inv_produceBlock (n := { n with timer := none }) h y
        exact inv_scheduleProductionLoop hproduced.1 (keepsSlot_of_none hproduced.2) hn'
  | incomingBlock z x =>
    change n.onIncomingBlock cfg z x = .ok n' at hn'
    unfold onIncomingBlock at hn'
    split at hn'
    · cases hn'
      exact h
    · have habort : n.abortBlock.signer.Inv cfg := by
        rw [signer_abortBlock]
        exact h.moved n.chain.head
      have hpushed := inv_pushBlock habort rfl z
      exact inv_scheduleProductionLoop hpushed.1 (keepsSlot_of_none hpushed.2) hn'
  | incomingTransaction exhausted =>
    injection hn' with hn'
    rw [← hn', onIncomingTransaction]
    split
    · exact h
    · exact h
  | pause =>
    injection hn' with hn'
    rw [← hn']
    exact h
  | resume x => exact inv_reevaluate (n := { n with pauseProduction := false }) h hn'
  | updateMaxIrreversibleBlockAge ageUs x =>
    exact inv_reevaluate (n := { n with maxIrreversibleBlockAgeUs := ageUs }) h hn'
  | inspectChain x =>
    change n.inspectChain cfg x = .ok n' at hn'
    unfold inspectChain at hn'
    split at hn'
    · exact inv_restart h hn'
    · cases hn'
      exact h

theorem inv_of_run (run : Run cfg Timely n) : n.signer.Inv cfg := by
  induction run with
  | @startup n n' x hfresh hloop =>
    refine inv_scheduleProductionLoop ?_ (keepsSlot_of_none hfresh.pbhs) hloop
    have hstart : n.signer
        = ⟨n.chain.head, none, n.pendingBlockMode, n.producerWatermarks, []⟩ := by
      rw [signer, hfresh.pbhs, hfresh.produced]
    rw [hstart]
    exact ⟨nofun, .nil, nofun, nofun⟩
  | event _ htimely hn' ih => exact inv_handle ih htimely hn'

def NoConflicts (cfg : Config) (n : Node σ) : Prop :=
  n.produced.Pairwise fun a b => a.header.producer = b.header.producer →
    a.header.producer ∈ cfg.producers → ¬ Conflict a b

/-- **A node never signs conflicting blocks** for one of its producers, in any run in which no
block of another slot is kept. -/
theorem noConflicts_of_run (run : Run cfg Timely n) : n.NoConflicts cfg :=
  (inv_of_run run).noConflicts

/-! ## Sample runs -/

instance (n : Node σ) (x : LoopInput σ) : Decidable (n.KeepsSlot x) :=
  inferInstanceAs (Decidable (∀ p ∈ n.pbhs, _ → _))

instance (n : Node σ) (e : Event σ) : Decidable (n.Timely e) :=
  match e with
  | .timer _ _ => inferInstanceAs (Decidable (_ → _))
  | .incomingBlock _ _ | .incomingTransaction _ | .pause | .resume _
  | .updateMaxIrreversibleBlockAge _ _ | .inspectChain _ => isTrue trivial

/-- The events one after another, as long as they pass the check and are handled. -/
def handleAll (cfg : Config) (check : Node σ → Event σ → Bool) :
    List (Event σ) → Node σ → Option (Node σ)
  | [], n => some n
  | e :: rest, n =>
    if check n e = true then (n.handle cfg e).toOption.bind (handleAll cfg check rest) else none

theorem toOption_eq_some {α : Type} {x : Result α} {a : α} (h : x.toOption = some a) :
    x = .ok a := by
  cases x with
  | error e => cases h
  | ok a' => exact congrArg Except.ok (Option.some.inj h)

theorem run_of_handleAll {P : Node σ → Event σ → Prop} {check : Node σ → Event σ → Bool}
    (hcheck : ∀ n e, check n e = true → P n e) {events : List (Event σ)} {n n' : Node σ}
    (run : Run cfg P n) (h : handleAll cfg check events n = some n') : Run cfg P n' := by
  induction events generalizing n with
  | nil => exact Option.some.inj h ▸ run
  | cons e rest ih =>
    rw [handleAll] at h
    split_ifs at h with hpass
    obtain ⟨n₁, hn₁, h⟩ := Option.bind_eq_some_iff.1 h
    exact ih (run.event (hcheck n e hpass) (toOption_eq_some hn₁)) h

def sampleConfig : Config where
  fc := Fc.sample
  producers := [1]
  signatureProviders := empty.set 1 fun _ => 1
  acceptTransactions := true

def sampleRoot : BlockState where
  toBlockHeaderState :=
    { BlockState.genesis.toBlockHeaderState with activeSchedule := .sample 1 [1, 2] }
  block := none
  validated := true
  numbered := BlockState.genesis.numbered

def receivedBlock (parent : BlockState) (slot : Nat) : BlockState :=
  let header : SignedBlockHeader :=
    { (default : SignedBlockHeader) with timestamp := ⟨slot⟩, producer := 2, previous := parent.id }
  { parent.child slot 0 with
    toBlockHeaderState :=
      { (parent.child slot 0).toBlockHeaderState with
        activeSchedule := parent.activeSchedule
        header := header }
    block := some ⟨header, []⟩ }

def sampleNode : Node (List BlockId) where
  chain := Controller.recorded (ForkDatabase.reset sampleRoot) []
  pbhs := none
  productionEnabled := true
  pauseProduction := false
  maxIrreversibleBlockAgeUs := -1
  producerWatermarks := empty
  pendingBlockMode := .speculating
  timer := none
  produced := []

/-- Nothing fails while a block is built. -/
def sampleBuildEnv : BuildEnv (List BlockId) :=
  ⟨none, none, fun _ => pure (), fun _ => pure (), ⟨0, 0, none, false, none, []⟩⟩

def readings (now pendingNow : Nat) : LoopInput (List BlockId) :=
  ⟨now, pendingNow, 0, 0, sampleBuildEnv, false, false⟩

/-- The clock shows `us` microseconds after the time of the slot. -/
def atTime (slot us : Nat) : LoopInput (List BlockId) :=
  readings (toTimePoint ⟨slot⟩ + us) (toTimePoint ⟨slot⟩ + us)

def sampleProduce : ProduceInput (List BlockId) :=
  ⟨sampleBuildEnv, none, Controller.recordingEnv 0⟩

def receive (bsp : BlockState) (x : LoopInput (List BlockId)) : Event (List BlockId) :=
  .incomingBlock ⟨false, .ok bsp, Controller.recordingEnv 0, x.now⟩ x

/-- Block 2 is produced for slot 24, well before its time, while the node is being paused. Then
two blocks of slots 22 and 23 come in and the node switches to them. It resumes before the time of
slot 24, and block 4 is pending for slot 24: only speculating, since block 2 was for that time. -/
def forkedAway : List (Event (List BlockId)) :=
  let block2 := receivedBlock sampleRoot 22
  let block3 := receivedBlock block2 23
  [.pause, .timer sampleProduce (atTime 23 200000), receive block2 (atTime 23 250000),
    receive block3 (atTime 23 300000), .resume (atTime 23 400000)]

theorem exists_run_of_handleAll {P : Node (List BlockId) → Event (List BlockId) → Prop}
    {Q : Node (List BlockId) → Bool} (check : Node (List BlockId) → Event (List BlockId) → Bool)
    (events : List (Event (List BlockId))) (hcheck : ∀ n e, check n e = true → P n e)
    (h : ((sampleNode.scheduleProductionLoop sampleConfig (atTime 23 100000)).toOption.bind
      (handleAll sampleConfig check events)).any Q = true) :
    ∃ n, Run sampleConfig P n ∧ Q n = true := by
  obtain ⟨n, hn, hQ⟩ := (Option.any_eq_true _ _).1 h
  obtain ⟨n₀, hstart, hall⟩ := Option.bind_eq_some_iff.1 hn
  have hfresh : Fresh sampleNode := ⟨rfl, rfl, rfl, rfl, rfl⟩
  exact ⟨n, run_of_handleAll hcheck (.startup hfresh (toOption_eq_some hstart)) hall, hQ⟩

/-- After the fork, block 4 is produced for slot 25 and confirms block 3 of the other producer. -/
theorem noConflicts_after_fork :
    ∃ n : Node (List BlockId), Run sampleConfig Timely n
      ∧ n.produced.map (fun b => (b.blockNum, b.header.timestamp.slot, b.header.confirmed))
        = [(4, 25, 1), (2, 24, 0)]
      ∧ n.NoConflicts sampleConfig := by
  obtain ⟨n, run, hQ⟩ := exists_run_of_handleAll (P := Timely)
    (Q := fun n => n.produced.map
      (fun b => (b.blockNum, b.header.timestamp.slot, b.header.confirmed)) = [(4, 25, 1), (2, 24, 0)])
    (fun n e => n.Timely e)
    (forkedAway ++ [.timer sampleProduce (atTime 24 100000), .timer sampleProduce (atTime 24 200000)])
    (fun n e h => of_decide_eq_true h) (by decide +kernel)
  exact ⟨n, run, of_decide_eq_true hQ, noConflicts_of_run run⟩

/-- After the fork, the time of slot 25 passes between the two readings of the clock: `start_block`
decides to produce for slot 26, finds that the window is not open, and keeps the pending block for
slot 24. A transaction exhausts that block, and it is signed. -/
theorem signs_twice :
    ∃ n : Node (List BlockId), Run sampleConfig (fun _ _ => True) n
      ∧ n.produced.map (fun b => (b.header.producer, b.header.timestamp.slot)) = [(1, 24), (1, 24)]
      ∧ ¬ n.NoConflicts sampleConfig := by
  obtain ⟨n, run, hQ⟩ := exists_run_of_handleAll (P := fun _ _ => True)
    (Q := fun n => n.produced.map (fun b => (b.header.producer, b.header.timestamp.slot))
      = [(1, 24), (1, 24)])
    (fun _ _ => true)
    (forkedAway ++ [.timer sampleProduce (readings (toTimePoint ⟨25⟩ - 1) (toTimePoint ⟨25⟩)),
      .incomingTransaction true, .timer sampleProduce (atTime 25 100000)])
    (fun _ _ _ => trivial) (by decide +kernel)
  have hproduced := of_decide_eq_true hQ
  refine ⟨n, run, hproduced, fun hno => ?_⟩
  obtain ⟨b, rest, hprod, hb, hrest⟩ := map_eq_cons_iff.1 hproduced
  obtain ⟨a, _, rfl, ha, -⟩ := map_eq_cons_iff.1 hrest
  obtain ⟨hbProducer, hbSlot⟩ := Prod.mk.inj hb
  obtain ⟨haProducer, haSlot⟩ := Prod.mk.inj ha
  unfold NoConflicts at hno
  rw [hprod] at hno
  apply (pairwise_cons.1 hno).1 a mem_cons_self (hbProducer.trans haProducer.symm)
  · rw [hbProducer]
    exact mem_cons_self
  · left
    show BlockTimestamp.mk _ = BlockTimestamp.mk _
    rw [hbSlot, haSlot]

end Node

end PotatoNode.ProducerPlugin
