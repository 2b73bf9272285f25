import PotatoNode.Chain.ApplyBlock

/-!
# Building a block (`controller.cpp`, `block_state.cpp`)

The calls with which a producer builds the block on top of the head: `start_block` makes the
template of the header, `finalize_block` assembles and signs the block, and `commit_block` (see
`Controller`) puts it into the fork database. What runs inside the block is a `BuildEnv`; every
call has its own one.
-/

namespace PotatoNode.Chain

open Lib

/-- What a building block holds when it is assembled. -/
structure BlockContents where
  transactionMroot : Digest
  actionMroot : Digest
  newPendingProducerSchedule : Option ProducerAuthoritySchedule
  enableStandbySchedule : Bool
  standbyScheduleBlockNum : Option Nat
  transactions : List Digest

/-- What building a block depends on during one call. -/
structure BuildEnv (σ : Type) where
  /-- what `validate_db_available_size` and its sibling throw -/
  availableSize : Option Failure
  /-- what the handlers of the signal `block_start` throw -/
  blockStart : Option Failure
  /-- `start_block` once there is a pending block: schedules, `onblock`, expired transactions -/
  onBlock : PendingBlockHeaderState → EStateM Failure σ Unit
  /-- `finalize_block` up to the header: resource limits, the block summary -/
  finalize : PendingBlockHeaderState → EStateM Failure σ Unit
  contents : BlockContents

namespace PendingBlockHeaderState

/-- The `block_state` that `finalize_block` constructs: the header is made from the template,
matched against it and signed. -/
def assemble (fc : Fc) (pbhs : PendingBlockHeaderState) (contents : BlockContents)
    (signer : Digest → List Signature) : Result BlockState := do
  let header := pbhs.makeBlockHeader contents.transactionMroot contents.actionMroot
    contents.newPendingProducerSchedule contents.enableStandbySchedule
    contents.standbyScheduleBlockNum
  let state ← pbhs.finishNextSigned fc header signer
  if h : state.Numbered then
    .ok { toBlockHeaderState := state
          block := some ⟨state.header, contents.transactions⟩
          validated := false
          numbered := h }
  else
    -- not for a template that `next` has made: `assemble_ne_undefined`
    .error .undefinedBehaviour

end PendingBlockHeaderState

namespace Controller

variable {σ : Type}

def startNextBlock (fc : Fc) (env : BuildEnv σ) (when' : BlockTimestamp)
    (confirmBlockCount : Nat) : ControllerM σ PendingBlockHeaderState := do
  fallible env.availableSize
  let c ← get
  require c.pending.isNone .blockValidateException "pending block already exists"
  emit env.blockStart
  require (c.db.revision = c.head.blockNum) .databaseException
    "db revision is not on par with head block"
  modify fun c => { c with db := c.db.startUndoSession, pending := some .building }
  tryCatch (do
      let pbhs ← compute fun c => c.head.next fc when' confirmBlockCount
      onState (env.onBlock pbhs)
      pure pbhs)
    fun e => do
      resetPending
      throw e

def finalizeBlock (fc : Fc) (env : BuildEnv σ) (pbhs : PendingBlockHeaderState)
    (signer : Digest → List Signature) : ControllerM σ BlockState := do
  fallible env.availableSize
  let c ← get
  require c.pending.isSome .blockValidateException
    "it is not valid to finalize when there is no pending block"
  onState (env.finalize pbhs)
  let bsp ← compute fun _ => pbhs.assemble fc env.contents signer
  modify fun c => { c with pending := some (.completed bsp) }
  pure bsp

/-- Is the signal `accepted_block_header` emitted by `commit_block( true )`? -/
def commitAccepts (c : Controller σ) (bsp : BlockState) : Prop :=
  ∃ d, (do (← c.forkDb.add bsp false).markValid bsp) = Except.ok d

instance (c : Controller σ) (bsp : BlockState) : Decidable (c.commitAccepts bsp) :=
  inferInstanceAs (Decidable (∃ _, _))

def pushAccepts (env : Env σ) (c : Controller σ) (bsp : BlockState) : Prop :=
  c.pending.isNone ∧ emitted (env.preAcceptedBlock bsp) = none
    ∧ ∃ d, c.forkDb.add bsp false = .ok d

instance (env : Env σ) (c : Controller σ) (bsp : BlockState) :
    Decidable (pushAccepts env c bsp) :=
  inferInstanceAs (Decidable (_ ∧ _ ∧ _))

end Controller

section Template

variable {fc : Fc} {s s' : BlockHeaderState} {pbhs : PendingBlockHeaderState}
  {contents : BlockContents} {signer : Digest → List Signature} {bsp : BlockState}

theorem BlockHeaderState.next_fields {t : BlockTimestamp} {confirmed : Nat}
    (h : s.next fc t confirmed = .ok pbhs) (ht : t ≠ ⟨0⟩) :
    pbhs.blockNum = s.blockNum + 1 ∧ pbhs.timestamp = t ∧ pbhs.confirmed = confirmed
      ∧ ∃ pro, s.getScheduledProducer t = .ok pro ∧ pbhs.producer = pro.producerName := by
  obtain ⟨t', pro, merkle, -, hgiven, hpro, -, -, rfl⟩ := next_eq_ok h
  have ht' := hgiven ht
  subst ht'
  exact ⟨rfl, rfl, rfl, pro, hpro, rfl⟩

theorem BlockHeaderState.sign_fields (h : s.sign fc signer = .ok s') :
    s'.toBlockHeaderStateCommon = s.toBlockHeaderStateCommon ∧ s'.id = s.id
      ∧ s'.header.toBlockHeader = s.header.toBlockHeader := by
  obtain ⟨sig, sigs, rfl, -⟩ := sign_eq_ok h
  exact ⟨rfl, rfl, rfl⟩

namespace PendingBlockHeaderState

theorem assemble_eq_ok (h : pbhs.assemble fc contents signer = .ok bsp) :
    bsp.blockNum = pbhs.blockNum ∧ bsp.header.timestamp = pbhs.timestamp
      ∧ bsp.header.producer = pbhs.producer ∧ bsp.header.confirmed = pbhs.confirmed
      ∧ ∃ block, bsp.block = some block ∧ block.toSignedBlockHeader = bsp.header := by
  obtain ⟨state, hstate, h⟩ := bind_eq_ok.1 h
  obtain ⟨unsigned, hcore, hsign⟩ := bind_eq_ok.1 hstate
  obtain ⟨hm, exts, -, -, rfl⟩ := finishNextCore_eq_ok.1 hcore
  obtain ⟨hcommon, -, hheader⟩ := BlockHeaderState.sign_fields hsign
  split at h
  · injection h with h
    subst h
    refine ⟨congrArg (·.blockNum) hcommon, ?_, ?_, ?_, _, rfl, rfl⟩
    · exact (congrArg (·.timestamp) hheader).trans hm.timestamp
    · exact (congrArg (·.producer) hheader).trans hm.producer
    · exact (congrArg (·.confirmed) hheader).trans hm.confirmed
  · cases h

end PendingBlockHeaderState

end Template

/-! ## What the calls return -/

namespace Controller

variable {σ : Type} {fc : Fc} {c c' : Controller σ} {S : Type} {s : S} {Q : Unit → S → Prop}

theorem ends_ok_fallible {outcome : Option Failure} (h : Q () s) :
    Ends (fallible outcome) s Q fun _ _ => True := by
  cases outcome with
  | none => exact h
  | some _ => trivial

theorem ends_ok_require {cond : Prop} [Decidable cond] {type : ExceptionType} {message : String}
    (h : Q () s) :
    Ends (require cond type message) s Q fun _ _ => True := by
  rw [ends_require]
  split
  · exact h
  · trivial

theorem ends_ok_rethrow {α : Type} {x : EStateM Failure S α} {cleanUp : EStateM Failure S Unit}
    {Q : α → S → Prop} (h : Ends x s Q fun _ _ => True) :
    Ends (tryCatch x fun e => do cleanUp; throw e) s Q fun _ _ => True := by
  rw [ends_tryCatch]
  refine h.mono (fun _ _ hQ => hQ) fun e t _ => ?_
  rw [ends_bind]
  exact ends_of_cases (fun _ _ _ => trivial) fun _ _ _ => trivial

theorem ends_ok_onState {x : EStateM Failure σ Unit} {Q : Unit → Controller σ → Prop}
    (h : ∀ y, Q () { c with db := c.db.write y }) : Ends (onState x) c Q fun _ _ => True := by
  unfold onState
  rw [ends_zoom]
  exact ends_of_cases (fun _ y _ => h y) fun _ _ _ => trivial

variable {env : BuildEnv σ} {pbhs : PendingBlockHeaderState}

theorem startNextBlock_eq_ok {t : BlockTimestamp} {confirmed : Nat}
    (h : startNextBlock fc env t confirmed c = .ok pbhs c') :
    c.head.next fc t confirmed = .ok pbhs ∧ c'.head = c.head := by
  have hends : Ends (startNextBlock fc env t confirmed) c
      (fun pbhs c' => c.head.next fc t confirmed = .ok pbhs ∧ c'.head = c.head)
      (fun _ _ => True) := by
    unfold startNextBlock emit
    rw [ends_bind]
    apply ends_ok_fallible
    rw [ends_bind, ends_get, ends_bind]
    apply ends_ok_require
    rw [ends_bind]
    apply ends_ok_fallible
    rw [ends_bind]
    apply ends_ok_require
    rw [ends_bind]
    apply ends_ok_rethrow
    rw [ends_bind, ends_compute]
    cases c.head.next fc t confirmed with
    | error e => trivial
    | ok pbhs =>
      show Ends _ _ _ _
      rw [ends_bind]
      apply ends_ok_onState
      intro y
      exact ⟨rfl, rfl⟩
  exact hends.of_ok h

theorem finalizeBlock_eq_ok
    {signer : Digest → List Signature} {bsp : BlockState}
    (h : finalizeBlock fc env pbhs signer c = .ok bsp c') :
    pbhs.assemble fc env.contents signer = .ok bsp ∧ c'.pending = some (.completed bsp) := by
  have hends : Ends (finalizeBlock fc env pbhs signer) c
      (fun bsp c' => pbhs.assemble fc env.contents signer = .ok bsp
        ∧ c'.pending = some (.completed bsp)) (fun _ _ => True) := by
    unfold finalizeBlock
    rw [ends_bind]
    apply ends_ok_fallible
    rw [ends_bind, ends_get, ends_bind]
    apply ends_ok_require
    rw [ends_bind]
    apply ends_ok_onState
    intro y
    cases hbsp : pbhs.assemble fc env.contents signer with
    | error e => trivial
    | ok bsp => exact ⟨rfl, rfl⟩
  exact hends.of_ok h

end Controller

end PotatoNode.Chain
