import PotatoNode.Chain.HeaderChain

/-!
# Schedules in the controller (`controller.cpp`, `wasm_interface.cpp`)

A new producer schedule takes three steps. A transaction *proposes* it: `set_proposed_producers`
stores it in the global properties. When the proposing block is irreversible, `start_block` makes
it *pending*: the block being built carries it in its header. When that block is irreversible,
`block_header_state::next` makes it *active*.

Standby mode is the short way round. `enable_standby_producers` proposes the standby list, sets a
flag and names the block four ahead, in which `start_block` makes the proposal pending whatever
the last irreversible block; the flag and the number travel in the headers, and from that block on
`next` promotes what is pending at once. `start_block` clears the flag when the active schedule has
the version that was given to the standby list.

This module follows the code: the privileged intrinsics with their checks, the three controller
calls, `start_block` and `finalize_block`, and the runs made of them (`ScheduleRun`). Of the
global properties it keeps the schedule fields; the chain configuration plays no part.
-/

namespace PotatoNode.Chain

open Lib

/-- The schedule fields of `global_property_object`. -/
structure GlobalProperties where
  proposedScheduleBlockNum : Option Nat
  proposedSchedule : ProducerAuthoritySchedule
  standbySchedule : ProducerAuthoritySchedule
  enableStandbySchedule : Bool
  standbyScheduleBlockNum : Option Nat
deriving DecidableEq

/-- The object `initialize_database` creates. -/
def GlobalProperties.initial : GlobalProperties := ⟨none, ⟨0, []⟩, ⟨0, []⟩, false, none⟩

/-- A block under construction: the controller's head, `building_block`, and the global
properties in the block's database session. -/
structure BuildingBlock where
  head : BlockHeaderState
  pbhs : PendingBlockHeaderState
  newPendingProducerSchedule : Option ProducerAuthoritySchedule
  gpo : GlobalProperties
  /-- history, not in the source: the list with which `enable_standby_producers` succeeded -/
  enabledProducers : Option (List ProducerAuthority)
deriving DecidableEq

/-! ## The controller calls -/

namespace BuildingBlock

variable (b : BuildingBlock)

/-- `controller::active_producers` while a block is being built. -/
def activeProducers : ProducerAuthoritySchedule := b.pbhs.activeSchedule

/-- `controller::pending_producers` while a block is being built. -/
def pendingProducers : ProducerAuthoritySchedule :=
  b.newPendingProducerSchedule.getD b.pbhs.prevPendingSchedule.schedule

/-- The schedule a new proposal must differ from and whose version it succeeds. -/
def baseSchedule : ProducerAuthoritySchedule :=
  if b.pendingProducers.producers.length = 0 then b.activeProducers else b.pendingProducers

def setProposedProducers (producers : List ProducerAuthority) : Int × BuildingBlock :=
  let curBlockNum := b.head.blockNum + 1
  if producers.length = 0 then (-1, b)
  else if b.gpo.proposedScheduleBlockNum.any (· ≠ curBlockNum) then (-2, b)
  else if b.gpo.proposedScheduleBlockNum.isSome
      && producers = b.gpo.proposedSchedule.producers then (-3, b)
  else if producers = b.baseSchedule.producers then (-1, b)
  else
    (b.baseSchedule.version + 1,
      { b with gpo := { b.gpo with
          proposedScheduleBlockNum := some curBlockNum
          proposedSchedule := ⟨b.baseSchedule.version + 1, producers⟩ } })

/-- `controller::set_standby_producers`; the stored schedule has the default version. -/
def setStandbyProducers (producers : List ProducerAuthority) : Int × BuildingBlock :=
  (producers.length, { b with gpo := { b.gpo with standbySchedule := ⟨0, producers⟩ } })

def requestingStandby : BuildingBlock :=
  { b with gpo := { b.gpo with
      enableStandbySchedule := true
      standbyScheduleBlockNum := some (b.head.blockNum + 5)
      proposedScheduleBlockNum := none } }

def enableStandbyProducers : Int × BuildingBlock :=
  if b.gpo.enableStandbySchedule then (0, b)
  else
    let producers := b.gpo.standbySchedule.producers
    let (version, result) := b.requestingStandby.setProposedProducers producers
    if 0 < version then
      (version, { result with
        gpo := { result.gpo with
          enableStandbySchedule := true
          standbySchedule := ⟨version.toNat, result.gpo.standbySchedule.producers⟩ }
        enabledProducers := some producers })
    else
      (version, { result with gpo := { result.gpo with
        enableStandbySchedule := false
        standbyScheduleBlockNum := none
        proposedScheduleBlockNum := b.gpo.proposedScheduleBlockNum } })

end BuildingBlock

/-! ## The privileged intrinsics -/

/-- What the checks of the intrinsics ask of the chain state and of the keys. -/
structure PrivilegedContext where
  isAccount : AccountName → Bool
  keyTypeActivated : PublicKey → Bool
  keyValid : PublicKey → Bool

/-- The loop over the keys of an authority; the weights are added in saturating `uint32_t`. -/
def checkKeys (ctx : PrivilegedContext) (validateKeys : Bool) :
    List KeyWeight → (sumWeights : Nat) → Result Nat
  | [], sumWeights => .ok sumWeights
  | kw :: keys, sumWeights => do
    eosAssert (ctx.keyTypeActivated kw.key = true) .unactivatedKeyType
      "Unactivated key type used in proposed producer schedule"
    eosAssert (validateKeys = false ∨ ctx.keyValid kw.key = true) .wasmExecutionError
      "producer schedule includes an invalid key"
    checkKeys ctx validateKeys keys
      (if 2 ^ 32 - 1 - sumWeights ≤ kw.weight then 2 ^ 32 - 1 else sumWeights + kw.weight)

def checkProducer (ctx : PrivilegedContext) (validateKeys : Bool) (p : ProducerAuthority) :
    Result Unit := do
  eosAssert (ctx.isAccount p.producerName = true) .wasmExecutionError
    "producer schedule includes a nonexisting account"
  let sumWeights ← checkKeys ctx validateKeys p.authority.keys 0
  eosAssert (p.authority.keys.map KeyWeight.key).Nodup .wasmExecutionError
    "producer schedule includes a duplicated key for ${account}"
  eosAssert (0 < p.authority.threshold) .wasmExecutionError
    "producer schedule includes an authority with a threshold of 0 for ${account}"
  eosAssert (p.authority.threshold ≤ sumWeights) .wasmExecutionError
    "producer schedule includes an unsatisfiable authority for ${account}"

def checkEach (ctx : PrivilegedContext) (validateKeys : Bool) : List ProducerAuthority →
    Result Unit
  | [] => .ok ()
  | p :: rest => do
    checkProducer ctx validateKeys p
    checkEach ctx validateKeys rest

/-- The checks that `set_proposed_producers_common` and `set_standby_producers` make on a list. -/
def checkProducers (ctx : PrivilegedContext) (validateKeys : Bool)
    (producers : List ProducerAuthority) : Result Unit := do
  eosAssert (producers.length ≤ maxProducers) .wasmExecutionError
    "Producer schedule exceeds the maximum producer count for this chain"
  eosAssert (0 < producers.length) .wasmExecutionError "Producer schedule cannot be empty"
  checkEach ctx validateKeys producers
  eosAssert (producers.map ProducerAuthority.producerName).Nodup .wasmExecutionError
    "duplicate producer name in producer schedule"

/-- A call of one of the schedule intrinsics of `privileged_api`. -/
inductive ScheduleCall where
  | setProposedProducers
  | setProposedProducersEx (ctx : PrivilegedContext) (packedProducerFormat : Nat)
      (producers : List ProducerAuthority)
  | setStandbyProducers (ctx : PrivilegedContext) (producers : List ProducerAuthority)
  | enableStandbyProducers

namespace BuildingBlock

/-- The intrinsics: the value they return and the block they leave. -/
def call (b : BuildingBlock) : ScheduleCall → Result (Int × BuildingBlock)
  | .setProposedProducers =>
    eosThrow .wasmExecutionError "Producer schedule is use new format!"
  | .setProposedProducersEx ctx packedProducerFormat producers =>
    if packedProducerFormat = 1 then do
      checkProducers ctx false producers
      .ok (b.setProposedProducers producers)
    else
      eosThrow .wasmExecutionError "Producer schedule is in an unknown format!"
  | .setStandbyProducers ctx producers => do
    checkProducers ctx false producers
    .ok (b.setStandbyProducers producers)
  | .enableStandbyProducers => .ok b.enableStandbyProducers

def runCalls (b : BuildingBlock) : List ScheduleCall → Result BuildingBlock
  | [] => .ok b
  | c :: calls => do
    let r ← b.call c
    r.2.runCalls calls

/-- A transaction: when one of its calls throws, its database session is undone. -/
def pushTransaction (b : BuildingBlock) (calls : List ScheduleCall) : BuildingBlock :=
  match b.runCalls calls with
  | .ok b' => b'
  | .error _ => b

/-- The transactions of a block, `onblock` first. -/
def pushTransactions (b : BuildingBlock) (transactions : List (List ScheduleCall)) :
    BuildingBlock :=
  transactions.foldl pushTransaction b

end BuildingBlock

/-! ## `start_block` and `finalize_block` -/

inductive BlockStatus where
  | irreversible
  | validated
  | complete
  | incomplete
deriving DecidableEq, Repr

inductive DbReadMode where
  | speculative
  | head
  | readOnly
  | irreversible
deriving DecidableEq, Repr

section

variable (pbhs : PendingBlockHeaderState) (gpo : GlobalProperties)

/-- Does `start_block` make the proposed schedule pending? -/
def promotesProposed : Bool :=
  gpo.proposedScheduleBlockNum.any fun proposedNum =>
    (proposedNum ≤ pbhs.dposIrreversibleBlocknum
        && pbhs.prevPendingSchedule.schedule.producers.length = 0)
      || (gpo.enableStandbySchedule && some pbhs.blockNum = gpo.standbyScheduleBlockNum)

/-- The first schedule step of `start_block`: from proposed to pending. -/
def promoteProposed : Result (Option ProducerAuthoritySchedule × GlobalProperties) :=
  if promotesProposed pbhs gpo then do
    eosAssert (gpo.enableStandbySchedule = true
        ∨ gpo.proposedSchedule.version = pbhs.activeScheduleVersion + 1)
      .producerScheduleException "wrong producer schedule version specified"
    .ok (some gpo.proposedSchedule,
      { gpo with proposedScheduleBlockNum := none, proposedSchedule := ⟨0, []⟩ })
  else
    .ok (none, gpo)

def leaveStandby : GlobalProperties :=
  if gpo.enableStandbySchedule = true
      ∧ pbhs.activeSchedule.version = gpo.standbySchedule.version then
    { gpo with enableStandbySchedule := false, standbyScheduleBlockNum := none }
  else gpo

end

/-- `start_block`, up to the `onblock` transaction. -/
def startBlock (fc : Fc) (readMode : DbReadMode) (status : BlockStatus) (head : BlockHeaderState)
    (gpo : GlobalProperties) (when' : BlockTimestamp) (confirmBlockCount : Nat) :
    Result BuildingBlock := do
  let pbhs ← head.next fc when' confirmBlockCount
  if readMode = .speculative ∨ status ≠ .incomplete then do
    let (newPending, gpo) ← promoteProposed pbhs gpo
    .ok ⟨head, pbhs, newPending, leaveStandby pbhs gpo, none⟩
  else
    .ok ⟨head, pbhs, none, gpo, none⟩

def BuildingBlock.finalizeBlock (b : BuildingBlock) (transactionMroot actionMroot : Digest) :
    SignedBlockHeader :=
  b.pbhs.makeBlockHeader transactionMroot actionMroot b.newPendingProducerSchedule
    b.gpo.enableStandbySchedule b.gpo.standbyScheduleBlockNum

/-! ## Runs -/

/-- A block of a run: as `start_block` left it, its transactions, as they left it, and the header
state that was accepted for it. -/
structure AppliedBlock where
  started : BuildingBlock
  transactions : List (List ScheduleCall)
  finished : BuildingBlock
  state : BlockHeaderState

def headOf (fc : Fc) (g : GenesisState) : List AppliedBlock → BlockHeaderState
  | [] => g.headerState fc
  | a :: _ => a.state

def gpoOf : List AppliedBlock → GlobalProperties
  | [] => .initial
  | a :: _ => a.finished.gpo

/-- The runs: blocks built by `start_block`, transactions and `finalize_block`, signed, and
accepted by `block_header_state::next`. A block that goes on the chain is not a speculative one,
so `start_block` does its schedule steps. -/
inductive ScheduleRun (fc : Fc) (g : GenesisState) : List AppliedBlock → Prop where
  | genesis : ScheduleRun fc g []
  | block {blocks : List AppliedBlock} {readMode : DbReadMode} {status : BlockStatus}
      {when' : BlockTimestamp} {confirmed : Nat} {started : BuildingBlock}
      {transactions : List (List ScheduleCall)} {transactionMroot actionMroot : Digest}
      {sig : Signature} {sigs : List Signature} {skip : Bool} {state : BlockHeaderState}
      (run : ScheduleRun fc g blocks)
      (hmode : readMode = .speculative ∨ status ≠ .incomplete)
      (hstart : startBlock fc readMode status (headOf fc g blocks) (gpoOf blocks) when' confirmed
        = .ok started)
      (hstate : (headOf fc g blocks).nextHeader fc
        { (started.pushTransactions transactions).finalizeBlock transactionMroot actionMroot with
          producerSignature := sig } sigs skip = .ok state) :
      ScheduleRun fc g
        (⟨started, transactions, started.pushTransactions transactions, state⟩ :: blocks)

/-- What goes into a block: its slot, how many blocks it confirms and its transactions. -/
structure BlockInput where
  slot : Nat
  confirmed : Nat
  transactions : List (List ScheduleCall)

/-- The executable form of `ScheduleRun`. -/
def runBlocks (fc : Fc) (g : GenesisState) (signer : AccountName → Signature) :
    List AppliedBlock → List BlockInput → Result (List AppliedBlock)
  | blocks, [] => .ok blocks
  | blocks, input :: inputs => do
    let started ← startBlock fc .speculative .complete (headOf fc g blocks) (gpoOf blocks)
      ⟨input.slot⟩ input.confirmed
    let finished := started.pushTransactions input.transactions
    let state ← (headOf fc g blocks).nextHeader fc
      { finished.finalizeBlock 0 0 with producerSignature := signer started.pbhs.producer } []
      false
    runBlocks fc g signer (⟨started, input.transactions, finished, state⟩ :: blocks) inputs

theorem scheduleRun_of_runBlocks {fc : Fc} {g : GenesisState} {signer : AccountName → Signature}
    (inputs : List BlockInput) : ∀ {blocks blocks' : List AppliedBlock},
      ScheduleRun fc g blocks → runBlocks fc g signer blocks inputs = .ok blocks' →
        ScheduleRun fc g blocks' := by
  induction inputs with
  | nil =>
    intro blocks blocks' hrun h
    injection h with h
    exact h ▸ hrun
  | cons input inputs ih =>
    intro blocks blocks' hrun h
    obtain ⟨started, hstart, state, hstate, h⟩ := bind₂_eq_ok.1 h
    exact ih (hrun.block (.inl rfl) hstart hstate) h

/-- A property that can be computed holds of some run if it holds of one that can be made. -/
theorem exists_scheduleRun_of_runBlocks (fc : Fc) (g : GenesisState)
    (signer : AccountName → Signature) (inputs : List BlockInput) {P : List AppliedBlock → Bool}
    (h : (runBlocks fc g signer [] inputs).toOption.any P = true) :
    ∃ blocks, ScheduleRun fc g blocks ∧ P blocks = true := by
  cases hrun : runBlocks fc g signer [] inputs with
  | error e => rw [hrun] at h; cases h
  | ok blocks =>
    rw [hrun] at h
    exact ⟨blocks, scheduleRun_of_runBlocks inputs .genesis hrun, h⟩

/-- A chain state in which every account exists and every key may be used. -/
def PrivilegedContext.sample : PrivilegedContext := ⟨fun _ => true, fun _ => true, fun _ => true⟩

def ScheduleCall.propose (names : List AccountName) : ScheduleCall :=
  .setProposedProducersEx .sample 1 (ProducerAuthoritySchedule.sample 0 names).producers

def ScheduleCall.standby (names : List AccountName) : ScheduleCall :=
  .setStandbyProducers .sample (ProducerAuthoritySchedule.sample 0 names).producers

end PotatoNode.Chain
