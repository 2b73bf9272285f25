import PotatoNode.Lib.Table
import PotatoNode.Lib.OrderStatistic
import PotatoNode.Chain.BlockHeader
import PotatoNode.Chain.IncrementalMerkle

/-!
# The header state machine (`block_header_state.hpp`, `block_header_state.cpp`)

`BlockHeaderState.next` computes the template of the next block from its time and its
confirmation count; `PendingBlockHeaderState.finishNext` matches a header against the template
and gives the next state. The long body of `next` is cut at its own comments:
`growConfirmCount` and `confirmLoop` (the confirmation window), `calcDposLastIrreversible`,
`promotesPending` (may the pending schedule become active?) and the two rebuilt producer maps.
-/

namespace PotatoNode.Chain

open Lib

/-- `--x` on a `uint8_t`. -/
def u8Pred (x : Nat) : Nat := (x + 255) % 2 ^ 8

def maximumTrackedDposConfirmations : Nat := 1024

structure BlockHeaderStateCommon where
  blockNum : Nat
  dposProposedIrreversibleBlocknum : Nat
  dposIrreversibleBlocknum : Nat
  activeSchedule : ProducerAuthoritySchedule
  blockrootMerkle : IncrementalMerkle Digest
  producerToLastProduced : FlatMap AccountName Nat
  producerToLastImpliedIrb : FlatMap AccountName Nat
  validBlockSigningAuthority : BlockSigningAuthority
  /-- `vector<uint8_t>`: confirmations each tracked block still needs, oldest first -/
  confirmCount : List Nat
  enableStandbySchedule : Bool
  standbyScheduleBlockNum : Option Nat
deriving DecidableEq

instance : Inhabited BlockHeaderStateCommon :=
  ⟨⟨0, 0, 0, ⟨0, []⟩, default, FlatMap.empty, FlatMap.empty, default, [], false, none⟩⟩

structure ScheduleInfo where
  /-- the number of the block whose header introduced the schedule -/
  scheduleLibNum : Nat
  scheduleHash : Digest
  schedule : ProducerAuthoritySchedule
deriving DecidableEq, Repr

instance : Inhabited ScheduleInfo := ⟨⟨0, 0, ⟨0, []⟩⟩⟩

structure PendingBlockHeaderState extends BlockHeaderStateCommon where
  prevPendingSchedule : ScheduleInfo
  wasPendingPromoted : Bool
  previous : BlockId
  producer : AccountName
  timestamp : BlockTimestamp
  activeScheduleVersion : Nat
  confirmed : Nat
deriving DecidableEq

structure BlockHeaderState extends BlockHeaderStateCommon where
  id : BlockId
  header : SignedBlockHeader
  pendingSchedule : ScheduleInfo
  additionalSignatures : List Signature
  headerExts : List (Nat × ProducerAuthoritySchedule)
deriving DecidableEq

instance : Inhabited BlockHeaderState := ⟨⟨default, 0, default, default, [], []⟩⟩

namespace BlockHeaderState

variable (s : BlockHeaderState)

def getScheduledProducer (t : BlockTimestamp) : Result ProducerAuthority :=
  let index := t.slot % (s.activeSchedule.producers.length * producerRepetitions)
  match s.activeSchedule.producers[index / producerRepetitions]? with
  | some pro => .ok pro
  | none => .error .undefinedBehaviour

/-- The values `calc_dpos_last_irreversible` collects: what each producer implies, the producer
of the next block implying the current proposal. -/
def impliedBlocknums (producerOfNextBlock : AccountName) : List Nat :=
  s.producerToLastImpliedIrb.entries.map fun i =>
    if i.1 = producerOfNextBlock then s.dposProposedIrreversibleBlocknum else i.2

def calcDposLastIrreversible (producerOfNextBlock : AccountName) : Nat :=
  let blocknums := s.impliedBlocknums producerOfNextBlock
  if blocknums.length = 0 then 0
  else (nthElement blocknums ((blocknums.length - 1) / 3)).getD 0

/-- Confirmations a block signed by the active schedule needs. -/
def requiredConfs : Nat := s.activeSchedule.producers.length * 2 / 3 + 1

/-- The confirmation window with one more entry; at the cap the oldest entry makes room. The
entry is a `uint8_t`. -/
def growConfirmCount : List Nat :=
  if s.confirmCount.length < maximumTrackedDposConfirmations then
    s.confirmCount ++ [s.requiredConfs % 2 ^ 8]
  else
    s.confirmCount.drop 1 ++ [s.requiredConfs % 2 ^ 8]

/-- The emergency clause of `next`: the standby block has been reached. -/
def standbyDue : Bool :=
  s.enableStandbySchedule && s.standbyScheduleBlockNum.any (· ≤ s.blockNum)

/-- May the pending schedule become active in the next block, whose last irreversible block
is `lib`? -/
def promotesPending (lib : Nat) : Bool :=
  s.pendingSchedule.schedule.producers.length ≠ 0 &&
    (s.pendingSchedule.scheduleLibNum ≤ lib || s.standbyDue)

/-- The map a promotion builds for the producers of the new schedule: `self` for the producer
of the block, the old entry of a producer that has one, `fallback` for the others. -/
def rebuildProducerMap (producers : List ProducerAuthority) (producer : AccountName)
    (old : FlatMap AccountName Nat) (self fallback : Nat) : FlatMap AccountName Nat :=
  producers.foldl
    (fun m pro => m.set pro.producerName
      (if pro.producerName = producer then self
        else (old.get? pro.producerName).getD fallback))
    FlatMap.empty

end BlockHeaderState

/-- The confirmation loop of `next`. `remaining` is `i + 1`; each step decrements the `uint8_t`
entry `i` and stops when an entry reaches zero: that block is the new proposal, and the entries
up to it leave the window. -/
def confirmLoop (blockNum : Nat) :
    (remaining blocksToConfirm : Nat) → (confirmCount : List Nat) → (proposed : Nat) →
      List Nat × Nat
  | 0, _, confirmCount, proposed => (confirmCount, proposed)
  | _ + 1, 0, confirmCount, proposed => (confirmCount, proposed)
  | i + 1, blocksToConfirm + 1, confirmCount, proposed =>
    let left := u8Pred (confirmCount.getD i 0)
    let confirmCount := confirmCount.set i left
    if left = 0 then
      let blockNumForI := u32Sub blockNum (confirmCount.length - 1 - i)
      if i = confirmCount.length - 1 then ([], blockNumForI)
      else (confirmCount.drop (i + 1), blockNumForI)
    else
      confirmLoop blockNum i blocksToConfirm confirmCount proposed

namespace BlockHeaderState

variable (s : BlockHeaderState)

def confirmBlocks (numPrevBlocksToConfirm : Nat) : List Nat × Nat :=
  confirmLoop (s.blockNum + 1) s.growConfirmCount.length (numPrevBlocksToConfirm + 1)
    s.growConfirmCount s.dposProposedIrreversibleBlocknum

def nextTemplate (when' : BlockTimestamp) (proauth : ProducerAuthority)
    (numPrevBlocksToConfirm : Nat) (blockrootMerkle : IncrementalMerkle Digest) :
    PendingBlockHeaderState :=
  let blockNum := s.blockNum + 1
  let window := s.confirmBlocks numPrevBlocksToConfirm
  let lib := s.calcDposLastIrreversible proauth.producerName
  let promoted := s.promotesPending lib
  { blockNum := blockNum
    previous := s.id
    timestamp := when'
    confirmed := numPrevBlocksToConfirm
    activeScheduleVersion := s.activeSchedule.version
    validBlockSigningAuthority := proauth.authority
    producer := proauth.producerName
    blockrootMerkle := blockrootMerkle
    confirmCount := window.1
    dposProposedIrreversibleBlocknum := window.2
    dposIrreversibleBlocknum := lib
    prevPendingSchedule := s.pendingSchedule
    enableStandbySchedule := s.enableStandbySchedule
    standbyScheduleBlockNum := s.standbyScheduleBlockNum
    activeSchedule := if promoted then s.pendingSchedule.schedule else s.activeSchedule
    producerToLastProduced :=
      if promoted then
        (rebuildProducerMap s.pendingSchedule.schedule.producers proauth.producerName
          s.producerToLastProduced blockNum lib).set proauth.producerName blockNum
      else
        s.producerToLastProduced.set proauth.producerName blockNum
    producerToLastImpliedIrb :=
      if promoted then
        rebuildProducerMap s.pendingSchedule.schedule.producers proauth.producerName
          s.producerToLastImpliedIrb s.dposProposedIrreversibleBlocknum lib
      else
        s.producerToLastImpliedIrb.set proauth.producerName s.dposProposedIrreversibleBlocknum
    wasPendingPromoted := promoted && !s.enableStandbySchedule }

def nextTime (when' : BlockTimestamp) : Result BlockTimestamp :=
  if when' ≠ ⟨0⟩ then do
    eosAssert (s.header.timestamp.slot < when'.slot) .blockValidateException
      "next block must be in the future"
    .ok when'
  else
    .ok ⟨s.header.timestamp.slot + 1⟩

/-- The guard of `next`: a producer with a recorded block must not confirm it, or anything
before it, again. -/
def assertNotDoubleConfirming (producer : AccountName) (numPrevBlocksToConfirm : Nat) :
    Result Unit :=
  match s.producerToLastProduced.get? producer with
  | some lastProduced =>
    eosAssert (lastProduced < u32Sub (s.blockNum + 1) numPrevBlocksToConfirm)
      .producerDoubleConfirm "producer ${prod} double-confirming known range"
  | none => .ok ()

def next (fc : Fc) (when' : BlockTimestamp) (numPrevBlocksToConfirm : Nat) :
    Result PendingBlockHeaderState := do
  let when' ← s.nextTime when'
  let proauth ← s.getScheduledProducer when'
  s.assertNotDoubleConfirming proauth.producerName numPrevBlocksToConfirm
  let blockrootMerkle ← s.blockrootMerkle.append fc.hashCanonicalPair s.id
  .ok (s.nextTemplate when' proauth numPrevBlocksToConfirm blockrootMerkle)

def sigDigest (fc : Fc) : Digest :=
  let headerBmroot := fc.hashPair (fc.digest s.header.toBlockHeader) (s.blockrootMerkle.getRoot 0)
  fc.hashPair headerBmroot s.pendingSchedule.scheduleHash

def recoverKey (fc : Fc) (sig : Signature) (digest : Digest) : Result PublicKey :=
  match fc.recover sig digest with
  | some key => .ok key
  | none => eosThrow .signatureException "unable to reconstruct public key from signature"

/-- The loop of `verify_signee` that adds the keys of the additional signatures. -/
def collectKeys (fc : Fc) (digest : Digest) : List Signature → List PublicKey →
    Result (List PublicKey)
  | [], keys => .ok keys
  | sig :: sigs, keys => do
    let key ← recoverKey fc sig digest
    eosAssert (key ∉ keys) .wrongSigningKey "block signed by same key twice"
    collectKeys fc digest sigs (keys ++ [key])

def verifySignee (fc : Fc) : Result Unit := do
  let numKeysInAuthority := s.validBlockSigningAuthority.keys.length
  eosAssert (1 + s.additionalSignatures.length ≤ numKeysInAuthority) .wrongSigningKey
    "number of block signatures (${num_block_signatures}) exceeds number of keys in block signing authority (${num_keys})"
  let digest := s.sigDigest fc
  let first ← recoverKey fc s.header.producerSignature digest
  let keys ← collectKeys fc digest s.additionalSignatures [first]
  let (isSatisfied, relevantSigCount) :=
    s.validBlockSigningAuthority.keysSatisfyAndRelevant keys
  eosAssert (relevantSigCount = keys.length) .wrongSigningKey "block signed by unexpected key"
  eosAssert (isSatisfied = true) .wrongSigningKey
    "block signatures do not satisfy the block signing authority"

def sign (fc : Fc) (signer : Digest → List Signature) : Result BlockHeaderState := do
  let sigs := signer (s.sigDigest fc)
  match sigs.getLast? with
  | none => eosThrow .noBlockSignatures "Signer returned no signatures"
  | some sig =>
    let signed := { s with
      header := { s.header with producerSignature := sig }
      additionalSignatures := sigs.dropLast }
    signed.verifySignee fc
    .ok signed

end BlockHeaderState

namespace PendingBlockHeaderState

variable (p : PendingBlockHeaderState)

def makeBlockHeader (transactionMroot actionMroot : Digest)
    (newProducers : Option ProducerAuthoritySchedule) (enableStandbySchedule : Bool)
    (standbyScheduleBlockNum : Option Nat) : SignedBlockHeader :=
  { timestamp := p.timestamp
    producer := p.producer
    confirmed := p.confirmed
    previous := p.previous
    transactionMroot := transactionMroot
    actionMroot := actionMroot
    scheduleVersion := p.activeScheduleVersion
    enableStandbySchedule := enableStandbySchedule
    standbyScheduleBlockNum := standbyScheduleBlockNum
    headerExtensions :=
      match newProducers with
      | some schedule =>
        emplaceExtension [] producerScheduleChangeId (.producerScheduleChange schedule)
      | none => []
    producerSignature := 0 }

/-- The three schedule assertions of `_finish_next` for a header that carries a schedule
change. -/
def assertNewSchedule (h : SignedBlockHeader) (newProducerSchedule : ProducerAuthoritySchedule) :
    Result Unit := do
  eosAssert (p.wasPendingPromoted = false) .producerScheduleException
    "cannot set pending producer schedule in the same block in which pending was promoted to active"
  eosAssert (h.enableStandbySchedule = true ∨
      newProducerSchedule.version = p.activeSchedule.version + 1) .producerScheduleException
    "wrong producer schedule version specified"
  eosAssert (h.enableStandbySchedule = true ∨
      p.prevPendingSchedule.schedule.producers = []) .producerScheduleException
    "cannot set new pending producers until last pending is confirmed"

def assertScheduleChange (h : SignedBlockHeader)
    (newProducerSchedule : Option ProducerAuthoritySchedule) : Result Unit :=
  match newProducerSchedule with
  | some newProducerSchedule => p.assertNewSchedule h newProducerSchedule
  | none => .ok ()

def nextPendingSchedule (fc : Fc) (newProducerSchedule : Option ProducerAuthoritySchedule) :
    ScheduleInfo :=
  match newProducerSchedule with
  | some schedule => ⟨p.blockNum, fc.hashSchedule schedule, schedule⟩
  | none =>
    { scheduleLibNum := p.prevPendingSchedule.scheduleLibNum
      scheduleHash := p.prevPendingSchedule.scheduleHash
      schedule :=
        if p.wasPendingPromoted then ⟨p.prevPendingSchedule.schedule.version, []⟩
        else p.prevPendingSchedule.schedule }

def finishNextCore (fc : Fc) (h : SignedBlockHeader) : Result BlockHeaderState := do
  eosAssert (h.timestamp = p.timestamp) .blockValidateException "timestamp mismatch"
  eosAssert (h.previous = p.previous) .unlinkableBlockException "previous mismatch"
  eosAssert (h.confirmed = p.confirmed) .blockValidateException "confirmed mismatch"
  eosAssert (h.producer = p.producer) .wrongProducer "wrong producer specified"
  eosAssert (h.scheduleVersion = p.activeScheduleVersion) .producerScheduleException
    "schedule_version in signed block is corrupted"
  let exts ← h.validateAndExtractHeaderExtensions
  p.assertScheduleChange h (scheduleChange exts)
  .ok { p.toBlockHeaderStateCommon with
    enableStandbySchedule := h.enableStandbySchedule
    standbyScheduleBlockNum := h.standbyScheduleBlockNum
    id := h.toBlockHeader.id fc
    header := h
    headerExts := exts
    pendingSchedule := p.nextPendingSchedule fc (scheduleChange exts)
    additionalSignatures := [] }

def finishNext (fc : Fc) (h : SignedBlockHeader) (additionalSignatures : List Signature)
    (skipValidateSignee : Bool) : Result BlockHeaderState := do
  let result ← p.finishNextCore fc h
  let result := { result with additionalSignatures := additionalSignatures }
  if skipValidateSignee then .ok result
  else do
    result.verifySignee fc
    .ok result

def finishNextSigned (fc : Fc) (h : SignedBlockHeader) (signer : Digest → List Signature) :
    Result BlockHeaderState := do
  let result ← p.finishNextCore fc h
  result.sign fc signer

end PendingBlockHeaderState

def BlockHeaderState.nextHeader (s : BlockHeaderState) (fc : Fc) (h : SignedBlockHeader)
    (additionalSignatures : List Signature) (skipValidateSignee : Bool) :
    Result BlockHeaderState := do
  let p ← s.next fc h.timestamp h.confirmed
  p.finishNext fc h additionalSignatures skipValidateSignee

/-- What `initialize_blockchain_state` reads of the genesis state. -/
structure GenesisState where
  initialKey : PublicKey
  initialTimestamp : BlockTimestamp
  chainId : Digest
deriving DecidableEq, Repr

def GenesisState.initialSchedule (g : GenesisState) : ProducerAuthoritySchedule :=
  ⟨0, [⟨systemAccountName, ⟨1, [⟨g.initialKey, 1⟩]⟩⟩]⟩

def GenesisState.headerState (g : GenesisState) (fc : Fc) : BlockHeaderState :=
  let header : SignedBlockHeader :=
    { (default : SignedBlockHeader) with
      timestamp := g.initialTimestamp
      actionMroot := g.chainId }
  { (default : BlockHeaderState) with
    activeSchedule := g.initialSchedule
    pendingSchedule :=
      { (default : ScheduleInfo) with
        schedule := g.initialSchedule
        scheduleHash := fc.hashSchedule g.initialSchedule }
    header := header
    id := header.toBlockHeader.id fc
    blockNum := header.toBlockHeader.blockNum }

end PotatoNode.Chain
