import PotatoNode.Chain.BuildBlock

/-!
# Block production (`producer_plugin.cpp`)

The plugin is woken by a timer, by blocks and transactions that come in, and by its API. Each time
`start_block` decides for which time the next block would be, whether this node produces it or
only speculates, and starts it; a timer then lets `produce_block` sign and commit it. What keeps
the node from signing twice are the watermarks: the largest number and the latest time of a block
header seen of each local producer, updated by the signal `accepted_block_header`.

A `Node` is the controller with the plugin. `Event` has everything that can happen to it; the
order in which handlers run is up to `appbase`, so any sequence of events is a run. The clock is
`fc`'s: whenever the code reads it, the reading is an input, and so is the age of the last
irreversible block, which comes from the clock and the signal `irreversible_block`. Transactions
are left out, except that they may exhaust a block; of the timer it matters what it will start,
not when.
-/

namespace PotatoNode.ProducerPlugin

open Lib Chain

/-! ## Time

A `fc::time_point` is a number of microseconds, after the epoch of the block timestamps. -/

def blockIntervalMs : Nat := 500

def blockIntervalUs : Nat := blockIntervalMs * 1000

def blockTimestampEpoch : Nat := 1577880000000

def toTimestamp (t : Nat) : BlockTimestamp :=
  ⟨(t / 1000 - blockTimestampEpoch) / blockIntervalMs⟩

def toTimePoint (t : BlockTimestamp) : Nat :=
  (t.slot * blockIntervalMs + blockTimestampEpoch) * 1000

def calculatePendingBlockTime (now headTime : Nat) : Nat :=
  let base := max now headTime
  let minTimeToNextBlock := blockIntervalUs - base % blockIntervalUs
  base + minTimeToNextBlock

/-! ## The state -/

/-- `producer_watermark`. -/
structure Watermark where
  blockNum : Nat
  timestamp : BlockTimestamp
deriving DecidableEq, Repr

inductive PendingBlockMode where
  | producing
  | speculating
deriving DecidableEq, Repr

inductive StartBlockResult where
  | succeeded
  | failed
  | waitingForBlock
  | waitingForProduction
  | exhausted
deriving DecidableEq, Repr

inductive Timer where
  | productionLoop
  | produceBlock
deriving DecidableEq, Repr

/-- What does not change after the start. -/
structure Config where
  fc : Fc
  /-- `_producers`, a set -/
  producers : List AccountName
  signatureProviders : FlatMap PublicKey (Digest → Signature)
  /-- `chain_plugin::accept_transactions` -/
  acceptTransactions : Bool

/-- `producer_plugin_impl` and the controller it works with. -/
structure Node (σ : Type) where
  chain : Controller σ
  /-- the template of the pending block; there is one while a block is being built -/
  pbhs : Option PendingBlockHeaderState
  productionEnabled : Bool
  pauseProduction : Bool
  maxIrreversibleBlockAgeUs : Int
  producerWatermarks : FlatMap AccountName Watermark
  pendingBlockMode : PendingBlockMode
  /-- the last handler that was set; a cancelled one may still run, unless another one was set -/
  timer : Option Timer
  /-- history, not in the source: the blocks that `produce_block` has added to the fork database
  and announced as accepted, newest first -/
  produced : List BlockState

/-- What one call of `schedule_production_loop` depends on: the readings of the clock, in the
order in which they are taken, the controller's calls, and the transactions. -/
structure LoopInput (σ : Type) where
  /-- read by `start_block` -/
  now : Nat
  /-- read by `calculate_pending_block_time` -/
  pendingNow : Nat
  /-- `get_irreversible_block_age`, in `start_block` and after it -/
  irreversibleBlockAge : Int
  laterIrreversibleBlockAge : Int
  env : BuildEnv σ
  /-- the transactions put into the new block make `start_block` fail, or exhaust the block -/
  fails : Bool
  exhausts : Bool

namespace Config

variable (cfg : Config)

def relevantProviders (authority : BlockSigningAuthority) : List (Digest → Signature) :=
  authority.keys.filterMap fun kw => cfg.signatureProviders.get? kw.key

def considerNewWatermark (watermarks : FlatMap AccountName Watermark) (producer : AccountName)
    (blockNum : Nat) (timestamp : BlockTimestamp) : FlatMap AccountName Watermark :=
  match watermarks.get? producer with
  | some w => watermarks.set producer
    ⟨max w.blockNum blockNum, ⟨max w.timestamp.slot timestamp.slot⟩⟩
  | none =>
    if producer ∈ cfg.producers then watermarks.set producer ⟨blockNum, timestamp⟩
    else watermarks

end Config

/-- `blocks_to_confirm` of a block on top of `head` that is being produced. -/
def blocksToConfirm (watermark : Option Watermark) (head : BlockState) : Nat :=
  let sinceWatermark := match watermark with
    | some w => if w.blockNum < head.blockNum then min (2 ^ 16 - 1) (head.blockNum - w.blockNum) else 0
    | none => 0
  -- can not confirm irreversible blocks
  min sinceWatermark (u32Sub head.blockNum head.dposIrreversibleBlocknum)

namespace Node

variable {σ : Type} (cfg : Config) (n : Node σ)

def getWatermark (producer : AccountName) : Option Watermark :=
  n.producerWatermarks.get? producer

def onBlockHeader (bsp : BlockState) : Node σ :=
  match bsp.block with
  | some block => { n with
      producerWatermarks := cfg.considerNewWatermark n.producerWatermarks bsp.header.producer
        bsp.blockNum block.timestamp }
  | none => n

def abortBlock : Node σ := { n with chain := n.chain.cleared, pbhs := none }

def productionDisabledByPolicy (irreversibleBlockAge : Int) : Bool :=
  !n.productionEnabled || n.pauseProduction
    || (0 ≤ n.maxIrreversibleBlockAgeUs && n.maxIrreversibleBlockAgeUs ≤ irreversibleBlockAge)

/-- `schedule_delayed_production_loop` at the time `calculate_producer_wake_up_time` gives. It
gives one if a local producer is in the active schedule. -/
def scheduleAtWakeUpTime : Node σ :=
  if cfg.producers.any (· ∈ n.chain.head.activeSchedule.names) then
    { n with timer := some .productionLoop }
  else n

/-! ## `start_block` -/

variable (x : LoopInput σ)

def blockTime : Nat :=
  calculatePendingBlockTime x.pendingNow (toTimePoint n.chain.head.header.timestamp)

def watermarkExcludes (w : Watermark) (timestamp : BlockTimestamp) : Bool :=
  -- signed a block at a higher block number than the current fork's head
  n.chain.head.blockNum < w.blockNum
    -- signed a block at the next block time or later
    || timestamp.slot ≤ w.timestamp.slot

def decideMode (irreversibleBlockAge : Int) (scheduled : ProducerAuthority)
    (timestamp : BlockTimestamp) : PendingBlockMode :=
  if !n.productionEnabled then .speculating
  else if scheduled.producerName ∉ cfg.producers then .speculating
  else if (cfg.relevantProviders scheduled.authority).length = 0 then .speculating
  else if n.pauseProduction then .speculating
  else if 0 ≤ n.maxIrreversibleBlockAgeUs
      ∧ n.maxIrreversibleBlockAgeUs ≤ irreversibleBlockAge then .speculating
  else if (n.getWatermark scheduled.producerName).any (n.watermarkExcludes · timestamp) then
    .speculating
  else .producing

/-- The rest of `start_block` once it is clear that a block is started in the mode the node is
in. `LOG_AND_DROP` drops what the controller throws; there is no pending block then. -/
def startPending (scheduled : ProducerAuthority) (timestamp : BlockTimestamp) :
    StartBlockResult × Node σ :=
  let confirm := match n.pendingBlockMode with
    | .producing => blocksToConfirm (n.getWatermark scheduled.producerName) n.chain.head
    | .speculating => 0
  let n := n.abortBlock
  match Controller.startNextBlock cfg.fc x.env timestamp confirm n.chain with
  | .error _ chain => (.failed, { n with chain })
  | .ok pbhs chain =>
    -- "Unexpected block signing authority, reverting to speculative mode!"
    let mode :=
      if pbhs.validBlockSigningAuthority = scheduled.authority then n.pendingBlockMode
      else .speculating
    (if x.fails then .failed else if x.exhausts then .exhausted else .succeeded,
      { n with chain, pbhs := some pbhs, pendingBlockMode := mode })

/-- `start_block`. The three early returns keep the pending block. -/
def startBlock : Result (StartBlockResult × Node σ) :=
  if !cfg.acceptTransactions then .ok (.waitingForBlock, n)
  else do
    let timestamp := toTimestamp (n.blockTime x)
    let scheduled ← n.chain.head.getScheduledProducer timestamp
    let startBlockTime := n.blockTime x - blockIntervalUs
    match n.decideMode cfg x.irreversibleBlockAge scheduled timestamp with
    | .producing =>
      let n := { n with pendingBlockMode := .producing }
      if x.now < startBlockTime then .ok (.waitingForProduction, n.scheduleAtWakeUpTime cfg)
      else .ok (n.startPending cfg x scheduled timestamp)
    | .speculating =>
      let previous := n.pendingBlockMode
      let n := { n with pendingBlockMode := .speculating }
      if toTimePoint n.chain.head.header.timestamp + 5000000 < x.now then
        .ok (.waitingForBlock, n)
      else if previous = .producing then
        -- just produced our last block of our round
        .ok (.waitingForProduction, { n with timer := some .productionLoop })
      else .ok (n.startPending cfg x scheduled timestamp)

def scheduleUnlessDisabled : Node σ :=
  if cfg.producers ≠ [] ∧ !n.productionDisabledByPolicy x.laterIrreversibleBlockAge then
    n.scheduleAtWakeUpTime cfg
  else n

def scheduleNext : StartBlockResult → Node σ
  | .failed => { n with timer := some .productionLoop }
  | .waitingForProduction => n
  | .waitingForBlock => n.scheduleUnlessDisabled cfg x
  | .succeeded | .exhausted =>
    match n.pendingBlockMode with
    | .producing => { n with timer := some .produceBlock }
    | .speculating => n.scheduleUnlessDisabled cfg x

def scheduleProductionLoop : Result (Node σ) := do
  let (result, n) ← n.startBlock cfg x
  .ok (n.scheduleNext cfg x result)

/-! ## `produce_block` -/

/-- What `produce_block` depends on. -/
structure ProduceInput (σ : Type) where
  finalizeEnv : BuildEnv σ
  /-- what `validate_db_available_size` and its sibling throw before `commit_block` -/
  availableSize : Option Failure
  env : Env σ

/-- `commit_block` for the block that was finalized. The plugin hears of the block from the
signal. -/
def commitBlock (y : ProduceInput σ) (bsp : BlockState) : Node σ :=
  let n := { n with pbhs := none }
  match y.availableSize with
  | some _ => n.abortBlock
  | none =>
    let n' :=
      if n.chain.commitAccepts bsp then
        { n.onBlockHeader cfg bsp with produced := bsp :: n.produced }
      else n
    match Controller.commitBlock y.env true n.chain with
    | .ok _ chain => { n' with chain }
    | .error _ chain => { n' with chain := chain.cleared }

def produceBlock (y : ProduceInput σ) : Node σ :=
  match n.pendingBlockMode, n.pbhs with
  | .producing, some pbhs =>
    let relevantProviders := cfg.relevantProviders pbhs.validBlockSigningAuthority
    if relevantProviders = [] then n.abortBlock
    else
      match Controller.finalizeBlock cfg.fc y.finalizeEnv pbhs
          (fun d => relevantProviders.map (· d)) n.chain with
      | .error _ chain => { n with chain }.abortBlock
      | .ok bsp chain => { n with chain }.commitBlock cfg y bsp
  -- "called produce_block while not actually producing", or there is no pending block
  | _, _ => n.abortBlock

def maybeProduceBlock (y : ProduceInput σ) (x : LoopInput σ) : Result (Node σ) :=
  (n.produceBlock cfg y).scheduleProductionLoop cfg x

/-! ## Incoming blocks and transactions -/

/-- What `on_incoming_block` depends on. -/
structure IncomingBlock (σ : Type) where
  /-- the block is from the future or known, or no state can be asked for -/
  refused : Bool
  /-- what the future of the block state delivers -/
  state : Result BlockState
  env : Env σ
  /-- the clock after the block was pushed -/
  now : Nat

def pushBlock (z : IncomingBlock σ) : Node σ :=
  match z.state with
  | .error _ => n
  | .ok bsp =>
    let n' := if Controller.pushAccepts z.env n.chain bsp then n.onBlockHeader cfg bsp else n
    match Controller.pushBlock z.env bsp n.chain with
    | .error _ chain => { n' with chain }
    | .ok _ chain =>
      let next : BlockTimestamp := ⟨chain.head.header.timestamp.slot + 1⟩
      { n' with
        chain
        productionEnabled := n.productionEnabled || decide (z.now ≤ toTimePoint next) }

def onIncomingBlock (z : IncomingBlock σ) (x : LoopInput σ) : Result (Node σ) :=
  if n.pendingBlockMode = .producing ∨ z.refused then .ok n
  else (n.abortBlock.pushBlock cfg z).scheduleProductionLoop cfg x

def onIncomingTransaction (exhausted : Bool) : Node σ :=
  if exhausted ∧ n.pbhs.isSome ∧ n.pendingBlockMode = .producing then
    { n with timer := some .produceBlock }
  else n

/-! ## The API -/

/-- It is possible that the node is only speculating because of a policy that has now changed. -/
def reevaluate : Result (Node σ) :=
  if n.pendingBlockMode = .speculating then n.abortBlock.scheduleProductionLoop cfg x else .ok n

def resume : Result (Node σ) :=
  { n with pauseProduction := false }.reevaluate cfg x

def updateMaxIrreversibleBlockAge (ageUs : Int) (x : LoopInput σ) : Result (Node σ) :=
  { n with maxIrreversibleBlockAgeUs := ageUs }.reevaluate cfg x

/-- `get_integrity_hash` and `create_snapshot` abort a pending block and start over. -/
def inspectChain : Result (Node σ) :=
  if n.pbhs.isSome then n.abortBlock.scheduleProductionLoop cfg x else .ok n

end Node

/-! ## Runs -/

inductive Event (σ : Type) where
  | timer (y : Node.ProduceInput σ) (x : LoopInput σ)
  | incomingBlock (z : Node.IncomingBlock σ) (x : LoopInput σ)
  | incomingTransaction (exhausted : Bool)
  | pause
  | resume (x : LoopInput σ)
  | updateMaxIrreversibleBlockAge (ageUs : Int) (x : LoopInput σ)
  | inspectChain (x : LoopInput σ)

namespace Node

variable {σ : Type} (cfg : Config)

/-- The timer fires: its handler runs, once. -/
def onTimer (n : Node σ) (y : ProduceInput σ) (x : LoopInput σ) : Result (Node σ) :=
  match n.timer with
  | none => .ok n
  | some .productionLoop => { n with timer := none }.scheduleProductionLoop cfg x
  | some .produceBlock => { n with timer := none }.maybeProduceBlock cfg y x

def handle (n : Node σ) : Event σ → Result (Node σ)
  | .timer y x => n.onTimer cfg y x
  | .incomingBlock z x => n.onIncomingBlock cfg z x
  | .incomingTransaction exhausted => .ok (n.onIncomingTransaction exhausted)
  | .pause => .ok { n with pauseProduction := true }
  | .resume x => n.resume cfg x
  | .updateMaxIrreversibleBlockAge ageUs x => n.updateMaxIrreversibleBlockAge cfg ageUs x
  | .inspectChain x => n.inspectChain cfg x

/-- A process that has just been started, on whatever chain. -/
structure Fresh (n : Node σ) : Prop where
  pbhs : n.pbhs = none
  producerWatermarks : n.producerWatermarks = FlatMap.empty
  pendingBlockMode : n.pendingBlockMode = .speculating
  timer : n.timer = none
  produced : n.produced = []

/-- The states of one process whose events all satisfy `P`; `plugin_startup` enters the
production loop. -/
inductive Run (P : Node σ → Event σ → Prop) : Node σ → Prop where
  | startup {n n' : Node σ} {x : LoopInput σ} : Fresh n →
      n.scheduleProductionLoop cfg x = .ok n' → Run P n'
  | event {n n' : Node σ} {e : Event σ} : Run P n → P n e → n.handle cfg e = .ok n' → Run P n'

end Node

end PotatoNode.ProducerPlugin
