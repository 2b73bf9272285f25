import Mathlib.Data.List.Infix
import PotatoNode.Lib.UndoStack
import PotatoNode.Chain.ForkDatabase
import PotatoNode.Chain.ScheduleController

/-!
# Blocks in the controller (`controller.cpp`)

How the controller applies, commits, pops and replaces blocks. It keeps three copies of "where we
are": its own head, the head of the fork database, and the revision of the chain state.

The chain state is any type `σ` with an undo stack. What runs inside a block or outside of the
controller is an `Env`: the code that executes a block, the signal handlers, the allocation of
reversible block objects and the block log's file. Any of them may fail, and every call has its
own `Env`, so that nothing is assumed about when. Statements are `EStateM`: an exception leaves
what was done before it.

The reversible block database is not modelled beyond its failures: nothing here reads it.
-/

namespace PotatoNode.Chain

open Lib

/-- Would `catch( const fc::exception& )` catch it? -/
def Failure.isFcException : Failure → Bool
  | .exception _ => true
  | _ => false

/-- What the controller depends on during one call. -/
structure Env (σ : Type) where
  /-- `start_block` once the session is open: the header template, schedules, `onblock` -/
  onBlock : BlockState → BlockStatus → EStateM Failure σ Unit
  /-- the transactions of the block, `finalize_block` and the comparison of the ids -/
  execute : BlockState → BlockStatus → EStateM Failure σ Unit
  /-- what the handlers of the signal `block_start` throw -/
  blockStart : BlockState → Option Failure
  preAcceptedBlock : BlockState → Option Failure
  acceptedBlockHeader : BlockState → Option Failure
  acceptedBlock : BlockState → Option Failure
  irreversibleBlock : BlockState → Option Failure
  /-- what `reversible_blocks.create` throws; nothing during a replay -/
  createReversible : BlockState → Option Failure
  forkedBranchCb : List BlockState → Option Failure
  /-- what `db.commit`, `blog.append` and the removal of reversible blocks throw for a block -/
  commitDb : BlockState → Option Failure
  append : BlockState → Option Failure
  removeReversible : BlockState → Option Failure

/-- The block log: its last block and the number of the first block. -/
structure BlockLog where
  head : Option BlockState
  firstBlockNum : Nat

/-- `block_stage_type`, as far as `commit_block` looks at it. -/
inductive BlockStage where
  | building
  | completed (blockState : BlockState)

/-- `controller_impl`. The session of the pending block is open as long as there is one. After
`fork_db.reset( *head )` the root is a copy of the head without the block, which nobody reads of a
root: here the head is the root then. -/
structure Controller (σ : Type) where
  db : Versioned σ
  head : BlockState
  forkDb : ForkDatabase
  blog : BlockLog
  pending : Option BlockStage
  readMode : DbReadMode

abbrev ControllerM (σ : Type) := EStateM Failure (Controller σ)

namespace Controller

variable {σ S : Type}

/-- A step outside of the model, which may throw. -/
def fallible (outcome : Option Failure) : EStateM Failure S Unit :=
  match outcome with
  | none => pure ()
  | some e => throw e

def require (cond : Prop) [Decidable cond] (type : ExceptionType) (message : String) :
    EStateM Failure S Unit :=
  compute fun _ => eosAssert cond type message

/-- What `emit` lets through of what a handler throws. -/
def emitted : Option Failure → Option Failure
  | some (.exception e) =>
    if e.type = .controllerEmitSignalException then some (.exception e) else none
  | some (.stdException _) => none
  | other => other

def emit (handler : Option Failure) : EStateM Failure S Unit := fallible (emitted handler)

def onState (x : EStateM Failure σ Unit) : ControllerM σ Unit :=
  zoom (·.db.current) (fun c s => { c with db := c.db.write s }) x

def onForkDb (x : EStateM Failure ForkDatabase Unit) : ControllerM σ Unit :=
  zoom (·.forkDb) (fun c d => { c with forkDb := d }) x

/-- `pending.reset()`: a session that was not pushed is undone. -/
def cleared (c : Controller σ) : Controller σ :=
  match c.pending with
  | some _ => { c with pending := none, db := c.db.undo }
  | none => c

@[inherit_doc cleared]
def resetPending : ControllerM σ Unit := modify cleared

/-- `abort_block`, without the transactions it returns. -/
def abortBlock : ControllerM σ Unit := resetPending

def prevOfHead (c : Controller σ) : Result BlockState :=
  match c.forkDb.getBlock c.head.prev with
  | some prev => .ok prev
  | none => do
    eosAssert (c.forkDb.root.id = c.head.prev) .blockValidateException
      "attempt to pop beyond last irreversible block"
    .ok c.forkDb.root

/-- `pop_block`, without the removal from the reversible block database. -/
def popBlock : ControllerM σ Unit := do
  let c ← get
  let prev ← compute prevOfHead
  require (c.readMode = .speculative → c.head.block.isSome) .blockValidateException
    "attempting to pop a block that was sparsely loaded from a snapshot"
  modify fun c => { c with head := prev, db := c.db.undo }

variable (env : Env σ)

section

variable (b : BlockState)

def startBlock (s : BlockStatus) : ControllerM σ Unit := do
  let c ← get
  require c.pending.isNone .blockValidateException "pending block already exists"
  emit (env.blockStart b)
  require (c.db.revision = c.head.blockNum) .databaseException
    "db revision is not on par with head block"
  modify fun c => { c with db := c.db.startUndoSession, pending := some .building }
  tryCatch (onState (env.onBlock b s)) fun e => do
    resetPending
    throw e

def addCommitted (bsp : BlockState) : ControllerM σ Unit := do
  onForkDb (attempt fun d => d.add bsp false)
  onForkDb (attempt fun d => d.markValid bsp)
  emit (env.acceptedBlockHeader bsp)
  modify fun c => { c with head := c.forkDb.head }
  let c ← get
  require (bsp.id = c.head.id) .forkDatabaseException
    "committed block did not become the new head in fork database"

/-- `commit_block`. Without a pending block the source dereferences an empty optional; it is called
with one, and here it throws as it does for a block that is not completed. -/
def commitBlockWith (logIrreversible : ControllerM σ Unit) (addToForkDb : Bool) :
    ControllerM σ Unit := do
  tryCatch (do
      let c ← get
      match c.pending with
      | some (.completed bsp) => do
        whenever (addToForkDb = true) (addCommitted env bsp)
        whenever (c.readMode ≠ .irreversible) (fallible (env.createReversible bsp))
        emit (env.acceptedBlock bsp)
        whenever (addToForkDb = true) logIrreversible
      | _ =>
        throw (.exception ⟨.blockValidateException,
          "cannot call commit_block until pending block is completed"⟩))
    fun e => do
      abortBlock
      throw e
  -- the session is pushed: its changes stay
  modify fun c => { c with pending := none }

/-- `apply_block`. Exceptions leave it as they were thrown: what `FC_CAPTURE_AND_RETHROW`, a part of
`fc`, adds to them or makes of them is left out. -/
def applyBlock (s : BlockStatus) : ControllerM σ Unit :=
  tryCatch (do
      match b.block with
      | none => throw .undefinedBehaviour
      | some _ => do
        startBlock env b s
        onState (env.execute b s)
        modify fun c => { c with pending := some (.completed b) }
        commitBlockWith env (pure ()) false)
    fun e => do
      whenever (e.isFcException = true) abortBlock
      throw e

/-- One iteration of `log_irreversible`. The local variable is `root_id`. -/
def logBlock : EStateM Failure (Controller σ × BlockId) Unit := do
  let (c, _) ← get
  whenever (c.readMode = .irreversible) (outer do
    applyBlock env b .complete
    modify fun c => { c with head := b }
    onForkDb (attempt fun d => d.markValid b)
    -- the head points to the block that was marked
    modify fun c => { c with head := b.setValidated true })
  emit (env.irreversibleBlock b)
  fallible (env.commitDb b)
  modify fun (c, _) => ({ c with db := c.db.commit b.blockNum }, b.id)
  fallible (env.append b)
  modify fun (c, rootId) => ({ c with blog := { c.blog with head := some b } }, rootId)
  fallible (env.removeReversible b)

def advanceTo : EStateM Failure (Controller σ × BlockId) Unit := do
  let (c, rootId) ← get
  whenever (rootId ≠ c.forkDb.root.id) (outer (onForkDb (ForkDatabase.advanceRoot rootId)))

def logLibNum (c : Controller σ) : Nat :=
  match c.blog.head with
  | some logHead => logHead.blockNum
  | none => c.blog.firstBlockNum - 1

def checkLog (c : Controller σ) : Result Unit :=
  match c.blog.head with
  | some logHead =>
    eosAssert (c.forkDb.root.id = logHead.id) .forkDatabaseException
      "fork database root does not match block log head"
  | none =>
    eosAssert (c.forkDb.root.blockNum = c.logLibNum) .forkDatabaseException
      "empty block log expects the first appended block to build off a block that is not the fork database root"

def blocksToLog (c : Controller σ) : Result (List BlockState) := do
  c.checkLog
  let forkHead := if c.readMode = .irreversible then c.forkDb.pendingHead else c.forkDb.head
  if forkHead.dposIrreversibleBlocknum ≤ c.logLibNum then .ok []
  else do
    let branch ← c.forkDb.fetchBranch forkHead.id forkHead.dposIrreversibleBlocknum
    .ok branch.reverse

def logIrreversible : ControllerM σ Unit := do
  let blocks ← compute blocksToLog
  let c ← get
  withLocal c.forkDb.root.id do
    tryCatch (blocks.forM (logBlock env)) fun e => do
      whenever (e.isFcException = true) advanceTo
      throw e
    advanceTo

def commitBlock (addToForkDb : Bool) : ControllerM σ Unit :=
  commitBlockWith env (logIrreversible env) addToForkDb

/-- The body of the loop of `maybe_switch_forks`. -/
def applyNewBlock (s : BlockStatus) : ControllerM σ Unit := do
  applyBlock env b s
  onForkDb (attempt fun d => d.markValid b)
  -- the head points to the block that was marked
  modify fun c => { c with head := b.setValidated true }

/-- A good block is applied once more. -/
def reapply : ControllerM σ Unit := do
  applyBlock env b .validated
  modify fun c => { c with head := b }

end

/-- What `maybe_switch_forks` does when `b` has thrown and `applied` blocks were applied before
it. `back()` of an empty vector is undefined. -/
def reverseSwitch (old : List BlockState) (applied : Nat) (b : BlockState) :
    ControllerM σ Unit := do
  onForkDb (attempt fun d => d.remove b.id)
  (List.replicate applied ()).forM fun _ => popBlock
  let c ← get
  match old.getLast? with
  | none => throw .undefinedBehaviour
  | some last => do
    require (c.head.id = last.prev) .forkDatabaseException
      "loss of sync between fork_db and chainbase during fork switch reversal"
    old.reverse.forM (reapply env)

/-- The loop of `maybe_switch_forks` over the new branch, oldest block first. -/
def switchTo (old : List BlockState) : (applied : Nat) → List BlockState → ControllerM σ Unit
  | _, [] => pure ()
  | applied, b :: rest => do
    let except ← tryCatch (do
        applyNewBlock env b (if b.validated then .validated else .complete)
        pure none)
      fun e => if e.isFcException then pure (some e) else throw e
    match except with
    | none => switchTo old (applied + 1) rest
    | some e => do
      reverseSwitch env old applied b
      throw e

def leaveBranch (old : List BlockState) : ControllerM σ Unit :=
  match old.getLast? with
  | none => pure ()
  | some last => do
    old.forM fun _ => popBlock
    let c ← get
    require (c.head.id = last.prev) .forkDatabaseException
      "loss of sync between fork_db and chainbase during fork switch"
    fallible (env.forkedBranchCb old)

def maybeSwitchForks (newHead : BlockState) (s : BlockStatus) : ControllerM σ Unit := do
  let c ← get
  if newHead.prev = c.head.id then do
    tryCatch (applyNewBlock env newHead s) fun e => do
      whenever (e.isFcException = true) (onForkDb (attempt fun d => d.remove newHead.id))
      throw e
    logIrreversible env
  else if newHead.id ≠ c.head.id then do
    let (new, old) ← compute fun c => c.forkDb.fetchBranchFrom newHead.id c.head.id
    leaveBranch env old
    switchTo env old 0 new.reverse
    logIrreversible env
  else pure ()

def pushBlock (bsp : BlockState) : ControllerM σ Unit := do
  let c ← get
  require c.pending.isNone .blockValidateException
    "it is not valid to push a block when there is a pending block"
  emit (env.preAcceptedBlock bsp)
  onForkDb (attempt fun d => d.add bsp false)
  emit (env.acceptedBlockHeader bsp)
  let c ← get
  if c.readMode ≠ .irreversible then maybeSwitchForks env c.forkDb.pendingHead .complete
  else logIrreversible env

/-- A controller at the head of `d`. Its chain state is the list of the ids applied on top of the
root, newest first. -/
def recorded (d : ForkDatabase) (chain : List BlockId) : Controller (List BlockId) where
  db := ⟨chain, chain.tails.tail, d.root.blockNum + chain.length⟩
  head := d.head
  forkDb := d
  blog := ⟨some d.root, 1⟩
  pending := none
  readMode := .speculative

def recordingEnv (bad : BlockId) : Env (List BlockId) where
  onBlock _ _ := pure ()
  execute b _ :=
    if b.id = bad then throw (.exception ⟨.blockValidateException, "block id mismatch"⟩)
    else modify (b.id :: ·)
  blockStart _ := none
  preAcceptedBlock _ := none
  acceptedBlockHeader _ := none
  acceptedBlock _ := none
  irreversibleBlock _ := none
  createReversible _ := none
  forkedBranchCb _ := none
  commitDb _ := none
  append _ := none
  removeReversible _ := none

section Rules

variable {s : S} {Q : Unit → S → Prop} {E : Failure → S → Prop} {outcome : Option Failure}

theorem ends_fallible :
    Ends (fallible outcome) s Q E ↔ match outcome with
      | none => Q () s
      | some e => E e s := by
  cases outcome with
  | none | some e => exact Iff.rfl

theorem leaves_fallible {β : Type} {f : S → β} : Leaves f (fallible outcome) := by
  intro s
  cases outcome <;> trivial

theorem ends_require {cond : Prop} [Decidable cond] {type : ExceptionType} {message : String} :
    Ends (require cond type message) s Q E
      ↔ if cond then Q () s else E (.exception ⟨type, message⟩) s := by
  unfold require
  rw [ends_compute]
  by_cases hcond : cond
  · simp only [eosAssert, if_pos hcond]
  · simp only [eosAssert, if_neg hcond, eosThrow]

end Rules

end Controller

end PotatoNode.Chain
