import Mathlib.Data.UInt
import PotatoNode.Lib.Table
import PotatoNode.Chain.BlockHeader

/-!
# The sync manager (`sync_manager` of `net_plugin.cpp`)

A node that is behind catches up in two ways: up to the last irreversible block its peers know, chunk
by chunk from one peer at a time (`lib_catchup`), and from there to the heads of their forks
(`head_catchup`). A connection is a shared object: it outlives its place in the set of connections,
so that the sync source, or the connection a block comes from, may have left the set. What a call
posts to the strand of a connection is only sent later and is returned as `Outgoing`.

All numbers of blocks are `uint32_t`. Locks are left out: a call is one step.
-/

namespace PotatoNode.NetPlugin

open Lib Chain

/-- A `connection_ptr` that is not null. The set of connections is ordered by it. -/
abbrev ConnectionId : Type := Nat

/-- `connection_types`. -/
inductive ConnectionType where
  | both
  | transactionsOnly
  | blocksOnly
deriving DecidableEq, Repr

/-- `connection`, as far as the sync manager reads it. -/
structure Connection where
  socketOpen : Bool
  connecting : Bool
  syncing : Bool
  connectionType : ConnectionType
  consecutiveRejectedBlocks : Nat
  /-- the null id if there is none -/
  forkHead : BlockId
  forkHeadNum : UInt32
  /-- `last_handshake_recv.last_irreversible_block_num` -/
  lastIrreversibleBlockNum : UInt32
deriving DecidableEq, Repr

namespace Connection

variable (c : Connection)

def connected : Bool := c.socketOpen && !c.connecting

def current : Bool := c.connected && !c.syncing

def isTransactionsOnly : Bool := c.connectionType = .transactionsOnly

def clearForkHead : Connection := { c with forkHead := 0, forkHeadNum := 0 }

end Connection

/-- `sync_manager::stages`. -/
inductive Stage where
  | libCatchup
  | headCatchup
  | inSync
deriving DecidableEq, Repr

inductive Message where
  | handshake
  | syncRequest (first last : UInt32)
  | syncWait
  | request (ids : List BlockId) (catchUp : Bool)
  | close
deriving DecidableEq, Repr

abbrev Outgoing : Type := List (ConnectionId × Message)

/-- `net_plugin_impl::get_chain_info`, as far as it is read. -/
structure ChainInfo where
  libNum : UInt32
  forkHeadNum : UInt32
  forkHeadId : BlockId
deriving DecidableEq, Repr

/-- The sync manager, the connections, and the set of those that are listed. -/
structure SyncManager where
  syncKnownLibNum : UInt32
  syncLastRequestedNum : UInt32
  syncNextExpectedNum : UInt32
  syncReqSpan : UInt32
  syncSource : Option ConnectionId
  syncState : Stage
  connections : FlatSet ConnectionId
  connection : ConnectionId → Connection

namespace SyncManager

variable (m : SyncManager) (info : ChainInfo)

def current (c : ConnectionId) : Bool := (m.connection c).current

def blockConnections : List ConnectionId :=
  m.connections.entries.filter fun c => !(m.connection c).isTransactionsOnly

def setState (newState : Stage) : SyncManager :=
  if m.syncState = newState then m else { m with syncState := newState }

def sendHandshakes : Outgoing :=
  (m.connections.entries.filter m.current).map (·, .handshake)

/-! ## Catching up with the last irreversible block -/

/-- A connection that can provide sync blocks. -/
def eligible (c : ConnectionId) : Bool :=
  !(m.connection c).isTransactionsOnly && (m.connection c).current

/-- Where the ring scan starts, as a place in the set, and the source that is remembered: after the
previous source if it is still listed, and otherwise at the beginning, with no source. -/
def scanStart : Nat × Option ConnectionId :=
  match m.syncSource with
  | none => (0, none)
  | some source =>
    match m.connections.entries.idxOf? source with
    -- not there - must have been closed!
    | none => (0, none)
    -- was found - advance the start to the next
    | some i => (if i + 1 = m.connections.entries.length then 0 else i + 1, some source)

def ring (start : Nat) : List ConnectionId :=
  m.connections.entries.drop start ++ m.connections.entries.take start

/-- The provider of the next chunk: the one supplied if it can be used, otherwise the next available
one, round-robin style. -/
def selectSource (conn : Option ConnectionId) : Option ConnectionId :=
  if conn.any m.current then conn
  else
    match m.connections.entries with
    | [] => none
    | [c] => if m.syncSource = none then some c else m.syncSource
    | _ =>
      let (start, source) := m.scanStart
      -- either source advanced or the whole list was checked and the old source is reused
      ((m.ring start).find? m.eligible).or source

def requestPending : Bool :=
  info.forkHeadNum < m.syncLastRequestedNum && m.syncSource.any m.current

def sendRequest (source : ConnectionId) : SyncManager × Outgoing :=
  let first := m.syncNextExpectedNum
  let last := min (first + m.syncReqSpan - 1) m.syncKnownLibNum
  if m.syncLastRequestedNum ≠ m.syncKnownLibNum ∧ 0 < last ∧ first ≤ last then
    ({ m with syncLastRequestedNum := last }, [(source, .syncRequest first last)])
  else (m, [(source, .handshake)])

def requestNextChunk (conn : Option ConnectionId) : SyncManager × Outgoing :=
  -- ignoring request
  if m.requestPending info then (m, [])
  else
    let m := { m with syncSource := m.selectSource conn }
    match m.syncSource.filter m.eligible with
    | some source => m.sendRequest source
    -- unable to continue syncing at this time
    | none =>
      let m := { m with syncKnownLibNum := info.libNum, syncLastRequestedNum := 0 }
      (m.setState .inSync, [])

/-! ## Catching up with the heads of the forks -/

variable (c : ConnectionId)

def modify (f : Connection → Connection) : SyncManager :=
  { m with connection := Function.update m.connection c (f (m.connection c)) }

def syncUpdateExpected (blkNum : UInt32) (blkApplied : Bool) : SyncManager :=
  if blkNum ≤ m.syncLastRequestedNum then
    if blkNum ≠ m.syncNextExpectedNum ∧ !blkApplied then m
    else { m with syncNextExpectedNum := blkNum + 1 }
  else m

/-- One iteration of the loop of `sync_recv_block` over the block connections, here at `cp`, for a
block that came from `c`. The flag is `set_state_to_head_catchup`. -/
def catchUpWith (blkId : BlockId) (blkNum : UInt32) (s : SyncManager × Bool)
    (cp : ConnectionId) : SyncManager × Bool :=
  let forkHeadNum := (s.1.connection cp).forkHeadNum
  let forkHeadId := (s.1.connection cp).forkHead
  if forkHeadId = 0 then s
  else if forkHeadNum < blkNum ∨ forkHeadId = blkId then
    -- the record of the connection the block came from, not that of `cp`
    (s.1.modify c Connection.clearForkHead, s.2)
  else (s.1, true)

/-- What `sync_recv_block` does in the stage `head_catchup`. -/
def catchUp (blkId : BlockId) (blkNum : UInt32) : SyncManager × Outgoing :=
  let (m, setStateToHeadCatchup) :=
    m.blockConnections.foldl (catchUpWith c blkId blkNum) ({ m with syncSource := none }, false)
  if setStateToHeadCatchup then (m.setState .headCatchup, [])
  else (m.setState .inSync, m.sendHandshakes)

/-- What `sync_recv_block` does in every stage. -/
def noteBlock (blkNum : UInt32) (blkApplied : Bool) : SyncManager :=
  let m := m.modify c fun c => { c with consecutiveRejectedBlocks := 0 }
  m.syncUpdateExpected blkNum blkApplied

def syncRecvBlock (isQuiting : Bool) (c : ConnectionId) (blkId : BlockId) (blkNum : UInt32)
    (blkApplied : Bool) : SyncManager × Outgoing :=
  if isQuiting then (m, [(c, .close)])
  else
    let m := m.noteBlock c blkNum blkApplied
    match m.syncState with
    | .headCatchup => m.catchUp c blkId blkNum
    | .libCatchup =>
      if blkNum = m.syncKnownLibNum then (m.setState .inSync, m.sendHandshakes)
      else if blkNum = m.syncLastRequestedNum then m.requestNextChunk info none
      else (m, [(c, .syncWait)])
    | .inSync => (m, [])

end SyncManager

end PotatoNode.NetPlugin
