import PotatoNode.Chain.BlockHeader
import PotatoNode.Chain.EosioContract

/-!
# Blocks, as far as they change permissions (`controller.cpp`)

Of a block only the actions that have a native handler change accounts and permissions, and
`update_producers_authority`, which is called when a block is started, changes the authorities of
`eosio.prods`.
-/

namespace PotatoNode.Chain

open Lib Chainbase

inductive ActionData where
  | native (act : NativeAction)
  | onblock
  | other

/-- `action_trace`: an action that was executed for a receiver. -/
structure ActionTrace where
  receiver : AccountName
  account : AccountName
  context : ActionContext
  data : ActionData

structure TransactionTrace where
  id : Nat
  /-- the status of the receipt, if there is one -/
  status : Option TransactionStatus
  /-- `failed_dtrx_trace->id`: the deferred transaction for which an `onerror` was executed -/
  failedDtrx : Option Nat
  actionTraces : List ActionTrace

def TransactionTrace.effective (trace : TransactionTrace) : Bool :=
  trace.status = some .executed ∨ trace.status = some .softFail

/-- A block, as far as permissions are concerned. -/
structure PermissionBlock where
  time : Nat
  /-- the producers of the active schedule -/
  producers : List AccountName
  onblock : TransactionTrace
  transactions : List TransactionTrace

namespace Database

variable (db : Database)

def applyActionTrace (time : Nat) (trace : ActionTrace) : Result Database :=
  if trace.receiver = systemAccountName ∧ trace.account = systemAccountName then
    match trace.data with
    | .native act => db.apply { trace.context with pendingTime := some time } act
    | _ => .ok db
  else .ok db

def applyTransaction (time : Nat) (trace : TransactionTrace) : Result Database :=
  if trace.effective = true then
    trace.actionTraces.foldlM (fun db action => db.applyActionTrace time action) db
  else .ok db

def updateProducersPermission (producers : List AccountName) (name : PermissionName)
    (threshold : Nat) : Result Database := do
  let permission ← db.getPermission ⟨producersAccountName, name⟩
  let auth : Authority := ⟨threshold, [], producers.map fun p => ⟨⟨p, activeName⟩, 1⟩, []⟩
  if permission.auth = auth then .ok db
  else do
    let permissions ← Chain.modify db.permissions permission.id fun po => { po with auth }
    .ok { db with permissions }

def calculateThreshold (numProducers numerator denominator : Nat) : Nat :=
  numProducers * numerator / denominator + 1

def updateProducersAuthority (producers : List AccountName) : Result Database := do
  let numProducers := producers.length
  let db ← db.updateProducersPermission producers activeName (calculateThreshold numProducers 2 3)
  let db ← db.updateProducersPermission producers majorityProducersPermissionName
    (calculateThreshold numProducers 1 2)
  db.updateProducersPermission producers minorityProducersPermissionName
    (calculateThreshold numProducers 1 3)

def applyBlock (block : PermissionBlock) : Result Database := do
  let db ← db.applyTransaction block.time block.onblock
  let db ← db.updateProducersAuthority block.producers
  block.transactions.foldlM (fun db trace => db.applyTransaction block.time trace) db

end Database

end PotatoNode.Chain
