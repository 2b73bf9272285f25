import PotatoNode.Chain.IteratorCache

/-!
# The database calls of contracts (`apply_context.cpp`, `apply_context.hpp`)

What a contract can do with tables while one action is applied. The context has the contract that
runs (`receiver`), the database, and one iterator cache for each of the six indices. When other
accounts are notified of the action, their contracts run in the same context.

A call that throws ends the action, and the transaction is taken back: what it has done by then is
of no account, so that calls are functions to `Result`. The out parameters of a call are part of
what it returns (`Reply`); they are only set when there is a row.

`Run` is what contracts can do over many actions: each begins with a context of its own.
-/

namespace PotatoNode.Chain

open Lib Chainbase

structure ApplyContext where
  receiver : AccountName
  db : ContractDb
  keyvalCache : IteratorCache
  /-- the caches of `idx64`, `idx128`, `idx256`, `idx_double` and `idx_long_double` -/
  itrCache : IndexKind → IteratorCache

/-- What a call returns, and its out parameters. -/
structure Reply where
  /-- mostly an iterator -/
  result : Option Int := none
  primary : Option Nat := none
  secondary : Option Nat := none
  buffer : List UInt8 := []
deriving DecidableEq, Repr

namespace ApplyContext

variable (ctx : ApplyContext)

def new (receiver : AccountName) (db : ContractDb) : ApplyContext :=
  ⟨receiver, db, .empty, fun _ => .empty⟩

def setItrCache (k : IndexKind) (c : IteratorCache) : ApplyContext :=
  { ctx with itrCache := Function.update ctx.itrCache k c }

/-! ## Primary rows -/

def dbStoreI64 (scope table : Nat) (payer : AccountName) (id : Nat) (buffer : List UInt8) :
    Result (Reply × ApplyContext) := do
  let (tab, db) ← ctx.db.findOrCreateTable ctx.receiver scope table payer
  eosAssert (payer ≠ 0) .invalidTablePayer
    "must specify a valid account to pay for new record"
  let (obj, keyValues) ← create db.keyValues fun i => ⟨i, tab.id, id, payer, buffer⟩
  let db ← { db with keyValues }.incrementCount tab.id
  let db ← db.updateDbUsage payer (buffer.length + keyValueObjectBillableSize)
  let (_, cache) := ctx.keyvalCache.cacheTable tab.id
  let (iterator, cache) := cache.add obj.id
  .ok ({ result := iterator }, { ctx with db, keyvalCache := cache })

def chargeUpdate (db : ContractDb) (obj : KeyValueObject) (payer : AccountName) (bufferSize : Nat) :
    Result ContractDb :=
  let oldSize : Int := obj.value.length + keyValueObjectBillableSize
  let newSize : Int := bufferSize + keyValueObjectBillableSize
  if obj.payer ≠ payer then do
    -- refund the existing payer
    let db ← db.updateDbUsage obj.payer (-oldSize)
    -- charge the new payer
    db.updateDbUsage payer newSize
  else if oldSize ≠ newSize then
    -- charge/refund the existing payer the difference
    db.updateDbUsage obj.payer (newSize - oldSize)
  else .ok db

section

variable (iterator : Int)

def dbUpdateI64 (payer : AccountName) (buffer : List UInt8) : Result (Reply × ApplyContext) := do
  let obj ← ctx.keyvalCache.get ctx.db.keyValues iterator
  let tableObj ← ctx.keyvalCache.getTable ctx.db.tables obj.tId
  eosAssert (tableObj.code = ctx.receiver) .tableAccessViolation "db access violation"
  let payer := if payer = 0 then obj.payer else payer
  let db ← chargeUpdate ctx.db obj payer buffer.length
  let keyValues ← Chain.modify db.keyValues obj.id fun o => { o with value := buffer, payer }
  .ok ({}, { ctx with db := { db with keyValues } })

def dbRemoveI64 : Result (Reply × ApplyContext) := do
  let obj ← ctx.keyvalCache.get ctx.db.keyValues iterator
  let tableObj ← ctx.keyvalCache.getTable ctx.db.tables obj.tId
  eosAssert (tableObj.code = ctx.receiver) .tableAccessViolation "db access violation"
  let db ← ctx.db.updateDbUsage obj.payer (-(obj.value.length + keyValueObjectBillableSize))
  let db ← db.decrementCount tableObj.id
  let keyValues ← remove db.keyValues obj.id
  let db ← { db with keyValues }.removeTableIfEmpty tableObj.id
  let cache ← ctx.keyvalCache.remove iterator
  .ok ({}, { ctx with db, keyvalCache := cache })

def dbGetI64 (bufferSize : Nat) : Result (Reply × ApplyContext) := do
  let obj ← ctx.keyvalCache.get ctx.db.keyValues iterator
  let s := obj.value.length
  if bufferSize = 0 then .ok ({ result := (s : Int) }, ctx)
  else
    let copySize := min bufferSize s
    .ok ({ result := (copySize : Int), buffer := obj.value.take copySize }, ctx)

def withKeyval (moved : Int × Option KeyValueObject × IteratorCache) : Reply × ApplyContext :=
  ({ result := moved.1, primary := moved.2.1.map (·.primaryKey) },
    { ctx with keyvalCache := moved.2.2 })

def dbNextI64 : Result (Reply × ApplyContext) := do
  let moved ← ctx.keyvalCache.next ctx.db.keyValues byPrimary iterator
  .ok (ctx.withKeyval moved)

def dbPreviousI64 : Result (Reply × ApplyContext) := do
  let moved ← ctx.keyvalCache.previous ctx.db.keyValues byPrimary ctx.db.tables iterator
  .ok (ctx.withKeyval moved)

end

def searchKeyval (code scope table : Nat) (search : TableIdObject → Option KeyValueObject) :
    Result (Reply × ApplyContext) :=
  let moved := ctx.keyvalCache.locate (ctx.db.findTable code scope table) search
  .ok ({ result := moved.1 }, { ctx with keyvalCache := moved.2.2 })

def dbFindI64 (code scope table id : Nat) : Result (Reply × ApplyContext) :=
  ctx.searchKeyval code scope table fun tab =>
    find ctx.db.keyValues fun o => o.tId = tab.id ∧ o.primaryKey = id

def dbLowerboundI64 (code scope table id : Nat) : Result (Reply × ApplyContext) :=
  ctx.searchKeyval code scope table fun tab =>
    (firstWhere ctx.db.keyValues byPrimary (toLex (tab.id, id) ≤ byPrimary ·)).filter
      (·.tId = tab.id)

def dbUpperboundI64 (code scope table id : Nat) : Result (Reply × ApplyContext) :=
  ctx.searchKeyval code scope table fun tab =>
    (firstWhere ctx.db.keyValues byPrimary (toLex (tab.id, id) < byPrimary ·)).filter
      (·.tId = tab.id)

def dbEndI64 (code scope table : Nat) : Result (Reply × ApplyContext) :=
  ctx.searchKeyval code scope table fun _ => none

/-! ## Secondary rows: `generic_index` -/

section GenericIndexCalls

variable (k : IndexKind)

def store (scope table : Nat) (payer : AccountName) (id value : Nat) :
    Result (Reply × ApplyContext) := do
  eosAssert (payer ≠ 0) .invalidTablePayer
    "must specify a valid account to pay for new record"
  let (tab, db) ← ctx.db.findOrCreateTable ctx.receiver scope table payer
  let (obj, g) ← create (db.secondary k) fun i => ⟨i, tab.id, id, payer, value⟩
  let db ← (db.setSecondary k g).incrementCount tab.id
  let db ← db.updateDbUsage payer (indexObjectBillableSize k)
  let (_, cache) := (ctx.itrCache k).cacheTable tab.id
  let (iterator, cache) := cache.add obj.id
  .ok ({ result := iterator }, { ctx with db }.setItrCache k cache)

variable (iterator : Int)

/-- `generic_index::remove`. The refund comes before the check. -/
def removeSecondary : Result (Reply × ApplyContext) := do
  let obj ← (ctx.itrCache k).get (ctx.db.secondary k) iterator
  let db ← ctx.db.updateDbUsage obj.payer (-indexObjectBillableSize k)
  let tableObj ← (ctx.itrCache k).getTable db.tables obj.tId
  eosAssert (tableObj.code = ctx.receiver) .tableAccessViolation "db access violation"
  let db ← db.decrementCount tableObj.id
  let g ← remove (db.secondary k) obj.id
  let db ← (db.setSecondary k g).removeTableIfEmpty tableObj.id
  let cache ← (ctx.itrCache k).remove iterator
  .ok ({}, { ctx with db }.setItrCache k cache)

def chargePayer (db : ContractDb) (obj : IndexObject k) (payer : AccountName) : Result ContractDb :=
  if obj.payer ≠ payer then do
    let db ← db.updateDbUsage obj.payer (-indexObjectBillableSize k)
    db.updateDbUsage payer (indexObjectBillableSize k)
  else .ok db

def update (payer : AccountName) (secondary : Nat) : Result (Reply × ApplyContext) := do
  let obj ← (ctx.itrCache k).get (ctx.db.secondary k) iterator
  let tableObj ← (ctx.itrCache k).getTable ctx.db.tables obj.tId
  eosAssert (tableObj.code = ctx.receiver) .tableAccessViolation "db access violation"
  let payer := if payer = 0 then obj.payer else payer
  let db ← chargePayer k ctx.db obj payer
  let g ← Chain.modify (db.secondary k) obj.id fun o => { o with secondaryKey := secondary, payer }
  .ok ({}, { ctx with db := db.setSecondary k g })

/-- A call that only moves the cache of the secondary rows; `out` are its out parameters. -/
def withItr (moved : Int × Option (IndexObject k) × IteratorCache) (out : IndexObject k → Reply) :
    Reply × ApplyContext :=
  ({ moved.2.1.elim {} out with result := moved.1 }, ctx.setItrCache k moved.2.2)

def search (code scope table : Nat) (p : TableIdObject → Option (IndexObject k))
    (out : IndexObject k → Reply) : Result (Reply × ApplyContext) :=
  .ok (ctx.withItr k ((ctx.itrCache k).locate (ctx.db.findTable code scope table) p) out)

section

variable (code scope table secondary : Nat)

/-- `find_secondary`: the first row with a key that is neither less nor greater. -/
def findSecondary : Result (Reply × ApplyContext) :=
  ctx.search k code scope table (fun tab =>
    firstWhere (ctx.db.secondary k) bySecondary fun o =>
      o.tId = tab.id ∧ k.rank o.secondaryKey = k.rank secondary)
    fun o => { primary := o.primaryKey }

def lowerboundSecondary : Result (Reply × ApplyContext) :=
  ctx.search k code scope table (fun tab =>
    (firstWhere (ctx.db.secondary k) bySecondary fun o =>
      (toLex (tab.id, k.rank secondary) : Int ×ₗ Int) ≤ toLex (o.tId, k.rank o.secondaryKey)).filter
      (·.tId = tab.id))
    fun o => { primary := o.primaryKey, secondary := o.secondaryKey }

def upperboundSecondary : Result (Reply × ApplyContext) :=
  ctx.search k code scope table (fun tab =>
    (firstWhere (ctx.db.secondary k) bySecondary fun o =>
      (toLex (tab.id, k.rank secondary) : Int ×ₗ Int) < toLex (o.tId, k.rank o.secondaryKey)).filter
      (·.tId = tab.id))
    fun o => { primary := o.primaryKey, secondary := o.secondaryKey }

end

def endSecondary (code scope table : Nat) : Result (Reply × ApplyContext) :=
  ctx.search k code scope table (fun _ => none) fun _ => {}

def nextSecondary : Result (Reply × ApplyContext) := do
  let moved ← (ctx.itrCache k).next (ctx.db.secondary k) bySecondary iterator
  .ok (ctx.withItr k moved fun o => { primary := o.primaryKey })

def previousSecondary : Result (Reply × ApplyContext) := do
  let moved ← (ctx.itrCache k).previous (ctx.db.secondary k) bySecondary ctx.db.tables iterator
  .ok (ctx.withItr k moved fun o => { primary := o.primaryKey })

section

variable (code scope table primary : Nat)

def findPrimary : Result (Reply × ApplyContext) :=
  ctx.search k code scope table (fun tab =>
    find (ctx.db.secondary k) fun o => o.tId = tab.id ∧ o.primaryKey = primary)
    fun o => { secondary := o.secondaryKey }

def lowerboundPrimary : Result (Reply × ApplyContext) :=
  ctx.search k code scope table (fun tab =>
    (firstWhere (ctx.db.secondary k) byPrimary (toLex (tab.id, primary) ≤ byPrimary ·)).filter
      (·.tId = tab.id))
    fun _ => {}

def upperboundPrimary : Result (Reply × ApplyContext) :=
  ctx.search k code scope table (fun tab =>
    (firstWhere (ctx.db.secondary k) byPrimary (toLex (tab.id, primary) < byPrimary ·)).filter
      (·.tId = tab.id))
    fun _ => {}

end

def nextPrimary : Result (Reply × ApplyContext) := do
  let moved ← (ctx.itrCache k).next (ctx.db.secondary k) byPrimary iterator
  .ok (ctx.withItr k moved fun o => { primary := o.primaryKey })

def previousPrimary : Result (Reply × ApplyContext) := do
  let moved ← (ctx.itrCache k).previous (ctx.db.secondary k) byPrimary ctx.db.tables iterator
  .ok (ctx.withItr k moved fun o => { primary := o.primaryKey })

/-- `generic_index::get`. -/
def getSecondary : Result (Reply × ApplyContext) := do
  let obj ← (ctx.itrCache k).get (ctx.db.secondary k) iterator
  .ok ({ primary := obj.primaryKey, secondary := obj.secondaryKey }, ctx)

end GenericIndexCalls

end ApplyContext

inductive Call where
  | dbStoreI64 (scope table : Nat) (payer : AccountName) (id : Nat) (buffer : List UInt8)
  | dbUpdateI64 (iterator : Int) (payer : AccountName) (buffer : List UInt8)
  | dbRemoveI64 (iterator : Int)
  | dbGetI64 (iterator : Int) (bufferSize : Nat)
  | dbNextI64 (iterator : Int)
  | dbPreviousI64 (iterator : Int)
  | dbFindI64 (code scope table id : Nat)
  | dbLowerboundI64 (code scope table id : Nat)
  | dbUpperboundI64 (code scope table id : Nat)
  | dbEndI64 (code scope table : Nat)
  | store (k : IndexKind) (scope table : Nat) (payer : AccountName) (id value : Nat)
  | update (k : IndexKind) (iterator : Int) (payer : AccountName) (secondary : Nat)
  | removeSecondary (k : IndexKind) (iterator : Int)
  | findSecondary (k : IndexKind) (code scope table secondary : Nat)
  | lowerboundSecondary (k : IndexKind) (code scope table secondary : Nat)
  | upperboundSecondary (k : IndexKind) (code scope table secondary : Nat)
  | endSecondary (k : IndexKind) (code scope table : Nat)
  | nextSecondary (k : IndexKind) (iterator : Int)
  | previousSecondary (k : IndexKind) (iterator : Int)
  | findPrimary (k : IndexKind) (code scope table primary : Nat)
  | lowerboundPrimary (k : IndexKind) (code scope table primary : Nat)
  | upperboundPrimary (k : IndexKind) (code scope table primary : Nat)
  | nextPrimary (k : IndexKind) (iterator : Int)
  | previousPrimary (k : IndexKind) (iterator : Int)
  | getSecondary (k : IndexKind) (iterator : Int)
deriving DecidableEq, Repr

namespace ApplyContext

def perform (ctx : ApplyContext) : Call → Result (Reply × ApplyContext)
  | .dbStoreI64 scope table payer id buffer => ctx.dbStoreI64 scope table payer id buffer
  | .dbUpdateI64 iterator payer buffer => ctx.dbUpdateI64 iterator payer buffer
  | .dbRemoveI64 iterator => ctx.dbRemoveI64 iterator
  | .dbGetI64 iterator bufferSize => ctx.dbGetI64 iterator bufferSize
  | .dbNextI64 iterator => ctx.dbNextI64 iterator
  | .dbPreviousI64 iterator => ctx.dbPreviousI64 iterator
  | .dbFindI64 code scope table id => ctx.dbFindI64 code scope table id
  | .dbLowerboundI64 code scope table id => ctx.dbLowerboundI64 code scope table id
  | .dbUpperboundI64 code scope table id => ctx.dbUpperboundI64 code scope table id
  | .dbEndI64 code scope table => ctx.dbEndI64 code scope table
  | .store k scope table payer id value => ctx.store k scope table payer id value
  | .update k iterator payer secondary => ctx.update k iterator payer secondary
  | .removeSecondary k iterator => ctx.removeSecondary k iterator
  | .findSecondary k code scope table secondary => ctx.findSecondary k code scope table secondary
  | .lowerboundSecondary k code scope table secondary =>
    ctx.lowerboundSecondary k code scope table secondary
  | .upperboundSecondary k code scope table secondary =>
    ctx.upperboundSecondary k code scope table secondary
  | .endSecondary k code scope table => ctx.endSecondary k code scope table
  | .nextSecondary k iterator => ctx.nextSecondary k iterator
  | .previousSecondary k iterator => ctx.previousSecondary k iterator
  | .findPrimary k code scope table primary => ctx.findPrimary k code scope table primary
  | .lowerboundPrimary k code scope table primary =>
    ctx.lowerboundPrimary k code scope table primary
  | .upperboundPrimary k code scope table primary =>
    ctx.upperboundPrimary k code scope table primary
  | .nextPrimary k iterator => ctx.nextPrimary k iterator
  | .previousPrimary k iterator => ctx.previousPrimary k iterator
  | .getSecondary k iterator => ctx.getSecondary k iterator

/-- The calls of contracts, action after action, from a database without tables. Every call
satisfies `P` in the context in which it is made. -/
inductive Run (P : ApplyContext → Call → Prop) (resources : AccountResources) :
    ApplyContext → Prop where
  | start (receiver : AccountName) :
      Run P resources (new receiver ⟨emptyIndex, emptyIndex, fun _ => emptyIndex, resources⟩)
  /-- the next action of the transaction, or of another one -/
  | action {ctx : ApplyContext} (receiver : AccountName) :
      Run P resources ctx → Run P resources (new receiver ctx.db)
  /-- the contract of an account that is notified of the action -/
  | notify {ctx : ApplyContext} (receiver : AccountName) :
      Run P resources ctx → Run P resources { ctx with receiver }
  | call {ctx ctx' : ApplyContext} {call : Call} {reply : Reply} :
      Run P resources ctx → P ctx call → ctx.perform call = .ok (reply, ctx') →
      Run P resources ctx'

end ApplyContext

end PotatoNode.Chain
