import PotatoNode.Chain.ContractTables

/-!
# `iterator_cache` (`apply_context.hpp`)

Contracts refer to rows by numbers. The cache of an index gives each row that a contract has come
to the next number from 0 on, and each table an *end iterator*, from -2 downwards; -1 is for
tables that do not exist. It keeps pointers to the rows and to the headers of the tables. A row
that is removed through the cache leaves it; nothing ever leaves a table.

The functions that move over an index are the same for primary and secondary rows, up to the index
and its order: `locate`, `next` and `previous` have what they do to the cache.
-/

namespace PotatoNode.Chain

open Lib Chainbase

/-- `iterator_cache<T>`; pointers are the ids of what they point to. -/
structure IteratorCache where
  /-- `_table_cache`: the end iterator for each table; the pointer it has is the table's own -/
  tableCache : FlatMap Int Int
  endIteratorToTable : List Int
  /-- null where the row has been removed -/
  iteratorToObject : List (Option Int)
  objectToIterator : FlatMap Int Int

namespace IteratorCache

def empty : IteratorCache := ⟨FlatMap.empty, [], [], FlatMap.empty⟩

variable (c : IteratorCache)

def cacheTable (tableId : Int) : Int × IteratorCache :=
  match c.tableCache.get? tableId with
  | some ei => (ei, c)
  | none =>
    let ei : Int := -(c.endIteratorToTable.length + 2)
    (ei, { c with
      endIteratorToTable := c.endIteratorToTable ++ [tableId]
      tableCache := c.tableCache.set tableId ei })

def getTable (tables : GenericIndex TableIdObject) (i : Int) : Result TableIdObject := do
  eosAssert (c.tableCache.get? i).isSome .tableNotInCache
    "an invariant was broken, table should be in cache"
  deref tables i

def getEndIteratorByTableId (i : Int) : Result Int :=
  match c.tableCache.get? i with
  | some ei => .ok ei
  | none => eosThrow .tableNotInCache "an invariant was broken, table should be in cache"

def findTableByEndIterator (ei : Int) : Result (Option Int) := do
  eosAssert (ei < -1) .invalidTableIterator "not an end iterator"
  .ok (c.endIteratorToTable[(-ei - 2).toNat]?)

/-- The checks that `get` and `remove` make on an iterator, and what is there. -/
def objectAt (iterator : Int) (endMessage : String) : Result (Option Int) := do
  eosAssert (iterator ≠ -1) .invalidTableIterator "invalid iterator"
  eosAssert (0 ≤ iterator) .tableOperationNotPermitted endMessage
  match c.iteratorToObject[iterator.toNat]? with
  | some ptr => .ok ptr
  | none => eosThrow .invalidTableIterator "iterator out of range"

def get {O : Type} [ValueType O] (g : GenericIndex O) (iterator : Int) : Result O := do
  match ← c.objectAt iterator "dereference of end iterator" with
  | none => eosThrow .tableOperationNotPermitted "dereference of deleted object"
  | some ptr => deref g ptr

def remove (iterator : Int) : Result IteratorCache := do
  match ← c.objectAt iterator "cannot call remove on end iterators" with
  | none => .ok c
  | some ptr => .ok { c with
      iteratorToObject := c.iteratorToObject.set iterator.toNat none
      objectToIterator := c.objectToIterator.erase ptr }

def add (ptr : Int) : Int × IteratorCache :=
  match c.objectToIterator.get? ptr with
  | some iterator => (iterator, c)
  | none =>
    let iterator : Int := c.iteratorToObject.length
    (iterator, { c with
      iteratorToObject := c.iteratorToObject ++ [some ptr]
      objectToIterator := c.objectToIterator.set ptr iterator })

/-! ## Moving over an index -/

variable {O R : Type} [TableRow O] [LinearOrder R]

def locate (tab : Option TableIdObject) (search : TableIdObject → Option O) :
    Int × Option O × IteratorCache :=
  match tab with
  | none => (-1, none, c)
  | some tab =>
    let (tableEndItr, c) := c.cacheTable tab.id
    match search tab with
    | none => (tableEndItr, none, c)
    | some obj =>
      let (iterator, c) := c.add (ValueType.id obj)
      (iterator, some obj, c)

def next (g : GenericIndex O) (rank : O → R) (iterator : Int) :
    Result (Int × Option O × IteratorCache) :=
  -- cannot increment past end iterator of table
  if iterator < -1 then .ok (-1, none, c)
  else do
    let obj ← c.get g iterator
    match (firstWhere g rank (rank obj < rank ·)).filter (TableRow.tId · = TableRow.tId obj) with
    | none =>
      let ei ← c.getEndIteratorByTableId (TableRow.tId obj)
      .ok (ei, none, c)
    | some itr =>
      let (iterator, c) := c.add (ValueType.id itr)
      .ok (iterator, some itr, c)

def stepBack (itr : Option O) (tableId : Int) : Int × Option O × IteratorCache :=
  match itr.filter (TableRow.tId · = tableId) with
  | none => (-1, none, c)
  | some itr =>
    let (iterator, c) := c.add (ValueType.id itr)
    (iterator, some itr, c)

def previous (g : GenericIndex O) (rank : O → R) (tables : GenericIndex TableIdObject)
    (iterator : Int) : Result (Int × Option O × IteratorCache) :=
  if iterator < -1 then do
    match ← c.findTableByEndIterator iterator with
    | none => eosThrow .invalidTableIterator "not a valid end iterator"
    | some ptr => do
      let tab ← deref tables ptr
      -- the row before `upper_bound( tab->id )`
      .ok (c.stepBack (lastWhere g rank (TableRow.tId · ≤ tab.id)) tab.id)
  else do
    let obj ← c.get g iterator
    .ok (c.stepBack (lastWhere g rank (rank · < rank obj)) (TableRow.tId obj))

end IteratorCache

end PotatoNode.Chain
