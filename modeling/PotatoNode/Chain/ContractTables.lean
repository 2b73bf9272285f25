import Mathlib.Data.Fintype.Basic
import Mathlib.Data.List.MinMax
import PotatoNode.Chain.AuthorizationManager

/-!
# Contract tables (`contract_table_objects.hpp`, `apply_context.cpp`)

The rows that contracts keep are objects of six indices: `key_value_object` for the primary rows,
and an `index_object` for each of five kinds of secondary keys. Rows belong to a `table_id_object`,
the header of a table, which counts them; somebody pays for each row and for each header.

A secondary key is the number its bytes spell: the two words of a 256 bit key in their order, the
bit pattern of a float. `IndexKind.rank` is the order of its index; contracts cannot pass a NaN.
-/

namespace PotatoNode.Chain

open Lib Chainbase List

/-! ## Objects -/

structure TableIdObject where
  id : Int
  code : Nat
  scope : Nat
  table : Nat
  payer : AccountName
  /-- the number of elements in the table -/
  count : UInt32 := 0
deriving DecidableEq, Repr

instance : ValueType TableIdObject where
  id := TableIdObject.id
  clash a b := a.code = b.code ∧ a.scope = b.scope ∧ a.table = b.table
  clash_comm a b := by simp only [eq_comm]

/-- What the rows of all kinds have in common. -/
class TableRow (O : Type) extends ValueType O where
  tId : O → Int
  primaryKey : O → Nat
  payer : O → AccountName
  /-- what the payer is charged for the row -/
  billableSize : O → Nat

structure KeyValueObject where
  id : Int
  tId : Int
  primaryKey : Nat
  payer : AccountName
  value : List UInt8
deriving DecidableEq, Repr

inductive IndexKind where
  | idx64
  | idx128
  | idx256
  | idxDouble
  | idxLongDouble
deriving DecidableEq, Repr

instance : Fintype IndexKind where
  elems := {.idx64, .idx128, .idx256, .idxDouble, .idxLongDouble}
  complete k := by cases k <;> decide

structure IndexObject (k : IndexKind) where
  id : Int
  tId : Int
  primaryKey : Nat
  payer : AccountName
  secondaryKey : Nat
deriving DecidableEq, Repr

namespace IndexKind

def keySize : IndexKind → Nat
  | idx64 => 8
  | idx128 => 16
  | idx256 => 32
  | idxDouble => 8
  | idxLongDouble => 16

/-- A float with `bits` bits below the sign, as `f64_lt` and `f128_lt` compare it. -/
def floatRank (bits : Nat) (key : Nat) : Int :=
  if key / 2 ^ bits % 2 = 1 then -(key % 2 ^ bits : Nat) else key

def rank : IndexKind → Nat → Int
  | idx64, key => key
  | idx128, key => key
  | idx256, key => key
  | idxDouble, key => floatRank 63 key
  | idxLongDouble, key => floatRank 127 key

end IndexKind

/-! ## Billable sizes -/

def tableIdObjectBillableSize : Nat := billableSizeV (44 + overheadPerRowPerIndexRamBytes * 2)

def keyValueObjectBillableSize : Nat :=
  billableSizeV (32 + 8 + 4 + overheadPerRowPerIndexRamBytes * 2)

def indexObjectBillableSize (k : IndexKind) : Nat :=
  billableSizeV (24 + k.keySize + overheadPerRowPerIndexRamBytes * 3)

instance : TableRow KeyValueObject where
  id := KeyValueObject.id
  clash a b := a.tId = b.tId ∧ a.primaryKey = b.primaryKey
  clash_comm a b := by simp only [eq_comm]
  tId := KeyValueObject.tId
  primaryKey := KeyValueObject.primaryKey
  payer := KeyValueObject.payer
  billableSize o := o.value.length + keyValueObjectBillableSize

/-- Objects that agree in `by_secondary` agree in `by_primary`. -/
instance (k : IndexKind) : TableRow (IndexObject k) where
  id := IndexObject.id
  clash a b := a.tId = b.tId ∧ a.primaryKey = b.primaryKey
  clash_comm a b := by simp only [eq_comm]
  tId := IndexObject.tId
  primaryKey := IndexObject.primaryKey
  payer := IndexObject.payer
  billableSize _ := indexObjectBillableSize k

/-! ## Ordered indices -/

section Ordered

variable {O R : Type} [TableRow O] [LinearOrder R]

def byPrimary (o : O) : Int ×ₗ Nat := toLex (TableRow.tId o, TableRow.primaryKey o)

def bySecondary {k : IndexKind} (o : IndexObject k) : Int ×ₗ Int ×ₗ Nat :=
  toLex (o.tId, toLex (k.rank o.secondaryKey, o.primaryKey))

def firstWhere (g : GenericIndex O) (rank : O → R) (p : O → Bool) : Option O :=
  (g.indices.objects.entries.filter p).argmin rank

def lastWhere (g : GenericIndex O) (rank : O → R) (p : O → Bool) : Option O :=
  (g.indices.objects.entries.filter p).argmax rank

variable {g : GenericIndex O} {rank : O → R} {p : O → Bool}

theorem mem_of_firstWhere {o : O} (h : firstWhere g rank p = some o) : o ∈ g :=
  (mem_filter.1 (argmin_mem h)).1

theorem of_firstWhere {o : O} (h : firstWhere g rank p = some o) : p o = true :=
  (mem_filter.1 (argmin_mem h)).2

theorem mem_of_lastWhere {o : O} (h : lastWhere g rank p = some o) : o ∈ g :=
  (mem_filter.1 (argmax_mem h)).1

end Ordered

/-- Dereferences a pointer to an object. Ids are not used twice while a pointer is held, so the id
of the object stands for its address; an object that is gone leaves the pointer dangling. -/
def deref {V : Type} [ValueType V] (g : GenericIndex V) (id : Int) : Result V :=
  match g.indices.find? id with
  | some v => .ok v
  | none => .error .undefinedBehaviour

theorem deref_eq_ok {V : Type} [ValueType V] {g : GenericIndex V} {id : Int} {v : V} :
    deref g id = .ok v ↔ v ∈ g ∧ ValueType.id v = id := by
  have hfind : g.indices.find? id = some v ↔ v ∈ g ∧ ValueType.id v = id := Table.find?_eq_some_iff
  unfold deref
  cases h : g.indices.find? id with
  | none =>
    rw [h] at hfind
    exact ⟨nofun, fun hv => nomatch hfind.2 hv⟩
  | some w =>
    rw [h, Option.some_inj] at hfind
    rw [← hfind]
    exact ⟨Except.ok.inj, congrArg _⟩

/-! ## The database -/

/-- The contract tables, and the accounts that pay for them. -/
structure ContractDb where
  tables : GenericIndex TableIdObject
  keyValues : GenericIndex KeyValueObject
  secondary : (k : IndexKind) → GenericIndex (IndexObject k)
  resources : AccountResources

namespace ContractDb

variable (db : ContractDb)

def setSecondary (k : IndexKind) (g : GenericIndex (IndexObject k)) : ContractDb :=
  { db with secondary := Function.update db.secondary k g }

theorem secondary_setSecondary_self (k : IndexKind) (g : GenericIndex (IndexObject k)) :
    (db.setSecondary k g).secondary k = g := by
  simp [setSecondary]

variable {db} in
theorem secondary_setSecondary_of_ne {j k : IndexKind} {g : GenericIndex (IndexObject k)}
    (h : j ≠ k) : (db.setSecondary k g).secondary j = db.secondary j := by
  simp [setSecondary, h]

def updateDbUsage (payer : AccountName) (delta : Int) : Result ContractDb := do
  let resources ← db.resources.addPendingRamUsage payer delta
  .ok { db with resources }

def findTable (code scope table : Nat) : Option TableIdObject :=
  find db.tables fun t => t.code = code ∧ t.scope = scope ∧ t.table = table

def findOrCreateTable (code scope table : Nat) (payer : AccountName) :
    Result (TableIdObject × ContractDb) :=
  match db.findTable code scope table with
  | some existingTid => .ok (existingTid, db)
  | none => do
    let db ← db.updateDbUsage payer tableIdObjectBillableSize
    let (t, tables) ← create db.tables fun id => { id, code, scope, table, payer }
    .ok (t, { db with tables })

def removeTable (tid : TableIdObject) : Result ContractDb := do
  let db ← db.updateDbUsage tid.payer (-tableIdObjectBillableSize)
  let tables ← remove db.tables tid.id
  .ok { db with tables }

def incrementCount (id : Int) : Result ContractDb := do
  let tables ← Chain.modify db.tables id fun t => { t with count := t.count + 1 }
  .ok { db with tables }

def decrementCount (id : Int) : Result ContractDb := do
  let tables ← Chain.modify db.tables id fun t => { t with count := t.count - 1 }
  .ok { db with tables }

def removeTableIfEmpty (id : Int) : Result ContractDb := do
  let tableObj ← deref db.tables id
  if tableObj.count = 0 then db.removeTable tableObj else .ok db

end ContractDb

end PotatoNode.Chain
