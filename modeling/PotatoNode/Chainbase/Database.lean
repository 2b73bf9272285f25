import Mathlib.Algebra.Group.Int.Defs
import PotatoNode.Chainbase.GenericIndex

/-!
# The database (`chainbase.hpp`, `chainbase.cpp`)

A database is a file with the indices that were ever made in it, and the list of those that are
registered. Every call is forwarded to the registered indices one by one, so that nothing but the
code keeps them together. The statements are `EStateM`, for an exception leaves the indices before
it changed. An open session object has a sub-session for every index that was registered when it
was started.

`revision` is an `int64_t`: there is no revision after the largest one. That the memory of the file
suffices is assumed.
-/

namespace PotatoNode.Chainbase

open Lib

/-- `std::numeric_limits<int64_t>::max()`. -/
def maxRevision : Int := 2 ^ 63 - 1

namespace GenericIndex

variable {V : Type} [ValueType V]

/-! ## Calls on one index -/

def new : GenericIndex V where
  stack := []
  revision := 0
  nextId := 0
  indices := ⟨Table.empty, unique_empty⟩

/-- `start_undo_session( true )`. The signed increment must not overflow. -/
def openSession (g : GenericIndex V) : Result (GenericIndex V) :=
  if g.revision = maxRevision then .error .undefinedBehaviour else .ok (g.startUndoSession true)

/-- The loop of `undo_all`; every round takes a record off the stack. -/
def undoAllLoop : (fuel : Nat) → GenericIndex V → Result (GenericIndex V)
  | 0, g => .ok g
  | fuel + 1, g =>
    if g.stack.isEmpty then .ok g
    else do
      let g ← g.undo
      undoAllLoop fuel g

def undoAll (g : GenericIndex V) : Result (GenericIndex V) := undoAllLoop g.stack.length g

/-- `set_revision`. The argument is a `uint64_t`. -/
def setRevision (revision : Nat) (g : GenericIndex V) : Result (GenericIndex V) :=
  if g.stack.length ≠ 0 then
    .error (.logicError "cannot set revision while there is an existing undo stack")
  else if maxRevision < revision then .error (.logicError "revision to set is too high")
  else .ok { g with revision }

def undoStackRevisionRange (g : GenericIndex V) : Int × Int :=
  match g.stack.getLast?, g.stack.head? with
  | some front, some back => (front.revision - 1, back.revision)
  | _, _ => (g.revision, g.revision)

/-- The loop of `add_index` that opens and pushes sessions up to a revision. -/
def openUpTo (revision : Int) : (fuel : Nat) → GenericIndex V → Result (GenericIndex V)
  | 0, g => .ok g
  | fuel + 1, g =>
    if g.revision < revision then do
      let g ← g.openSession
      openUpTo revision fuel g
    else .ok g

end GenericIndex

/-! ## The database -/

/-- `database`. `T` are the types of indices. -/
structure Database {T : Type} (V : T → Type) [∀ t, ValueType (V t)] where
  /-- the indices in the file -/
  file : (t : T) → Option (GenericIndex (V t))
  /-- `_index_list` -/
  indexList : List T
  readOnly : Bool
  /-- the session objects that are open, with the indices of their sub-sessions -/
  sessions : List (List T)

/-- What the database knows of a type of indices. -/
class IndexTypes (T : Type) where
  typeId : T → Nat
  typeName : T → String

section Calls

variable {T : Type} [DecidableEq T] {V : T → Type} [∀ t, ValueType (V t)]

abbrev DatabaseM (V : T → Type) [∀ t, ValueType (V t)] := EStateM Failure (Database V)

namespace Database

def onIndex (t : T) (f : GenericIndex (V t) → Result (GenericIndex (V t))) : DatabaseM V Unit :=
  attempt fun db =>
    match db.file t with
    | none => .error .undefinedBehaviour
    | some g =>
      match f g with
      | .ok g' => .ok { db with file := Function.update db.file t (some g') }
      | .error e => .error e

/-- The same call of some indices, one after the other. -/
def onIndices (ts : List T) (f : ∀ t, GenericIndex (V t) → Result (GenericIndex (V t))) :
    DatabaseM V Unit :=
  ts.forM fun t => onIndex t (f t)

def onAll (f : ∀ t, GenericIndex (V t) → Result (GenericIndex (V t))) : DatabaseM V Unit := do
  let db ← get
  onIndices db.indexList f

def undo : DatabaseM V Unit := onAll fun _ g => g.undo

def squash : DatabaseM V Unit := onAll fun _ g => g.squash

def commit (revision : Int) : DatabaseM V Unit := onAll fun _ g => .ok (g.commit revision)

def undoAll : DatabaseM V Unit := onAll fun _ g => g.undoAll

def setRevision (revision : Nat) : DatabaseM V Unit := onAll fun _ g => g.setRevision revision

def startUndoSession (enabled : Bool) : DatabaseM V Unit := do
  let db ← get
  let subSessions := if enabled then db.indexList else []
  onIndices subSessions fun _ g => g.openSession
  modify fun db => { db with sessions := subSessions :: db.sessions }

/-- `push`, `squash` or `undo` of an open session object, the latter also by its destructor: what
it does with its sub-sessions. -/
def closeSession (k : Nat) (f : ∀ t, GenericIndex (V t) → Result (GenericIndex (V t))) :
    DatabaseM V Unit := do
  let db ← get
  match db.sessions[k]? with
  | none => throw .undefinedBehaviour
  | some subSessions => do
    onIndices subSessions f
    modify fun db => { db with sessions := db.sessions.eraseIdx k }

variable [IndexTypes T]

/-- `static_cast<uint64_t>`. -/
def toUInt64 (i : Int) : Nat := (i % 2 ^ 64).toNat

/-- `std::to_string` of both ends. -/
def showRange (r : Int × Int) : String := "[" ++ toString r.1 ++ ", " ++ toString r.2 ++ "]"

def alignWith (firstTimeAdding readOnly : Bool) (typeName : String) (expected : Int × Int)
    {W : Type} [ValueType W] (g : GenericIndex W) : Result (GenericIndex W) :=
  let added := g.undoStackRevisionRange
  if added = expected then .ok g
  else if !firstTimeAdding then
    .error (.logicError ("existing index for " ++ typeName
      ++ " has an undo stack (revision range " ++ showRange added
      ++ ") that is inconsistent with other indices in the database (revision range "
      ++ showRange expected ++ "); corrupted database?"))
  else if readOnly then
    .error (.logicError ("new index for " ++ typeName
      ++ " requires an undo stack that is consistent with other indices in the database; "
      ++ "cannot fix in read-only mode"))
  else do
    let g ← g.setRevision (toUInt64 expected.1)
    GenericIndex.openUpTo expected.2 (expected.2 - g.revision).toNat g

def findOrConstruct (t : T) : DatabaseM V Unit := attempt fun db =>
  match db.file t with
  | some _ => .ok db
  | none =>
    if db.readOnly then
      .error (.runtimeError ("unable to find index for " ++ IndexTypes.typeName t
        ++ " in read only database"))
    else .ok { db with file := Function.update db.file t (some GenericIndex.new) }

def expectedRange (db : Database V) : Option (Int × Int) :=
  match db.indexList with
  | [] => none
  | front :: _ => (db.file front).map (·.undoStackRevisionRange)

def alignIndex (t : T) (firstTimeAdding : Bool) : DatabaseM V Unit := do
  let db ← get
  match db.expectedRange with
  | none => pure ()
  | some expected =>
    onIndex t (alignWith firstTimeAdding db.readOnly (IndexTypes.typeName t) expected)

/-- `add_index`, without the check of the sizes. -/
def addIndex (t : T) : DatabaseM V Unit := do
  let db ← get
  if db.indexList.any fun s => IndexTypes.typeId s == IndexTypes.typeId t then
    throw (.logicError (IndexTypes.typeName t ++ "::type_id is already in use"))
  else do
    findOrConstruct t
    alignIndex t (db.file t).isNone
    modify fun db => { db with indexList := db.indexList ++ [t] }

end Database

inductive DatabaseCall (V : T → Type) where
  | addIndex (t : T)
  | startUndoSession (enabled : Bool)
  | pushSession (k : Nat)
  | squashSession (k : Nat)
  | undoSession (k : Nat)
  | undo
  | squash
  | commit (revision : Int)
  | undoAll
  | setRevision (revision : Nat)
  /-- `create`, `modify` or `remove` of an object -/
  | operation (t : T) (op : Operation (V t))
  /-- another `database` of the same file -/
  | reopen (readOnly : Bool)

variable [IndexTypes T]

def DatabaseCall.run : DatabaseCall V → DatabaseM V Unit
  | .addIndex t => Database.addIndex t
  | .startUndoSession enabled => Database.startUndoSession enabled
  | .pushSession k => Database.closeSession k fun _ g => .ok g
  | .squashSession k => Database.closeSession k fun _ g => g.squash
  | .undoSession k => Database.closeSession k fun _ g => g.undo
  | .undo => Database.undo
  | .squash => Database.squash
  | .commit revision => Database.commit revision
  | .undoAll => Database.undoAll
  | .setRevision revision => Database.setRevision revision
  | .operation t op => Database.onIndex t op.run
  | .reopen readOnly => modify fun db => { db with indexList := [], readOnly }

def Failure.isException : Failure → Bool
  | .logicError _ => true
  | .runtimeError _ => true
  | _ => false

/-- The state after a call that returns or throws. -/
def Database.step (db : Database V) (call : DatabaseCall V) : Result (Database V) :=
  match call.run db with
  | .ok _ db' => .ok db'
  | .error e db' => if e.isException then .ok db' else .error e

end Calls

end PotatoNode.Chainbase
