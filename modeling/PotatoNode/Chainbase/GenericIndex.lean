import Mathlib.Data.List.DropRight
import PotatoNode.Lib.Imperative
import PotatoNode.Lib.Table

/-!
# `generic_index` (`chainbase.hpp`)

An index holds the objects of one type in a `multi_index_container` and keeps an undo record for
every open session: the ids of the objects created in it, the old values of those modified and of
those removed. `undo` puts an index back from the newest record.
-/

namespace PotatoNode.Chainbase

open Lib List Table

theorem rdropWhile_cons_of_not {α : Type} {p : α → Bool} {a : α} {l : List α} (h : ¬ p a = true) :
    (a :: l).rdropWhile p = a :: l.rdropWhile p := by
  induction l using reverseRecOn with
  | nil => simp [rdropWhile_singleton, h]
  | append_singleton l b ih =>
    rw [← cons_append]
    by_cases hb : p b = true
    · rw [rdropWhile_concat_pos _ _ _ hb, rdropWhile_concat_pos _ _ _ hb, ih]
    · rw [rdropWhile_concat_neg _ _ _ hb, rdropWhile_concat_neg _ _ _ hb, cons_append]

inductive Failure where
  | logicError (message : String)
  | runtimeError (message : String)
  /-- `std::abort`, on a uniqueness violation -/
  | abort
  /-- a reference or an iterator to an object that is not there -/
  | undefinedBehaviour
deriving DecidableEq, Repr

abbrev Result := Except Failure

/-- `value_type` and the unique indices of its container. -/
class ValueType (V : Type) where
  id : V → Int
  /-- do the objects agree in the key of a unique index other than `by_id`? -/
  clash : V → V → Bool
  clash_comm : ∀ a b, clash a b = clash b a

abbrev ObjectTable (V : Type) [ValueType V] := Table (ValueType.id : V → Int)

/-- `id_type_set`. -/
abbrev IdSet := Table (fun id : Int => id)

def Unique {V : Type} [ValueType V] (objects : ObjectTable V) : Prop :=
  ∀ a ∈ objects, ∀ b ∈ objects, ValueType.clash a b = true → a = b

instance {V : Type} [ValueType V] [DecidableEq V] (objects : ObjectTable V) :
    Decidable (Unique objects) :=
  inferInstanceAs (Decidable (∀ a ∈ objects.entries, ∀ b ∈ objects.entries, _ → a = b))

/-- `index_type`. -/
@[ext] structure Indices (V : Type) [ValueType V] where
  objects : ObjectTable V
  unique : Unique objects

variable {V : Type} [ValueType V]

theorem unique_empty : Unique (empty : ObjectTable V) := fun a ha => absurd ha (notMem_empty a)

namespace Indices

def find? (t : Indices V) (id : Int) : Option V := t.objects.find? id

def erase (t : Indices V) (id : Int) : Indices V where
  objects := t.objects.erase id
  unique a ha b hb := t.unique a (Table.mem_erase.1 ha).1 b (Table.mem_erase.1 hb).1

def Admits (t : Indices V) (v : V) : Prop :=
  ∀ a ∈ t.objects, ValueType.id a ≠ ValueType.id v ∧ ValueType.clash a v = false

instance (t : Indices V) (v : V) : Decidable (t.Admits v) :=
  inferInstanceAs (Decidable (∀ a ∈ t.objects.entries, _))

variable {t : Indices V} {v : V}

theorem Admits.unique (h : t.Admits v) : Unique (t.objects.insert v) := by
  intro a ha b hb hclash
  rw [mem_insert] at ha hb
  rcases ha with rfl | ⟨ha, -⟩
  · rcases hb with rfl | ⟨hb, -⟩
    · rfl
    · rw [ValueType.clash_comm, (h b hb).2] at hclash
      cases hclash
  · rcases hb with rfl | ⟨hb, -⟩
    · rw [(h a ha).2] at hclash
      cases hclash
    · exact t.unique a ha b hb hclash

/-- `emplace`: nothing if the id or the key of another unique index is taken. -/
def emplace? (t : Indices V) (v : V) : Option (Indices V) :=
  if h : t.Admits v then some ⟨t.objects.insert v, h.unique⟩ else none

variable {t' : Indices V}

theorem emplace?_eq_some :
    t.emplace? v = some t' ↔ t.Admits v ∧ t'.objects = t.objects.insert v := by
  unfold emplace?
  split
  · next hadmits =>
    rw [Option.some_inj]
    exact ⟨fun heq => ⟨hadmits, heq ▸ rfl⟩, fun h => Indices.ext h.2.symm⟩
  · next hadmits => exact ⟨nofun, fun h => absurd h.1 hadmits⟩

/-- `modify`: nothing if the new object violates a unique index. -/
def replace? (t : Indices V) (id : Int) (v : V) : Option (Indices V) := (t.erase id).emplace? v

theorem replace?_eq_some :
    t.replace? (ValueType.id v) v = some t'
      ↔ (t.erase (ValueType.id v)).Admits v ∧ t'.objects = t.objects.insert v := by
  unfold replace?
  rw [emplace?_eq_some]
  show _ ∧ t'.objects = (t.objects.erase _).insert v ↔ _
  rw [insert_erase]

theorem exists_replace? (h : Unique (t.objects.insert v)) :
    ∃ t', t.replace? (ValueType.id v) v = some t' ∧ t'.objects = t.objects.insert v := by
  have hadmits : (t.erase (ValueType.id v)).Admits v := by
    intro a ha
    obtain ⟨hat, hid⟩ := mem_erase.1 ha
    refine ⟨hid, Bool.eq_false_iff.2 fun hclash => hid ?_⟩
    rw [h a (mem_insert.2 (.inr ⟨hat, hid⟩)) v (mem_insert.2 (.inl rfl)) hclash]
  exact ⟨⟨t.objects.insert v, h⟩, replace?_eq_some.2 ⟨hadmits, rfl⟩, rfl⟩

end Indices

structure UndoState (V : Type) [ValueType V] where
  oldValues : ObjectTable V
  removedValues : ObjectTable V
  newIds : IdSet
  oldNextId : Int
  revision : Int

/-- `generic_index`. The stack has the newest record first. -/
structure GenericIndex (V : Type) [ValueType V] where
  stack : List (UndoState V)
  revision : Int
  nextId : Int
  indices : Indices V

namespace UndoState

variable (head : UndoState V)

/-- `on_modify`: the first value that the session has changed is kept. -/
def onModify (v : V) : UndoState V :=
  if head.newIds.contains (ValueType.id v) then head
  else if head.oldValues.contains (ValueType.id v) then head
  else { head with oldValues := head.oldValues.emplace v }

/-- `on_remove`: a new object leaves no trace, a modified one has its old value. -/
def onRemove (v : V) : UndoState V :=
  if head.newIds.contains (ValueType.id v) then
    { head with newIds := head.newIds.erase (ValueType.id v) }
  else
    match head.oldValues.find? (ValueType.id v) with
    | some old =>
      { head with
        removedValues := head.removedValues.emplace old
        oldValues := head.oldValues.erase (ValueType.id v) }
    | none =>
      if head.removedValues.contains (ValueType.id v) then head
      else { head with removedValues := head.removedValues.emplace v }

def onCreate (v : V) : UndoState V :=
  { head with newIds := head.newIds.insert (ValueType.id v) }

/-- Operations do not change where the session started. -/
def SameStart (head head' : UndoState V) : Prop :=
  head'.oldNextId = head.oldNextId ∧ head'.revision = head.revision

variable {a b : UndoState V}

theorem SameStart.trans {c : UndoState V} (h : a.SameStart b) (h' : b.SameStart c) :
    a.SameStart c :=
  ⟨h'.1.trans h.1, h'.2.trans h.2⟩

theorem SameStart.symm (h : a.SameStart b) : b.SameStart a := ⟨h.1.symm, h.2.symm⟩

theorem sameStart_onModify (v : V) : head.SameStart (head.onModify v) := by
  unfold onModify
  repeat' split
  all_goals exact ⟨rfl, rfl⟩

theorem sameStart_onRemove (v : V) : head.SameStart (head.onRemove v) := by
  unfold onRemove
  repeat' split
  all_goals exact ⟨rfl, rfl⟩

theorem sameStart_onCreate (v : V) : head.SameStart (head.onCreate v) := ⟨rfl, rfl⟩

end UndoState

namespace GenericIndex

def record (g : GenericIndex V) (f : UndoState V → UndoState V) : GenericIndex V :=
  match g.stack with
  | [] => g
  | head :: rest => { g with stack := f head :: rest }

variable {g g' : GenericIndex V}

theorem record_of_stack {head : UndoState V} {rest : List (UndoState V)}
    (h : g.stack = head :: rest) (f : UndoState V → UndoState V) :
    g.record f = { g with stack := f head :: rest } := by
  unfold record
  rw [h]

@[simp] theorem nextId_record (g : GenericIndex V) (f : UndoState V → UndoState V) :
    (g.record f).nextId = g.nextId := by
  unfold record
  split
  · rfl
  · rfl

def emplace (g : GenericIndex V) (constructor : Int → V) : Result (GenericIndex V) :=
  let v := constructor g.nextId
  match g.indices.emplace? v with
  | none => .error (.logicError
      "could not insert object, most likely a uniqueness constraint was violated")
  | some indices => .ok { g.record (·.onCreate v) with indices, nextId := g.nextId + 1 }

theorem emplace_eq_ok {constructor : Int → V} (h : g.emplace constructor = .ok g') :
    ∃ indices, g.indices.emplace? (constructor g.nextId) = some indices
      ∧ g' = { g.record (·.onCreate (constructor g.nextId)) with
          indices, nextId := g.nextId + 1 } := by
  dsimp only [emplace] at h
  split at h
  · cases h
  · next indices hemplace =>
    cases h
    exact ⟨indices, hemplace, rfl⟩

/-- `modify` of the object with the given id. -/
def modify (g : GenericIndex V) (id : Int) (m : V → V) : Result (GenericIndex V) :=
  match g.indices.find? id with
  | none => .error .undefinedBehaviour
  | some obj =>
    match g.indices.replace? id (m obj) with
    | none => .error .abort
    | some indices => .ok { g.record (·.onModify obj) with indices }

variable {id : Int}

theorem modify_eq_ok {m : V → V} (h : g.modify id m = .ok g') :
    ∃ obj indices, g.indices.find? id = some obj ∧ g.indices.replace? id (m obj) = some indices
      ∧ g' = { g.record (·.onModify obj) with indices } := by
  unfold modify at h
  split at h
  · cases h
  · next obj hfind =>
    split at h
    · cases h
    · next indices hreplace =>
      cases h
      exact ⟨obj, indices, hfind, hreplace, rfl⟩

/-- `remove` of the object with the given id. -/
def remove (g : GenericIndex V) (id : Int) : Result (GenericIndex V) :=
  match g.indices.find? id with
  | none => .error .undefinedBehaviour
  | some obj => .ok { g.record (·.onRemove obj) with indices := g.indices.erase id }

theorem remove_eq_ok (h : g.remove id = .ok g') :
    ∃ obj, g.indices.find? id = some obj
      ∧ g' = { g.record (·.onRemove obj) with indices := g.indices.erase id } := by
  unfold remove at h
  split at h
  · cases h
  · next obj hfind =>
    cases h
    exact ⟨obj, hfind, rfl⟩

variable (g : GenericIndex V)

def startUndoSession (enabled : Bool) : GenericIndex V :=
  if enabled then
    { g with
      stack := ⟨Table.empty, Table.empty, Table.empty, g.nextId, g.revision + 1⟩ :: g.stack
      revision := g.revision + 1 }
  else g

/-- The first loop of `undo`. `erase( end() )` is undefined. -/
def eraseNew : List Int → Indices V → Result (Indices V)
  | [], t => .ok t
  | id :: rest, t =>
    match t.find? id with
    | none => .error .undefinedBehaviour
    | some _ => eraseNew rest (t.erase id)

/-- The second loop of `undo`. -/
def restoreOld : List V → Indices V → Result (Indices V)
  | [], t => .ok t
  | old :: rest, t =>
    match t.find? (ValueType.id old) with
    | none => .error .undefinedBehaviour
    | some _ =>
      match t.replace? (ValueType.id old) old with
      | none => .error .abort
      | some t => restoreOld rest t

/-- The third loop of `undo`. -/
def reinsert : List V → Indices V → Result (Indices V)
  | [], t => .ok t
  | removed :: rest, t =>
    match t.emplace? removed with
    | none => .error .abort
    | some t => reinsert rest t

def undo : Result (GenericIndex V) :=
  match g.stack with
  | [] => .ok g
  | head :: rest => do
    let indices ← eraseNew head.newIds.entries g.indices
    let indices ← restoreOld head.oldValues.entries indices
    let indices ← reinsert head.removedValues.entries indices
    .ok { stack := rest, revision := g.revision - 1, nextId := head.oldNextId, indices }

/-- The first loop of `squash`, over the old values of the newer record. A failed `assert` aborts. -/
def squashOld : List V → UndoState V → Result (UndoState V)
  | [], prev => .ok prev
  | item :: rest, prev =>
    if prev.newIds.contains (ValueType.id item) then squashOld rest prev
    else if prev.oldValues.contains (ValueType.id item) then squashOld rest prev
    else if prev.removedValues.contains (ValueType.id item) then .error .abort
    else squashOld rest { prev with oldValues := prev.oldValues.emplace item }

/-- The second loop of `squash`. -/
def squashNew : List Int → UndoState V → UndoState V
  | [], prev => prev
  | id :: rest, prev => squashNew rest { prev with newIds := prev.newIds.insert id }

/-- The third loop of `squash`, over the removed values of the newer record. -/
def squashRemoved : List V → UndoState V → Result (UndoState V)
  | [], prev => .ok prev
  | obj :: rest, prev =>
    if prev.newIds.contains (ValueType.id obj) then
      squashRemoved rest { prev with newIds := prev.newIds.erase (ValueType.id obj) }
    else
      match prev.oldValues.find? (ValueType.id obj) with
      | some old =>
        squashRemoved rest { prev with
          removedValues := prev.removedValues.emplace old
          oldValues := prev.oldValues.erase (ValueType.id obj) }
      | none =>
        if prev.removedValues.contains (ValueType.id obj) then .error .abort
        else squashRemoved rest { prev with removedValues := prev.removedValues.emplace obj }

def squash : Result (GenericIndex V) :=
  match g.stack with
  | [] => .ok g
  | [_] => .ok { g with stack := [], revision := g.revision - 1 }
  | state :: prevState :: rest => do
    let prev ← squashOld state.oldValues.entries prevState
    let prev := squashNew state.newIds.entries prev
    let prev ← squashRemoved state.removedValues.entries prev
    .ok { g with stack := prev :: rest, revision := g.revision - 1 }

/-- `commit`: the oldest records go. -/
def commit (revision : Int) : GenericIndex V :=
  { g with stack := g.stack.rdropWhile (·.revision ≤ revision) }

end GenericIndex

/-! ## Sequences of operations -/

inductive Operation (V : Type) where
  | emplace (constructor : Int → V)
  | modify (id : Int) (m : V → V)
  | remove (id : Int)

def Operation.run : Operation V → GenericIndex V → Result (GenericIndex V)
  | .emplace constructor, g => g.emplace constructor
  | .modify id m, g => g.modify id m
  | .remove id, g => g.remove id

def Operation.KeepsIds : Operation V → Prop
  | .modify _ m => ∀ v, ValueType.id (m v) = ValueType.id v
  | _ => True

def Operation.LeavesIds : Operation V → Prop
  | .emplace constructor => ∀ id, ValueType.id (constructor id) = id
  | .modify _ m => ∀ v, ValueType.id (m v) = ValueType.id v
  | .remove _ => True

theorem Operation.LeavesIds.keepsIds {op : Operation V} (h : op.LeavesIds) : op.KeepsIds := by
  cases op with
  | emplace _ | remove _ => exact trivial
  | modify _ _ => exact h

/-- The operations one after the other, as long as they return. -/
def GenericIndex.runAll : List (Operation V) → GenericIndex V → Result (GenericIndex V)
  | [], g => .ok g
  | op :: rest, g => do
    let g ← op.run g
    runAll rest g

end PotatoNode.Chainbase
