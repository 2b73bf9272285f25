import Mathlib.Algebra.Group.Int.Defs
import Mathlib.Data.Multiset.ZeroCons
import PotatoNode.Chainbase.Squash
import PotatoNode.Chain.Exceptions

/-!
# Objects of the chain database

The chain library calls the indices of chainbase through `database`: `create` returns the object it
made, `find` and `get` look one up by a unique key. What a call does to the objects of an index is
said once for each of `create`, `modify` and `remove` (`Created`, `Modified`, `Removed`), as
membership in the index afterwards.
-/

namespace PotatoNode.Chain

open Lib Chainbase Table GenericIndex

variable {V : Type} [ValueType V]

instance : Membership V (GenericIndex V) where
  mem g v := v ∈ g.indices.objects

theorem mem_index {g : GenericIndex V} {v : V} : v ∈ g ↔ v ∈ g.indices.objects := Iff.rfl

instance [DecidableEq V] (v : V) (g : GenericIndex V) : Decidable (v ∈ g) :=
  inferInstanceAs (Decidable (v ∈ g.indices.objects))

/-- An index without objects, as the database is opened with. -/
def emptyIndex : GenericIndex V where
  stack := []
  revision := 0
  nextId := 0
  indices := ⟨Table.empty, unique_empty⟩

def Failure.ofChainbase : Chainbase.Failure → Failure
  | .logicError message => .stdException message
  | .runtimeError message => .stdException message
  | .abort => .abort
  | .undefinedBehaviour => .undefinedBehaviour

section

variable (g : GenericIndex V)

def create (constructor : Int → V) : Result (V × GenericIndex V) :=
  match g.emplace constructor with
  | .ok g' => .ok (constructor g.nextId, g')
  | .error e => .error (.ofChainbase e)

/-- `database::modify`, of the object with the given id. -/
protected def modify (id : Int) (m : V → V) : Result (GenericIndex V) :=
  (g.modify id m).mapError .ofChainbase

/-- `database::remove`, of the object with the given id. -/
def remove (id : Int) : Result (GenericIndex V) :=
  (g.remove id).mapError .ofChainbase

def removeObject (id : Int) : Result (GenericIndex V) :=
  match g.indices.find? id with
  | none => .error (.stdException "${id}")
  | some _ => remove g id

/-- `database::find`, by the key for which `p` asks. -/
def find (p : V → Bool) : Option V := g.indices.objects.entries.find? p

protected def get (p : V → Bool) : Result V :=
  match find g p with
  | none => .error (.stdException "unknown key (${type}): ${key}")
  | some v => .ok v

end

/-! ## What the calls do -/

section Calls

variable {g g' : GenericIndex V} {v : V} {p : V → Bool} {id : Int}

theorem find_eq_some (h : find g p = some v) : v ∈ g ∧ p v = true :=
  ⟨List.mem_of_find?_eq_some h, List.find?_some h⟩

theorem find_eq_none (h : find g p = none) : ∀ v ∈ g, ¬ p v = true := List.find?_eq_none.1 h

theorem get_eq_ok (h : Chain.get g p = .ok v) : v ∈ g ∧ p v = true := by
  unfold Chain.get at h
  split at h
  · cases h
  · next hfind =>
    cases h
    exact find_eq_some hfind

variable {a : V}

theorem eq_of_id_eq {b : V} (ha : a ∈ g) (hb : b ∈ g)
    (h : ValueType.id a = ValueType.id b) : a = b :=
  eq_of_mem_of_key_eq ha hb h

/-- `g'` is `g` with one more object. -/
structure Created (g : GenericIndex V) (v : V) (g' : GenericIndex V) : Prop where
  admits : g.indices.Admits v
  objects : g'.indices.objects = g.indices.objects.insert v
  nextId : g'.nextId = g.nextId + 1

theorem Created.mem_iff (h : Created g v g') : a ∈ g' ↔ a = v ∨ a ∈ g := by
  rw [mem_index, h.objects, mem_insert]
  exact or_congr_right (and_iff_left_of_imp fun ha => (h.admits a ha).1)

theorem create_eq_ok {constructor : Int → V} (h : create g constructor = .ok (v, g')) :
    v = constructor g.nextId ∧ Created g v g' := by
  unfold create at h
  split at h
  · next hemplace =>
    cases h
    obtain ⟨indices, hindices, rfl⟩ := emplace_eq_ok hemplace
    obtain ⟨hadmits, hobjects⟩ := Indices.emplace?_eq_some.1 hindices
    exact ⟨rfl, hadmits, hobjects, rfl⟩
  · cases h

/-- `g'` is `g` with the object `v` in the place of the one with its id. -/
structure Modified (g : GenericIndex V) (v : V) (g' : GenericIndex V) : Prop where
  objects : g'.indices.objects = g.indices.objects.insert v
  nextId : g'.nextId = g.nextId

theorem Modified.mem_iff (h : Modified g v g') :
    a ∈ g' ↔ a = v ∨ (a ∈ g ∧ ValueType.id a ≠ ValueType.id v) := by
  rw [mem_index, h.objects, mem_insert]
  rfl

theorem mapError_eq_ok {ε ε' α : Type} {f : ε → ε'} {x : Except ε α} {a : α} :
    x.mapError f = .ok a ↔ x = .ok a := by
  cases x with
  | error e | ok b => simp [Except.mapError]

variable {m : V → V}

theorem modify_eq_ok (h : Chain.modify g id m = .ok g')
    (hm : ∀ v, ValueType.id (m v) = ValueType.id v) :
    ∃ v ∈ g, ValueType.id v = id ∧ Modified g (m v) g' := by
  obtain ⟨v, indices, hfind, hreplace, rfl⟩ := GenericIndex.modify_eq_ok (mapError_eq_ok.1 h)
  obtain ⟨hv, hid⟩ := find?_eq_some_iff.1 hfind
  rw [← hid, ← hm v] at hreplace
  exact ⟨v, hv, hid, (Indices.replace?_eq_some.1 hreplace).2, nextId_record _ _⟩

/-- A modifier that leaves the keys of the unique indices alone does not fail. -/
theorem exists_modify (hv : v ∈ g) (hm : ∀ v, ValueType.id (m v) = ValueType.id v)
    (hclash : ∀ w, ValueType.clash w (m v) = ValueType.clash w v) :
    ∃ g', Chain.modify g (ValueType.id v) m = .ok g' := by
  have hfind : g.indices.find? (ValueType.id v) = some v := find?_eq_some_iff.2 ⟨hv, rfl⟩
  have hadmits : (g.indices.erase (ValueType.id v)).Admits (m v) := by
    intro w hw
    obtain ⟨hmem, hne⟩ := mem_erase.1 hw
    rw [hm v]
    refine ⟨hne, ?_⟩
    rw [hclash w, Bool.eq_false_iff]
    intro h
    exact hne (congrArg ValueType.id (g.indices.unique w hmem v hv h))
  obtain ⟨indices, hreplace⟩ : ∃ indices,
      g.indices.replace? _ (m v) = some indices := ⟨_, dif_pos hadmits⟩
  refine ⟨{ g.record (·.onModify v) with indices }, mapError_eq_ok.2 ?_⟩
  unfold GenericIndex.modify
  rw [hfind]
  dsimp only
  rw [hreplace]

/-- `g'` is `g` without the object with the id. -/
structure Removed (g : GenericIndex V) (id : Int) (g' : GenericIndex V) : Prop where
  objects : g'.indices.objects = g.indices.objects.erase id
  nextId : g'.nextId = g.nextId

theorem Removed.mem_iff (h : Removed g id g') : a ∈ g' ↔ a ∈ g ∧ ValueType.id a ≠ id := by
  rw [mem_index, h.objects, mem_erase]
  rfl

theorem remove_eq_ok (h : remove g id = .ok g') : Removed g id g' := by
  obtain ⟨_, _, rfl⟩ := GenericIndex.remove_eq_ok (mapError_eq_ok.1 h)
  exact ⟨rfl, nextId_record _ _⟩

end Calls

/-! ## The objects as a multiset -/

def contents (g : GenericIndex V) : Multiset V := g.indices.objects.entries

section Contents

variable {g g' : GenericIndex V} {u v : V}

theorem mem_contents : v ∈ contents g ↔ v ∈ g := Iff.rfl

theorem contents_eq_cons (hu : u ∈ g) :
    contents g = u ::ₘ ((g.indices.objects.erase (ValueType.id u)).entries : Multiset V) :=
  Multiset.coe_eq_coe.2 (perm_cons_erase hu)

theorem Created.contents_eq (h : Created g v g') : contents g' = v ::ₘ contents g := by
  rw [contents_eq_cons (h.mem_iff.2 (.inl rfl)), h.objects, erase_insert,
    erase_of_new fun b hb => (h.admits b hb).1]
  rfl

theorem Removed.contents_eq (h : Removed g (ValueType.id u) g') (hu : u ∈ g) :
    contents g = u ::ₘ contents g' := by
  rw [contents_eq_cons hu, contents, h.objects]

theorem Modified.contents_eq (h : Modified g v g') (hu : u ∈ g)
    (hid : ValueType.id u = ValueType.id v) :
    ∃ rest, contents g = u ::ₘ rest ∧ contents g' = v ::ₘ rest := by
  refine ⟨_, contents_eq_cons hu, ?_⟩
  rw [contents_eq_cons (h.mem_iff.2 (.inl rfl)), h.objects, erase_insert, hid]

end Contents

/-! ## Views of an index -/

/-- What `f` shows of the objects of an index. -/
def view {β : Type} (f : V → β) (g : GenericIndex V) : Set β := {b | ∃ v ∈ g, f v = b}

section View

variable {β : Type} {f : V → β} {g g' : GenericIndex V} {u v : V}

theorem mem_view (hv : v ∈ g) : f v ∈ view f g := ⟨v, hv, rfl⟩

theorem view_created (h : Created g v g') : view f g' = insert (f v) (view f g) := by
  ext b
  simp only [view, Set.mem_ofPred_eq, Set.mem_insert_iff, h.mem_iff]
  constructor
  · rintro ⟨a, rfl | ha, rfl⟩
    · exact .inl rfl
    · exact .inr ⟨a, ha, rfl⟩
  · rintro (rfl | ⟨a, ha, rfl⟩)
    · exact ⟨v, .inl rfl, rfl⟩
    · exact ⟨a, .inr ha, rfl⟩

theorem view_modified (h : Modified g v g') (hu : u ∈ g) (hid : ValueType.id u = ValueType.id v)
    (hf : f v = f u) : view f g' = view f g := by
  ext b
  simp only [view, Set.mem_ofPred_eq, h.mem_iff]
  constructor
  · rintro ⟨a, rfl | ⟨ha, -⟩, rfl⟩
    · exact ⟨u, hu, hf.symm⟩
    · exact ⟨a, ha, rfl⟩
  · rintro ⟨a, ha, rfl⟩
    by_cases hav : ValueType.id a = ValueType.id v
    · rw [eq_of_id_eq ha hu (hav.trans hid.symm)]
      exact ⟨v, .inl rfl, hf⟩
    · exact ⟨a, .inr ⟨ha, hav⟩, rfl⟩

/-- Where `f` shows the id, a removal takes the one element away. -/
theorem view_removed (h : Removed g (ValueType.id u) g') (hu : u ∈ g)
    (hf : ∀ a b, f a = f b → ValueType.id a = ValueType.id b) : view f g' = view f g \ {f u} := by
  ext b
  simp only [view, Set.mem_ofPred_eq, Set.mem_sdiff, Set.mem_singleton_iff, h.mem_iff]
  constructor
  · rintro ⟨a, ⟨ha, hid⟩, rfl⟩
    exact ⟨⟨a, ha, rfl⟩, fun heq => hid (hf a u heq)⟩
  · rintro ⟨⟨a, ha, rfl⟩, hne⟩
    exact ⟨a, ⟨ha, fun hid => hne (by rw [eq_of_id_eq ha hu hid])⟩, rfl⟩

end View

end PotatoNode.Chain
