import PotatoNode.Chainbase.GenericIndex

/-!
# Undo is exact

What a session's undo record says is said for each id on its own: `Life` relates the record's three
entries for the id, the object now and the object when the session began. Each operation changes
one id, so the invariant `Restores` of the whole record is kept id by id.
-/

namespace PotatoNode.Chainbase

open Lib List Option GenericIndex Indices

/-! ## The life of an object -/

/-- The record's entries for an id, the object with this id now, and the one before the session. -/
structure Life {V : Type} (isNew : Bool) (old removed now before : Option V) : Prop where
  ofNew : isNew = true → now.isSome ∧ old = none
  ofOld : old.isSome → now.isSome
  ofRemoved : removed.isSome → now = none ∨ isNew = true
  eq : before = old.or (removed.or (if isNew then none else now))

namespace Life

variable {V : Type} {isNew : Bool} {old removed now before : Option V} {v : V}

theorem start (now : Option V) : Life false none none now now where
  ofNew := nofun
  ofOld := nofun
  ofRemoved := nofun
  eq := rfl

theorem create (h : Life isNew old removed none before) (v : V) :
    Life true old removed (some v) before := by
  cases isNew with
  | true => cases (h.ofNew rfl).1
  | false =>
    cases old with
    | some _ => cases h.ofOld rfl
    | none => exact ⟨fun _ => ⟨rfl, rfl⟩, fun _ => rfl, fun _ => .inr rfl, h.eq⟩

section

variable (h : Life true old removed (some v) before)
include h

theorem modify_new (w : V) : Life true old removed (some w) before :=
  ⟨fun _ => ⟨rfl, (h.ofNew rfl).2⟩, fun _ => rfl, fun _ => .inr rfl, h.eq⟩

theorem remove_new : Life false old removed none before := by
  have hold := (h.ofNew rfl).2
  subst hold
  exact ⟨nofun, nofun, fun _ => .inl rfl, h.eq⟩

end

section

variable (h : Life false old removed (some v) before)
include h

theorem removed_eq_none : removed = none := by
  cases removed with
  | none => rfl
  | some r =>
    rcases h.ofRemoved rfl with hnow | hnew
    · cases hnow
    · cases hnew

theorem modify (w : V) : Life false (old.or (some v)) removed (some w) before := by
  have hr := h.removed_eq_none
  subst hr
  refine ⟨nofun, fun _ => rfl, nofun, ?_⟩
  rw [h.eq]
  cases old with
  | none => rfl
  | some _ => rfl

theorem remove : Life false none (removed.or (old.or (some v))) none before := by
  have hr := h.removed_eq_none
  subst hr
  refine ⟨nofun, nofun, fun _ => .inl rfl, ?_⟩
  rw [h.eq]
  cases old with
  | none => rfl
  | some _ => rfl

end

/-- Nothing stands in the place of a removed object once the new object there is erased. -/
theorem rest_eq_none (h : Life isNew old removed now before) (hr : removed.isSome) :
    old.or (if isNew then none else now) = none := by
  rcases h.ofRemoved hr with hnow | hnew
  · cases old with
    | none => simp [hnow]
    | some _ =>
      have hsome := h.ofOld rfl
      rw [hnow] at hsome
      cases hsome
  · simp [hnew, (h.ofNew hnew).2]

theorem before_eq_some_iff (h : Life isNew old removed now before) :
    before = some v ↔ old.or (if isNew then none else now) = some v ∨ removed = some v := by
  cases hr : removed with
  | none => simp [h.eq, hr]
  | some r =>
    have hrest := h.rest_eq_none (by simp [hr])
    have hold : old = none := (or_eq_none_iff.1 hrest).1
    rw [hrest, h.eq, hr, hold]
    simp

end Life

/-! ## Entries -/

@[ext] structure Entry (V : Type) where
  isNew : Bool
  old : Option V
  removed : Option V

namespace Entry

variable {V : Type}

/-- `on_create`, at the object. -/
def onCreate (e : Entry V) : Entry V := { e with isNew := true }

/-- `on_modify`, at the object. -/
def onModify (e : Entry V) (v : V) : Entry V :=
  if e.isNew then e else { e with old := e.old.or (some v) }

/-- `on_remove`, at the object. -/
def onRemove (e : Entry V) (v : V) : Entry V :=
  if e.isNew then { e with isNew := false }
  else ⟨false, none, e.removed.or (e.old.or (some v))⟩

abbrev Life (e : Entry V) (now before : Option V) : Prop :=
  Chainbase.Life e.isNew e.old e.removed now before

variable {e : Entry V} {v : V} {before : Option V}

theorem Life.onModify (h : e.Life (some v) before)
    (w : V) : (e.onModify v).Life (some w) before := by
  obtain ⟨isNew, old, removed⟩ := e
  cases isNew with
  | true => exact h.modify_new w
  | false => exact h.modify w

theorem Life.onRemove (h : e.Life (some v) before) : (e.onRemove v).Life none before := by
  obtain ⟨isNew, old, removed⟩ := e
  cases isNew with
  | true => exact h.remove_new
  | false => exact h.remove

end Entry

/-! ## The record of a session -/

variable {V : Type} [ValueType V] {s : IdSet} {i j : Int}

theorem IdSet.contains_insert : (s.insert i).contains j = if j = i then true else s.contains j := by
  unfold Table.contains
  rw [Table.find?_insert]
  split
  · rfl
  · rfl

theorem IdSet.contains_erase : (s.erase i).contains j = if j = i then false else s.contains j := by
  unfold Table.contains
  rw [Table.find?_erase]
  split
  · rfl
  · rfl

theorem IdSet.contains_iff : s.contains i = true ↔ i ∈ s := by
  rw [Table.contains_iff]
  exact ⟨fun ⟨j, hj, hij⟩ => hij ▸ hj, fun hi => ⟨i, hi, rfl⟩⟩

namespace UndoState

variable (head : UndoState V)

def entry (i : Int) : Entry V :=
  ⟨head.newIds.contains i, head.oldValues.find? i, head.removedValues.find? i⟩

theorem entry_onCreate (v : V) (i : Int) :
    (head.onCreate v).entry i
      = if i = ValueType.id v then (head.entry i).onCreate else head.entry i := by
  show (⟨(head.newIds.insert (ValueType.id v)).contains i, _, _⟩ : Entry V) = _
  rw [IdSet.contains_insert]
  split
  · rfl
  · rfl

theorem entry_onModify (v : V) (i : Int) :
    (head.onModify v).entry i
      = if i = ValueType.id v then (head.entry i).onModify v else head.entry i := by
  unfold UndoState.onModify Entry.onModify entry
  by_cases hi : i = ValueType.id v
  · subst hi
    cases hnew : head.newIds.contains _ with
    | true => simp [hnew]
    | false =>
      have hcontains := head.oldValues.contains_eq_isSome (ValueType.id v)
      cases hold : head.oldValues.find? _ with
      | some old => simp [hnew, hold, hcontains]
      | none => simp [hnew, hold, hcontains, Table.find?_emplace]
  · rw [if_neg hi]
    split
    · rfl
    · split
      · rfl
      · simp [Table.find?_emplace, hi]

theorem entry_onRemove (v : V) (i : Int) :
    (head.onRemove v).entry i
      = if i = ValueType.id v then (head.entry i).onRemove v else head.entry i := by
  unfold UndoState.onRemove Entry.onRemove entry
  by_cases hi : i = ValueType.id v
  · subst hi
    cases hnew : head.newIds.contains _ with
    | true => simp [IdSet.contains_erase]
    | false =>
      cases hold : head.oldValues.find? _ with
      | some old =>
        have hid := (Table.find?_eq_some_iff.1 hold).2
        simp [hnew, Table.find?_erase, Table.find?_emplace, hid]
      | none =>
        have hcontains := head.removedValues.contains_eq_isSome (ValueType.id v)
        cases hremoved : head.removedValues.find? _ with
        | some r => simp [hnew, hold, hremoved, hcontains]
        | none => simp [hnew, hold, hremoved, hcontains, Table.find?_emplace]
  · rw [if_neg hi]
    split
    · simp [IdSet.contains_erase, hi]
    · split
      · next old hold =>
        have hid := (Table.find?_eq_some_iff.1 hold).2
        simp [Table.find?_erase, Table.find?_emplace, hid, hi]
      · split
        · rfl
        · simp [Table.find?_emplace, hi]

end UndoState

/-- The record leads from the objects now to those before the session. -/
def Restores (head : UndoState V) (now before : ObjectTable V) : Prop :=
  ∀ id, Life (head.newIds.contains id) (head.oldValues.find? id) (head.removedValues.find? id)
    (now.find? id) (before.find? id)

namespace Restores

variable {head : UndoState V} {now before : ObjectTable V} {v w : V}

section

variable (h : Restores head now before)
include h

/-- A change of one object and of its entry. -/
theorem change {head' : UndoState V} {now' : ObjectTable V} {f : Entry V → Entry V}
    {o : Option V} {i : Int}
    (hentry : ∀ id, head'.entry id = if id = i then f (head.entry id) else head.entry id)
    (hnow : ∀ id, now'.find? id = if id = i then o else now.find? id)
    (hlife : (head.entry i).Life (now.find? i) (before.find? i) →
      (f (head.entry i)).Life o (before.find? i)) : Restores head' now' before := by
  intro id
  show (head'.entry id).Life _ _
  rw [hentry, hnow]
  by_cases heq : id = i
  · subst heq
    rw [if_pos rfl, if_pos rfl]
    exact hlife (h id)
  · rw [if_neg heq, if_neg heq]
    exact h id

theorem onCreate (hv : now.find? (ValueType.id v) = none) :
    Restores (head.onCreate v) (now.insert v) before := by
  refine h.change (f := Entry.onCreate) (head.entry_onCreate v) (fun _ => Table.find?_insert) ?_
  rw [hv]
  exact fun hid => hid.create v

theorem onModify (hv : now.find? (ValueType.id v) = some v)
    (hw : ValueType.id w = ValueType.id v) : Restores (head.onModify v) (now.insert w) before := by
  refine h.change (f := (·.onModify v)) (o := some w) (head.entry_onModify v) (fun id => ?_) ?_
  · rw [Table.find?_insert, hw]
  rw [hv]
  exact fun hid => hid.onModify w

theorem onRemove (hv : now.find? (ValueType.id v) = some v) :
    Restores (head.onRemove v) (now.erase (ValueType.id v)) before := by
  refine h.change (f := (·.onRemove v)) (head.entry_onRemove v) (fun _ => Table.find?_erase) ?_
  rw [hv]
  exact Entry.Life.onRemove

end

end Restores

/-! ## Sessions -/

/-- The index in a session on `g₀`, with the record of the session. -/
structure Session (g₀ : GenericIndex V) (head : UndoState V) (g : GenericIndex V) : Prop where
  stack : g.stack = head :: g₀.stack
  revision : g.revision = g₀.revision + 1
  headRevision : head.revision = g.revision
  oldNextId : head.oldNextId = g₀.nextId
  restores : Restores head g.indices.objects g₀.indices.objects

namespace Session

variable {g₀ g g' : GenericIndex V} {head : UndoState V}

theorem start (g : GenericIndex V) :
    Session g ⟨Table.empty, Table.empty, Table.empty, g.nextId, g.revision + 1⟩
      (g.startUndoSession true) where
  stack := rfl
  revision := rfl
  headRevision := rfl
  oldNextId := rfl
  restores _ := Life.start _

theorem change (h : Session g₀ head g) {head' : UndoState V} {indices : Indices V} {nextId : Int}
    (hstart : head.SameStart head') (hrestores : Restores head' indices.objects g₀.indices.objects) :
    Session g₀ head' ⟨head' :: g₀.stack, g.revision, nextId, indices⟩ where
  stack := rfl
  revision := h.revision
  headRevision := hstart.2.trans h.headRevision
  oldNextId := hstart.1.trans h.oldNextId
  restores := hrestores

theorem emplace (h : Session g₀ head g) {constructor : Int → V}
    (hrun : g.emplace constructor = .ok g') :
    Session g₀ (head.onCreate (constructor g.nextId)) g' := by
  obtain ⟨indices, hemplace, hg'⟩ := emplace_eq_ok hrun
  obtain ⟨hadmits, hobjects⟩ := emplace?_eq_some.1 hemplace
  have hfree : g.indices.objects.find? (ValueType.id (constructor g.nextId)) = none :=
    Table.find?_eq_none_iff.2 fun a ha => (hadmits a ha).1
  have hrestores := h.restores.onCreate hfree
  rw [← hobjects] at hrestores
  rw [record_of_stack h.stack] at hg'
  subst hg'
  exact h.change (head.sameStart_onCreate _) hrestores

variable {id : Int} {v : V}

section

variable (h : Session g₀ head g)
include h

theorem modify {m : V → V}
    (hids : ∀ v, ValueType.id (m v) = ValueType.id v) (hfind : g.indices.find? id = some v)
    (hrun : g.modify id m = .ok g') : Session g₀ (head.onModify v) g' := by
  obtain ⟨v', indices, hfind', hreplace, hg'⟩ := modify_eq_ok hrun
  obtain rfl := some_inj.1 (hfind.symm.trans hfind')
  have hid := (Table.find?_eq_some_iff.1 hfind).2
  subst hid
  rw [← hids v] at hreplace
  have hrestores := h.restores.onModify hfind (hids v)
  rw [← (replace?_eq_some.1 hreplace).2] at hrestores
  rw [record_of_stack h.stack] at hg'
  subst hg'
  exact h.change (head.sameStart_onModify v) hrestores

theorem remove (hfind : g.indices.find? id = some v)
    (hrun : g.remove id = .ok g') : Session g₀ (head.onRemove v) g' := by
  obtain ⟨v', hfind', hg'⟩ := remove_eq_ok hrun
  obtain rfl := some_inj.1 (hfind.symm.trans hfind')
  have hid := (Table.find?_eq_some_iff.1 hfind).2
  subst hid
  have hrestores := h.restores.onRemove hfind
  rw [record_of_stack h.stack] at hg'
  subst hg'
  exact h.change (head.sameStart_onRemove v) hrestores

theorem step {op : Operation V} (hids : op.KeepsIds)
    (hrun : op.run g = .ok g') : ∃ head', Session g₀ head' g' := by
  cases op with
  | emplace constructor => exact ⟨_, h.emplace hrun⟩
  | modify id m =>
    obtain ⟨v, -, hfind, -⟩ := modify_eq_ok hrun
    exact ⟨_, h.modify hids hfind hrun⟩
  | remove id =>
    obtain ⟨v, hfind, -⟩ := remove_eq_ok hrun
    exact ⟨_, h.remove hfind hrun⟩

end

theorem runAll {ops : List (Operation V)} (hids : ∀ op ∈ ops, op.KeepsIds) :
    ∀ {head : UndoState V} {g : GenericIndex V}, Session g₀ head g →
      runAll ops g = .ok g' → ∃ head', Session g₀ head' g' := by
  induction ops with
  | nil =>
    intro head g h hrun
    cases hrun
    exact ⟨head, h⟩
  | cons op rest ih =>
    intro head g h hrun
    obtain ⟨g₁, hop, hrest⟩ := bind_eq_ok.1 hrun
    obtain ⟨head₁, h₁⟩ := h.step (hids op mem_cons_self) hop
    exact ih (fun op' hop' => hids op' (mem_cons_of_mem _ hop')) h₁ hrest

end Session

/-! ## The loops of `undo` -/

namespace UndoState

variable (head : UndoState V) (s : Int → Bool)

def restored (v : V) : V :=
  if s (ValueType.id v) then (head.oldValues.find? (ValueType.id v)).getD v else v

theorem id_restored (v : V) : ValueType.id (head.restored s v) = ValueType.id v := by
  unfold restored
  split
  · cases hold : head.oldValues.find? _ with
    | none => rfl
    | some old => exact (Table.find?_eq_some_iff.1 hold).2
  · rfl

/-- The objects with the new ones erased, and the old values given back to some of the others. -/
def partlyUndone (objects : ObjectTable V) : ObjectTable V :=
  (objects.filter fun v => !head.newIds.contains (ValueType.id v)).map (head.restored s)
    (head.id_restored s)

theorem find?_partlyUndone (objects : ObjectTable V)
    (i : Int) :
    (head.partlyUndone s objects).find? i = if head.newIds.contains i then none
      else (objects.find? i).map fun v => if s i then (head.oldValues.find? i).getD v else v := by
  unfold partlyUndone
  rw [Table.find?_map, Table.find?_filter]
  cases hv : objects.find? i with
  | none => simp
  | some v =>
    have hid := (Table.find?_eq_some_iff.1 hv).2
    subst hid
    cases hnew : head.newIds.contains _ with
    | true => simp [hnew]
    | false => simp [hnew, restored]

theorem partlyUndone_insert {head : UndoState V} {s s' : Int → Bool} {objects : ObjectTable V}
    {old : V} (hold : old ∈ head.oldValues)
    (hfound : ((head.partlyUndone s objects).find? (ValueType.id old)).isSome)
    (hs' : ∀ i, s' i = true ↔ s i = true ∨ i = ValueType.id old) :
    head.partlyUndone s' objects = (head.partlyUndone s objects).insert old := by
  apply Table.ext_find?
  intro i
  rw [Table.find?_insert, find?_partlyUndone, find?_partlyUndone]
  rw [find?_partlyUndone] at hfound
  by_cases hi : i = ValueType.id old
  · subst hi
    have hsel : s' (ValueType.id old) = true := (hs' _).2 (.inr rfl)
    rw [hsel, Table.find?_of_mem hold]
    split at hfound
    · cases hfound
    · next hnew =>
      obtain ⟨v, hv⟩ := isSome_iff_exists.1 (by simpa using hfound)
      simp [hnew, hv]
  · have hsel : s' i = s i := Bool.eq_iff_iff.2 ((hs' i).trans (or_iff_left hi))
    rw [if_neg hi, hsel]

end UndoState

/-- The modifications of the newest session can be undone in any order: whichever modified objects
have their old values back, no two objects agree in the key of a unique index. -/
def GenericIndex.Undoable (g : GenericIndex V) : Prop :=
  ∀ head ∈ g.stack.head?, ∀ s : Int → Bool, Unique (head.partlyUndone s g.indices.objects)

namespace GenericIndex

theorem eraseNew_spec :
    ∀ (ids : List Int) (t : Indices V), ids.Nodup → (∀ id ∈ ids, (t.find? id).isSome) →
      ∃ t', eraseNew ids t = .ok t'
        ∧ t'.objects = t.objects.filter fun v => ValueType.id v ∉ ids := by
  intro ids
  induction ids with
  | nil =>
    intro t _ _
    refine ⟨t, rfl, Table.ext_mem fun a => ?_⟩
    simp
  | cons id rest ih =>
    intro t hnodup hfound
    obtain ⟨hid, hrest⟩ := nodup_cons.1 hnodup
    obtain ⟨v, hv⟩ := isSome_iff_exists.1 (hfound id mem_cons_self)
    have hfound' : ∀ j ∈ rest, ((t.erase id).find? j).isSome := by
      intro j hj
      have hne : j ≠ id := fun h => hid (h ▸ hj)
      show ((t.objects.erase id).find? j).isSome
      rw [Table.find?_erase, if_neg hne]
      exact hfound j (mem_cons_of_mem _ hj)
    obtain ⟨t', hloop, hobjects⟩ := ih _ hrest hfound'
    refine ⟨t', by simp only [eraseNew, hv, hloop], ?_⟩
    rw [hobjects]
    apply Table.ext_mem
    simp [erase, and_assoc]

theorem restoreOld_spec {head : UndoState V} {objects : ObjectTable V}
    (hunique : ∀ s, Unique (head.partlyUndone s objects))
    (hfound : ∀ old ∈ head.oldValues, ∀ s,
      ((head.partlyUndone s objects).find? (ValueType.id old)).isSome) :
    ∀ (rest : List V) (ids : List Int) (t : Indices V), (∀ old ∈ rest, old ∈ head.oldValues) →
      t.objects = head.partlyUndone (· ∈ ids) objects →
      ∃ t', restoreOld rest t = .ok t'
        ∧ t'.objects = head.partlyUndone (· ∈ ids ++ rest.map ValueType.id) objects := by
  intro rest
  induction rest with
  | nil =>
    intro ids t _ ht
    refine ⟨t, rfl, ?_⟩
    rw [ht, map_nil, append_nil]
  | cons old rest ih =>
    intro ids t hrest ht
    have hold := hrest old mem_cons_self
    have hinsert : t.objects.insert old
        = head.partlyUndone (· ∈ ids ++ [ValueType.id old]) objects := by
      rw [ht]
      refine (UndoState.partlyUndone_insert hold (hfound old hold _) fun i => ?_).symm
      simp
    obtain ⟨v, hv⟩ := isSome_iff_exists.1 (hfound old hold (· ∈ ids))
    rw [← ht] at hv
    have hv : t.find? (ValueType.id old) = some v := hv
    obtain ⟨t₁, hreplace, ht₁⟩ := exists_replace? (hinsert ▸ hunique _)
    obtain ⟨t', hloop, ht'⟩ := ih _ t₁
      (fun o ho => hrest o (mem_cons_of_mem _ ho)) (ht₁.trans hinsert)
    refine ⟨t', by simp only [restoreOld, hv, hreplace, hloop], ?_⟩
    rw [ht', map_cons, append_assoc, singleton_append]

theorem reinsert_spec {before : ObjectTable V} (hunique : Unique before) :
    ∀ (rest : List V) (t : Indices V), (rest.map ValueType.id).Nodup →
      (∀ a ∈ t.objects, a ∈ before) → (∀ v ∈ rest, v ∈ before) →
      (∀ v ∈ rest, t.objects.find? (ValueType.id v) = none) →
      ∃ t', reinsert rest t = .ok t' ∧ ∀ a, a ∈ t'.objects ↔ a ∈ t.objects ∨ a ∈ rest := by
  intro rest
  induction rest with
  | nil => exact fun t _ _ _ _ => ⟨t, rfl, fun a => by simp⟩
  | cons v rest ih =>
    intro t hnodup ht hrest hfree
    obtain ⟨hv, hnodup⟩ := nodup_cons.1 hnodup
    have hvfree := Table.find?_eq_none_iff.1 (hfree v mem_cons_self)
    have hadmits : t.Admits v := by
      intro a ha
      refine ⟨hvfree a ha, Bool.eq_false_iff.2 fun hclash => hvfree a ha ?_⟩
      rw [hunique a (ht a ha) v (hrest v mem_cons_self) hclash]
    have hmem : ∀ a, a ∈ t.objects.insert v ↔ a = v ∨ a ∈ t.objects := by
      intro a
      rw [Table.mem_insert]
      exact or_congr_right (and_iff_left_of_imp (hvfree a))
    have hemplace := emplace?_eq_some.2
      (⟨hadmits, rfl⟩ : t.Admits v ∧ (⟨_, hadmits.unique⟩ : Indices V).objects = _)
    obtain ⟨t', hloop, ht'⟩ := ih ⟨t.objects.insert v, hadmits.unique⟩ hnodup
      (fun a ha => ((hmem a).1 ha).elim (fun h => h ▸ hrest v mem_cons_self) (ht a))
      (fun w hw => hrest w (mem_cons_of_mem _ hw))
      (fun w hw => by
        have hne : ValueType.id w ≠ ValueType.id v := fun h => hv (h ▸ mem_map_of_mem hw)
        rw [Table.find?_insert, if_neg hne]
        exact hfree w (mem_cons_of_mem _ hw))
    refine ⟨t', by simp only [reinsert, hemplace, hloop], fun a => ?_⟩
    rw [ht' a, hmem a, mem_cons]
    tauto

end GenericIndex

theorem Restores.find?_partlyUndone {head : UndoState V} {now before : ObjectTable V}
    (h : Restores head now before) (i : Int) :
    (head.partlyUndone (· ∈ head.oldValues.entries.map ValueType.id) now).find? i
      = (head.oldValues.find? i).or (if head.newIds.contains i then none else now.find? i) := by
  have hlife := h i
  rw [UndoState.find?_partlyUndone]
  cases hnew : head.newIds.contains i with
  | true => simp [(hlife.ofNew hnew).2]
  | false =>
    cases hold : head.oldValues.find? i with
    | none => simp
    | some old =>
      obtain ⟨hmem, hid⟩ := Table.find?_eq_some_iff.1 hold
      have hsel : i ∈ head.oldValues.entries.map ValueType.id := hid ▸ mem_map_of_mem hmem
      obtain ⟨v, hv⟩ := isSome_iff_exists.1 (hlife.ofOld (by simp [hold]))
      simp [hsel, hv]

namespace Session

variable {g₀ g : GenericIndex V} {head : UndoState V}

theorem eraseNew (h : Session g₀ head g) :
    ∃ t, eraseNew head.newIds.entries g.indices = .ok t
      ∧ t.objects = head.partlyUndone (· ∈ ([] : List Int)) g.indices.objects := by
  have hnodup : head.newIds.entries.Nodup := by simpa using head.newIds.nodup_keys
  have hmem : ∀ i, i ∈ head.newIds.entries ↔ head.newIds.contains i = true :=
    fun i => IdSet.contains_iff.symm
  have hfound : ∀ i ∈ head.newIds.entries, (g.indices.find? i).isSome :=
    fun i hi => ((h.restores i).ofNew ((hmem i).1 hi)).1
  obtain ⟨t, hloop, ht⟩ := eraseNew_spec _ g.indices hnodup hfound
  refine ⟨t, hloop, ?_⟩
  rw [ht]
  apply Table.ext_find?
  intro i
  rw [Table.find?_filter, UndoState.find?_partlyUndone]
  cases hv : g.indices.objects.find? i with
  | none => simp
  | some v =>
    have hid := (Table.find?_eq_some_iff.1 hv).2
    cases hnew : head.newIds.contains i with
    | true | false => simp [hid, hmem, hnew]

variable {t : Indices V}

section

variable (h : Session g₀ head g)
include h

theorem restoreOld (hundo : g.Undoable)
    (ht : t.objects = head.partlyUndone (· ∈ ([] : List Int)) g.indices.objects) :
    ∃ t', restoreOld head.oldValues.entries t = .ok t'
      ∧ t'.objects = head.partlyUndone (· ∈ head.oldValues.entries.map ValueType.id)
          g.indices.objects := by
  have hunique := hundo head (by rw [h.stack]; rfl)
  refine restoreOld_spec hunique (fun old hold s => ?_) _ [] t (fun _ ho => ho) ht
  have hlife := h.restores (ValueType.id old)
  rw [Table.find?_of_mem hold] at hlife
  rw [UndoState.find?_partlyUndone]
  cases hnew : head.newIds.contains _ with
  | true => cases (hlife.ofNew hnew).2
  | false => simpa using hlife.ofOld rfl

theorem reinsert
    (ht : t.objects = head.partlyUndone (· ∈ head.oldValues.entries.map ValueType.id)
      g.indices.objects) :
    reinsert head.removedValues.entries t = .ok g₀.indices := by
  have hbefore : ∀ a, a ∈ g₀.indices.objects ↔ a ∈ t.objects ∨ a ∈ head.removedValues := by
    intro a
    have hiff := (h.restores (ValueType.id a)).before_eq_some_iff (v := a)
    rw [← h.restores.find?_partlyUndone, ← ht] at hiff
    simpa [Table.find?_eq_some_iff] using hiff
  have hfree : ∀ v ∈ head.removedValues, t.objects.find? (ValueType.id v) = none := by
    intro v hv
    rw [ht, h.restores.find?_partlyUndone]
    exact (h.restores _).rest_eq_none (by simp [Table.find?_of_mem hv])
  obtain ⟨t', hloop, ht'⟩ := reinsert_spec g₀.indices.unique _ t
    head.removedValues.nodup_keys (fun a ha => (hbefore a).2 (.inl ha))
    (fun a ha => (hbefore a).2 (.inr ha)) hfree
  have heq : t' = g₀.indices := Indices.ext (Table.ext_mem fun a => (ht' a).trans (hbefore a).symm)
  rw [hloop, heq]

/-- **The end of a session.** -/
theorem undo (hundo : g.Undoable) : g.undo = .ok g₀ := by
  obtain ⟨t₁, herase, ht₁⟩ := h.eraseNew
  obtain ⟨t₂, hrestore, ht₂⟩ := h.restoreOld hundo ht₁
  have hreinsert := h.reinsert ht₂
  have hrevision : g.revision - 1 = g₀.revision := by
    rw [h.revision]
    omega
  unfold GenericIndex.undo
  rw [h.stack]
  simp only [bind, Except.bind, herase, hrestore, hreinsert, hrevision, h.oldNextId]

end

end Session

/-- **Undo is exact.** After a session has been started and any operations have returned, `undo`
gives back the index as it was: its objects, next id, revision and undo stack. -/
theorem undo_runAll {g g' : GenericIndex V} {ops : List (Operation V)}
    (hids : ∀ op ∈ ops, op.KeepsIds)
    (hrun : GenericIndex.runAll ops (g.startUndoSession true) = .ok g') (hundo : g'.Undoable) :
    g'.undo = .ok g := by
  obtain ⟨head, hsession⟩ := Session.runAll hids (Session.start g) hrun
  exact hsession.undo hundo

/-! ## Sessions that keep the keys apart -/

def GenericIndex.KeysApart (g : GenericIndex V) : Prop :=
  ∀ head ∈ g.stack.head?, ∀ a ∈ g.indices.objects.entries ++ head.oldValues.entries,
    ∀ b ∈ g.indices.objects.entries ++ head.oldValues.entries,
      ValueType.clash a b = true → ValueType.id a = ValueType.id b

instance (g : GenericIndex V) : Decidable g.KeysApart :=
  inferInstanceAs (Decidable (∀ head ∈ g.stack.head?, ∀ _ ∈ _, ∀ _ ∈ _, _ → _))

theorem UndoState.mem_of_mem_partlyUndone {head : UndoState V} {s : Int → Bool}
    {objects : ObjectTable V} {a : V} (ha : a ∈ head.partlyUndone s objects) :
    a ∈ objects.entries ++ head.oldValues.entries := by
  obtain ⟨v, hv, rfl⟩ := (Table.mem_map _).1 ha
  have hobjects : v ∈ objects.entries := (Table.mem_filter.1 hv).1
  unfold restored
  split
  · cases hold : head.oldValues.find? _ with
    | none => exact mem_append_left _ hobjects
    | some old => exact mem_append_right _ (Table.find?_eq_some_iff.1 hold).1
  · exact mem_append_left _ hobjects

theorem GenericIndex.KeysApart.undoable {g : GenericIndex V} (h : g.KeysApart) : g.Undoable := by
  intro head hhead s a ha b hb hclash
  have hid := h head hhead a (UndoState.mem_of_mem_partlyUndone ha) b
    (UndoState.mem_of_mem_partlyUndone hb) hclash
  exact Table.eq_of_mem_of_key_eq ha hb hid

/-- A row of a table with a unique name. -/
structure Row where
  id : Int
  name : Nat
  balance : Nat
deriving DecidableEq, Repr

instance : ValueType Row where
  id := Row.id
  clash a b := a.name == b.name
  clash_comm _ _ := Bool.beq_comm

/-- Three rows, in the second of two sessions. -/
def rows : GenericIndex Row where
  stack := [⟨Table.empty, Table.empty, Table.empty.insert 2, 2, 7⟩,
    ⟨Table.empty, Table.empty, Table.empty.insert 1, 1, 6⟩]
  revision := 7
  nextId := 3
  indices :=
    ⟨((Table.empty.insert ⟨0, 10, 5⟩).insert ⟨1, 11, 5⟩).insert ⟨2, 12, 5⟩, by decide +kernel⟩

/-- Rows are created, renamed twice, removed after a change, put in the place of a removed one, and
removed again. -/
def rowOperations : List (Operation Row) :=
  [.emplace fun id => ⟨id, 13, 0⟩,
    .modify 0 fun row => { row with name := 14 },
    .modify 0 fun row => { row with name := 15 },
    .modify 1 fun row => { row with balance := 0 },
    .remove 1,
    .emplace fun id => ⟨id, 11, 0⟩,
    .emplace fun id => ⟨id, 16, 0⟩,
    .remove 5]

theorem undo_rowOperations :
    ∃ g, GenericIndex.runAll rowOperations (rows.startUndoSession true) = .ok g
      ∧ g.indices.objects.entries = [⟨0, 15, 5⟩, ⟨2, 12, 5⟩, ⟨3, 13, 0⟩, ⟨4, 11, 0⟩]
      ∧ g.Undoable ∧ g.undo = .ok rows := by
  have hids : ∀ op ∈ rowOperations, op.KeepsIds := by
    simp [rowOperations, Operation.KeepsIds, ValueType.id]
  obtain ⟨g, hrun⟩ : ∃ g,
      runAll rowOperations (rows.startUndoSession true) = .ok g := by
    decide +kernel
  have hall : ∀ g, runAll rowOperations (rows.startUndoSession true) = .ok g →
      g.indices.objects.entries = [⟨0, 15, 5⟩, ⟨2, 12, 5⟩, ⟨3, 13, 0⟩, ⟨4, 11, 0⟩]
        ∧ g.KeysApart := by
    decide +kernel
  obtain ⟨hrows, hapart⟩ := hall g hrun
  exact ⟨g, hrun, hrows, hapart.undoable, undo_runAll hids hrun hapart.undoable⟩

end PotatoNode.Chainbase
