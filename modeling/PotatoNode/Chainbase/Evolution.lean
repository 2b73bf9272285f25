import PotatoNode.Chainbase.Squash

/-!
# Objects across sessions

A modifier of the chain library never changes what identifies an object. Under such a discipline
an object with the same id before and after a session is the same object, and sessions can always
be undone and squashed. `Layer` is a session of this kind; its undo record tells for every object
whether it is new, modified, removed or as it was.
-/

namespace PotatoNode.Chainbase

open Lib Table GenericIndex Option Indices

variable {V : Type} [ValueType V]

/-- A relation between an object and what the modifiers make of it: the ids and the keys of the
unique indices stay. -/
structure Discipline (R : V → V → Prop) : Prop where
  refl : ∀ v, R v v
  trans : ∀ {a b c}, R a b → R b c → R a c
  id : ∀ {a b}, R a b → ValueType.id b = ValueType.id a
  clash : ∀ {a b}, R a b → ∀ v, ValueType.clash b v = ValueType.clash a v

def Operation.Within (R : V → V → Prop) : Operation V → Prop
  | .emplace constructor => ∀ id, ValueType.id (constructor id) = id
  | .modify _ m => ∀ v, R v (m v)
  | .remove _ => True

def Evolved (R : V → V → Prop) (before after : GenericIndex V) : Prop :=
  ∀ w ∈ after.indices.objects, ValueType.id w < before.nextId →
    ∃ v ∈ before.indices.objects, R v w

variable {R : V → V → Prop} {op : Operation V} {g g' : GenericIndex V}

section

variable (hR : Discipline R)
include hR

theorem Operation.Within.leavesIds (h : op.Within R) : op.LeavesIds := by
  cases op with
  | emplace constructor => exact h
  | modify id m => exact fun v => hR.id (h v)
  | remove id => trivial

theorem Evolved.refl (g : GenericIndex V) : Evolved R g g :=
  fun w hw _ => ⟨w, hw, hR.refl w⟩

theorem Evolved.trans {g₀ g₁ g₂ : GenericIndex V} (h₁ : Evolved R g₀ g₁)
    (h₂ : Evolved R g₁ g₂) (hle : g₀.nextId ≤ g₁.nextId) : Evolved R g₀ g₂ := by
  intro w hw hlt
  obtain ⟨v, hv, hvw⟩ := h₂ w hw (by omega)
  obtain ⟨u, hu, huv⟩ := h₁ v hv (by rwa [← hR.id hvw])
  exact ⟨u, hu, hR.trans huv hvw⟩

theorem Operation.now_of_run (hop : op.Within R) (hrun : op.run g = .ok g')
    {w : V} (hw : w ∈ g'.indices.objects) :
    (∃ constructor, op = .emplace constructor ∧ w = constructor g.nextId) ∨
      ∃ v ∈ g.indices.objects, R v w := by
  cases op with
  | emplace constructor =>
    obtain ⟨indices, hemplace, rfl⟩ := emplace_eq_ok hrun
    rw [(emplace?_eq_some.1 hemplace).2, mem_insert] at hw
    rcases hw with rfl | ⟨hw, -⟩
    · exact .inl ⟨constructor, rfl, rfl⟩
    · exact .inr ⟨w, hw, hR.refl w⟩
  | modify id m =>
    obtain ⟨obj, indices, hfind, hreplace, rfl⟩ := modify_eq_ok hrun
    obtain ⟨hobj, rfl⟩ := find?_eq_some_iff.1 hfind
    rw [← hR.id (hop obj)] at hreplace
    rw [(replace?_eq_some.1 hreplace).2, mem_insert] at hw
    rcases hw with rfl | ⟨hw, -⟩
    · exact .inr ⟨obj, hobj, hop obj⟩
    · exact .inr ⟨w, hw, hR.refl w⟩
  | remove id =>
    obtain ⟨obj, -, rfl⟩ := remove_eq_ok hrun
    exact .inr ⟨w, (mem_erase.1 hw).1, hR.refl w⟩

theorem Operation.kept_of_run (hop : op.Within R) (hrun : op.run g = .ok g')
    {v : V} (hv : v ∈ g.indices.objects) :
    op = .remove (ValueType.id v) ∨ ∃ w ∈ g'.indices.objects, R v w := by
  cases op with
  | emplace constructor =>
    obtain ⟨indices, hemplace, rfl⟩ := emplace_eq_ok hrun
    obtain ⟨hadmits, hobjects⟩ := emplace?_eq_some.1 hemplace
    refine .inr ⟨v, ?_, hR.refl v⟩
    show v ∈ indices.objects
    rw [hobjects, mem_insert]
    exact .inr ⟨hv, (hadmits v hv).1⟩
  | modify id m =>
    obtain ⟨obj, indices, hfind, hreplace, rfl⟩ := modify_eq_ok hrun
    obtain ⟨hobj, rfl⟩ := find?_eq_some_iff.1 hfind
    rw [← hR.id (hop obj)] at hreplace
    have hmem : ∀ w, w ∈ indices.objects ↔ _ := fun w => by
      rw [(replace?_eq_some.1 hreplace).2, mem_insert]
    by_cases hid : ValueType.id v = ValueType.id (m obj)
    · -- the object that was modified
      have hvobj : v = obj := eq_of_mem_of_key_eq hv hobj (hid.trans (hR.id (hop obj)))
      exact .inr ⟨m obj, (hmem _).2 (.inl rfl), hvobj ▸ hop obj⟩
    · exact .inr ⟨v, (hmem v).2 (.inr ⟨hv, hid⟩), hR.refl v⟩
  | remove id =>
    obtain ⟨obj, -, rfl⟩ := remove_eq_ok hrun
    by_cases hid : ValueType.id v = id
    · exact .inl (by rw [hid])
    · exact .inr ⟨v, mem_erase.2 ⟨hv, hid⟩, hR.refl v⟩

theorem Evolved.operation (hop : op.Within R) (hrun : op.run g = .ok g') : Evolved R g g' := by
  intro w hw hlt
  rcases Operation.now_of_run hR hop hrun hw with ⟨constructor, rfl, rfl⟩ | hbefore
  · -- the id of a new object is the next one
    rw [hop g.nextId] at hlt
    omega
  · exact hbefore

end

theorem GenericIndex.indices_squash (h : g.squash = .ok g') : g'.indices = g.indices := by
  unfold squash at h
  split at h
  · cases h
    rfl
  · cases h
    rfl
  · obtain ⟨_, -, h⟩ := bind_eq_ok.1 h
    obtain ⟨_, -, h⟩ := bind_eq_ok.1 h
    cases h
    rfl

/-! ## One session -/

/-- A session on `g₀` in which objects keep their identity. -/
structure Layer (R : V → V → Prop) (g₀ : GenericIndex V) (head : UndoState V)
    (g : GenericIndex V) : Prop extends FreshSession g₀ head g where
  below₀ : g₀.IdsBelow
  below : g.IdsBelow
  evolved : Evolved R g₀ g

namespace Layer

variable {g₀ g₁ g g' : GenericIndex V} {head a b : UndoState V}

theorem start (hR : Discipline R) (h : g.IdsBelow) :
    Layer R g ⟨empty, empty, empty, g.nextId, g.revision + 1⟩ (g.startUndoSession true) where
  toFreshSession := .start g
  below₀ := h
  below := h
  evolved := .refl hR g

theorem step (hR : Discipline R) (h : Layer R g₀ head g) (hop : op.Within R)
    (hrun : op.run g = .ok g') : ∃ head', Layer R g₀ head' g' := by
  obtain ⟨head', hsession⟩ := h.toFreshSession.step (hop.leavesIds hR) hrun
  exact ⟨head', hsession, h.below₀, h.below.operation (hop.leavesIds hR) hrun,
    h.evolved.trans hR (.operation hR hop hrun) h.nextId_le⟩

variable {v w : V}

theorem of_removed (h : Layer R g₀ head g) (hv : v ∈ head.removedValues) :
    v ∈ g₀.indices.objects ∧ ∀ w ∈ g.indices.objects, ValueType.id w ≠ ValueType.id v := by
  have hlife := h.restores (ValueType.id v)
  have hfind := find?_of_mem hv
  have hbefore : g₀.indices.objects.find? (ValueType.id v) = some v :=
    hlife.before_eq_some_iff.2 (.inr hfind)
  have hmem := (find?_eq_some_iff.1 hbefore).1
  refine ⟨hmem, fun w hw hid => ?_⟩
  rcases hlife.ofRemoved (by rw [hfind]; rfl) with hnone | hnew
  · exact find?_eq_none_iff.1 hnone w hw hid
  · -- ids are not used again
    have hge := h.fresh _ hnew
    have hlt := h.below₀ v hmem
    omega

theorem cases_before (h : Layer R g₀ head g) (hv : v ∈ g₀.indices.objects) :
    v ∈ head.removedValues ∨ ∃ w ∈ g.indices.objects, ValueType.id v = ValueType.id w := by
  have hlife := h.restores (ValueType.id v)
  rw [find?_of_mem hv] at hlife
  rcases hlife.before_eq_some_iff.1 rfl with hthere | hremoved
  · -- the value from before is the old one, or the present one
    have hnow : (g.indices.objects.find? (ValueType.id v)).isSome := by
      cases hold : head.oldValues.find? _ with
      | some old => exact hlife.ofOld (by rw [hold]; rfl)
      | none =>
        rw [hold, none_or] at hthere
        split at hthere
        · cases hthere
        · rw [hthere]
          rfl
    obtain ⟨w, hw⟩ := isSome_iff_exists.1 hnow
    obtain ⟨hmem, hid⟩ := find?_eq_some_iff.1 hw
    exact .inr ⟨w, hmem, hid.symm⟩
  · exact .inl (find?_eq_some_iff.1 hremoved).1

section

variable (hR : Discipline R)
include hR

section

variable (h : Layer R g₀ head g)
include h

theorem exists_before
    (hv : v ∈ g₀.indices.objects) (hw : w ∈ g.indices.objects)
    (hid : ValueType.id v = ValueType.id w) : R v w := by
  have hlt : ValueType.id w < g₀.nextId := hid ▸ h.below₀ v hv
  obtain ⟨v', hv', hR'⟩ := h.evolved w hw hlt
  rwa [eq_of_mem_of_key_eq hv hv' (hid.trans (hR.id hR'))]

theorem related_of_old {old : V}
    (hold : old ∈ head.oldValues) :
    old ∈ g₀.indices.objects ∧ ∃ w ∈ g.indices.objects, R old w := by
  have hlife := h.restores (ValueType.id old)
  have hfind := find?_of_mem hold
  have hbefore : g₀.indices.objects.find? (ValueType.id old) = some old := by
    rw [hlife.eq, hfind]
    rfl
  obtain ⟨w, hw⟩ := isSome_iff_exists.1 (hlife.ofOld (by rw [hfind]; rfl))
  obtain ⟨hwmem, hwid⟩ := find?_eq_some_iff.1 hw
  have hmem := (find?_eq_some_iff.1 hbefore).1
  exact ⟨hmem, w, hwmem, h.exists_before hR hmem hwmem hwid.symm⟩

theorem cases_now
    (hw : w ∈ g.indices.objects) :
    (ValueType.id w ∈ head.newIds ∧ ∀ v ∈ g₀.indices.objects, ValueType.id v ≠ ValueType.id w) ∨
      (ValueType.id w ∉ head.newIds ∧
        ∃ v ∈ g₀.indices.objects, R v w ∧ (v ∈ head.oldValues ∨ v = w ∧
          ∀ old ∈ head.oldValues, ValueType.id old ≠ ValueType.id w)) := by
  have hlife := h.restores (ValueType.id w)
  rw [find?_of_mem hw] at hlife
  by_cases hnew : ValueType.id w ∈ head.newIds
  · refine .inl ⟨hnew, fun v hv hid => ?_⟩
    have hge := h.fresh _ (IdSet.contains_iff.2 hnew)
    have hlt := h.below₀ v hv
    omega
  · have hnotNew : head.newIds.contains (ValueType.id w) = false :=
      Bool.eq_false_iff.2 fun hc => hnew (IdSet.contains_iff.1 hc)
    rw [hnotNew] at hlife
    refine .inr ⟨hnew, ?_⟩
    cases hold : head.oldValues.find? _ with
    | some old =>
      obtain ⟨hmem, hid⟩ := find?_eq_some_iff.1 hold
      have hbefore := (h.related_of_old hR hmem).1
      exact ⟨old, hbefore, h.exists_before hR hbefore hw hid, .inl hmem⟩
    | none =>
      rw [hold] at hlife
      have hbefore : g₀.indices.objects.find? (ValueType.id w) = some w := by
        rw [hlife.eq, hlife.removed_eq_none]
        rfl
      refine ⟨w, (find?_eq_some_iff.1 hbefore).1, hR.refl w, .inr ⟨rfl, ?_⟩⟩
      exact find?_eq_none_iff.1 hold

theorem undoable : g.Undoable := by
  apply GenericIndex.KeysApart.undoable
  intro head' hhead' x hx y hy hclash
  rw [h.stack] at hhead'
  obtain rfl := some_inj.1 hhead'
  have hnow : ∀ x ∈ g.indices.objects.entries ++ head.oldValues.entries,
      ∃ w ∈ g.indices.objects, R x w := by
    intro x hx
    rcases List.mem_append.1 hx with hx | hx
    · exact ⟨x, hx, hR.refl x⟩
    · exact (h.related_of_old hR hx).2
  obtain ⟨w, hw, hxw⟩ := hnow x hx
  obtain ⟨z, hz, hyz⟩ := hnow y hy
  have hclash' : ValueType.clash w z = true := by
    rw [hR.clash hxw, ValueType.clash_comm, hR.clash hyz, ValueType.clash_comm, hclash]
  rw [← hR.id hxw, ← hR.id hyz, g.indices.unique w hw z hz hclash']

theorem undo_eq : g.undo = .ok g₀ :=
  h.toSession.undo (h.undoable hR)

end

theorem squash (h : Layer R g₀ a g₁) (h' : Layer R g₁ b g)
    (hsquash : g.squash = .ok g') : Layer R g₀ (a.merged b) g' := by
  have htwo : TwoSessions g₀ a g₁ b g :=
    ⟨h.toSession, h'.toSession, fun i hi => h'.below₀.find?_eq_none (h'.fresh i hi)⟩
  cases htwo.squash.symm.trans hsquash
  refine ⟨⟨htwo.session_squash, ?_, h.nextId_le.trans h'.nextId_le⟩, h.below₀, h'.below,
    h.evolved.trans hR h'.evolved h.nextId_le⟩
  intro i hi
  rcases a.contains_of_contains_merged b hi with ha | hb
  · exact h.fresh i ha
  · exact h.nextId_le.trans (h'.fresh i hb)

end

end Layer

end PotatoNode.Chainbase
