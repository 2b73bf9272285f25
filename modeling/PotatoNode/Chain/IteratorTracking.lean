import PotatoNode.Chain.TableLedger

/-!
# What an iterator cache holds on to

The cache of an index keeps pointers to rows and to headers of tables. `Tracks c g` says that the
rows it points to are rows of `g`, that it has the table of each, and that no row is under two
iterators, so that a row removed through one of them is nowhere else in the cache. It says nothing
of the headers: those are alive as long as there are rows in the table.
-/

namespace PotatoNode.Chain

open Lib Chainbase Option FlatMap TableRow

namespace IteratorCache

def Caches (c : IteratorCache) (tableId : Int) : Prop := (c.tableCache.get? tableId).isSome

def Points (c : IteratorCache) (iterator : Nat) (id : Int) : Prop :=
  c.iteratorToObject[iterator]? = some (some id)

variable {O : Type} [TableRow O]

/-- The pointers to rows are good. -/
structure Tracks (c : IteratorCache) (g : GenericIndex O) : Prop where
  live : ∀ {iterator id}, c.Points iterator id →
    ∃ o ∈ g, ValueType.id o = id ∧ c.Caches (TableRow.tId o)
  back : ∀ {iterator id}, c.Points iterator id → c.objectToIterator.get? id = some (iterator : Int)
  ends : ∀ id ∈ c.endIteratorToTable, c.Caches id

variable {c : IteratorCache} {g g' : GenericIndex O} {o : O}

theorem tracks_empty (g : GenericIndex O) : empty.Tracks g := by
  refine ⟨fun hpoints => ?_, fun hpoints => ?_, nofun⟩
  all_goals simp [Points, empty] at hpoints

/-! ## Changes of the cache -/

theorem caches_cacheTable (tableId : Int) : (c.cacheTable tableId).2.Caches tableId := by
  unfold cacheTable Caches
  split
  · next hget => simp [hget]
  · simp [get?_set]

variable {id : Int} {iterator : Nat}

theorem Caches.cacheTable (h : c.Caches id) (tableId : Int) :
    (c.cacheTable tableId).2.Caches id := by
  by_cases hid : id = tableId
  · subst hid
    exact caches_cacheTable id
  · unfold IteratorCache.cacheTable
    split
    · exact h
    · simpa [Caches, get?_set, hid] using h

variable {tableId : Int}

theorem points_cacheTable : (c.cacheTable tableId).2.Points iterator id ↔ c.Points iterator id := by
  unfold cacheTable
  split <;> rfl

theorem objectToIterator_cacheTable :
    (c.cacheTable tableId).2.objectToIterator = c.objectToIterator := by
  unfold cacheTable
  split <;> rfl

theorem Tracks.cacheTable (h : c.Tracks g) (tableId : Int) :
    (c.cacheTable tableId).2.Tracks g where
  live hpoints := by
    obtain ⟨o, ho, hid, hcaches⟩ := h.live (points_cacheTable.1 hpoints)
    exact ⟨o, ho, hid, hcaches.cacheTable tableId⟩
  back hpoints := by
    rw [objectToIterator_cacheTable]
    exact h.back (points_cacheTable.1 hpoints)
  ends id hid := by
    by_cases heq : id = tableId
    · subst heq
      exact caches_cacheTable id
    · refine Caches.cacheTable (h.ends id ?_) tableId
      unfold IteratorCache.cacheTable at hid
      split at hid
      · exact hid
      · simpa [heq] using hid

variable {ptr : Int}

/-- The rows are found as before, and the new one if it was not there. -/
theorem Points.of_add (h : (c.add ptr).2.Points iterator id) :
    c.Points iterator id ∨ (id = ptr ∧ c.objectToIterator.get? ptr = none
      ∧ iterator = c.iteratorToObject.length) := by
  unfold add at h
  split at h
  · exact .inl h
  · next hget =>
    unfold Points at h
    rw [List.getElem?_append] at h
    split at h
    · exact .inl h
    · next hlt =>
      rw [List.getElem?_singleton] at h
      split at h
      · next hzero =>
        simp only [some_inj] at h
        exact .inr ⟨h.symm, hget, by omega⟩
      · cases h

theorem caches_add : (c.add ptr).2.Caches id ↔ c.Caches id := by
  unfold add
  split <;> rfl

theorem Tracks.add (h : c.Tracks g) (ho : o ∈ g) (hcaches : c.Caches (tId o)) :
    (c.add (ValueType.id o)).2.Tracks g where
  live hpoints := by
    simp only [caches_add]
    rcases hpoints.of_add with hpoints | ⟨rfl, -, -⟩
    · exact h.live hpoints
    · exact ⟨o, ho, rfl, hcaches⟩
  back {iterator id} hpoints := by
    rcases hpoints.of_add with hold | ⟨rfl, hget, rfl⟩
    · -- a row that has an iterator is not the one for which a new one is made
      have hback := h.back hold
      unfold IteratorCache.add
      split
      · exact hback
      · next hget =>
        have hne : id ≠ ValueType.id o := fun heq => by
          rw [heq, hget] at hback
          cases hback
        simpa [get?_set, hne] using hback
    · unfold IteratorCache.add
      rw [hget]
      simp [get?_set]
  ends id hid := by
    rw [caches_add]
    unfold IteratorCache.add at hid
    split at hid
    · exact h.ends id hid
    · exact h.ends id hid

/-! ## Changes of the rows -/

theorem Tracks.created (h : c.Tracks g) (hrow : Created g o g') : c.Tracks g' where
  live hpoints := by
    obtain ⟨o', ho', hid, hcaches⟩ := h.live hpoints
    exact ⟨o', hrow.mem_iff.2 (.inr ho'), hid, hcaches⟩
  back := h.back
  ends := h.ends

theorem Tracks.store (h : c.Tracks g) (hrow : Created g o g') :
    ((c.cacheTable (tId o)).2.add (ValueType.id o)).2.Tracks g' :=
  ((h.created hrow).cacheTable _).add (hrow.mem_iff.2 (.inl rfl)) (caches_cacheTable _)

theorem Tracks.modified {o' : O} (h : c.Tracks g) (hrow : Modified g o' g') (ho : o ∈ g)
    (hid : ValueType.id o = ValueType.id o') (htId : tId o' = tId o) :
    c.Tracks g' where
  live {iterator id} hpoints := by
    obtain ⟨x, hx, hxid, hcaches⟩ := h.live hpoints
    by_cases heq : ValueType.id x = ValueType.id o'
    · obtain rfl : x = o := eq_of_id_eq hx ho (heq.trans hid.symm)
      exact ⟨o', hrow.mem_iff.2 (.inl rfl), heq.symm.trans hxid, htId ▸ hcaches⟩
    · exact ⟨x, hrow.mem_iff.2 (.inr ⟨hx, heq⟩), hxid, hcaches⟩
  back := h.back
  ends := h.ends

theorem Tracks.removed (h : c.Tracks g) (hpoints : c.Points iterator (ValueType.id o))
    (hrow : Removed g (ValueType.id o) g') :
    Tracks { c with
      iteratorToObject := c.iteratorToObject.set iterator none
      objectToIterator := c.objectToIterator.erase (ValueType.id o) } g' := by
  -- the other iterators stand for other rows
  have hother : ∀ {it id}, (c.iteratorToObject.set iterator none)[it]? = some (some id) →
      c.Points it id ∧ id ≠ ValueType.id o := by
    intro it id hit
    rw [List.getElem?_set] at hit
    split at hit
    · split at hit <;> cases hit
    · next hne =>
      refine ⟨hit, fun heq => hne ?_⟩
      have hback := h.back hpoints
      have hback' := h.back (c := c) hit
      rw [heq, hback, some_inj] at hback'
      exact Int.ofNat_inj.1 hback'
  refine ⟨fun hp => ?_, fun hp => ?_, h.ends⟩
  · obtain ⟨hp, hne⟩ := hother hp
    obtain ⟨x, hx, hid, hcaches⟩ := h.live hp
    exact ⟨x, hrow.mem_iff.2 ⟨hx, hid.trans_ne hne⟩, hid, hcaches⟩
  · obtain ⟨hp, hne⟩ := hother hp
    rw [get?_erase, if_neg hne]
    exact h.back hp

/-! ## Calls -/

section Calls

variable {R : Type} [LinearOrder R] {rank : O → R} {iterator : Int}

theorem meets_objectAt {message : String} {Q : Option Int → Prop}
    (hQ : ∀ ptr, 0 ≤ iterator → c.iteratorToObject[iterator.toNat]? = some ptr → Q ptr) :
    Meets (c.objectAt iterator message) Q Failure.Defined := by
  refine meets_bind.2 (meets_eosAssert fun _ => ?_)
  refine meets_bind.2 (meets_eosAssert fun hle => ?_)
  split
  · next ptr hptr => exact hQ ptr hle hptr
  · exact nofun

theorem Tracks.meets_get {Q : O → Prop} (h : c.Tracks g)
    (hQ : ∀ o ∈ g, 0 ≤ iterator → c.Points iterator.toNat (ValueType.id o) →
      c.Caches (tId o) → Q o) :
    Meets (c.get g iterator) Q Failure.Defined := by
  refine meets_bind.2 (meets_objectAt fun ptr hle hptr => ?_)
  cases ptr with
  | none => exact nofun
  | some id =>
    obtain ⟨o, ho, rfl, hcaches⟩ := h.live hptr
    exact meets_deref ho rfl (hQ o ho hle hptr hcaches)

variable {tables : GenericIndex TableIdObject}

theorem meets_getTable {t : TableIdObject} {i : Int} {Q : TableIdObject → Prop} (ht : t ∈ tables)
    (hid : t.id = i) (hQ : Q t) : Meets (c.getTable tables i) Q Failure.Defined := by
  refine meets_bind.2 (meets_eosAssert fun _ => ?_)
  exact meets_deref ht hid hQ

theorem remove_of_points (hle : 0 ≤ iterator) (h : c.Points iterator.toNat id) :
    c.remove iterator = .ok { c with
      iteratorToObject := c.iteratorToObject.set iterator.toNat none
      objectToIterator := c.objectToIterator.erase id } := by
  have hne : iterator ≠ -1 := by omega
  have hget : c.iteratorToObject[iterator.toNat]? = some (some id) := h
  simp only [remove, objectAt, eosAssert, if_pos hne, if_pos hle, hget]
  rfl

theorem Tracks.locate {tab : Option TableIdObject} {search : TableIdObject → Option O}
    (h : c.Tracks g) (hsearch : ∀ t o, search t = some o → o ∈ g ∧ tId o = t.id) :
    (c.locate tab search).2.2.Tracks g := by
  unfold IteratorCache.locate
  cases tab with
  | none => exact h
  | some t =>
    dsimp only
    cases hfound : search t with
    | none => exact h.cacheTable t.id
    | some o =>
      obtain ⟨ho, htId⟩ := hsearch t o hfound
      refine (h.cacheTable t.id).add ho ?_
      rw [htId]
      exact caches_cacheTable t.id

variable {Q : Int × Option O × IteratorCache → Prop}

theorem Tracks.meets_next (h : c.Tracks g)
    (hQ : ∀ moved, moved.2.2.Tracks g → Q moved) :
    Meets (c.next g rank iterator) Q Failure.Defined := by
  unfold next
  split
  · exact hQ _ h
  · refine meets_bind.2 (h.meets_get fun o ho _ _ hcaches => ?_)
    split
    · unfold getEndIteratorByTableId
      split
      · exact hQ _ h
      · exact nofun
    · next itr hitr =>
      obtain ⟨hfirst, htId⟩ := filter_eq_some_iff.1 hitr
      refine hQ _ (h.add (mem_of_firstWhere hfirst) ?_)
      rwa [of_decide_eq_true htId]

theorem Tracks.stepBack {itr : Option O} (h : c.Tracks g)
    (hitr : ∀ o, itr = some o → o ∈ g) (hcaches : c.Caches tableId) :
    (c.stepBack itr tableId).2.2.Tracks g := by
  unfold IteratorCache.stepBack
  split
  · exact h
  · next o hfilter =>
    obtain ⟨ho, htId⟩ := filter_eq_some_iff.1 hfilter
    exact h.add (hitr o ho) (by rwa [of_decide_eq_true htId])

def EndLives (c : IteratorCache) (tables : GenericIndex TableIdObject) (iterator : Int) : Prop :=
  iterator < -1 →
    ∀ id, c.endIteratorToTable[(-iterator - 2).toNat]? = some id → ∃ t ∈ tables, t.id = id

theorem findTableByEndIterator_of_lt (h : iterator < -1) :
    c.findTableByEndIterator iterator = .ok c.endIteratorToTable[(-iterator - 2).toNat]? := by
  unfold findTableByEndIterator eosAssert
  rw [if_pos h]
  rfl

/-- The header is read through a pointer that may be dangling. -/
theorem Tracks.meets_previous (h : c.Tracks g)
    (hQ : ∀ moved, moved.2.2.Tracks g → Q moved) :
    Meets (c.previous g rank tables iterator) Q
      fun e => c.EndLives tables iterator → e.Defined := by
  unfold previous
  split
  · next hend =>
    rw [findTableByEndIterator_of_lt hend]
    cases hptr : c.endIteratorToTable[(-iterator - 2).toNat]? with
    | none => exact fun _ => nofun
    | some id =>
      show Meets (deref tables id >>= _) Q _
      cases hderef : deref tables id with
      | error e =>
        intro hlives
        obtain ⟨t, ht, hid⟩ := hlives hend id hptr
        rw [deref_eq_ok.2 ⟨ht, hid⟩] at hderef
        cases hderef
      | ok tab =>
        obtain ⟨_, hid⟩ := deref_eq_ok.1 hderef
        have hcaches : c.Caches id := h.ends id (List.mem_of_getElem? hptr)
        rw [← hid] at hcaches
        exact hQ _ (h.stepBack (fun o => mem_of_lastWhere) hcaches)
  · refine Meets.mono ?_ (fun _ hr => hr) fun _ hdefined _ => hdefined
    refine meets_bind.2 (h.meets_get fun o _ _ _ hcaches => ?_)
    exact hQ _ (h.stepBack (fun o => mem_of_lastWhere) hcaches)

theorem previous_of_not_endLives (h : ¬ c.EndLives tables iterator) :
    c.previous g rank tables iterator = .error .undefinedBehaviour := by
  simp only [EndLives, not_forall, not_exists, not_and] at h
  obtain ⟨hend, id, hptr, hgone⟩ := h
  have hderef : deref tables id = .error .undefinedBehaviour := by
    unfold deref
    have hnone : tables.indices.find? id = none := Table.find?_eq_none_iff.2 hgone
    rw [hnone]
  rw [previous, if_pos hend, findTableByEndIterator_of_lt hend, hptr]
  show (deref tables id >>= _) = _
  rw [hderef]
  rfl

end Calls

end IteratorCache

end PotatoNode.Chain
