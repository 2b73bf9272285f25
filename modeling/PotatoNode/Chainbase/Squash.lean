import PotatoNode.Chainbase.UndoSession

/-!
# Merging two undo records (`generic_index::squash`)

What a record says of one object is an `Entry`. The three loops of `squash` change the entries of
the older record one by one, and what they make of an entry is `Entry.merge`, the matrix in the
comment of the source. An operation of the newer session, followed by the merge, is the operation on
the merged record (`Entry.merge_onCreate`, `merge_onModify`, `merge_onRemove`), so that a session that
is squashed leaves what its operations had left in the session below.
-/

namespace PotatoNode.Chainbase

open Lib UndoState Table List

variable {V : Type}

/-! ## Merging entries -/

namespace Entry

@[simp] theorem isNew_onModify (e : Entry V) (v : V) : (e.onModify v).isNew = e.isNew := by
  unfold onModify
  split
  · rfl
  · rfl

@[simp] theorem removed_onModify (e : Entry V) (v : V) : (e.onModify v).removed = e.removed := by
  unfold onModify
  split
  · rfl
  · rfl

@[simp] theorem isNew_onRemove (e : Entry V) (v : V) : (e.onRemove v).isNew = false := by
  unfold onRemove
  split
  · rfl
  · rfl

/-- The entry of the older record after the three loops of `squash`. -/
def merge (a b : Entry V) : Entry V :=
  let a := b.old.elim a a.onModify
  let a := if b.isNew then a.onCreate else a
  b.removed.elim a a.onRemove

theorem isNew_of_isNew_merge {a b : Entry V} (h : (a.merge b).isNew = true) :
    a.isNew = true ∨ b.isNew = true := by
  cases hb : b.isNew with
  | true => exact .inr rfl
  | false =>
    unfold merge at h
    rw [hb] at h
    cases hremoved : b.removed with
    | some r =>
      -- a removed object is not new
      simp [hremoved] at h
    | none =>
      rw [hremoved] at h
      cases hold : b.old with
      | none | some o => simpa [hold] using h

/-- The object with the entry was `mid` when the newer session started, and is `now`. A new object
has taken the place of none. -/
structure Above (a b : Entry V) (now mid before : Option V) : Prop where
  older : a.Life mid before
  newer : b.Life now mid
  fresh : b.isNew = true → mid = none

namespace Above

variable {a b : Entry V} {now mid before : Option V} {v : V}

theorem not_isNew (h : Above a b now mid before) (hnew : b.isNew = true) : a.isNew = false := by
  cases ha : a.isNew with
  | false => rfl
  | true =>
    have hsome := (h.older.ofNew ha).1
    rw [h.fresh hnew] at hsome
    cases hsome

/-- An object that is neither there now nor was there has no entry for this session. -/
theorem eq_nop (h : Above a b none none before) : b = ⟨false, none, none⟩ := by
  have hnew : b.isNew = false := by
    cases hnew : b.isNew with
    | false => rfl
    | true => cases (h.newer.ofNew hnew).1
  have hold : b.old = none := by
    cases hold : b.old with
    | none => rfl
    | some o => cases h.newer.ofOld (by rw [hold]; rfl)
  have heq := h.newer.eq
  rw [hold] at heq
  exact Entry.ext hnew hold (by simpa using heq.symm)

theorem merge_onCreate (h : Above a b none none before) :
    a.merge b.onCreate = (a.merge b).onCreate := by
  rw [h.eq_nop]
  rfl

section

variable (h : Above a b (some v) mid before)
include h

theorem removed_eq_none : b.removed = none := by
  cases hnew : b.isNew with
  | true =>
    have heq := h.newer.eq
    rw [h.fresh hnew, (h.newer.ofNew hnew).2, hnew] at heq
    simpa using heq.symm
  | false =>
    have hlife : Chainbase.Life b.isNew b.old b.removed (some v) mid := h.newer
    rw [hnew] at hlife
    exact hlife.removed_eq_none

theorem merge_onModify : a.merge (b.onModify v) = (a.merge b).onModify v := by
  have hremoved := h.removed_eq_none
  cases hnew : b.isNew with
  | true =>
    -- a new object leaves no record in either
    have hold := (h.newer.ofNew hnew).2
    simp [merge, onModify, onCreate, hnew, hold, hremoved]
  | false =>
    cases ha : a.isNew with
    | true | false => cases hold : b.old <;> simp [merge, onModify, hnew, hold, hremoved, ha]

theorem merge_onRemove : a.merge (b.onRemove v) = (a.merge b).onRemove v := by
  have hremoved := h.removed_eq_none
  cases hnew : b.isNew with
  | true =>
    have hold := (h.newer.ofNew hnew).2
    have ha := h.not_isNew hnew
    apply Entry.ext
    all_goals simp [merge, onRemove, onCreate, hnew, hold, hremoved, ha]
  | false =>
    cases ha : a.isNew with
    | true => cases hold : b.old <;> simp [merge, onModify, onRemove, hnew, hold, hremoved, ha]
    | false =>
      cases hold : b.old <;> simp [merge, onModify, onRemove, hnew, hold, hremoved, ha]

end

/-- The merged entry leads from the object now to the one before both sessions. -/
theorem life_merge (h : Above a b now mid before) : (a.merge b).Life now before := by
  obtain ⟨isNew, old, removed⟩ := b
  obtain ⟨holder, hnewer, hfresh⟩ := h
  have hmid : mid = old.or (removed.or (if isNew then none else now)) := hnewer.eq
  cases isNew with
  | true =>
    obtain ⟨hnow, hold⟩ := hnewer.ofNew rfl
    obtain ⟨v, rfl⟩ := Option.isSome_iff_exists.1 hnow
    rw [hfresh rfl] at hmid holder
    subst hold
    obtain rfl : removed = none := by simpa using hmid.symm
    exact holder.create v
  | false =>
    cases removed with
    | some r =>
      obtain rfl : now = none := (hnewer.ofRemoved rfl).resolve_right Bool.false_ne_true
      have hold : old = none := by
        cases old with
        | none => rfl
        | some o => cases hnewer.ofOld rfl
      subst hold
      rw [hmid] at holder
      exact Entry.Life.onRemove holder
    | none =>
      cases old with
      | some o =>
        obtain ⟨v, rfl⟩ := Option.isSome_iff_exists.1 (hnewer.ofOld rfl)
        rw [hmid] at holder
        exact Entry.Life.onModify holder v
      | none =>
        rw [hmid] at holder
        exact holder

theorem assert (h : Above a b now mid before) (hb : b.old.isSome ∨ b.removed.isSome) :
    a.isNew = true ∨ a.removed = none := by
  have hmid : mid.isSome := by
    rw [h.newer.eq]
    rcases hb with hold | hremoved
    · simp [hold]
    · simp [hremoved]
  cases hr : a.removed with
  | none => exact .inr rfl
  | some r =>
    rcases h.older.ofRemoved (by rw [hr]; rfl) with hnone | hnew
    · rw [hnone] at hmid
      cases hmid
    · exact .inl hnew

end Above

end Entry

/-! ## The loops of `squash` -/

variable [ValueType V]

namespace UndoState

@[simp] theorem newIds_onModify (head : UndoState V) (v : V) :
    (head.onModify v).newIds = head.newIds := by
  unfold onModify
  repeat' split
  all_goals rfl

theorem contains_of_contains_onRemove (head : UndoState V) {v : V} {i : Int}
    (h : (head.onRemove v).newIds.contains i = true) : head.newIds.contains i = true := by
  have hentry : ((head.onRemove v).entry i).isNew = true := h
  rw [entry_onRemove] at hentry
  split at hentry
  · simp at hentry
  · exact hentry

/-- A record is its entries and where the session started. -/
theorem ext_entry {head head' : UndoState V} (hstart : head.SameStart head')
    (hentry : ∀ i, head.entry i = head'.entry i) : head = head' := by
  have hnew : head.newIds = head'.newIds := by
    apply ext_mem
    intro i
    have hi := congrArg Entry.isNew (hentry i)
    rw [← IdSet.contains_iff, ← IdSet.contains_iff]
    exact Bool.eq_iff_iff.1 hi
  have hold : head.oldValues = head'.oldValues :=
    ext_find? fun i => congrArg Entry.old (hentry i)
  have hremoved : head.removedValues = head'.removedValues :=
    ext_find? fun i => congrArg Entry.removed (hentry i)
  obtain ⟨old', removed', new', next', revision'⟩ := head'
  obtain ⟨hnext, hrevision⟩ := hstart
  cases hnew
  cases hold
  cases hremoved
  cases hnext
  cases hrevision
  rfl

variable {α : Type} {key : α → Int} {step : UndoState V → α → UndoState V}

theorem entry_foldl_list
    {f : Entry V → α → Entry V}
    (hstep : ∀ head a i,
      (step head a).entry i = if i = key a then f (head.entry i) a else head.entry i) :
    ∀ (items : List α) (head : UndoState V) (i : Int), (items.map key).Nodup →
      (items.foldl step head).entry i
        = (items.find? (key · = i)).elim (head.entry i) (f (head.entry i)) := by
  intro items
  induction items with
  | nil => exact fun _ _ _ => rfl
  | cons a rest ih =>
    intro head i hnodup
    obtain ⟨ha, hrest⟩ := nodup_cons.1 hnodup
    rw [foldl_cons, ih _ _ hrest, hstep]
    by_cases hi : i = key a
    · -- no later item has this key
      have hnone : rest.find? (key · = i) = none := by
        rw [find?_eq_none]
        intro b hb hkey
        exact ha (hi ▸ of_decide_eq_true hkey ▸ mem_map_of_mem hb)
      rw [find?_cons_of_pos (by simp [hi]), hnone, if_pos hi]
      rfl
    · rw [find?_cons_of_neg (by simp [Ne.symm hi]), if_neg hi]

theorem entry_foldl (step : UndoState V → α → UndoState V)
    (f : Entry V → α → Entry V)
    (hstep : ∀ head a i,
      (step head a).entry i = if i = key a then f (head.entry i) a else head.entry i)
    (t : Table key) (head : UndoState V) (i : Int) :
    (t.entries.foldl step head).entry i = (t.find? i).elim (head.entry i) (f (head.entry i)) :=
  entry_foldl_list hstep t.entries head i t.nodup_keys

theorem sameStart_foldl
    (hstep : ∀ (head : UndoState V) a, head.SameStart (step head a)) (items : List α)
    (head : UndoState V) :
    head.SameStart (items.foldl step head) := by
  induction items generalizing head with
  | nil => exact ⟨rfl, rfl⟩
  | cons a rest ih =>
    have hrest := ih (step head a)
    have ha := hstep head a
    exact ha.trans hrest

def insertNew (head : UndoState V) (id : Int) : UndoState V :=
  { head with newIds := head.newIds.insert id }

variable (a b : UndoState V)

def afterOld : UndoState V := b.oldValues.entries.foldl onModify a

def afterNew : UndoState V := b.newIds.entries.foldl insertNew (a.afterOld b)

def merged : UndoState V := b.removedValues.entries.foldl onRemove (a.afterNew b)

theorem entry_afterOld (i : Int) :
    (a.afterOld b).entry i = (b.entry i).old.elim (a.entry i) (a.entry i).onModify :=
  entry_foldl _ _ entry_onModify b.oldValues a i

theorem entry_afterNew (i : Int) :
    (a.afterNew b).entry i = if (b.entry i).isNew then ((a.afterOld b).entry i).onCreate
      else (a.afterOld b).entry i := by
  have hstep : ∀ (head : UndoState V) id i, (head.insertNew id).entry i
      = if i = id then (head.entry i).onCreate else head.entry i := by
    intro head id i
    show (⟨(head.newIds.insert id).contains i, _, _⟩ : Entry V) = _
    rw [IdSet.contains_insert]
    split
    · rfl
    · rfl
  have hfold := entry_foldl insertNew (fun e _ => e.onCreate) hstep b.newIds (a.afterOld b) i
  have hnew : (b.entry i).isNew = (b.newIds.find? i).isSome := rfl
  rw [hnew]
  refine hfold.trans ?_
  cases b.newIds.find? i with
  | none => rfl
  | some _ => rfl

theorem entry_merged (i : Int) : (a.merged b).entry i = (a.entry i).merge (b.entry i) := by
  have hfold := entry_foldl _ _ entry_onRemove b.removedValues (a.afterNew b) i
  rw [entry_afterNew, entry_afterOld] at hfold
  exact hfold

theorem contains_of_contains_merged {i : Int}
    (h : (a.merged b).newIds.contains i = true) :
    a.newIds.contains i = true ∨ b.newIds.contains i = true := by
  have hnew : ((a.merged b).entry i).isNew = true := h
  rw [entry_merged] at hnew
  exact Entry.isNew_of_isNew_merge hnew

theorem sameStart_merged : a.SameStart (a.merged b) := by
  have h₁ := sameStart_foldl sameStart_onModify b.oldValues.entries a
  have h₂ := sameStart_foldl (fun head id => (⟨rfl, rfl⟩ : head.SameStart (head.insertNew id)))
    b.newIds.entries (a.afterOld b)
  have h₃ := sameStart_foldl sameStart_onRemove b.removedValues.entries (a.afterNew b)
  exact h₁.trans (h₂.trans h₃)

end UndoState

/-- The condition of the `assert`s, for the object with the given id. -/
def Asserted (prev : UndoState V) (i : Int) : Prop :=
  (prev.entry i).isNew = true ∨ (prev.entry i).removed = none

theorem Asserted.contains_eq_false {prev : UndoState V} {i : Int} (h : Asserted prev i)
    (hnew : ¬ prev.newIds.contains i = true) : ¬ prev.removedValues.contains i = true := by
  have hremoved : prev.removedValues.find? i = none := h.resolve_left hnew
  rw [contains_eq_isSome, hremoved]
  exact Bool.false_ne_true

variable {a : UndoState V}

theorem Asserted.afterNew {i : Int} (h : Asserted a i) (b : UndoState V) :
    Asserted (a.afterNew b) i := by
  unfold Asserted at h ⊢
  rw [entry_afterNew, entry_afterOld]
  cases (b.entry i).isNew with
  | true => exact .inl rfl
  | false =>
    cases (b.entry i).old with
    | none => exact h
    | some v => simpa using h

theorem asserted_loop {loop : List V → UndoState V → Result (UndoState V)}
    {step : UndoState V → V → UndoState V} {f : Entry V → V → Entry V}
    (hstep : ∀ head v i,
      (step head v).entry i = if i = ValueType.id v then f (head.entry i) v else head.entry i)
    (hnil : ∀ prev, loop [] prev = .ok prev)
    (hbody : ∀ v rest prev, Asserted prev (ValueType.id v) →
      loop (v :: rest) prev = loop rest (step prev v)) :
    ∀ (items : List V) (prev : UndoState V), (items.map ValueType.id).Nodup →
      (∀ v ∈ items, Asserted prev (ValueType.id v)) →
      loop items prev = .ok (items.foldl step prev) := by
  intro items
  induction items with
  | nil => exact fun prev _ _ => hnil prev
  | cons v rest ih =>
    intro prev hnodup hassert
    obtain ⟨hv, hrest⟩ := nodup_cons.1 hnodup
    have hassert' : ∀ w ∈ rest, Asserted (step prev v) (ValueType.id w) := by
      intro w hw
      have hne : ValueType.id w ≠ ValueType.id v := fun h => hv (h ▸ mem_map_of_mem hw)
      unfold Asserted
      rw [hstep, if_neg hne]
      exact hassert w (mem_cons_of_mem _ hw)
    rw [hbody v rest prev (hassert v mem_cons_self), ih _ hrest hassert', foldl_cons]

namespace GenericIndex

variable {v : V} {rest : List V} {prev : UndoState V}

section

variable (h : Asserted prev (ValueType.id v))
include h

theorem squashOld_cons : squashOld (v :: rest) prev = squashOld rest (prev.onModify v) := by
  rw [squashOld, onModify]
  split
  · rfl
  · next hnew =>
    rw [if_neg (h.contains_eq_false hnew)]
    split
    · rfl
    · rfl

theorem squashRemoved_cons :
    squashRemoved (v :: rest) prev = squashRemoved rest (prev.onRemove v) := by
  rw [squashRemoved, onRemove]
  split
  · rfl
  · next hnew =>
    rw [if_neg (h.contains_eq_false hnew), if_neg (h.contains_eq_false hnew)]
    split
    · rfl
    · rfl

end

theorem squashNew_eq (ids : List Int) (prev : UndoState V) :
    squashNew ids prev = ids.foldl insertNew prev := by
  induction ids generalizing prev with
  | nil => rfl
  | cons id rest ih => exact ih _

end GenericIndex

/-! ## Two sessions -/

/-- The older session with its record, and the newer one above it. Ids are not used again. -/
structure TwoSessions (g₀ : GenericIndex V) (a : UndoState V) (g₁ : GenericIndex V)
    (b : UndoState V) (g₂ : GenericIndex V) : Prop where
  older : Session g₀ a g₁
  newer : Session g₁ b g₂
  fresh : ∀ i, b.newIds.contains i = true → g₁.indices.objects.find? i = none

namespace TwoSessions

variable {g₀ g₁ g₂ : GenericIndex V} {a b : UndoState V}

section

variable (h : TwoSessions g₀ a g₁ b g₂)
include h

theorem above (i : Int) :
    (a.entry i).Above (b.entry i) (g₂.indices.objects.find? i) (g₁.indices.objects.find? i)
      (g₀.indices.objects.find? i) :=
  ⟨h.older.restores i, h.newer.restores i, h.fresh i⟩

theorem asserted {i : Int}
    (hi : (b.oldValues.find? i).isSome ∨ (b.removedValues.find? i).isSome) : Asserted a i :=
  (h.above i).assert hi

/-- **The loops of `squash`.** They return, and the record is the merge of the two. -/
theorem squash :
    g₂.squash = .ok { g₂ with stack := a.merged b :: g₀.stack, revision := g₁.revision } := by
  have hold : GenericIndex.squashOld b.oldValues.entries a = .ok (a.afterOld b) := by
    apply asserted_loop entry_onModify (fun _ => rfl)
      (fun _ _ _ => GenericIndex.squashOld_cons) _ _ b.oldValues.nodup_keys
    intro v hv
    exact h.asserted (.inl (by rw [find?_of_mem hv]; rfl))
  have hremoved : GenericIndex.squashRemoved b.removedValues.entries (a.afterNew b)
      = .ok (a.merged b) := by
    apply asserted_loop entry_onRemove (fun _ => rfl)
      (fun _ _ _ => GenericIndex.squashRemoved_cons) _ _ b.removedValues.nodup_keys
    intro v hv
    exact (h.asserted (.inr (by rw [find?_of_mem hv]; rfl))).afterNew b
  have hnew : GenericIndex.squashNew b.newIds.entries (a.afterOld b) = a.afterNew b :=
    GenericIndex.squashNew_eq _ _
  have hrevision : g₂.revision - 1 = g₁.revision := by
    rw [h.newer.revision]
    omega
  unfold GenericIndex.squash
  rw [h.newer.stack, h.older.stack]
  simp only [bind, Except.bind, hold, hnew, hremoved, hrevision]

theorem restores : Restores (a.merged b) g₂.indices.objects g₀.indices.objects := by
  intro i
  show ((a.merged b).entry i).Life _ _
  rw [a.entry_merged]
  exact (h.above i).life_merge

theorem session_squash :
    Session g₀ (a.merged b)
      { g₂ with stack := a.merged b :: g₀.stack, revision := g₁.revision } where
  stack := rfl
  revision := h.older.revision
  headRevision := (a.sameStart_merged b).2.trans h.older.headRevision
  oldNextId := (a.sameStart_merged b).1.trans h.older.oldNextId
  restores := h.restores

end

theorem merged_eq {b' c : UndoState V} (hstart : (a.merged b).SameStart c)
    (hentry : ∀ i, (a.entry i).merge (b'.entry i) = c.entry i) : a.merged b' = c := by
  refine ext_entry ((a.sameStart_merged b').symm.trans
    ((a.sameStart_merged b).trans hstart)) fun i => ?_
  rw [a.entry_merged]
  exact hentry i

variable {v : V}

section

variable (h : TwoSessions g₀ a g₁ b g₂)
include h

theorem merged_onCreate
    (hnow : g₂.indices.objects.find? (ValueType.id v) = none)
    (hmid : g₁.indices.objects.find? (ValueType.id v) = none) :
    a.merged (b.onCreate v) = (a.merged b).onCreate v := by
  refine merged_eq (sameStart_onCreate _ v) fun i => ?_
  rw [entry_onCreate, entry_onCreate, a.entry_merged]
  split
  · next hi =>
    subst hi
    have habove := h.above (ValueType.id v)
    rw [hnow, hmid] at habove
    exact habove.merge_onCreate
  · rfl

section

variable (hnow : g₂.indices.objects.find? (ValueType.id v) = some v)
include hnow

theorem merged_onModify : a.merged (b.onModify v) = (a.merged b).onModify v := by
  refine merged_eq (sameStart_onModify _ v) fun i => ?_
  rw [entry_onModify, entry_onModify, a.entry_merged]
  split
  · next hi =>
    subst hi
    have habove := h.above (ValueType.id v)
    rw [hnow] at habove
    exact habove.merge_onModify
  · rfl

theorem merged_onRemove : a.merged (b.onRemove v) = (a.merged b).onRemove v := by
  refine merged_eq (sameStart_onRemove _ v) fun i => ?_
  rw [entry_onRemove, entry_onRemove, a.entry_merged]
  split
  · next hi =>
    subst hi
    have habove := h.above (ValueType.id v)
    rw [hnow] at habove
    exact habove.merge_onRemove
  · rfl

end

end

end TwoSessions

/-! ## Ids are not used again -/

def GenericIndex.IdsBelow (g : GenericIndex V) : Prop :=
  ∀ v ∈ g.indices.objects, ValueType.id v < g.nextId

instance (g : GenericIndex V) : Decidable g.IdsBelow :=
  inferInstanceAs (Decidable (∀ v ∈ g.indices.objects.entries, _))

namespace GenericIndex.IdsBelow

variable {g g' : GenericIndex V}

theorem find?_eq_none (h : g.IdsBelow) {i : Int} (hi : g.nextId ≤ i) :
    g.indices.objects.find? i = none := by
  rw [find?_eq_none_iff]
  intro v hv hid
  have hlt := h v hv
  omega

theorem operation (h : g.IdsBelow) {op : Operation V} (hids : op.LeavesIds)
    (hrun : op.run g = .ok g') : g'.IdsBelow := by
  cases op with
  | emplace constructor =>
    obtain ⟨indices, hemplace, rfl⟩ := GenericIndex.emplace_eq_ok hrun
    intro v hv
    show ValueType.id v < g.nextId + 1
    rw [(Indices.emplace?_eq_some.1 hemplace).2, mem_insert] at hv
    rcases hv with rfl | ⟨hv, -⟩
    · rw [hids]
      omega
    · have hlt := h v hv
      omega
  | modify id m =>
    obtain ⟨obj, indices, hfind, hreplace, rfl⟩ := GenericIndex.modify_eq_ok hrun
    obtain ⟨hobj, rfl⟩ := find?_eq_some_iff.1 hfind
    rw [← hids obj] at hreplace
    intro v hv
    rw [(Indices.replace?_eq_some.1 hreplace).2, mem_insert] at hv
    rw [g.nextId_record]
    rcases hv with rfl | ⟨hv, -⟩
    · rw [hids]
      exact h obj hobj
    · exact h v hv
  | remove id =>
    obtain ⟨obj, -, rfl⟩ := GenericIndex.remove_eq_ok hrun
    intro v hv
    rw [g.nextId_record]
    exact h v (mem_erase.1 hv).1

theorem runAll {ops : List (Operation V)} (hids : ∀ op ∈ ops, op.LeavesIds) :
    ∀ {g : GenericIndex V}, g.IdsBelow → GenericIndex.runAll ops g = .ok g' → g'.IdsBelow := by
  induction ops with
  | nil =>
    intro g h hrun
    cases hrun
    exact h
  | cons op rest ih =>
    intro g h hrun
    obtain ⟨g₁, hop, hrest⟩ := bind_eq_ok.1 hrun
    have h₁ := h.operation (hids op mem_cons_self) hop
    exact ih (fun op' hop' => hids op' (mem_cons_of_mem _ hop')) h₁ hrest

end GenericIndex.IdsBelow

/-- A session in which ids are not used again. -/
structure FreshSession (g₀ : GenericIndex V) (head : UndoState V) (g : GenericIndex V) : Prop extends
    Session g₀ head g where
  fresh : ∀ i, head.newIds.contains i = true → g₀.nextId ≤ i
  nextId_le : g₀.nextId ≤ g.nextId

namespace FreshSession

variable {g₀ g g' : GenericIndex V} {head : UndoState V}

theorem start (g : GenericIndex V) :
    FreshSession g ⟨empty, empty, empty, g.nextId, g.revision + 1⟩ (g.startUndoSession true) where
  toSession := Session.start g
  fresh i hi := by cases hi
  nextId_le := Int.le_refl _

theorem emplace (h : FreshSession g₀ head g) {constructor : Int → V}
    (hids : ∀ id, ValueType.id (constructor id) = id) (hrun : g.emplace constructor = .ok g') :
    FreshSession g₀ (head.onCreate (constructor g.nextId)) g' := by
  have hle := h.nextId_le
  refine ⟨h.toSession.emplace hrun, fun i hi => ?_, ?_⟩
  · have hi : (head.newIds.insert _).contains i = true := hi
    rw [IdSet.contains_insert] at hi
    split at hi
    · next heq => exact heq ▸ (hids g.nextId).symm ▸ hle
    · exact h.fresh i hi
  · obtain ⟨indices, -, rfl⟩ := GenericIndex.emplace_eq_ok hrun
    show g₀.nextId ≤ g.nextId + 1
    omega

variable {id : Int} {v : V}

section

variable (h : FreshSession g₀ head g)
include h

theorem modify {m : V → V}
    (hids : ∀ v, ValueType.id (m v) = ValueType.id v) (hfind : g.indices.find? id = some v)
    (hrun : g.modify id m = .ok g') : FreshSession g₀ (head.onModify v) g' := by
  refine ⟨h.toSession.modify hids hfind hrun, fun i hi => h.fresh i ?_, ?_⟩
  · rwa [newIds_onModify] at hi
  · obtain ⟨obj, indices, -, -, rfl⟩ := GenericIndex.modify_eq_ok hrun
    exact h.nextId_le.trans (g.nextId_record _).ge

theorem remove
    (hfind : g.indices.find? id = some v) (hrun : g.remove id = .ok g') :
    FreshSession g₀ (head.onRemove v) g' := by
  refine ⟨h.toSession.remove hfind hrun,
    fun i hi => h.fresh i (head.contains_of_contains_onRemove hi), ?_⟩
  obtain ⟨obj, -, rfl⟩ := GenericIndex.remove_eq_ok hrun
  exact h.nextId_le.trans (g.nextId_record _).ge

theorem step {op : Operation V} (hids : op.LeavesIds)
    (hrun : op.run g = .ok g') : ∃ head', FreshSession g₀ head' g' := by
  cases op with
  | emplace constructor => exact ⟨_, h.emplace hids hrun⟩
  | modify id m =>
    obtain ⟨v, -, hfind, -⟩ := GenericIndex.modify_eq_ok hrun
    exact ⟨_, h.modify hids hfind hrun⟩
  | remove id =>
    obtain ⟨v, hfind, -⟩ := GenericIndex.remove_eq_ok hrun
    exact ⟨_, h.remove hfind hrun⟩

end

end FreshSession

/-! ## Squash is composition -/

/-- The newer session while its operations run. -/
structure Running (g₀ : GenericIndex V) (a : UndoState V) (g₁ : GenericIndex V) (b : UndoState V)
    (g₂ : GenericIndex V) : Prop where
  older : Session g₀ a g₁
  newer : FreshSession g₁ b g₂
  below : g₁.IdsBelow

variable {g₀ g₁ : GenericIndex V}

theorem Running.twoSessions {g₂ : GenericIndex V} {b : UndoState V}
    (h : Running g₀ a g₁ b g₂) : TwoSessions g₀ a g₁ b g₂ :=
  ⟨h.older, h.newer.toSession, fun i hi => h.below.find?_eq_none (h.newer.fresh i hi)⟩

def GenericIndex.withRecord (g₀ g₁ g₂ : GenericIndex V) (c : UndoState V) : GenericIndex V :=
  { g₂ with stack := c :: g₀.stack, revision := g₁.revision }

namespace Running

variable {g₀ g₁ g₂ : GenericIndex V} {a b : UndoState V}

/-- The two ways of running an operation: both throw, or both return and correspond again. -/
def Agree (g₀ : GenericIndex V) (a : UndoState V) (g₁ : GenericIndex V)
    (x y : Result (GenericIndex V)) : Prop :=
  (∃ e, x = .error e ∧ y = .error e)
    ∨ ∃ b g₂, x = .ok g₂ ∧ y = .ok (g₀.withRecord g₁ g₂ (a.merged b)) ∧ Running g₀ a g₁ b g₂

theorem emplace (h : Running g₀ a g₁ b g₂) {constructor : Int → V}
    (hids : ∀ id, ValueType.id (constructor id) = id) :
    Agree g₀ a g₁ (g₂.emplace constructor)
      ((g₀.withRecord g₁ g₂ (a.merged b)).emplace constructor) := by
  cases hemplace : g₂.indices.emplace? (constructor g₂.nextId) with
  | none =>
    refine .inl ⟨.logicError
      "could not insert object, most likely a uniqueness constraint was violated", ?_, ?_⟩
    · simp only [GenericIndex.emplace, hemplace]
    · simp only [GenericIndex.emplace, GenericIndex.withRecord, hemplace]
  | some indices =>
    have hrun : g₂.emplace constructor = .ok ⟨b.onCreate (constructor g₂.nextId) :: g₁.stack,
        g₂.revision, g₂.nextId + 1, indices⟩ := by
      simp only [GenericIndex.emplace, hemplace, GenericIndex.record_of_stack h.newer.stack]
    have hmid : g₁.indices.objects.find? (ValueType.id (constructor g₂.nextId)) = none :=
      h.below.find?_eq_none (by rw [hids]; exact h.newer.nextId_le)
    have hnow : g₂.indices.objects.find? (ValueType.id (constructor g₂.nextId)) = none :=
      find?_eq_none_iff.2 fun v hv => ((Indices.emplace?_eq_some.1 hemplace).1 v hv).1
    refine .inr ⟨b.onCreate _, _, hrun, ?_, ⟨h.older, h.newer.emplace hids hrun, h.below⟩⟩
    rw [h.twoSessions.merged_onCreate hnow hmid]
    simp only [GenericIndex.emplace, GenericIndex.withRecord, hemplace]
    rfl

variable {id : Int}

section

variable (h : Running g₀ a g₁ b g₂)
include h

theorem modify {m : V → V}
    (hids : ∀ v, ValueType.id (m v) = ValueType.id v) :
    Agree g₀ a g₁ (g₂.modify id m) ((g₀.withRecord g₁ g₂ (a.merged b)).modify id m) := by
  cases hfind : g₂.indices.find? id with
  | none =>
    refine .inl ⟨.undefinedBehaviour, ?_, ?_⟩
    · simp only [GenericIndex.modify, hfind]
    · simp only [GenericIndex.modify, GenericIndex.withRecord, hfind]
  | some v =>
    cases hreplace : g₂.indices.replace? id (m v) with
    | none =>
      refine .inl ⟨.abort, ?_, ?_⟩
      · simp only [GenericIndex.modify, hfind, hreplace]
      · simp only [GenericIndex.modify, GenericIndex.withRecord, hfind, hreplace]
    | some indices =>
      have hrun : g₂.modify id m
          = .ok ⟨b.onModify v :: g₁.stack, g₂.revision, g₂.nextId, indices⟩ := by
        simp only [GenericIndex.modify, hfind, hreplace, GenericIndex.record_of_stack h.newer.stack]
      obtain ⟨hv, rfl⟩ := find?_eq_some_iff.1 hfind
      refine .inr ⟨b.onModify v, _, hrun, ?_, ⟨h.older, h.newer.modify hids hfind hrun, h.below⟩⟩
      rw [h.twoSessions.merged_onModify (find?_of_mem hv)]
      simp only [GenericIndex.modify, GenericIndex.withRecord, hfind, hreplace]
      rfl

theorem remove : Agree g₀ a g₁ (g₂.remove id) ((g₀.withRecord g₁ g₂ (a.merged b)).remove id) := by
  cases hfind : g₂.indices.find? id with
  | none =>
    refine .inl ⟨.undefinedBehaviour, ?_, ?_⟩
    · simp only [GenericIndex.remove, hfind]
    · simp only [GenericIndex.remove, GenericIndex.withRecord, hfind]
  | some v =>
    have hrun : g₂.remove id
        = .ok ⟨b.onRemove v :: g₁.stack, g₂.revision, g₂.nextId, g₂.indices.erase id⟩ := by
      simp only [GenericIndex.remove, hfind, GenericIndex.record_of_stack h.newer.stack]
    obtain ⟨hv, rfl⟩ := find?_eq_some_iff.1 hfind
    refine .inr ⟨b.onRemove v, _, hrun, ?_, ⟨h.older, h.newer.remove hfind hrun, h.below⟩⟩
    rw [h.twoSessions.merged_onRemove (find?_of_mem hv)]
    simp only [GenericIndex.remove, GenericIndex.withRecord, hfind]
    rfl

theorem step {op : Operation V} (hids : op.LeavesIds) :
    Agree g₀ a g₁ (op.run g₂) (op.run (g₀.withRecord g₁ g₂ (a.merged b))) := by
  cases op with
  | emplace constructor => exact h.emplace hids
  | modify id m => exact h.modify hids
  | remove id => exact h.remove

end

theorem runAll {ops : List (Operation V)} (hids : ∀ op ∈ ops, op.LeavesIds) :
    ∀ {b : UndoState V} {g₂ : GenericIndex V}, Running g₀ a g₁ b g₂ →
      Agree g₀ a g₁ (GenericIndex.runAll ops g₂)
        (GenericIndex.runAll ops (g₀.withRecord g₁ g₂ (a.merged b))) := by
  induction ops with
  | nil => exact fun h => .inr ⟨_, _, rfl, rfl, h⟩
  | cons op rest ih =>
    intro b g₂ h
    unfold GenericIndex.runAll
    rcases h.step (hids op mem_cons_self) with ⟨e, hx, hy⟩ | ⟨b', g₂', hx, hy, h'⟩
    · rw [hx, hy]
      exact .inl ⟨e, rfl, rfl⟩
    · rw [hx, hy]
      exact ih (fun op' hop' => hids op' (mem_cons_of_mem _ hop')) h'

end Running

theorem Session.squash_operations (h : Session g₀ a g₁)
    (hbelow : g₁.IdsBelow) {ops : List (Operation V)} (hids : ∀ op ∈ ops, op.LeavesIds) :
    (GenericIndex.runAll ops (g₁.startUndoSession true) >>= GenericIndex.squash)
      = GenericIndex.runAll ops g₁ := by
  have hg₁ : g₀.withRecord g₁ (g₁.startUndoSession true)
      (a.merged ⟨empty, empty, empty, g₁.nextId, g₁.revision + 1⟩) = g₁ := by
    show (⟨a :: g₀.stack, g₁.revision, g₁.nextId, g₁.indices⟩) = g₁
    rw [← h.stack]
  have hagree := (⟨h, FreshSession.start g₁, hbelow⟩ : Running g₀ a g₁ _ _).runAll hids
  rw [hg₁] at hagree
  rcases hagree with ⟨e, hx, hy⟩ | ⟨b, g₂, hx, hy, hrunning⟩
  · rw [hx, hy]
    rfl
  · rw [hx, hy]
    exact hrunning.twoSessions.squash

theorem GenericIndex.runAll_append (ops₁ ops₂ : List (Operation V)) (g : GenericIndex V) :
    runAll (ops₁ ++ ops₂) g = runAll ops₁ g >>= runAll ops₂ := by
  induction ops₁ generalizing g with
  | nil => rfl
  | cons op rest ih =>
    rw [cons_append, runAll, runAll]
    cases op.run g with
    | error e => rfl
    | ok g₁ => exact ih g₁

def GenericIndex.runNested (ops₁ ops₂ : List (Operation V)) (g : GenericIndex V) :
    Result (GenericIndex V) := do
  let g₁ ← runAll ops₁ (g.startUndoSession true)
  let g₂ ← runAll ops₂ (g₁.startUndoSession true)
  g₂.squash

/-- **Squash is composition.** A session with another one squashed into it ends as the session with
the operations of both: the same objects, next id, revision and records. `undo` takes back both. -/
theorem squash_runAll {g : GenericIndex V} {ops₁ ops₂ : List (Operation V)} (hbelow : g.IdsBelow)
    (hids₁ : ∀ op ∈ ops₁, op.LeavesIds) (hids₂ : ∀ op ∈ ops₂, op.LeavesIds) :
    GenericIndex.runNested ops₁ ops₂ g
      = GenericIndex.runAll (ops₁ ++ ops₂) (g.startUndoSession true)
    ∧ ∀ g', GenericIndex.runNested ops₁ ops₂ g = .ok g' → g'.Undoable → g'.undo = .ok g := by
  have hkeeps : ∀ op ∈ ops₁ ++ ops₂, op.KeepsIds := by
    intro op hop
    rcases mem_append.1 hop with hop | hop
    · exact (hids₁ op hop).keepsIds
    · exact (hids₂ op hop).keepsIds
  have heq : GenericIndex.runNested ops₁ ops₂ g
      = GenericIndex.runAll (ops₁ ++ ops₂) (g.startUndoSession true) := by
    rw [GenericIndex.runAll_append]
    unfold GenericIndex.runNested
    cases hrun : GenericIndex.runAll ops₁ _ with
    | error e => rfl
    | ok g₁ =>
      have hkeeps₁ : ∀ op ∈ ops₁, op.KeepsIds := fun op hop => (hids₁ op hop).keepsIds
      obtain ⟨a, hsession⟩ := Session.runAll hkeeps₁ (Session.start g) hrun
      have hbelow₁ : g₁.IdsBelow :=
        GenericIndex.IdsBelow.runAll hids₁ (g := g.startUndoSession true) hbelow hrun
      exact hsession.squash_operations hbelow₁ hids₂
  refine ⟨heq, fun g' hrun hundo => ?_⟩
  rw [heq] at hrun
  obtain ⟨head, hsession⟩ := Session.runAll hkeeps (Session.start g) hrun
  exact hsession.undo hundo

/-- Operations of an inner session, after `rowOperations`: a renamed row is renamed again, a row that
the outer session has created is removed, and one from before it is changed and removed. -/
def innerOperations : List (Operation Row) :=
  [.modify 0 fun row => { row with name := 17 },
    .remove 3,
    .emplace fun id => ⟨id, 13, 1⟩,
    .modify 2 fun row => { row with balance := 1 },
    .remove 2]

theorem squash_innerOperations :
    ∃ g, GenericIndex.runNested rowOperations innerOperations rows = .ok g
      ∧ GenericIndex.runAll (rowOperations ++ innerOperations) (rows.startUndoSession true) = .ok g
      ∧ g.indices.objects.entries = [⟨0, 17, 5⟩, ⟨4, 11, 0⟩, ⟨6, 13, 1⟩]
      ∧ g.undo = .ok rows := by
  have hbelow : rows.IdsBelow := by decide +kernel
  have hids₁ : ∀ op ∈ rowOperations, op.LeavesIds := by
    simp [rowOperations, Operation.LeavesIds, ValueType.id]
  have hids₂ : ∀ op ∈ innerOperations, op.LeavesIds := by
    simp [innerOperations, Operation.LeavesIds, ValueType.id]
  obtain ⟨g, hrun⟩ : ∃ g, GenericIndex.runNested rowOperations innerOperations rows = .ok g := by
    decide +kernel
  have hall : ∀ g, GenericIndex.runNested rowOperations innerOperations rows = .ok g →
      g.indices.objects.entries = [⟨0, 17, 5⟩, ⟨4, 11, 0⟩, ⟨6, 13, 1⟩] ∧ g.KeysApart := by
    decide +kernel
  obtain ⟨hrows, hapart⟩ := hall g hrun
  obtain ⟨heq, hundo⟩ := squash_runAll hbelow hids₁ hids₂
  exact ⟨g, hrun, heq ▸ hrun, hrows, hundo g hrun hapart.undoable⟩

end PotatoNode.Chainbase
