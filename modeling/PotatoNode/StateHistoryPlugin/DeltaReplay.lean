import Mathlib.Data.List.ReduceOption
import PotatoNode.Lib.KeyedStore
import PotatoNode.StateHistoryPlugin.BlockChanges

/-!
# Deltas reproduce the state

A client that holds the rows of the state before a block and applies the deltas of the block holds
the rows of the state after it. The deltas come from the undo record of the block's session, in the
order modified, removed, created; the key of a row is hit by more than one of them only where a row
is removed and created again.
-/

namespace PotatoNode.StateHistoryPlugin

open Lib Chain HistoryTable List Function Table Except
open Chainbase hiding Result Failure

theorem packEntry_eq_ok {V Row : Type} {pack : V → Result Row} {present : Bool} {v : V}
    {e : Bool × Row} :
    packEntry pack present v = .ok e ↔ ∃ row, pack v = .ok row ∧ e = (present, row) := by
  rw [packEntry, bind_eq_ok]
  exact exists_congr fun row => and_congr_right fun _ => ⟨fun h => (ok.inj h).symm,
    fun h => congrArg ok h.symm⟩

section Replay

variable {V Row κ : Type} [ValueType V] [DecidableEq κ] {R : V → V → Prop}
  {pack : V → Result Row} {incl : V → V → Bool} {key : Row → κ}
  {g₀ g : GenericIndex V} {head : UndoState V}

/-- The entries that `process_table` makes of an undo record. -/
structure Entries (pack : V → Result Row) (incl : V → V → Bool) (head : UndoState V)
    (g : GenericIndex V) (modified removed created : DeltaRows Row) : Prop where
  modified_iff : ∀ e, e ∈ modified ↔ ∃ old ∈ head.oldValues, ∃ w ∈ g.indices.objects,
    ValueType.id w = ValueType.id old ∧ incl old w = true ∧ ∃ row, pack w = .ok row ∧ e = (true, row)
  removed_iff : ∀ e, e ∈ removed ↔ ∃ old ∈ head.removedValues,
    ∃ row, pack old = .ok row ∧ e = (false, row)
  created_iff : ∀ e, e ∈ created ↔ ∃ w ∈ g.indices.objects, ValueType.id w ∈ head.newIds ∧
    ∃ row, pack w = .ok row ∧ e = (true, row)

variable {id : Int}

theorem getObject_eq_ok {w : V} :
    getObject g id = .ok w ↔ w ∈ g.indices.objects ∧ ValueType.id w = id := by
  unfold getObject
  rw [← find?_eq_some_iff]
  show _ ↔ g.indices.find? id = some w
  cases g.indices.find? id with
  | none => simp
  | some obj => simp

theorem packModified_eq_ok {old : V} {entry : Option (Bool × Row)} :
    packModified pack incl g old = .ok entry ↔
      ∃ w ∈ g.indices.objects, ValueType.id w = ValueType.id old ∧
        (incl old w = true ∧ (∃ row, pack w = .ok row ∧ entry = some (true, row)) ∨
          incl old w = false ∧ entry = none) := by
  rw [packModified, bind_eq_ok]
  refine exists_congr fun w => ?_
  rw [getObject_eq_ok, and_assoc]
  refine and_congr_right fun _ => and_congr_right fun _ => ?_
  cases incl old w with
  | true =>
    simp only [if_true, bind_eq_ok, packEntry_eq_ok, true_and, Bool.true_eq_false, false_and, or_false]
    constructor
    · rintro ⟨e, ⟨row, hrow, rfl⟩, h⟩
      exact ⟨row, hrow, (ok.inj h).symm⟩
    · rintro ⟨row, hrow, rfl⟩
      exact ⟨_, ⟨row, hrow, rfl⟩, rfl⟩
  | false => simp [eq_comm]

theorem packCreated_eq_ok {e : Bool × Row} :
    packCreated pack g id = .ok e ↔ ∃ w ∈ g.indices.objects, ValueType.id w = id ∧
      ∃ row, pack w = .ok row ∧ e = (true, row) := by
  rw [packCreated, bind_eq_ok]
  simp only [getObject_eq_ok, packEntry_eq_ok, and_assoc]

theorem entries_nil
    (h : head.oldValues.entries = [] ∧ head.newIds.entries = [] ∧ head.removedValues.entries = []) :
    Entries pack incl head g [] [] [] := by
  obtain ⟨hold, hnew, hremoved⟩ := h
  refine ⟨?_, ?_, ?_⟩ <;> simp [mem_def, hold, hnew, hremoved]

/-- `process_table` packs what the session changed. -/
theorem exists_processTable (hR : Discipline R) (h : Layer R g₀ head g)
    (hnow : ∀ w ∈ g.indices.objects, ∃ row, pack w = .ok row)
    (hgone : ∀ v ∈ head.removedValues, ∃ row, pack v = .ok row) :
    ∃ delta modified removed created, processTable pack incl g false = .ok delta ∧
      delta.getD [] = modified ++ removed ++ created ∧
      Entries pack incl head g modified removed created := by
  obtain ⟨modified, hmodified, hmem⟩ :
      ∃ es, head.oldValues.entries.mapM (packModified pack incl g) = .ok es ∧
        ∀ e, e ∈ es ↔ ∃ old ∈ head.oldValues.entries, packModified pack incl g old = .ok e := by
    refine exists_mapM_eq_ok fun old hold => ?_
    obtain ⟨-, w, hw, hrel⟩ := h.related_of_old hR hold
    obtain ⟨row, hrow⟩ := hnow w hw
    cases hincl : incl old w with
    | true =>
      exact ⟨some _, packModified_eq_ok.2 ⟨w, hw, hR.id hrel, .inl ⟨hincl, row, hrow, rfl⟩⟩⟩
    | false => exact ⟨none, packModified_eq_ok.2 ⟨w, hw, hR.id hrel, .inr ⟨hincl, rfl⟩⟩⟩
  obtain ⟨removed, hremoved, hmem'⟩ :
      ∃ es, head.removedValues.entries.mapM (packEntry pack false) = .ok es ∧
        ∀ e, e ∈ es ↔ ∃ old ∈ head.removedValues.entries, packEntry pack false old = .ok e := by
    refine exists_mapM_eq_ok fun old hold => ?_
    obtain ⟨row, hrow⟩ := hgone old hold
    exact ⟨_, packEntry_eq_ok.2 ⟨row, hrow, rfl⟩⟩
  obtain ⟨created, hcreated, hmem''⟩ :
      ∃ es, head.newIds.entries.mapM (packCreated pack g) = .ok es ∧
        ∀ e, e ∈ es ↔ ∃ id ∈ head.newIds.entries, packCreated pack g id = .ok e := by
    refine exists_mapM_eq_ok fun id hid => ?_
    -- a new object is there
    have hthere := ((h.restores id).ofNew (IdSet.contains_iff.2 hid)).1
    obtain ⟨w, hw⟩ := Option.isSome_iff_exists.1 hthere
    obtain ⟨hwmem, hwid⟩ := find?_eq_some_iff.1 hw
    obtain ⟨row, hrow⟩ := hnow w hwmem
    exact ⟨_, packCreated_eq_ok.2 ⟨w, hwmem, hwid, row, hrow, rfl⟩⟩
  unfold processTable
  rw [if_neg Bool.false_ne_true, h.stack]
  by_cases hempty : head.oldValues.entries = [] ∧ head.newIds.entries = [] ∧
      head.removedValues.entries = []
  · exact ⟨none, [], [], [], if_pos hempty, rfl, entries_nil hempty⟩
  · refine ⟨some (modified.reduceOption ++ removed ++ created), _, _, _, ?_, rfl, ?_, ?_, ?_⟩
    · simp only [if_neg hempty, hmodified, hremoved, hcreated, ok_bind]
    · intro e
      rw [reduceOption_mem_iff, hmem]
      refine exists_congr fun old => and_congr_right fun _ => ?_
      rw [packModified_eq_ok]
      simp
    · intro e
      rw [hmem']
      simp only [packEntry_eq_ok]
      rfl
    · intro e
      rw [hmem'']
      simp only [packCreated_eq_ok]
      constructor
      · rintro ⟨id, hid, w, hw, rfl, hrow⟩
        exact ⟨w, hw, hid, hrow⟩
      · rintro ⟨w, hw, hid, hrow⟩
        exact ⟨_, hid, w, hw, rfl, hrow⟩

/-- What is known of packing in a block: rows of objects from before and of those now have keys of
their own, and a modifier changes a row only where the modification is published. -/
structure Packs (R : V → V → Prop) (pack : V → Result Row) (incl : V → V → Bool)
    (key : Row → κ) (g₀ g : GenericIndex V) : Prop where
  before : ∀ v ∈ g₀.indices.objects, ∃ row, pack v = .ok row
  now : ∀ w ∈ g.indices.objects, ∃ row, pack w = .ok row
  key_eq : ∀ {v w row row'}, R v w → pack v = .ok row → pack w = .ok row' → key row = key row'
  hidden : ∀ {v w}, R v w → incl v w = false → pack v = pack w
  inj_before : ∀ v ∈ g₀.indices.objects, ∀ w ∈ g₀.indices.objects, ∀ {row row'},
    pack v = .ok row → pack w = .ok row' → key row = key row' → v = w
  inj_now : ∀ v ∈ g.indices.objects, ∀ w ∈ g.indices.objects, ∀ {row row'},
    pack v = .ok row → pack w = .ok row' → key row = key row' → v = w

theorem keyed_rows {g : GenericIndex V} {rows : List Row}
    (hrows : ∀ row, row ∈ rows ↔ ∃ v ∈ g.indices.objects.entries, pack v = .ok row)
    (hinj : ∀ v ∈ g.indices.objects, ∀ w ∈ g.indices.objects, ∀ {row row'},
      pack v = .ok row → pack w = .ok row' → key row = key row' → v = w)
    {v : V} {row : Row} (hv : v ∈ g.indices.objects) (hrow : pack v = .ok row) :
    keyed key rows (key row) = some row := by
  refine keyed_eq_some ((hrows row).2 ⟨v, hv, hrow⟩) rfl fun row' hrow' hkey => ?_
  obtain ⟨w, hw, hpack⟩ := (hrows row').1 hrow'
  rw [hinj w hw v hv hpack hrow hkey, hrow] at hpack
  exact (ok.inj hpack).symm

/-- **One table.** The entries of the undo record turn the rows from before the session into those
after it. -/
theorem Layer.replay (hR : Discipline R) (h : Layer R g₀ head g) (hp : Packs R pack incl key g₀ g)
    {modified removed created : DeltaRows Row}
    (he : Entries pack incl head g modified removed created) {rows₀ rows : List Row}
    (hrows₀ : ∀ row, row ∈ rows₀ ↔ ∃ v ∈ g₀.indices.objects.entries, pack v = .ok row)
    (hrows : ∀ row, row ∈ rows ↔ ∃ w ∈ g.indices.objects.entries, pack w = .ok row) :
    applyEntries key (keyed key rows₀) (modified ++ removed ++ created) = keyed key rows := by
  funext k
  rw [applyEntries_append, applyEntries_append]
  by_cases hk : ∃ w ∈ g.indices.objects, ∃ row, pack w = .ok row ∧ key row = k
  · obtain ⟨w, hw, row, hrow, rfl⟩ := hk
    rw [keyed_rows hrows hp.inj_now hw hrow]
    rcases h.cases_now hR hw with ⟨hnew, -⟩ | ⟨hold, v, hv, hrel, hcases⟩
    · -- the row of a created object is inserted last
      refine applyEntries_of_mem ((he.created_iff _).2 ⟨w, hw, hnew, row, hrow, rfl⟩) rfl ?_
      intro e hmem hkey
      obtain ⟨w', hw', -, row', hrow', rfl⟩ := (he.created_iff e).1 hmem
      rw [hp.inj_now w' hw' w hw hrow' hrow hkey, hrow] at hrow'
      rw [ok.inj hrow']
    · obtain ⟨row₀, hrow₀⟩ := hp.before v hv
      have hkey₀ : key row₀ = key row := hp.key_eq hrel hrow₀ hrow
      -- no created row and no removed row has the key
      have hcreated : ∀ e ∈ created, key e.2 ≠ key row := by
        intro e hmem hkey
        obtain ⟨w', hw', hnew, row', hrow', rfl⟩ := (he.created_iff e).1 hmem
        exact hold (hp.inj_now w' hw' w hw hrow' hrow hkey ▸ hnew)
      have hremoved : ∀ e ∈ removed, key e.2 ≠ key row := by
        intro e hmem hkey
        obtain ⟨u, hu, row', hrow', rfl⟩ := (he.removed_iff e).1 hmem
        obtain ⟨humem, hgone⟩ := h.of_removed hu
        have huv := hp.inj_before u humem v hv hrow' hrow₀ (hkey.trans hkey₀.symm)
        exact hgone w hw (huv ▸ hR.id hrel)
      rw [applyEntries_of_forall_ne hcreated, applyEntries_of_forall_ne hremoved]
      by_cases hmod : (true, row) ∈ modified
      · refine applyEntries_of_mem hmod rfl ?_
        intro e hmem hkey
        obtain ⟨_, -, w', hw', -, -, row', hrow', rfl⟩ := (he.modified_iff e).1 hmem
        rw [hp.inj_now w' hw' w hw hrow' hrow hkey, hrow] at hrow'
        rw [ok.inj hrow']
      · -- the row is the one from before
        have hsame : row₀ = row := by
          have hpack : pack v = pack w := by
            rcases hcases with hin | ⟨rfl, -⟩
            · refine hp.hidden hrel (Bool.eq_false_iff.2 fun hincl => hmod ?_)
              exact (he.modified_iff _).2 ⟨v, hin, w, hw, hR.id hrel, hincl, row, hrow, rfl⟩
            · rfl
          rw [hpack, hrow] at hrow₀
          exact (ok.inj hrow₀).symm
        subst hsame
        rw [applyEntries_of_forall_ne, keyed_rows hrows₀ hp.inj_before hv hrow₀]
        intro e hmem hkey
        obtain ⟨_, -, w', hw', -, -, row', hrow', rfl⟩ := (he.modified_iff e).1 hmem
        have hrow'' := hrow'
        rw [hp.inj_now w' hw' w hw hrow' hrow hkey, hrow] at hrow''
        exact hmod (ok.inj hrow'' ▸ hmem)
  · -- no row has the key after the block
    have hnone : ∀ w ∈ g.indices.objects, ∀ row, pack w = .ok row → key row ≠ k :=
      fun w hw row hrow hkey => hk ⟨w, hw, row, hrow, hkey⟩
    rw [keyed_eq_none fun row hmem => by
      obtain ⟨w, hw, hrow⟩ := (hrows row).1 hmem
      exact hnone w hw row hrow]
    rw [applyEntries_of_forall_ne fun e hmem => by
      obtain ⟨w, hw, -, row, hrow, rfl⟩ := (he.created_iff e).1 hmem
      exact hnone w hw row hrow]
    by_cases hrem : ∃ u ∈ head.removedValues, ∃ row, pack u = .ok row ∧ key row = k
    · obtain ⟨u, hu, row, hrow, rfl⟩ := hrem
      refine applyEntries_of_mem ((he.removed_iff _).2 ⟨u, hu, row, hrow, rfl⟩) rfl ?_
      intro e hmem hkey
      obtain ⟨u', hu', row', hrow', rfl⟩ := (he.removed_iff e).1 hmem
      rw [hp.inj_before u' (h.of_removed hu').1 u (h.of_removed hu).1 hrow' hrow hkey, hrow] at hrow'
      rw [ok.inj hrow']
    · rw [applyEntries_of_forall_ne fun e hmem hkey => by
        obtain ⟨u, hu, row, hrow, rfl⟩ := (he.removed_iff e).1 hmem
        exact hrem ⟨u, hu, row, hrow, hkey⟩]
      rw [applyEntries_of_forall_ne fun e hmem => by
        obtain ⟨_, -, w, hw, -, -, row, hrow, rfl⟩ := (he.modified_iff e).1 hmem
        exact hnone w hw row hrow]
      refine keyed_eq_none fun row hmem hkey => ?_
      obtain ⟨v, hv, hrow⟩ := (hrows₀ row).1 hmem
      rcases h.cases_before hv with hgone | ⟨w, hw, hid⟩
      · exact hrem ⟨v, hgone, row, hrow, hkey⟩
      · obtain ⟨row', hrow'⟩ := hp.now w hw
        refine hnone w hw row' hrow' ?_
        rw [← hp.key_eq (h.exists_before hR hv hw hid) hrow hrow', hkey]

end Replay

/-! ## The tables -/

theorem map_key_frame (db : Db) (t : HistoryTable) (o : t.Object) :
    (packRow db t (t.frame o)).map t.key = (packRow db t o).map t.key := by
  cases t with
  | contractRow | contractIndex k =>
    show ((getTableId db o.tId >>= _).map _) = (getTableId db o.tId >>= _).map _
    cases getTableId db o.tId <;> rfl
  | permission =>
    show ((parentName db o.parent >>= _).map _) = (parentName db o.parent >>= _).map _
    cases parentName db o.parent <;> rfl
  | resourceLimits =>
    show ((eosAssert (o.pending = false) _ _ >>= _).map _)
      = (eosAssert (o.pending = false) _ _ >>= _).map _
    cases eosAssert (o.pending = false) .pluginException
      "accepted_block sent while resource_limits_object in pending state" <;> rfl
  | _ => rfl

variable {db : Db} {t : HistoryTable}

/-- Modifiers do not change keys. -/
theorem packRow_key {v w : t.Object} {row row' : t.Row} (h : SameFrame t v w)
    (hrow : packRow db t v = .ok row) (hrow' : packRow db t w = .ok row') :
    t.key row = t.key row' := by
  have hv := map_key_frame db t v
  have hw := map_key_frame db t w
  rw [show t.frame v = t.frame w from h, hw, hrow, hrow'] at hv
  exact (ok.inj hv).symm

/-- **What `include_delta` hides is invisible.** -/
theorem packRow_hidden {v w : t.Object} (h : SameFrame t v w) (hincl : includeDelta t v w = false) :
    packRow db t v = packRow db t w := by
  cases t with
  | accountMetadata =>
    simp only [includeDelta, decide_eq_false_iff_not, not_or, not_not] at hincl
    obtain ⟨hname, hprivileged, hupdate, htype, hversion, hhash⟩ := hincl
    simp only [packRow, hname, hprivileged, hupdate, htype, hversion, hhash]
  | code =>
    -- only the reference count is ever modified
    simp only [SameFrame, frame, CodeObject.mk.injEq] at h
    simp only [packRow, h]
  | contractTable =>
    simp only [SameFrame, frame, TableIdObject.mk.injEq] at h
    simp only [packRow, tableNames, h]
  | protocolState => rfl
  | resourceLimits =>
    simp only [SameFrame, frame, ResourceLimitsObject.mk.injEq] at h
    simp only [includeDelta, decide_eq_false_iff_not, not_or, not_not] at hincl
    simp only [packRow, h, hincl]
  | resourceLimitsState =>
    obtain ⟨_, ⟨⟨_, _, _⟩, ⟨_, _, _⟩, _, _, _, _, _, _, _⟩⟩ := v
    simp only [includeDelta, decide_eq_false_iff_not, not_or, not_not] at hincl
    simp only [packRow, hincl]
  | _ => cases hincl

section Packing

variable {db db₀ : Db} {t : TableIdObject}

theorem getTableId_of_mem (h : t ∈ db .contractTable) : getTableId db t.id = .ok t := by
  have hfind : (db .contractTable).indices.find? t.id = some t := find?_of_mem h
  rw [getTableId, hfind]

variable {p : PermissionObject}

theorem parentName_of_mem (h : p ∈ db .permission) (hid : p.id ≠ 0) :
    parentName db p.id = .ok p.name := by
  have hfind : (db .permission).indices.find? p.id = some p := find?_of_mem h
  rw [parentName, if_pos hid, hfind]

theorem tableUsed_row {o : KeyValueObject} (ho : o ∈ db .contractRow) : TableUsed db o.tId :=
  .inl ⟨o, ho, rfl⟩

theorem tableUsed_index {k : IndexKind} {o : IndexObject k} (ho : o ∈ db (.contractIndex k)) :
    TableUsed db o.tId :=
  .inr ⟨k, o, ho, rfl⟩

/-- Objects of a consistent state can be packed. -/
theorem Consistent.exists_packRow (h : Consistent db) {t : HistoryTable} {o : t.Object}
    (ho : o ∈ db t) : ∃ row, packRow db t o = .ok row := by
  cases t with
  | contractRow | contractIndex =>
    obtain ⟨table, htable, hid⟩ := h.tables o.tId
      (by first | exact tableUsed_row ho | exact tableUsed_index ho)
    exact ⟨_, by rw [packRow, ← hid, getTableId_of_mem htable, ok_bind]⟩
  | permission =>
    by_cases hparent : o.parent = 0
    · exact ⟨_, by rw [packRow, hparent]; rfl⟩
    · obtain ⟨p, hp, hid⟩ := h.parents o ho hparent
      exact ⟨_, by rw [packRow, ← hid, parentName_of_mem hp (hid ▸ hparent), ok_bind]⟩
  | resourceLimits => exact ⟨_, by rw [packRow, eosAssert_of (h.settled o ho), ok_bind]⟩
  | _ => exact ⟨_, rfl⟩

theorem Consistent.tId_eq (h : Consistent db) {i j : Int} (hi : TableUsed db i)
    (hj : TableUsed db j) {t' : TableIdObject} (ht : getTableId db i = .ok t)
    (ht' : getTableId db j = .ok t') (hnames : tableNames t = tableNames t') : i = j := by
  obtain ⟨u, hu, rfl⟩ := h.tables i hi
  obtain ⟨u', hu', rfl⟩ := h.tables j hj
  cases (getTableId_of_mem hu).symm.trans ht
  cases (getTableId_of_mem hu').symm.trans ht'
  simp only [tableNames, TableNames.mk.injEq] at hnames
  rw [(db .contractTable).indices.unique t hu t' hu' (by simpa [ValueType.clash] using hnames)]

/-- **Keys identify rows.** -/
theorem Consistent.packRow_inj (h : Consistent db) {t : HistoryTable} {v w : t.Object}
    (hv : v ∈ db t) (hw : w ∈ db t) {row row' : t.Row} (hrow : packRow db t v = .ok row)
    (hrow' : packRow db t w = .ok row') (hkey : t.key row = t.key row') : v = w := by
  have hunique : ValueType.clash v w = true → v = w := (db t).indices.unique v hv w hw
  cases t with
  | account | accountMetadata | contractTable | permissionLink | resourceUsage =>
    cases hrow
    cases hrow'
    exact hunique (by simpa [ValueType.clash, key, tableNames] using hkey)
  | contractRow | contractIndex =>
    have hused : TableUsed db v.tId ∧ TableUsed db w.tId := by
      first
      | exact ⟨tableUsed_row hv, tableUsed_row hw⟩
      | exact ⟨tableUsed_index hv, tableUsed_index hw⟩
    obtain ⟨table, htable, hrow⟩ := bind_eq_ok.1 hrow
    obtain ⟨table', htable', hrow'⟩ := bind_eq_ok.1 hrow'
    cases hrow
    cases hrow'
    simp only [key, Prod.mk.injEq] at hkey
    have htId := h.tId_eq hused.1 hused.2 htable htable' hkey.1
    exact hunique (by simp [ValueType.clash, htId, hkey.2])
  | code | generatedTransaction =>
    cases hrow
    cases hrow'
    simp only [key, CodeId.mk.injEq, Prod.mk.injEq] at hkey
    exact hunique (by simp [ValueType.clash, hkey])
  | permission =>
    obtain ⟨parent, -, hrow⟩ := bind_eq_ok.1 hrow
    obtain ⟨parent', -, hrow'⟩ := bind_eq_ok.1 hrow'
    cases hrow
    cases hrow'
    exact hunique (by simpa [ValueType.clash, key] using hkey)
  | resourceLimits =>
    obtain ⟨-, -, hrow⟩ := bind_eq_ok.1 hrow
    obtain ⟨-, -, hrow'⟩ := bind_eq_ok.1 hrow'
    cases hrow
    cases hrow'
    have howner : v.owner = w.owner := hkey
    exact hunique (by simp [ValueType.clash, h.settled v hv, h.settled w hw, howner])
  | globalProperty | protocolState | resourceLimitsState | resourceLimitsConfig =>
    exact h.single _ (by trivial) v hv w hw

/-- An object from before is found where the serializers look, though it may have been removed in
the session of the block. -/
theorem found_of_layer {V : Type} [ValueType V] {R : V → V → Prop} (hR : Discipline R)
    {g₀ g : GenericIndex V} {head : UndoState V} (h : Layer R g₀ head g) {v : V}
    (hv : v ∈ g₀.indices.objects) :
    g.indices.find? (ValueType.id v) = none ∧ (removedValues g).find? (ValueType.id v) = some v
      ∨ ∃ w ∈ g.indices.objects, ValueType.id v = ValueType.id w ∧ R v w := by
  rcases h.cases_before hv with hgone | ⟨w, hw, hid⟩
  · rw [removedValues, h.stack]
    exact .inl ⟨find?_eq_none_iff.2 (h.of_removed hgone).2, find?_of_mem hgone⟩
  · exact .inr ⟨w, hw, hid, h.exists_before hR hv hw hid⟩

theorem exists_getTableId {head : UndoState TableIdObject}
    (h : Layer (SameFrame .contractTable) (db₀ .contractTable) head (db .contractTable))
    (ht : t ∈ db₀ .contractTable) :
    ∃ t', getTableId db t.id = .ok t' ∧ tableNames t' = tableNames t := by
  rcases found_of_layer (discipline _) h ht with ⟨hnone, hsome⟩ | ⟨w, hw, hid, hsame⟩
  · exact ⟨t, by rw [getTableId, show (db .contractTable).indices.find? t.id = none from hnone,
      show (removedValues (db .contractTable)).find? t.id = some t from hsome], rfl⟩
  · rw [show t.id = w.id from hid]
    have hframe : contractTable.frame w = contractTable.frame t := hsame.symm
    exact ⟨w, getTableId_of_mem hw, (congrArg tableNames hframe :)⟩

theorem parentName_eq {head : UndoState PermissionObject}
    (h : Layer (SameFrame .permission) (db₀ .permission) head (db .permission))
    (hp : p ∈ db₀ .permission) (hid : p.id ≠ 0) : parentName db p.id = .ok p.name := by
  rcases found_of_layer (discipline _) h hp with ⟨hnone, hsome⟩ | ⟨w, hw, hwid, hsame⟩
  · rw [parentName, if_pos hid, show (db .permission).indices.find? p.id = none from hnone,
      show (removedValues (db .permission)).find? p.id = some p from hsome]
  · have hframe : permission.frame p = permission.frame w := hsame
    have hname : p.name = w.name := (congrArg PermissionObject.name hframe :)
    rw [show p.id = w.id from hwid] at hid ⊢
    rw [parentName_of_mem hw hid, hname]

/-- **Rows from before the block** are packed alike after it. -/
theorem packRow_before (h₀ : Consistent db₀) {tables : UndoState TableIdObject}
    (htables : Layer (SameFrame .contractTable) (db₀ .contractTable) tables (db .contractTable))
    {permissions : UndoState PermissionObject}
    (hpermissions : Layer (SameFrame .permission) (db₀ .permission) permissions (db .permission))
    {t : HistoryTable} {o : t.Object} (ho : o ∈ db₀ t) : packRow db t o = packRow db₀ t o := by
  cases t with
  | contractRow | contractIndex =>
    obtain ⟨table, htable, hid⟩ := h₀.tables o.tId
      (by first | exact tableUsed_row ho | exact tableUsed_index ho)
    obtain ⟨table', htable', hnames⟩ := exists_getTableId htables htable
    simp only [packRow, ← hid, htable', getTableId_of_mem htable, ok_bind, hnames]
  | permission =>
    by_cases hparent : o.parent = 0
    · simp only [packRow, hparent]
      rfl
    · obtain ⟨p, hp, hid⟩ := h₀.parents o ho hparent
      have hne : p.id ≠ 0 := hid ▸ hparent
      simp only [packRow, ← hid, parentName_eq hpermissions hp hne, parentName_of_mem hp hne]
  | _ => rfl

end Packing

/-! ## Clients -/

abbrev Client := (t : HistoryTable) → t.Key → Option t.Row

def Client.apply (client : Client) (delta : TableDelta) : Client :=
  Function.update client delta.1 (applyEntries delta.1.key (client delta.1) delta.2)

def stateRows (db : Db) (t : HistoryTable) : Result (List t.Row) :=
  (db t).indices.objects.entries.mapM (packRow db t)

def Client.Holds (client : Client) (db : Db) : Prop :=
  ∀ t, ∃ rows, stateRows db t = .ok rows ∧ client t = keyed t.key rows

def clientOf (db : Db) : Client := fun t => keyed t.key ((stateRows db t).toOption.getD [])

theorem holds_clientOf (h : Consistent db) : (clientOf db).Holds db := by
  intro t
  obtain ⟨rows, hrows, -⟩ := exists_mapM_eq_ok fun o (ho : o ∈ db t) => h.exists_packRow ho
  have hstate : stateRows db t = .ok rows := hrows
  exact ⟨rows, hstate, by rw [clientOf, hstate]; rfl⟩

section Block

variable {db₀ db : Db}

theorem packs (hblock : Block db₀ db) (h₀ : Consistent db₀) (t : HistoryTable) :
    Packs (SameFrame t) (packRow db t) (includeDelta t) t.key (db₀ t) (db t) := by
  have h : Consistent db := hblock.consistent h₀
  obtain ⟨tables, htables⟩ := (hblock.session h₀).layers .contractTable
  obtain ⟨permissions, hpermissions⟩ := (hblock.session h₀).layers .permission
  have hbefore : ∀ o ∈ db₀ t, packRow db t o = packRow db₀ t o :=
    fun o ho => packRow_before h₀ htables hpermissions ho
  exact
    { before := fun v hv => by
        rw [hbefore v hv]
        exact h₀.exists_packRow hv
      now := fun w hw => h.exists_packRow hw
      key_eq := packRow_key
      hidden := packRow_hidden
      inj_before := fun v hv w hw _ _ => by
        rw [hbefore v hv, hbefore w hw]
        exact h₀.packRow_inj hv hw
      inj_now := fun v hv w hw => h.packRow_inj hv hw }

/-- **Each table.** `process_table` returns a delta that leads from the rows before to those
after. -/
theorem exists_delta (hblock : Block db₀ db) (h₀ : Consistent db₀) (t : HistoryTable)
    {rows₀ : List t.Row} (hrows₀ : stateRows db₀ t = .ok rows₀) :
    ∃ delta rows, processTable (packRow db t) (includeDelta t) (db t) false = .ok delta ∧
      stateRows db t = .ok rows ∧
      applyEntries t.key (keyed t.key rows₀) (delta.getD []) = keyed t.key rows := by
  obtain ⟨head, hlayer⟩ := (hblock.session h₀).layers t
  obtain ⟨tables, htables⟩ := (hblock.session h₀).layers .contractTable
  obtain ⟨permissions, hpermissions⟩ := (hblock.session h₀).layers .permission
  have hpacks := packs hblock h₀ t
  obtain ⟨rows, hrows, hmem⟩ := exists_mapM_eq_ok hpacks.now
  obtain ⟨rows₀', hrows₀', hmem₀⟩ :=
    exists_mapM_eq_ok (l := (db₀ t).indices.objects.entries) fun o ho => h₀.exists_packRow ho
  cases hrows₀'.symm.trans hrows₀
  obtain ⟨delta, modified, removed, created, hdelta, hentries, he⟩ :
      ∃ delta modified removed created, processTable _ _ (db t) false = .ok delta ∧ _ :=
    exists_processTable (discipline t) hlayer hpacks.now
      fun v hv => hpacks.before v (hlayer.of_removed hv).1
  refine ⟨delta, rows, hdelta, hrows, ?_⟩
  rw [hentries]
  refine Layer.replay (discipline t) hlayer hpacks he (fun row => ?_) hmem
  rw [hmem₀]
  refine exists_congr fun o => and_congr_right fun ho => ?_
  rw [packRow_before h₀ htables hpermissions ho]

/-- By induction on the tables. -/
theorem exists_processTables {client target : Client} {ts : List HistoryTable} (hnodup : ts.Nodup)
    (h : ∀ t ∈ ts, ∃ delta, processTable (packRow db t) (includeDelta t) (db t) false = .ok delta ∧
      applyEntries t.key (client t) (delta.getD []) = target t) :
    ∃ deltas, processTables false db ts = .ok deltas ∧
      ∀ t, deltas.foldl Client.apply client t = if t ∈ ts then target t else client t := by
  induction ts generalizing client with
  | nil => exact ⟨[], rfl, fun t => by simp⟩
  | cons t rest ih =>
    obtain ⟨hnot, hrest⟩ := nodup_cons.1 hnodup
    obtain ⟨delta, hdelta, htarget⟩ := h t mem_cons_self
    -- the delta of the first table, with none for no entries
    have hfirst : ((delta.map (Sigma.mk t)).toList.foldl Client.apply client : Client)
        = update client t (target t) := by
      cases delta with
      | none =>
        rw [← htarget]
        exact (update_eq_self t client).symm
      | some entries =>
        rw [← htarget]
        rfl
    obtain ⟨deltas, hdeltas, hclient⟩ := @ih (update client t _) hrest
      fun t' ht' => by
        have hne : t' ≠ t := fun heq => hnot (heq ▸ ht')
        rw [update_of_ne hne]
        exact h t' (mem_cons_of_mem _ ht')
    refine ⟨_, by rw [processTables, hdelta, ok_bind, hdeltas, ok_bind], fun t' => ?_⟩
    rw [foldl_append, hfirst, hclient]
    by_cases ht' : t' = t
    · subst ht'
      simp [hnot]
    · simp [ht']

theorem mem_processedTables (t : HistoryTable) : t ∈ processedTables := by
  cases t with
  | contractIndex k => cases k <;> decide
  | _ => decide

/-- **Deltas reproduce the state.** After a block, whatever is created, modified, removed and
created again in it, `store_chain_state` returns deltas that turn the rows of the state before the
block into those of the state after it. -/
theorem deltas_reproduce_state (hblock : Block db₀ db) (h₀ : Consistent db₀) {client : Client}
    (hclient : client.Holds db₀) :
    ∃ deltas, storeChainState false db = .ok deltas ∧
      (deltas.foldl Client.apply client).Holds db := by
  choose rows₀ hrows₀ hheld using hclient
  choose delta rows hdelta hrows hreplay using
    fun t => exists_delta hblock h₀ t (hrows₀ t)
  have htables : ∀ t ∈ processedTables, ∃ delta,
      processTable (packRow db t) (includeDelta t) (db t) false = .ok delta ∧
        applyEntries t.key (client t) (delta.getD []) = keyed t.key (rows t) :=
    fun t _ => ⟨delta t, hdelta t, by rw [hheld, hreplay]⟩
  obtain ⟨deltas, hdeltas, hresult⟩ := exists_processTables (by decide) htables
  obtain ⟨head, hlayer⟩ := (hblock.session h₀).layers .contractTable
  refine ⟨deltas, ?_, fun t => ⟨rows t, hrows t, ?_⟩⟩
  · rw [storeChainState, if_neg (by simp [hlayer.stack]), hdeltas]
  · rw [hresult, if_pos (mem_processedTables t)]

end Block

/-! ## A table that is created again -/

theorem eq_ok_getD {ε α : Type} {x : Except ε α} (h : x.toOption.isSome = true) (default : α) :
    x = .ok (x.toOption.getD default) := by
  cases x with
  | error e => cases h
  | ok a => rfl

def oneRow : Db
  | .contractTable =>
    { stack := []
      revision := 4
      nextId := 3
      indices := ⟨Table.empty.insert ⟨2, 10, 20, 30, 10, 1⟩, by decide +kernel⟩ }
  | .contractRow =>
    { stack := []
      revision := 4
      nextId := 8
      indices := ⟨Table.empty.insert ⟨7, 2, 99, 10, [1]⟩, by decide +kernel⟩ }
  | _ => emptyIndex

def afterOperation {t : HistoryTable} (op : TableOperation t) (db : Db) : Db :=
  Function.update db t ((op.toOperation.run (db t)).toOption.getD (db t))

def openSession (db : Db) : Db := fun t => (db t).startUndoSession true

def squashSession (db : Db) : Db := fun t => ((db t).squash).toOption.getD (db t)

/-- A transaction removes the row, and the table with it, and is squashed. The contract then makes
the table and the row anew. -/
def recreateSteps : List (Db → Db) :=
  [openSession,
    openSession,
    afterOperation (.remove 7 : TableOperation .contractRow),
    afterOperation (.remove 2 : TableOperation .contractTable),
    squashSession,
    afterOperation (.create (fun id => ⟨id, 10, 20, 30, 11, 0⟩) (fun _ => rfl) :
      TableOperation .contractTable),
    afterOperation (.create (fun id => ⟨id, 3, 99, 11, [2]⟩) (fun _ => rfl) :
      TableOperation .contractRow),
    afterOperation (.modify 3 .incrementCount : TableOperation .contractTable)]

def recreated (n : Nat) : Db := (recreateSteps.take n).foldl (fun db step => step db) oneRow

theorem inBlock_afterOperation {db₀ : Db} {n : Nat} (h : InBlock db₀ n db) (op : TableOperation t)
    (allowed : op.Allowed db) (hop : (op.toOperation.run (db t)).toOption.isSome = true) :
    InBlock db₀ n (afterOperation op db) :=
  h.operation t op allowed (eq_ok_getD hop _)

theorem not_tableUsed (hrows : (db .contractRow).indices.objects.entries = [])
    (hindices : ∀ k, (db (.contractIndex k)).indices.objects.entries = []) (tid : Int) :
    ¬ TableUsed db tid := by
  rintro (⟨o, ho, -⟩ | ⟨k, o, ho, -⟩)
  · have ho : o ∈ (db .contractRow).indices.objects.entries := ho
    rw [hrows] at ho
    cases ho
  · have ho : o ∈ (db (.contractIndex k)).indices.objects.entries := ho
    rw [hindices k] at ho
    cases ho

theorem block_recreated : Block oneRow (recreated 8) := by
  have hopen : InBlock oneRow 1 (recreated 2) := InBlock.start.startUndoSession
  have hrow : InBlock oneRow 1 (recreated 3) :=
    inBlock_afterOperation hopen _ trivial (by decide +kernel)
  have htable : InBlock oneRow 1 (recreated 4) :=
    inBlock_afterOperation hrow _ (not_tableUsed (by decide +kernel) (by decide +kernel) 2)
      (by decide +kernel)
  have hsquash : InBlock oneRow 0 (recreated 5) :=
    htable.squash fun t => eq_ok_getD (by cases t <;> decide +kernel +revert) _
  have hcreate : InBlock oneRow 0 (recreated 6) :=
    inBlock_afterOperation hsquash _ (fun h => absurd h id) (by decide +kernel)
  have hallowed : ∃ t ∈ (recreated 6 .contractTable).indices.objects.entries, t.id = 3 := by
    decide +kernel
  have hcreate' : InBlock oneRow 0 (recreated 7) :=
    inBlock_afterOperation hcreate _ hallowed (by decide +kernel)
  exact ⟨inBlock_afterOperation hcreate' _ trivial (by decide +kernel),
    { accounts := ⟨recreated 8 .resourceLimits, emptyIndex⟩ }, _, rfl, rfl⟩

theorem consistent_oneRow : Consistent oneRow where
  tables := by
    rintro tid (⟨o, ho, rfl⟩ | ⟨k, o, ho, -⟩)
    · have hrows : ∀ o ∈ (oneRow .contractRow).indices.objects.entries,
          ∃ t ∈ (oneRow .contractTable).indices.objects.entries, t.id = o.tId := by
        decide +kernel
      exact hrows o ho
    · cases ho
  parents := nofun
  single t hsingle := by
    cases t <;> first | exact absurd hsingle id | exact nofun
  below t := by cases t <;> decide +kernel +revert
  settled := nofun

/-- The client of the state with one row follows it through the block. -/
theorem deltas_reproduce_recreated :
    ∃ deltas, storeChainState false (recreated 8) = .ok deltas ∧
      (deltas.foldl Client.apply (clientOf oneRow)).Holds (recreated 8) :=
  deltas_reproduce_state block_recreated consistent_oneRow (holds_clientOf consistent_oneRow)

end PotatoNode.StateHistoryPlugin
