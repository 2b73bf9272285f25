import Mathlib.Algebra.BigOperators.Group.Finset.Basic
import PotatoNode.Lib.Ledger
import PotatoNode.Chain.ApplyContext

/-!
# The ledger of the contract tables

The tables are the groups of a ledger, their rows of all six kinds the items. `ContractDb.ledger`
shows it: it forgets the keys and the values of the rows.
-/

namespace PotatoNode.Chain

open Lib Chainbase Multiset Ledger TableRow

/-- An exception or an abort, but no use of an object that is gone. -/
def Failure.Defined (e : Failure) : Prop := e ≠ .undefinedBehaviour

/-! ## Calls of chainbase -/

section Objects

variable {V : Type} [ValueType V] {g : GenericIndex V} {v : V}

theorem meets_eosAssert {cond : Prop} [Decidable cond] {type : ExceptionType} {message : String}
    {Q : Unit → Prop} (h : cond → Q ()) :
    Meets (eosAssert cond type message) Q Failure.Defined := by
  unfold eosAssert
  split
  · next hcond => exact h hcond
  · exact nofun

theorem meets_create {constructor : Int → V} {Q : V × GenericIndex V → Prop}
    (h : ∀ v g', v = constructor g.nextId → Created g v g' → Q (v, g')) :
    Meets (create g constructor) Q Failure.Defined := by
  cases hcreate : create g constructor with
  | ok result =>
    obtain ⟨hv, hcreated⟩ := create_eq_ok hcreate
    exact h result.1 result.2 hv hcreated
  | error e =>
    -- the one failure is a key that is taken
    simp only [create, GenericIndex.emplace] at hcreate
    cases hemplace : g.indices.emplace? (constructor g.nextId) with
    | some indices => simp [hemplace] at hcreate
    | none =>
      rw [hemplace] at hcreate
      cases hcreate
      exact fun h => by cases h

variable {id : Int} {Q : GenericIndex V → Prop}

theorem meets_modify {m : V → V} (hv : v ∈ g)
    (hid : ValueType.id v = id) (hm : ∀ v, ValueType.id (m v) = ValueType.id v)
    (h : ∀ g', Modified g (m v) g' → Q g') : Meets (Chain.modify g id m) Q Failure.Defined := by
  have hfind : g.indices.find? id = some v := Table.find?_eq_some_iff.2 ⟨hv, hid⟩
  cases hmodify : Chain.modify g id m with
  | ok g' =>
    obtain ⟨u, hu, huid, hmodified⟩ := modify_eq_ok hmodify hm
    obtain rfl : u = v := eq_of_id_eq hu hv (huid.trans hid.symm)
    exact h g' hmodified
  | error e =>
    simp only [Chain.modify, GenericIndex.modify, hfind] at hmodify
    cases hreplace : g.indices.replace? id (m v) with
    | some indices => simp [hreplace, Except.mapError] at hmodify
    | none =>
      rw [hreplace] at hmodify
      cases hmodify
      exact fun h => by cases h

theorem meets_remove (hv : v ∈ g)
    (hid : ValueType.id v = id) (h : ∀ g', Removed g id g' → Q g') :
    Meets (remove g id) Q Failure.Defined := by
  have hfind : g.indices.find? id = some v := Table.find?_eq_some_iff.2 ⟨hv, hid⟩
  cases hremove : remove g id with
  | ok g' => exact h g' (remove_eq_ok hremove)
  | error e => simp [remove, GenericIndex.remove, hfind, Except.mapError] at hremove

theorem meets_deref {Q : V → Prop} {E : Failure → Prop} (hv : v ∈ g)
    (hid : ValueType.id v = id) (h : Q v) : Meets (deref g id) Q E := by
  rw [deref_eq_ok.2 ⟨hv, hid⟩]
  exact h

end Objects

namespace AccountResources

def charges (r : AccountResources) (a : AccountName) : Int := r.ramUsage a

theorem meets_addPendingRamUsage {r : AccountResources} {account : AccountName} {ramDelta : Int}
    {Q : AccountResources → Prop}
    (h : ∀ r' : AccountResources, r'.charges = charge r.charges account ramDelta → Q r') :
    Meets (r.addPendingRamUsage account ramDelta) Q Failure.Defined := by
  cases hadd : r.addPendingRamUsage account ramDelta with
  | ok r' => exact h r' (funext fun a => addPendingRamUsage_eq_ok hadd a)
  | error e =>
    have hdefined : Meets (r.addPendingRamUsage account ramDelta) (fun _ => True)
        Failure.Defined := by
      unfold addPendingRamUsage
      split
      · exact trivial
      · apply meets_bind.2
        unfold Chain.get
        split
        · exact fun h => by cases h
        · next u hfind =>
          refine meets_bind.2 (meets_eosAssert fun _ => ?_)
          refine meets_bind.2 (meets_eosAssert fun _ => ?_)
          refine meets_bind.2 (meets_modify (find_eq_some hfind).1 rfl (fun _ => rfl) ?_)
          exact fun _ _ => trivial
    exact hdefined.of_error hadd

end AccountResources

/-! ## Functions on tables -/

namespace ContractDb

variable {db : ContractDb} {t : TableIdObject} {payer : AccountName} {Q : ContractDb → Prop}

theorem meets_updateDbUsage {delta : Int}
    (h : ∀ resources : AccountResources,
      resources.charges = charge db.resources.charges payer delta →
      Q { db with resources }) :
    Meets (db.updateDbUsage payer delta) Q Failure.Defined := by
  refine meets_bind.2 (AccountResources.meets_addPendingRamUsage ?_)
  exact h

theorem meets_findOrCreateTable {code scope table : Nat} {Q : TableIdObject × ContractDb → Prop}
    (hfound : ∀ tab, db.findTable code scope table = some tab → Q (tab, db))
    (hnew : ∀ tab tables resources, Created db.tables tab tables → tab.payer = payer →
      tab.count = 0 →
      resources.charges = charge db.resources.charges payer tableIdObjectBillableSize →
      Q (tab, { db with tables, resources })) :
    Meets (db.findOrCreateTable code scope table payer) Q Failure.Defined := by
  unfold findOrCreateTable
  split
  · next tab hfind => exact hfound tab hfind
  · refine meets_bind.2 (meets_updateDbUsage fun resources hcharges => ?_)
    refine meets_bind.2 (meets_create fun tab tables htab hcreated => ?_)
    subst htab
    exact hnew _ tables resources hcreated rfl rfl hcharges

theorem meets_incrementCount (ht : t ∈ db.tables)
    (h : ∀ tables, Modified db.tables { t with count := t.count + 1 } tables →
      Q { db with tables }) :
    Meets (db.incrementCount t.id) Q Failure.Defined := by
  refine meets_bind.2 (meets_modify ht rfl (fun _ => rfl) ?_)
  exact h

theorem meets_decrementCount (ht : t ∈ db.tables)
    (h : ∀ tables, Modified db.tables { t with count := t.count - 1 } tables →
      Q { db with tables }) :
    Meets (db.decrementCount t.id) Q Failure.Defined := by
  refine meets_bind.2 (meets_modify ht rfl (fun _ => rfl) ?_)
  exact h

theorem meets_removeTableIfEmpty (ht : t ∈ db.tables)
    (hkept : t.count ≠ 0 → Q db)
    (hremoved : t.count = 0 → ∀ tables resources, Removed db.tables t.id tables →
      resources.charges = charge db.resources.charges t.payer (-tableIdObjectBillableSize) →
      Q { db with tables, resources }) :
    Meets (db.removeTableIfEmpty t.id) Q Failure.Defined := by
  refine meets_bind.2 (meets_deref ht rfl ?_)
  split
  · next hzero =>
    refine meets_bind.2 (meets_updateDbUsage fun resources hcharges => ?_)
    refine meets_bind.2 (meets_remove ht rfl fun tables htables => ?_)
    exact hremoved hzero tables resources htables hcharges
  · next hcount => exact hkept hcount

/-! ## The ledger -/

section Rows

variable {O : Type} [TableRow O]

def rowItem (o : O) : Ledger.Item AccountName Int :=
  ⟨TableRow.payer o, TableRow.tId o, TableRow.billableSize o⟩

def rowItems (g : GenericIndex O) : Multiset (Ledger.Item AccountName Int) :=
  (contents g).map rowItem

end Rows

def tableHeader (t : TableIdObject) : Ledger.Header AccountName Int :=
  ⟨t.payer, t.id, t.count.toNat⟩

section

variable (db : ContractDb)

def items : Multiset (Ledger.Item AccountName Int) :=
  rowItems db.keyValues + ∑ k, rowItems (db.secondary k)

def ledger : Ledger AccountName Int :=
  ⟨(contents db.tables).map tableHeader, db.items, db.resources.charges⟩

def itemsBut (k : IndexKind) : Multiset (Ledger.Item AccountName Int) :=
  rowItems db.keyValues + ∑ j ∈ Finset.univ.erase k, rowItems (db.secondary j)

theorem items_eq_add (k : IndexKind) : db.items = rowItems (db.secondary k) + db.itemsBut k := by
  unfold items itemsBut
  rw [← Finset.add_sum_erase _ _ (Finset.mem_univ k), add_left_comm]

theorem items_setSecondary (k : IndexKind) (g : GenericIndex (IndexObject k)) :
    (db.setSecondary k g).items = rowItems g + db.itemsBut k := by
  have hothers : (db.setSecondary k g).itemsBut k = db.itemsBut k := by
    unfold itemsBut
    congr 1
    refine Finset.sum_congr rfl fun j hj => ?_
    rw [secondary_setSecondary_of_ne (Finset.ne_of_mem_erase hj)]
  rw [items_eq_add _ k, hothers, secondary_setSecondary_self]

end

/-! ## Moves

An index `g` of rows becomes `g'`, and `rest` are the rows of the other kinds. -/

section Moves

variable {db' : ContractDb} {O : Type} [TableRow O] {g g' : GenericIndex O} {o o' : O}
  {rest : Multiset (Ledger.Item AccountName Int)}

theorem headers_of_modified {tables : GenericIndex TableIdObject} {t' : TableIdObject}
    (ht : t ∈ db.tables) (h : Modified db.tables t' tables) (hid : t.id = t'.id) :
    ∃ H, (contents db.tables).map tableHeader = tableHeader t ::ₘ H
      ∧ (contents tables).map tableHeader = tableHeader t' ::ₘ H := by
  obtain ⟨others, hold, hnew⟩ := h.contents_eq ht hid
  exact ⟨others.map tableHeader, by rw [hold, map_cons], by rw [hnew, map_cons]⟩

theorem items_of_created (hold : db.items = rowItems g + rest)
    (hnew : db'.items = rowItems g' + rest) (hrow : Created g o g') :
    db'.items = rowItem o ::ₘ db.items := by
  rw [hnew, hold, rowItems, hrow.contents_eq, map_cons, cons_add]
  rfl

section Storing

variable (hold : db.items = rowItems g + rest) (hnew : db'.items = rowItems g' + rest)
  (hrow : Created g o g') (htId : TableRow.tId o = t.id)

include hold hnew hrow htId

theorem move_store (ht : t ∈ db.tables) (hfits : t.count.toNat + 1 < 2 ^ 32)
    (htables : Modified db.tables { t with count := t.count + 1 } db'.tables)
    (hcharges : db'.resources.charges = charge db.resources.charges (TableRow.payer o)
      (billableSize o : Nat)) :
    Ledger.Move tableIdObjectBillableSize db.ledger db'.ledger := by
  obtain ⟨H, hH, hH'⟩ := headers_of_modified ht htables rfl
  have hcount : tableHeader { t with count := t.count + 1 }
      = { tableHeader t with count := (tableHeader t).count + 1 } := by
    have hone : (t.count + 1).toNat = t.count.toNat + 1 := by
      exact Nat.mod_eq_of_lt hfits
    simp [tableHeader, hone]
  rw [ledger, ledger, hH, hH', items_of_created hold hnew hrow, hcharges, hcount]
  exact .store htId

theorem move_storeFirst {tables : GenericIndex TableIdObject} (hcreated : Created db.tables t tables)
    (hzero : t.count = 0)
    (htables : Modified tables { t with count := t.count + 1 } db'.tables)
    (hcharges : db'.resources.charges = charge
      (charge db.resources.charges t.payer tableIdObjectBillableSize) (TableRow.payer o)
      (billableSize o : Nat)) :
    Ledger.Move tableIdObjectBillableSize db.ledger db'.ledger := by
  obtain ⟨others, hothers, hcontents⟩ :=
    htables.contents_eq (u := t) (hcreated.mem_iff.2 (.inl rfl)) rfl
  rw [hcreated.contents_eq, cons_inj_right] at hothers
  rw [ledger, ledger, hcontents, ← hothers, items_of_created hold hnew hrow, hcharges]
  refine .storeFirst (h := tableHeader { t with count := t.count + 1 }) htId ?_ ?_
  · simp [tableHeader, hzero]
  · intro h hh
    obtain ⟨t', ht', rfl⟩ := mem_map.1 hh
    exact (hcreated.admits t' ht').1

end Storing

theorem move_replace (htables : db'.tables = db.tables) (hold : db.items = rowItems g + rest)
    (hnew : db'.items = rowItems g' + rest) (ho : o ∈ g) (hrow : Modified g o' g')
    (hid : ValueType.id o = ValueType.id o') (htId : tId o' = tId o)
    (hcharges : db'.resources.charges = charge
      (charge db.resources.charges (TableRow.payer o) (-(TableRow.billableSize o : Nat)))
      (TableRow.payer o') (TableRow.billableSize o' : Nat)) :
    Ledger.Move tableIdObjectBillableSize db.ledger db'.ledger := by
  obtain ⟨others, hothers, hcontents⟩ := hrow.contents_eq ho hid
  rw [ledger, ledger, htables, hold, hnew, rowItems, rowItems, hothers, hcontents, hcharges,
    map_cons, map_cons, cons_add, cons_add]
  exact .replace htId

theorem items_of_removed (hold : db.items = rowItems g + rest)
    (hnew : db'.items = rowItems g' + rest) (ho : o ∈ g) (hrow : Removed g (ValueType.id o) g') :
    db.items = rowItem o ::ₘ db'.items := by
  rw [hnew, hold, rowItems, hrow.contents_eq ho, map_cons, cons_add]
  rfl

theorem toNat_sub_one {n : UInt32} (h : 0 < n.toNat) : (n - 1).toNat = n.toNat - 1 :=
  UInt32.toNat_sub_of_le n 1 h

section Removing

variable (ht : t ∈ db.tables) (hpositive : 0 < t.count.toNat)
  (htables : Modified db.tables { t with count := t.count - 1 } db'.tables)
  (hold : db.items = rowItems g + rest) (hnew : db'.items = rowItems g' + rest) (ho : o ∈ g)
  (hrow : Removed g (ValueType.id o) g') (htId : TableRow.tId o = t.id)
  (hcharges : db'.resources.charges = charge db.resources.charges (TableRow.payer o)
    (-(TableRow.billableSize o : Nat)))

include ht hpositive htables hold hnew ho hrow htId hcharges

theorem move_remove (hcount : t.count - 1 ≠ 0) :
    Ledger.Move tableIdObjectBillableSize db.ledger db'.ledger := by
  obtain ⟨H, hH, hH'⟩ := headers_of_modified ht htables rfl
  have hone := toNat_sub_one hpositive
  have hheader : tableHeader t = { tableHeader { t with count := t.count - 1 } with
      count := (tableHeader { t with count := t.count - 1 }).count + 1 } := by
    simp only [tableHeader, hone, Nat.sub_add_cancel hpositive]
  rw [ledger, ledger, hH, hH', items_of_removed hold hnew ho hrow, hcharges, hheader]
  refine .remove htId (Nat.pos_of_ne_zero fun hzero => hcount ?_)
  exact UInt32.toNat_inj.1 hzero

theorem move_removeLast {tables : GenericIndex TableIdObject} {resources : AccountResources}
    (hcount : t.count - 1 = 0) (hremoved : Removed db'.tables t.id tables)
    (hcharges' : resources.charges
      = charge db'.resources.charges t.payer (-tableIdObjectBillableSize)) :
    Ledger.Move tableIdObjectBillableSize db.ledger { db' with tables, resources }.ledger := by
  obtain ⟨others, hothers, hcontents⟩ := htables.contents_eq (u := t) ht rfl
  have hlast := hremoved.contents_eq (u := { t with count := t.count - 1 })
    (htables.mem_iff.2 (.inl rfl))
  rw [hcontents, cons_inj_right] at hlast
  have hone := toNat_sub_one hpositive
  rw [hcount] at hone
  rw [ledger, ledger, hothers, hlast, map_cons, hcharges', hcharges,
    items_of_removed hold hnew ho hrow]
  refine .removeLast htId ?_
  show t.count.toNat = 1
  have hzero : (0 : UInt32).toNat = 0 := rfl
  omega

/-- The end of a removal: the row is gone and the table has been counted down. -/
theorem meets_leave
    (hQ : ∀ tables resources,
      Ledger.Move tableIdObjectBillableSize db.ledger { db' with tables, resources }.ledger →
      Q { db' with tables, resources }) :
    Meets (db'.removeTableIfEmpty t.id) Q Failure.Defined := by
  refine meets_removeTableIfEmpty (t := { t with count := t.count - 1 })
    (htables.mem_iff.2 (.inl rfl)) (fun hcount => ?_)
    fun hcount tables resources hremoved hcharges' => hQ tables resources ?_
  · exact hQ db'.tables db'.resources
      (move_remove ht hpositive htables hold hnew ho hrow htId hcharges hcount)
  · exact move_removeLast ht hpositive htables hold hnew ho hrow htId hcharges hcount hremoved
      hcharges'

end Removing

/-- What `find_or_create_table` comes to, for a store that fits. -/
inductive Entered (db : ContractDb) (payer : AccountName) (tab : TableIdObject) :
    ContractDb → Prop where
  | found : tab ∈ db.tables → tab.count.toNat + 1 < 2 ^ 32 → Entered db payer tab db
  | created {tables : GenericIndex TableIdObject} {resources : AccountResources} :
      Created db.tables tab tables → tab.payer = payer → tab.count = 0 →
      resources.charges = charge db.resources.charges payer tableIdObjectBillableSize →
      Entered db payer tab { db with tables, resources }

theorem meets_enter {code scope table : Nat} {Q : TableIdObject × ContractDb → Prop}
    (hfits : ∀ t, db.findTable code scope table = some t → t.count.toNat + 1 < 2 ^ 32)
    (h : ∀ tab db₁, Entered db payer tab db₁ → Q (tab, db₁)) :
    Meets (db.findOrCreateTable code scope table payer) Q Failure.Defined := by
  refine meets_findOrCreateTable (fun tab htab => ?_) fun tab tables resources hcreated => ?_
  · exact h tab db (.found (find_eq_some htab).1 (hfits tab htab))
  · intro hpayer hzero hcharges
    exact h tab _ (.created hcreated hpayer hzero hcharges)

section Entered

variable {db₁ : ContractDb}

section

variable (h : Entered db payer t db₁)
include h

theorem Entered.mem : t ∈ db₁.tables := by
  cases h with
  | found ht _ => exact ht
  | created hcreated _ _ _ => exact hcreated.mem_iff.2 (.inl rfl)

theorem Entered.keyValues_eq : db₁.keyValues = db.keyValues := by
  cases h with
  | found _ _ => rfl
  | created _ _ _ _ => rfl

theorem Entered.secondary_eq : db₁.secondary = db.secondary := by
  cases h with
  | found _ _ => rfl
  | created _ _ _ _ => rfl

theorem Entered.itemsBut_eq (k : IndexKind) : db₁.itemsBut k = db.itemsBut k := by
  cases h with
  | found _ _ => rfl
  | created _ _ _ _ => rfl

theorem Entered.move
    (htables : Modified db₁.tables { t with count := t.count + 1 } db'.tables)
    (hold : db.items = rowItems g + rest) (hnew : db'.items = rowItems g' + rest)
    (hrow : Created g o g') (htId : TableRow.tId o = t.id) (hpayer : TableRow.payer o = payer)
    (hcharges : db'.resources.charges = charge db₁.resources.charges payer (billableSize o : Nat)) :
    Ledger.Move tableIdObjectBillableSize db.ledger db'.ledger := by
  subst hpayer
  cases h with
  | found ht hfits => exact move_store hold hnew hrow htId ht hfits htables hcharges
  | created hcreated hpayer hzero hcharges₁ =>
    refine move_storeFirst hold hnew hrow htId hcreated hzero htables (hcharges.trans ?_)
    rw [hcharges₁, hpayer]

end

end Entered

end Moves

end ContractDb

end PotatoNode.Chain
