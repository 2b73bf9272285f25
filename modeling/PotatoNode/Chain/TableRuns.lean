import PotatoNode.Chain.IteratorTracking

/-!
# Runs of contracts over their tables

In a run in which no table gets 2^32 rows the accounts are charged exactly for the rows and the
headers they pay for, tables count their rows, and there are tables just where there are rows. The
pointers to rows in the caches are good; so are those to tables, except that an end iterator may
belong to a table that has been removed since.
-/

namespace PotatoNode.Chain

open Lib Chainbase ContractDb IteratorCache Multiset TableRow

namespace ContractDb

def billed (db : ContractDb) (a : AccountName) : Nat :=
  db.ledger.billed tableIdObjectBillableSize a

def rowsIn (db : ContractDb) (tableId : Int) : Nat := db.ledger.members tableId

/-- The charges and the counts are right; before there were tables the accounts had been charged
`base`. -/
structure Exact (base : AccountName → Int) (db : ContractDb) : Prop where
  charged : db.ledger.Charged tableIdObjectBillableSize base
  counted : db.ledger.Counted

variable {db db' : ContractDb} {base : AccountName → Int}

theorem exact_empty (resources : AccountResources) :
    Exact resources.charges ⟨emptyIndex, emptyIndex, fun _ => emptyIndex, resources⟩ := by
  have hledger : ledger ⟨emptyIndex, emptyIndex, fun _ => emptyIndex, resources⟩
      = ⟨0, 0, resources.charges⟩ := by
    rfl
  refine ⟨fun a => ?_, ?_⟩
  · rw [hledger]
    simp [Ledger.billed]
  · rw [hledger]
    exact ⟨nodup_zero, by simp, by simp, by simp⟩

theorem Exact.move (h : db.Exact base)
    (hm : Ledger.Move tableIdObjectBillableSize db.ledger db'.ledger) : db'.Exact base :=
  ⟨hm.charged h.charged, hm.counted h.counted⟩

variable {O : Type} [TableRow O] {g : GenericIndex O} {rest : Multiset _} {o : O}

theorem Exact.exists_table (h : db.Exact base) (hitems : db.items = rowItems g + rest)
    (ho : o ∈ g) : ∃ t ∈ db.tables, t.id = tId o ∧ 0 < t.count.toNat := by
  have hitem : rowItem o ∈ db.ledger.items := by
    show rowItem o ∈ db.items
    rw [hitems, mem_add]
    exact .inl (mem_map_of_mem _ ho)
  obtain ⟨x, hx, hgroup⟩ := h.counted.covered _ hitem
  have hpositive := h.counted.positive x hx
  obtain ⟨t, ht, rfl⟩ : ∃ t ∈ contents db.tables, tableHeader t = x := mem_map.1 hx
  exact ⟨t, ht, hgroup, hpositive⟩

end ContractDb

namespace ApplyContext

def storesInto : Call → Option (Nat × Nat)
  | .dbStoreI64 scope table _ _ _ => some (scope, table)
  | .store _ scope table _ _ _ => some (scope, table)
  | _ => none

def StoreFits (ctx : ApplyContext) (call : Call) : Prop :=
  ∀ target ∈ storesInto call, ∀ t ∈ ctx.db.findTable ctx.receiver target.1 target.2,
    t.count.toNat + 1 < 2 ^ 32

instance (ctx : ApplyContext) (call : Call) : Decidable (ctx.StoreFits call) :=
  inferInstanceAs (Decidable (∀ target ∈ storesInto call, ∀ t ∈ _, _ < _))

def EndTableLives (ctx : ApplyContext) : Call → Prop
  | .dbPreviousI64 iterator => ctx.keyvalCache.EndLives ctx.db.tables iterator
  | .previousSecondary k iterator => (ctx.itrCache k).EndLives ctx.db.tables iterator
  | .previousPrimary k iterator => (ctx.itrCache k).EndLives ctx.db.tables iterator
  | _ => True

/-- The ledger is right and the pointers to rows are good. -/
structure Inv (base : AccountName → Int) (ctx : ApplyContext) : Prop where
  exact : ctx.db.Exact base
  keyval : ctx.keyvalCache.Tracks ctx.db.keyValues
  itr : ∀ k, (ctx.itrCache k).Tracks (ctx.db.secondary k)

/-- The call keeps the invariant and uses nothing that is gone. -/
abbrev Keeps (base : AccountName → Int) (x : Result (Reply × ApplyContext)) : Prop :=
  Meets x (fun r => r.2.Inv base) Failure.Defined

variable {base : AccountName → Int} {ctx : ApplyContext} {k : IndexKind}

/-! ## Primary rows -/

variable {scope table : Nat} {payer : AccountName} {db : ContractDb} {iterator : Int}
  {out : IndexObject k → Reply}

variable {id : Nat} {buffer : List UInt8}

theorem Inv.dbStoreI64 (h : ctx.Inv base)
    (hfits : ctx.StoreFits (.dbStoreI64 scope table payer id buffer)) :
    Keeps base (ctx.dbStoreI64 scope table payer id buffer) := by
  refine meets_bind.2 (meets_enter (hfits _ rfl) fun tab db₁ hentered => ?_)
  refine meets_bind.2 (meets_eosAssert fun _ => ?_)
  refine meets_bind.2 (meets_create fun obj keyValues hobj hrow => ?_)
  refine meets_bind.2 (meets_incrementCount hentered.mem fun tables htables => ?_)
  refine meets_bind.2 (meets_updateDbUsage fun resources hcharges => ?_)
  rw [hentered.keyValues_eq] at hrow
  subst hobj
  refine ⟨h.exact.move (hentered.move htables rfl ?_ hrow rfl rfl hcharges), h.keyval.store hrow,
    fun k => ?_⟩
  · show _ + ∑ k, _ = _
    rw [hentered.secondary_eq]
  · show (ctx.itrCache k).Tracks (db₁.secondary k)
    rw [hentered.secondary_eq]
    exact h.itr k

variable {db : ContractDb} {payer : AccountName} {bufferSize : Nat} {Q : ContractDb → Prop}

theorem meets_chargeUpdate {obj : KeyValueObject}
    (hQ : ∀ resources : AccountResources,
      resources.charges = Ledger.charge (Ledger.charge db.resources.charges obj.payer
        (-(obj.value.length + keyValueObjectBillableSize : Nat))) payer
        (bufferSize + keyValueObjectBillableSize : Nat) →
      Q { db with resources }) :
    Meets (chargeUpdate db obj payer bufferSize) Q Failure.Defined := by
  unfold chargeUpdate
  dsimp only
  split
  · refine meets_bind.2 (meets_updateDbUsage fun resources hcharges => ?_)
    refine meets_updateDbUsage fun resources' hcharges' => hQ resources' ?_
    rw [hcharges', hcharges]
    rfl
  · next hpayer =>
    rw [not_not] at hpayer
    split
    · refine meets_updateDbUsage fun resources hcharges => hQ resources ?_
      rw [hcharges, hpayer]
      funext a
      unfold Ledger.charge
      split <;> omega
    · next hsize =>
      refine hQ db.resources ?_
      rw [hpayer]
      funext a
      unfold Ledger.charge
      split <;> omega

theorem Inv.dbUpdateI64 (h : ctx.Inv base) :
    Keeps base (ctx.dbUpdateI64 iterator payer buffer) := by
  refine meets_bind.2 (h.keyval.meets_get fun obj hobj _ _ _ => ?_)
  obtain ⟨tab, htab, hid, -⟩ := h.exact.exists_table rfl hobj
  refine meets_bind.2 (meets_getTable htab hid ?_)
  refine meets_bind.2 (meets_eosAssert fun _ => ?_)
  refine meets_bind.2 (meets_chargeUpdate fun resources hcharges => ?_)
  refine meets_bind.2 (meets_modify hobj rfl (fun _ => rfl) fun keyValues hrow => ?_)
  exact ⟨h.exact.move (move_replace rfl rfl rfl hobj hrow rfl rfl hcharges),
    h.keyval.modified hrow hobj rfl rfl, h.itr⟩

theorem Inv.dbRemoveI64 (h : ctx.Inv base) : Keeps base (ctx.dbRemoveI64 iterator) := by
  refine meets_bind.2 (h.keyval.meets_get fun obj hobj hle hpoints _ => ?_)
  obtain ⟨tab, htab, hid, hpositive⟩ := h.exact.exists_table rfl hobj
  refine meets_bind.2 (meets_getTable htab hid ?_)
  refine meets_bind.2 (meets_eosAssert fun _ => ?_)
  refine meets_bind.2 (meets_updateDbUsage fun resources hcharges => ?_)
  refine meets_bind.2 (meets_decrementCount htab fun tables htables => ?_)
  refine meets_bind.2 (meets_remove hobj rfl fun keyValues hrow => ?_)
  refine meets_bind.2 (meets_leave htab hpositive htables rfl ?_ hobj hrow hid.symm
    hcharges fun tables' resources' hmove => ?_)
  · rfl
  · rw [remove_of_points hle hpoints]
    exact ⟨h.exact.move hmove, h.keyval.removed hpoints hrow, h.itr⟩

variable {c : IteratorCache}

section

variable (h : ctx.Inv base)
include h

theorem Inv.withKeyvalCache
    (hc : c.Tracks ctx.db.keyValues) : Inv base { ctx with keyvalCache := c } :=
  ⟨h.exact, hc, h.itr⟩

theorem Inv.dbGetI64 : Keeps base (ctx.dbGetI64 iterator bufferSize) := by
  refine meets_bind.2 (h.keyval.meets_get fun obj _ _ _ _ => ?_)
  split
  · exact h
  · exact h

theorem Inv.dbNextI64 : Keeps base (ctx.dbNextI64 iterator) := by
  refine meets_bind.2 (h.keyval.meets_next fun moved hmoved => ?_)
  exact h.withKeyvalCache hmoved

theorem Inv.dbPreviousI64 :
    Meets (ctx.dbPreviousI64 iterator) (fun r => r.2.Inv base)
      fun e => ctx.keyvalCache.EndLives ctx.db.tables iterator → e.Defined := by
  refine meets_bind.2 (h.keyval.meets_previous fun moved hmoved => ?_)
  exact h.withKeyvalCache hmoved

end

variable {code : Nat}

theorem Inv.searchKeyval (h : ctx.Inv base)
    {search : TableIdObject → Option KeyValueObject}
    (hsearch : ∀ t o, search t = some o → o ∈ ctx.db.keyValues ∧ o.tId = t.id) :
    Keeps base (ctx.searchKeyval code scope table search) :=
  h.withKeyvalCache (h.keyval.locate hsearch)

/-! ## Secondary rows -/

theorem meets_chargePayer {obj : IndexObject k}
    (hQ : ∀ resources : AccountResources,
      resources.charges = Ledger.charge (Ledger.charge db.resources.charges obj.payer
        (-indexObjectBillableSize k)) payer (indexObjectBillableSize k) →
      Q { db with resources }) :
    Meets (chargePayer k db obj payer) Q Failure.Defined := by
  unfold chargePayer
  split
  · refine meets_bind.2 (meets_updateDbUsage fun resources hcharges => ?_)
    refine meets_updateDbUsage fun resources' hcharges' => hQ resources' ?_
    rw [hcharges', hcharges]
  · next hpayer =>
    rw [not_not] at hpayer
    refine hQ db.resources ?_
    rw [hpayer]
    funext a
    unfold Ledger.charge
    split <;> omega

section

variable (h : ctx.Inv base)
include h

theorem Inv.setItrCache (hexact : db.Exact base)
    (hkeyValues : db.keyValues = ctx.db.keyValues)
    (hothers : ∀ j ≠ k, db.secondary j = ctx.db.secondary j) (hc : c.Tracks (db.secondary k)) :
    ({ ctx with db }.setItrCache k c).Inv base := by
  refine ⟨hexact, ?_, fun j => ?_⟩
  · show ctx.keyvalCache.Tracks db.keyValues
    rw [hkeyValues]
    exact h.keyval
  · show (Function.update ctx.itrCache k c j).Tracks (db.secondary j)
    by_cases hj : j = k
    · subst hj
      rwa [Function.update_self]
    · rw [Function.update_of_ne hj, hothers j hj]
      exact h.itr j

theorem Inv.store {value : Nat}
    (hfits : ctx.StoreFits (.store k scope table payer id value)) :
    Keeps base (ctx.store k scope table payer id value) := by
  refine meets_bind.2 (meets_eosAssert fun _ => ?_)
  refine meets_bind.2 (meets_enter (hfits _ rfl) fun tab db₁ hentered => ?_)
  refine meets_bind.2 (meets_create fun obj g hobj hrow => ?_)
  refine meets_bind.2 (meets_incrementCount hentered.mem fun tables htables => ?_)
  refine meets_bind.2 (meets_updateDbUsage fun resources hcharges => ?_)
  rw [hentered.secondary_eq] at hrow
  subst hobj
  have hnew := (items_setSecondary db₁ k g).trans (congrArg _ (hentered.itemsBut_eq k))
  refine h.setItrCache (h.exact.move (hentered.move htables (items_eq_add ctx.db k) hnew
    hrow rfl rfl hcharges)) hentered.keyValues_eq (fun j hj => ?_) ?_
  · show (db₁.setSecondary k g).secondary j = _
    rw [secondary_setSecondary_of_ne hj, hentered.secondary_eq]
  · show IteratorCache.Tracks _ ((db₁.setSecondary k g).secondary k)
    rw [secondary_setSecondary_self]
    exact (h.itr k).store hrow

theorem Inv.removeSecondary : Keeps base (ctx.removeSecondary k iterator) := by
  refine meets_bind.2 ((h.itr k).meets_get fun obj hobj hle hpoints _ => ?_)
  have hold := items_eq_add ctx.db k
  obtain ⟨tab, htab, hid, hpositive⟩ := h.exact.exists_table hold hobj
  refine meets_bind.2 (meets_updateDbUsage fun resources hcharges => ?_)
  refine meets_bind.2 (meets_getTable htab hid ?_)
  refine meets_bind.2 (meets_eosAssert fun _ => ?_)
  refine meets_bind.2 (meets_decrementCount htab fun tables htables => ?_)
  refine meets_bind.2 (meets_remove hobj rfl fun g hrow => ?_)
  have htracks := (h.itr k).removed hpoints hrow
  rw [← secondary_setSecondary_self ctx.db k g] at htracks
  refine meets_bind.2 (meets_leave htab hpositive htables hold ?_ hobj hrow hid.symm
    hcharges fun tables' resources' hmove => ?_)
  · exact items_setSecondary ctx.db k g
  · rw [remove_of_points hle hpoints]
    exact h.setItrCache (h.exact.move hmove) rfl
      (fun j hj => secondary_setSecondary_of_ne hj) htracks

theorem Inv.update {secondary : Nat} : Keeps base (ctx.update k iterator payer secondary) := by
  refine meets_bind.2 ((h.itr k).meets_get fun obj hobj _ _ _ => ?_)
  have hold := items_eq_add ctx.db k
  obtain ⟨tab, htab, hid, -⟩ := h.exact.exists_table hold hobj
  refine meets_bind.2 (meets_getTable htab hid ?_)
  refine meets_bind.2 (meets_eosAssert fun _ => ?_)
  refine meets_bind.2 (meets_chargePayer fun resources hcharges => ?_)
  refine meets_bind.2 (meets_modify hobj rfl (fun _ => rfl) fun g hrow => ?_)
  have hnew := items_setSecondary ctx.db k g
  refine ⟨h.exact.move (move_replace rfl hold hnew hobj hrow rfl rfl hcharges),
    h.keyval, fun j => ?_⟩
  show (ctx.itrCache j).Tracks ((ctx.db.setSecondary k g).secondary j)
  by_cases hj : j = k
  · subst hj
    rw [secondary_setSecondary_self]
    exact (h.itr j).modified hrow hobj rfl rfl
  · rw [secondary_setSecondary_of_ne hj]
    exact h.itr j

theorem Inv.withItr {moved : Int × Option (IndexObject k) × IteratorCache}
    (hmoved : moved.2.2.Tracks (ctx.db.secondary k)) : (ctx.withItr k moved out).2.Inv base :=
  h.setItrCache h.exact rfl (fun _ _ => rfl) hmoved

theorem Inv.search {p : TableIdObject → Option (IndexObject k)}
    (hp : ∀ t o, p t = some o → o ∈ ctx.db.secondary k ∧ o.tId = t.id) :
    Keeps base (ctx.search k code scope table p out) :=
  h.withItr ((h.itr k).locate hp)

end

variable {R : Type} {rank : IndexObject k → R}

theorem Inv.moveNext (h : ctx.Inv base) [LinearOrder R] :
    Keeps base (do
      let moved ← (ctx.itrCache k).next (ctx.db.secondary k) rank iterator
      .ok (ctx.withItr k moved out)) := by
  refine meets_bind.2 ((h.itr k).meets_next fun moved hmoved => ?_)
  exact h.withItr hmoved

theorem Inv.movePrevious (h : ctx.Inv base) [LinearOrder R] :
    Meets (do
      let moved ← (ctx.itrCache k).previous (ctx.db.secondary k) rank ctx.db.tables iterator
      .ok (ctx.withItr k moved out)) (fun r => r.2.Inv base)
      fun e => (ctx.itrCache k).EndLives ctx.db.tables iterator → e.Defined := by
  refine meets_bind.2 ((h.itr k).meets_previous fun moved hmoved => ?_)
  exact h.withItr hmoved

theorem Inv.getSecondary (h : ctx.Inv base) : Keeps base (ctx.getSecondary k iterator) := by
  refine meets_bind.2 ((h.itr k).meets_get fun obj _ _ _ _ => ?_)
  exact h

/-! ## Calls -/

section Found

variable {O R : Type} [TableRow O] [LinearOrder R] {g : GenericIndex O} {rank : O → R}
  {p : O → Bool} {tableId : Int} {o : O}

theorem mem_of_bound (h : (firstWhere g rank p).filter (tId · = tableId) = some o) :
    o ∈ g ∧ tId o = tableId := by
  obtain ⟨hfirst, htId⟩ := Option.filter_eq_some_iff.1 h
  exact ⟨mem_of_firstWhere hfirst, of_decide_eq_true htId⟩

theorem mem_of_find {q : O → Prop} [DecidablePred q]
    (h : find g (fun o => tId o = tableId ∧ q o) = some o) :
    o ∈ g ∧ tId o = tableId := by
  obtain ⟨ho, hkey⟩ := find_eq_some h
  exact ⟨ho, (of_decide_eq_true hkey).1⟩

end Found

/-- **One call.** The invariant is kept, and nothing that is gone is used but the table of an end
iterator. -/
theorem inv_perform (h : ctx.Inv base) (call : Call) (hfits : ctx.StoreFits call) :
    Meets (ctx.perform call) (fun r => r.2.Inv base)
      fun e => ctx.EndTableLives call → e.Defined := by
  have hstrict : ∀ {x : Result (Reply × ApplyContext)}, Keeps base x →
      Meets x (fun r => r.2.Inv base) fun e => ctx.EndTableLives call → e.Defined :=
    fun hx => hx.mono (fun _ hr => hr) fun _ hdefined _ => hdefined
  cases call with
  | dbStoreI64 scope table payer id buffer => exact hstrict (h.dbStoreI64 hfits)
  | dbUpdateI64 iterator payer buffer => exact hstrict h.dbUpdateI64
  | dbRemoveI64 iterator => exact hstrict h.dbRemoveI64
  | dbGetI64 iterator bufferSize => exact hstrict h.dbGetI64
  | dbNextI64 iterator => exact hstrict h.dbNextI64
  | dbPreviousI64 iterator => exact h.dbPreviousI64
  | dbFindI64 code scope table id => exact hstrict (h.searchKeyval fun _ _ => mem_of_find)
  | dbLowerboundI64 code scope table id | dbUpperboundI64 code scope table id =>
    exact hstrict (h.searchKeyval fun _ _ => mem_of_bound)
  | dbEndI64 code scope table => exact hstrict (h.searchKeyval nofun)
  | store k scope table payer id value => exact hstrict (h.store hfits)
  | update k iterator payer secondary => exact hstrict h.update
  | removeSecondary k iterator => exact hstrict h.removeSecondary
  | findSecondary k code scope table secondary =>
    refine hstrict (h.search fun t o hfound => ⟨mem_of_firstWhere hfound, ?_⟩)
    have hkey := of_firstWhere hfound
    exact (of_decide_eq_true hkey).1
  | lowerboundSecondary k code scope table secondary
  | upperboundSecondary k code scope table secondary
  | lowerboundPrimary k code scope table primary | upperboundPrimary k code scope table primary =>
    exact hstrict (h.search fun _ _ => mem_of_bound)
  | endSecondary k code scope table => exact hstrict (h.search nofun)
  | nextSecondary k iterator | nextPrimary k iterator => exact hstrict h.moveNext
  | previousSecondary k iterator | previousPrimary k iterator => exact h.movePrevious
  | findPrimary k code scope table primary => exact hstrict (h.search fun _ _ => mem_of_find)
  | getSecondary k iterator => exact hstrict h.getSecondary

variable {resources : AccountResources}

/-- **A whole run.** -/
theorem inv_of_run (h : Run StoreFits resources ctx) : ctx.Inv resources.charges := by
  induction h with
  | start receiver =>
    exact ⟨exact_empty resources, tracks_empty _, fun _ => tracks_empty _⟩
  | action receiver _ ih =>
    exact ⟨ih.exact, tracks_empty _, fun _ => tracks_empty _⟩
  | notify receiver _ ih => exact ⟨ih.exact, ih.keyval, ih.itr⟩
  | call _ hfits hperform ih => exact (inv_perform ih _ hfits).of_ok hperform

/-- The calls one after the other, as long as each satisfies `P` and returns. -/
def replay (P : ApplyContext → Call → Prop) [∀ ctx call, Decidable (P ctx call)]
    (ctx : ApplyContext) : List Call → Option ApplyContext
  | [] => some ctx
  | call :: rest =>
    if P ctx call then
      match ctx.perform call with
      | .ok (_, ctx) => replay P ctx rest
      | .error _ => none
    else none

theorem Run.replay {P : ApplyContext → Call → Prop} [∀ ctx call, Decidable (P ctx call)]
    {q : ApplyContext → Bool} {calls : List Call}
    (h : Run P resources ctx) (hq : (ctx.replay P calls).any q = true) :
    ∃ ctx', Run P resources ctx' ∧ q ctx' = true := by
  induction calls generalizing ctx with
  | nil => exact ⟨ctx, h, hq⟩
  | cons call rest ih =>
    unfold ApplyContext.replay at hq
    split at hq
    · next hP =>
      split at hq
      · next hperform => exact ih (.call h hP hperform) hq
      · cases hq
    · cases hq

/-! ## Accounting -/

/-- The RAM of the tables is charged exactly, and the tables count their rows. -/
structure RamExact (resources : AccountResources) (db : ContractDb) : Prop where
  charged : ∀ a, db.resources.ramUsage a = resources.ramUsage a + db.billed a
  count : ∀ t ∈ db.tables, t.count.toNat = db.rowsIn t.id
  exists_iff : ∀ tableId, (∃ t ∈ db.tables, t.id = tableId) ↔ 0 < db.rowsIn tableId

/-- **RAM accounting is exact.** In every run without a store into a table that has 2^32 - 1 rows,
every account is charged for the rows and headers it pays for, every table counts its rows, and
there is a table exactly where there are rows. -/
theorem ramExact_of_run {resources : AccountResources} (h : Run StoreFits resources ctx) :
    RamExact resources ctx.db := by
  have hexact := (inv_of_run h).exact
  refine ⟨fun a => ?_, fun t ht => ?_, fun tableId => ?_⟩
  · have hcharged := hexact.charged a
    simp only [ledger, AccountResources.charges] at hcharged
    exact_mod_cast hcharged
  · have hheader : tableHeader t ∈ ctx.db.ledger.headers := by
      show _ ∈ (contents ctx.db.tables).map tableHeader
      exact mem_map_of_mem _ ht
    exact hexact.counted.count _ hheader
  · unfold rowsIn
    rw [← hexact.counted.exists_header_iff]
    simp [ledger, tableHeader, mem_contents]

def twoAccounts : AccountResources where
  limits := emptyIndex
  usage := ⟨[], 0, 2, ⟨⟨[{ id := 0, owner := 1 }, { id := 1, owner := 2 }], by decide⟩, by decide⟩⟩

def firstAction : ApplyContext :=
  new 1 ⟨emptyIndex, emptyIndex, fun _ => emptyIndex, twoAccounts⟩

/-- Account 1 pays for a table, a primary and a secondary row; account 2 takes over the primary row,
with a shorter value. -/
theorem ramExact_after_update :
    ∃ ctx, Run StoreFits twoAccounts ctx ∧ RamExact twoAccounts ctx.db
      ∧ ctx.db.billed 1 = 112 + 128 ∧ ctx.db.billed 2 = 112 + 1 := by
  have hreplay : (firstAction.replay StoreFits
      [.dbStoreI64 0 0 1 7 [1, 2, 3], .store .idx64 0 0 1 7 42, .dbUpdateI64 0 2 [1]]).any
      (fun ctx => ctx.db.billed 1 = 112 + 128 ∧ ctx.db.billed 2 = 112 + 1) = true := by
    decide +kernel
  obtain ⟨ctx, hrun, hbilled⟩ := (Run.start 1).replay hreplay
  exact ⟨ctx, hrun, ramExact_of_run hrun, of_decide_eq_true hbilled⟩

/-- **No dangling table is reached but through an end iterator.** In every run without a store into a
table that has 2^32 - 1 rows, a call uses an object that is gone exactly when it steps back from the
end iterator of a table that has been removed. -/
theorem defined_iff_of_run {resources : AccountResources} (h : Run StoreFits resources ctx)
    (call : Call) (hfits : ctx.StoreFits call) :
    ctx.perform call ≠ .error .undefinedBehaviour ↔ ctx.EndTableLives call := by
  constructor
  · intro hdefined
    by_contra hgone
    apply hdefined
    cases call with
    | dbPreviousI64 iterator | previousSecondary k iterator | previousPrimary k iterator =>
      show (_ >>= _) = _
      rw [previous_of_not_endLives hgone]
      rfl
    | _ => exact absurd trivial hgone
  · intro hlives herror
    exact (inv_perform (inv_of_run h) call hfits).of_error herror hlives rfl

/-- From the end iterator of a table that is there, a contract steps back to its last row. -/
theorem defined_at_live_end :
    ∃ ctx, Run StoreFits twoAccounts ctx ∧ ctx.EndTableLives (.dbPreviousI64 (-2))
      ∧ ctx.perform (.dbPreviousI64 (-2)) ≠ .error .undefinedBehaviour := by
  have hreplay : (firstAction.replay StoreFits
      [.dbStoreI64 0 0 1 7 [1, 2, 3], .dbEndI64 1 0 0]).any
      (fun ctx => ctx.perform (.dbPreviousI64 (-2)) ≠ .error .undefinedBehaviour) = true := by
    decide +kernel
  obtain ⟨ctx, hrun, hdefined⟩ := (Run.start 1).replay hreplay
  have hiff := defined_iff_of_run hrun (.dbPreviousI64 (-2)) nofun
  exact ⟨ctx, hrun, hiff.1 (of_decide_eq_true hdefined), of_decide_eq_true hdefined⟩

/-- A contract stores a row, asks for the end of the table, removes the row and with it the table,
and steps back from the end: the header that has been removed is read. -/
theorem previous_reads_removed_table :
    ∃ ctx, Run StoreFits twoAccounts ctx
      ∧ ctx.perform (.dbPreviousI64 (-2)) = .error .undefinedBehaviour := by
  have hreplay : (firstAction.replay StoreFits
      [.dbStoreI64 0 0 1 7 [], .dbEndI64 1 0 0, .dbRemoveI64 0]).any
      (fun ctx => ctx.perform (.dbPreviousI64 (-2)) = .error .undefinedBehaviour) = true := by
    decide +kernel
  obtain ⟨ctx, hrun, hundefined⟩ := (Run.start 1).replay hreplay
  exact ⟨ctx, hrun, of_decide_eq_true hundefined⟩

end ApplyContext

end PotatoNode.Chain
