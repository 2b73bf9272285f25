import PotatoNode.Chain.TableRuns

/-!
# A table with 2^32 rows

`table_id_object::count` has 32 bits, and `++t.count` is not checked. A contract that stores row
after row with the keys 0, 1, 2, … gets as many rows as it likes, since every store returns
(`Filled.store`), and the count is the number of rows modulo 2^32.
-/

namespace PotatoNode.Chain

open Lib Chainbase ContractDb List Nat Table

/-! ## Calls that return -/

section Objects

variable {V : Type} [ValueType V] {g : GenericIndex V} {v : V} {E : Failure → Prop}

theorem meets_eosAssert_of {cond : Prop} [Decidable cond] {type : ExceptionType} {message : String}
    {Q : Unit → Prop} (hcond : cond) (hQ : Q ()) : Meets (eosAssert cond type message) Q E := by
  rw [eosAssert, if_pos hcond]
  exact hQ

theorem meets_create_of_admits {constructor : Int → V} {Q : V × GenericIndex V → Prop}
    (hadmits : g.indices.Admits (constructor g.nextId))
    (hQ : ∀ g', Created g (constructor g.nextId) g' → Q (constructor g.nextId, g')) :
    Meets (create g constructor) Q E := by
  have hcreate : ∃ g', create g constructor = .ok (constructor g.nextId, g') := by
    simp only [create, GenericIndex.emplace, Indices.emplace?, dif_pos hadmits]
    exact ⟨_, rfl⟩
  obtain ⟨g', hcreate⟩ := hcreate
  rw [hcreate]
  exact hQ g' (create_eq_ok hcreate).2

theorem meets_modify_of_keys {m : V → V} {Q : GenericIndex V → Prop} (hv : v ∈ g)
    (hm : ∀ v, ValueType.id (m v) = ValueType.id v)
    (hkeys : ∀ x, ValueType.clash x (m v) = ValueType.clash x v)
    (hQ : ∀ g', Modified g (m v) g' → Q g') :
    Meets (Chain.modify g (ValueType.id v) m) Q E := by
  obtain ⟨g', hmodify⟩ := exists_modify hv hm hkeys
  obtain ⟨u, hu, hid, hmodified⟩ := modify_eq_ok hmodify hm
  obtain rfl : u = v := eq_of_id_eq hu hv hid
  rw [hmodify]
  exact hQ g' hmodified

end Objects

namespace AccountResources

variable {r : AccountResources} {account : AccountName} {ramDelta : Int} {E : Failure → Prop}

def Has (r : AccountResources) (account : AccountName) : Prop := ∃ u ∈ r.usage, u.owner = account

theorem meets_addPendingRamUsage_of_fits {Q : AccountResources → Prop} (hhas : r.Has account)
    (hpositive : 0 < ramDelta) (hfits : r.ramUsage account + ramDelta < 2 ^ 64)
    (hQ : ∀ r' : AccountResources, r'.Has account →
      r'.charges = Ledger.charge r.charges account ramDelta → Q r') :
    Meets (r.addPendingRamUsage account ramDelta) Q E := by
  obtain ⟨u, hu, howner⟩ := hhas
  have husage := ramUsage_of_mem hu howner
  have hget : Chain.get r.usage (·.owner = account) = .ok u := by
    unfold Chain.get
    cases hfind : find r.usage (·.owner = account) with
    | none => exact absurd (decide_eq_true howner) (find_eq_none hfind u hu)
    | some v =>
      obtain ⟨hv, hvowner⟩ := find_eq_some hfind
      have hclash : ValueType.clash v u = true :=
        decide_eq_true ((of_decide_eq_true hvowner).trans howner.symm)
      exact congrArg _ (r.usage.indices.unique v hv u hu hclash)
  have hadd : Meets (r.addPendingRamUsage account ramDelta) (fun r' => r'.Has account)
      fun _ => False := by
    unfold addPendingRamUsage
    rw [if_neg hpositive.ne']
    refine meets_bind.2 ?_
    rw [hget]
    have hover : ramDelta ≤ 0 ∨ ramDelta ≤ 2 ^ 64 - 1 - (u.ramUsage.toNat : Int) := by omega
    have hunder : 0 ≤ ramDelta ∨ -ramDelta ≤ (u.ramUsage.toNat : Int) := by omega
    refine meets_bind.2 (meets_eosAssert_of hover ?_)
    refine meets_bind.2 (meets_eosAssert_of hunder ?_)
    refine meets_bind.2 (meets_modify_of_keys hu (fun _ => rfl) (fun _ => rfl) ?_)
    exact fun usage husage => ⟨_, husage.mem_iff.2 (.inl rfl), howner⟩
  cases hresult : r.addPendingRamUsage account ramDelta with
  | ok r' =>
    exact hQ r' (hadd.of_ok hresult) (funext fun a => addPendingRamUsage_eq_ok hresult a)
  | error e => exact (hadd.of_error hresult).elim

end AccountResources

theorem ContractDb.meets_findOrCreateTable_of_find {db : ContractDb} {code scope table : Nat}
    {payer : AccountName} {tab : TableIdObject} {Q : TableIdObject × ContractDb → Prop}
    {E : Failure → Prop} (hfind : db.findTable code scope table = some tab) (hQ : Q (tab, db)) :
    Meets (db.findOrCreateTable code scope table payer) Q E := by
  unfold findOrCreateTable
  rw [hfind]
  exact hQ

/-! ## Row after row -/

namespace ApplyContext

variable {ctx : ApplyContext} {n : Nat}

/-- Contract 1 has stored empty rows under the keys below `n` in its table. -/
structure Filled (n : Nat) (ctx : ApplyContext) : Prop where
  receiver : ctx.receiver = 1
  table : ∃ t ∈ ctx.db.tables, (t.code = 1 ∧ t.scope = 0 ∧ t.table = 0)
    ∧ t.count.toNat = n % 2 ^ 32 ∧ ∀ o ∈ ctx.db.keyValues, o.tId = t.id
  row : ∀ o ∈ ctx.db.keyValues, o.id < ctx.db.keyValues.nextId ∧ o.primaryKey < n
  card : (contents ctx.db.keyValues).card = n
  secondary : ∀ k, contents (ctx.db.secondary k) = 0
  account : ctx.db.resources.Has 1
  usage : ctx.db.resources.ramUsage 1 = 112 * n + 112

theorem Filled.store (h : Filled n ctx) (hn : n < 2 ^ 56) :
    Meets (ctx.dbStoreI64 0 0 1 n []) (fun r => Filled (n + 1) r.2) fun _ => False := by
  obtain ⟨t, ht, hkey, hcount, htId⟩ := h.table
  have hfind : ctx.db.findTable ctx.receiver 0 0 = some t := by
    rw [h.receiver]
    unfold findTable
    cases hfind : find ctx.db.tables fun t => t.code = 1 ∧ t.scope = 0 ∧ t.table = 0 with
    | none => exact absurd (decide_eq_true hkey) (find_eq_none hfind t ht)
    | some u =>
      obtain ⟨hu, hukey⟩ := find_eq_some hfind
      obtain ⟨hcode, hscope, htable⟩ := of_decide_eq_true hukey
      have hclash : ValueType.clash u t = true := decide_eq_true
        ⟨hcode.trans hkey.1.symm, hscope.trans hkey.2.1.symm, htable.trans hkey.2.2.symm⟩
      exact congrArg _ (ctx.db.tables.indices.unique u hu t ht hclash)
  refine meets_bind.2 (meets_findOrCreateTable_of_find hfind ?_)
  refine meets_bind.2 (meets_eosAssert_of one_ne_zero ?_)
  -- the key and the id are new
  have hadmits : ctx.db.keyValues.indices.Admits ⟨ctx.db.keyValues.nextId, t.id, n, 1, []⟩ := by
    intro o ho
    obtain ⟨hid, hprimary⟩ := h.row o ho
    exact ⟨hid.ne, decide_eq_false fun hclash => hprimary.ne hclash.2⟩
  refine meets_bind.2 (meets_create_of_admits hadmits fun keyValues hrow => ?_)
  have hincrement : Meets (incrementCount { ctx.db with keyValues } t.id)
      (fun db => ∃ tables, Modified ctx.db.tables { t with count := t.count + 1 } tables
        ∧ db = { ctx.db with keyValues, tables }) fun _ => False := by
    refine meets_bind.2 (meets_modify_of_keys ht (fun _ => rfl) (fun _ => rfl) ?_)
    exact fun tables htables => ⟨tables, htables, rfl⟩
  refine meets_bind.2 (hincrement.mono ?_ fun _ hfalse => hfalse)
  rintro _ ⟨tables, htables, rfl⟩
  refine meets_bind.2 (meets_bind.2 (AccountResources.meets_addPendingRamUsage_of_fits
    h.account (by decide) ?_ fun resources hhas hcharges => ?_))
  · have husage := h.usage
    have hsize : keyValueObjectBillableSize = 112 := rfl
    simp only [length_nil, hsize]
    omega
  refine ⟨h.receiver, ⟨_, htables.mem_iff.2 (.inl rfl), hkey, ?_, fun o ho => ?_⟩, fun o ho => ?_,
    ?_, h.secondary, hhas, ?_⟩
  · show (t.count + 1).toNat = _
    rw [UInt32.toNat_add, hcount]
    exact (add_mod n 1 (2 ^ 32)).symm
  · rcases hrow.mem_iff.1 ho with rfl | ho
    · rfl
    · exact htId o ho
  · show o.id < keyValues.nextId ∧ _
    rw [hrow.nextId]
    rcases hrow.mem_iff.1 ho with rfl | ho
    · exact ⟨Int.lt_succ _, lt_succ_self n⟩
    · obtain ⟨hid, hprimary⟩ := h.row o ho
      exact ⟨by omega, by omega⟩
  · show (contents keyValues).card = n + 1
    rw [hrow.contents_eq, Multiset.card_cons, h.card]
  · have hone := congrFun hcharges 1
    have husage := h.usage
    have hsize : keyValueObjectBillableSize = 112 := rfl
    simp only [AccountResources.charges, Ledger.charge, if_pos, length_nil, hsize] at hone
    show resources.ramUsage 1 = _
    omega

theorem exists_filled_one : ∃ ctx, Run (fun _ _ => True) twoAccounts ctx ∧ Filled 1 ctx := by
  have hreplay : (firstAction.replay (fun _ _ => True) [.dbStoreI64 0 0 1 0 []]).any (fun ctx =>
      ctx.receiver = 1 ∧ ctx.db.tables.indices.objects.entries = [⟨0, 1, 0, 0, 1, 1⟩]
      ∧ ctx.db.keyValues.indices.objects.entries = [⟨0, 0, 0, 1, []⟩]
      ∧ ctx.db.keyValues.nextId = 1
      ∧ (∀ k, (ctx.db.secondary k).indices.objects.entries = [])
      ∧ ctx.db.resources.usage.indices.objects.entries
        = [{ id := 0, owner := 1, ramUsage := 224 }, { id := 1, owner := 2 }]) = true := by
    decide +kernel
  obtain ⟨ctx, hrun, hctx⟩ := (Run.start 1).replay hreplay
  obtain ⟨hreceiver, htables, hkeyValues, hnextId, hsecondary, husage⟩ := of_decide_eq_true hctx
  have hmem : ∀ o, o ∈ ctx.db.keyValues ↔ o = ⟨0, 0, 0, 1, []⟩ := by
    intro o
    rw [mem_index, mem_def, hkeyValues, mem_singleton]
  have hu : { id := 0, owner := 1, ramUsage := 224 } ∈ ctx.db.resources.usage := by
    rw [mem_index, mem_def, husage]
    exact mem_cons_self
  refine ⟨ctx, hrun, hreceiver, ⟨⟨0, 1, 0, 0, 1, 1⟩, ?_, ⟨rfl, rfl, rfl⟩, rfl, fun o ho => ?_⟩,
    fun o ho => ?_, ?_, fun k => ?_, ⟨_, hu, rfl⟩, AccountResources.ramUsage_of_mem hu rfl⟩
  · rw [mem_index, mem_def, htables]
    exact mem_cons_self
  · rw [(hmem o).1 ho]
  · rw [(hmem o).1 ho, hnextId]
    decide
  · rw [contents, hkeyValues]
    rfl
  · rw [contents, hsecondary]
    rfl

/-- **As many rows as one likes.** -/
theorem exists_filled (hone : 1 ≤ n) (hn : n ≤ 2 ^ 56) :
    ∃ ctx, Run (fun _ _ => True) twoAccounts ctx ∧ Filled n ctx := by
  induction n, hone using le_induction with
  | base => exact exists_filled_one
  | succ n _ ih =>
    obtain ⟨ctx, hrun, hfilled⟩ := ih (by omega)
    have hstore := hfilled.store (by omega)
    cases hperform : ctx.dbStoreI64 0 0 1 n [] with
    | error e => exact (hstore.of_error hperform).elim
    | ok result =>
      have hcall : ctx.perform (.dbStoreI64 0 0 1 n []) = .ok result := hperform
      exact ⟨result.2, .call hrun trivial hcall, hstore.of_ok hperform⟩

theorem Filled.rowsIn {t : TableIdObject} (h : Filled n ctx)
    (htId : ∀ o ∈ ctx.db.keyValues, o.tId = t.id) : ctx.db.rowsIn t.id = n := by
  have hitems : ctx.db.items = rowItems ctx.db.keyValues := by
    have hnone : ∀ k, rowItems (ctx.db.secondary k) = 0 := fun k => by
      rw [rowItems, h.secondary]
      rfl
    simp only [items, hnone, Finset.sum_const_zero, add_zero]
  show ctx.db.items.countP _ = n
  rw [hitems, rowItems, Multiset.countP_eq_card.2, Multiset.card_map, h.card]
  intro i hi
  obtain ⟨o, ho, rfl⟩ := Multiset.mem_map.1 hi
  exact htId o ho

/-- With 2^32 rows the count of the table is back at 0. -/
theorem count_wraps :
    ∃ ctx, Run (fun _ _ => True) twoAccounts ctx
      ∧ ∃ t ∈ ctx.db.tables, t.count = 0 ∧ ctx.db.rowsIn t.id = 2 ^ 32 := by
  obtain ⟨ctx, hrun, hfilled⟩ :=
    exists_filled (n := 2 ^ 32) (Nat.one_le_two_pow) (Nat.pow_le_pow_right Nat.two_pos (by decide))
  obtain ⟨t, ht, -, hcount, htId⟩ := hfilled.table
  exact ⟨ctx, hrun, t, ht, UInt32.toNat_inj.1 hcount, hfilled.rowsIn htId⟩

end ApplyContext

end PotatoNode.Chain
