import PotatoNode.StateHistoryPlugin.HistoryTables

/-!
# The changes of a block

A block changes the objects of its state in a session of its own, and each of its transactions in
sessions inside that one, which are squashed or undone. What modifiers do is listed in `Change`, and
what the chain library looks at before it creates or removes an object in `TableOperation.Allowed`.
-/

namespace PotatoNode.StateHistoryPlugin

open Lib Chain Function
open Chainbase hiding Result Failure

/-- The modifiers of the chain library. An object of an index with one object is written as a
whole; generated transactions and the protocol state are never modified. -/
inductive Change : HistoryTable → Type where
  /-- `apply_eosio_setabi` -/
  | setAbi (abi : Bytes) : Change .account
  /-- `apply_eosio_setcode` -/
  | setCode (codeHash : Digest) (vmType vmVersion : UInt8) (pendingBlockTime : Nat) :
      Change .accountMetadata
  /-- `apply_eosio_setabi` -/
  | nextAbiSequence : Change .accountMetadata
  | nextRecvSequence : Change .accountMetadata
  | nextAuthSequence : Change .accountMetadata
  | setPrivileged (privileged : Bool) : Change .accountMetadata
  /-- `apply_eosio_setcode`, of the code that an account begins to use -/
  | useCode : Change .code
  /-- `apply_eosio_setcode`, of the code that an account no longer uses -/
  | releaseCode : Change .code
  | incrementCount : Change .contractTable
  | decrementCount : Change .contractTable
  /-- `db_update_i64` -/
  | updateRow (payer : AccountName) (value : Bytes) : Change .contractRow
  /-- `generic_index::update` -/
  | updateIndex {k : IndexKind} (payer : AccountName) (secondaryKey : Nat) :
      Change (.contractIndex k)
  | setGlobalProperty (value : GlobalProperty) : Change .globalProperty
  | modifyPermission (auth : Authority) (pendingBlockTime : Nat) : Change .permission
  | updateProducersAuthority (auth : Authority) : Change .permission
  /-- `apply_eosio_linkauth` -/
  | linkAuth (requirement : PermissionName) : Change .permissionLink
  /-- `set_account_limits` and `process_account_limit_updates` -/
  | setLimits (ramBytes netWeight cpuWeight : Int) : Change .resourceLimits
  /-- `update_account_usage` and `add_transaction_usage` -/
  | setUsage (netUsage cpuUsage : UsageAccumulator) : Change .resourceUsage
  | setRamUsage (ramUsage : UInt64) : Change .resourceUsage
  | setLimitsState (value : ResourceLimitsStateObject) : Change .resourceLimitsState
  | setLimitsConfig (value : ResourceLimitsConfigObject) : Change .resourceLimitsConfig

def Change.apply : {t : HistoryTable} → Change t → t.Object → t.Object
  | _, .setAbi abi, a => { a with abi }
  | _, .setCode codeHash vmType vmVersion pendingBlockTime, a =>
    { a with
      codeSequence := a.codeSequence + 1
      codeHash
      vmType
      vmVersion
      lastCodeUpdate := pendingBlockTime }
  | _, .nextAbiSequence, a => { a with abiSequence := a.abiSequence + 1 }
  | _, .nextRecvSequence, a => { a with recvSequence := a.recvSequence + 1 }
  | _, .nextAuthSequence, a => { a with authSequence := a.authSequence + 1 }
  | _, .setPrivileged privileged, a => { a with privileged }
  | _, .useCode, o => { o with codeRefCount := o.codeRefCount + 1 }
  | _, .releaseCode, o => { o with codeRefCount := o.codeRefCount - 1 }
  | _, .incrementCount, t => { t with count := t.count + 1 }
  | _, .decrementCount, t => { t with count := t.count - 1 }
  | _, .updateRow payer value, o => { o with payer, value }
  | _, .updateIndex payer secondaryKey, o => { o with payer, secondaryKey }
  | _, .setGlobalProperty value, o => { o with value }
  | _, .modifyPermission auth pendingBlockTime, po =>
    { po with auth, lastUpdated := pendingBlockTime }
  | _, .updateProducersAuthority auth, po => { po with auth }
  | _, .linkAuth requirement, link => { link with requiredPermission := requirement }
  | _, .setLimits ramBytes netWeight cpuWeight, o => { o with ramBytes, netWeight, cpuWeight }
  | _, .setUsage netUsage cpuUsage, u => { u with netUsage, cpuUsage }
  | _, .setRamUsage ramUsage, u => { u with ramUsage }
  | _, .setLimitsState value, o => { o with value }
  | _, .setLimitsConfig value, o => { o with value }

/-- An operation of the chain library on the index behind a table. -/
inductive TableOperation (t : HistoryTable) where
  | create (constructor : Int → t.Object) (id_eq : ∀ id, ValueType.id (constructor id) = id)
  | modify (id : Int) (change : Change t)
  | remove (id : Int)

def TableOperation.toOperation {t : HistoryTable} : TableOperation t → Operation t.Object
  | create constructor _ => .emplace constructor
  | modify id change => .modify id change.apply
  | remove id => .remove id

def TableUsed (db : Db) (tid : Int) : Prop :=
  (∃ o ∈ db .contractRow, o.tId = tid) ∨ ∃ k, ∃ o ∈ db (.contractIndex k), o.tId = tid

/-- The indices that have one object from the first block on. -/
def HistoryTable.Single : HistoryTable → Prop
  | globalProperty | protocolState | resourceLimitsState | resourceLimitsConfig => True
  | _ => False

/-- What the chain library looks at before an operation. Rows are stored in the table that
`find_or_create_table` has found, and a table is removed with its last row: its `count` is the
number of its rows (`TableRuns`). `create_permission` takes an existing parent, and
`remove_permission` refuses a permission that has children. -/
def TableOperation.Allowed (db : Db) : {t : HistoryTable} → TableOperation t → Prop
  | .contractRow, .create constructor _ =>
    ∃ t ∈ db .contractTable, t.id = (constructor (db .contractRow).nextId).tId
  | .contractIndex k, .create constructor _ =>
    ∃ t ∈ db .contractTable, t.id = (constructor (db (.contractIndex k)).nextId).tId
  | .contractTable, .remove id => ¬ TableUsed db id
  | .permission, .create constructor _ =>
    (constructor (db .permission).nextId).parent ≠ 0 →
      ∃ p ∈ db .permission, p.id = (constructor (db .permission).nextId).parent
  | .permission, .remove id => ∀ o ∈ db .permission, o.parent ≠ id
  | t, .create _ _ => t.Single → ∀ o, o ∉ db t
  | _, _ => True

/-- The state in a block on `db₀` with `n` sessions open inside that of the block. -/
inductive InBlock (db₀ : Db) : Nat → Db → Prop where
  | start : InBlock db₀ 0 fun t => (db₀ t).startUndoSession true
  | operation {n : Nat} {db : Db} (h : InBlock db₀ n db) (t : HistoryTable) (op : TableOperation t)
      (allowed : op.Allowed db) {g : GenericIndex t.Object}
      (run : op.toOperation.run (db t) = .ok g) : InBlock db₀ n (Function.update db t g)
  | startUndoSession {n : Nat} {db : Db} (h : InBlock db₀ n db) :
      InBlock db₀ (n + 1) fun t => (db t).startUndoSession true
  | squash {n : Nat} {db db' : Db} (h : InBlock db₀ (n + 1) db)
      (run : ∀ t, (db t).squash = .ok (db' t)) : InBlock db₀ n db'
  | undo {n : Nat} {db db' : Db} (h : InBlock db₀ (n + 1) db)
      (run : ∀ t, (db t).undo = .ok (db' t)) : InBlock db₀ n db'

/-- The state at the end of a block, after `process_account_limit_updates`. -/
structure Block (db₀ db : Db) : Prop where
  inBlock : InBlock db₀ 0 db
  processed : ∃ m m' : ResourceLimitsManager, m.processAccountLimitUpdates = .ok m'
    ∧ m'.accounts.limits = db .resourceLimits

/-- A state that operations make of an empty database, before the first block. -/
inductive Initialized : Db → Prop where
  | empty : Initialized fun _ => emptyIndex
  | operation {db : Db} (h : Initialized db) (t : HistoryTable) (op : TableOperation t)
      (allowed : op.Allowed db) {g : GenericIndex t.Object}
      (run : op.toOperation.run (db t) = .ok g) : Initialized (Function.update db t g)

/-- The states of a chain between its blocks. -/
inductive Reached : Db → Prop where
  | genesis {db : Db} (h : Initialized db) (settled : ∀ o ∈ db .resourceLimits, o.pending = false) :
      Reached db
  | block {db₀ db : Db} (h : Reached db₀) (hblock : Block db₀ db) : Reached db

/-! ## What stays -/

/-- The object without what modifiers change. -/
def HistoryTable.frame : (t : HistoryTable) → t.Object → t.Object
  | account, o => { o with abi := [] }
  | accountMetadata, o => { id := o.id, name := o.name }
  | code, o => { o with codeRefCount := 0 }
  | contractTable, o => { o with count := 0 }
  | contractRow, o => { o with payer := 0, value := [] }
  | contractIndex _, o => { o with payer := 0, secondaryKey := 0 }
  | globalProperty, o => { o with value := ⟨none, default, {}, 0, default, false, none⟩ }
  | generatedTransaction, o => o
  | protocolState, o => o
  | permission, o => { o with auth := ⟨0, [], [], []⟩, lastUpdated := 0 }
  | permissionLink, o => { o with requiredPermission := 0 }
  | resourceLimits, o => { o with ramBytes := 0, netWeight := 0, cpuWeight := 0 }
  | resourceUsage, o => { o with netUsage := {}, cpuUsage := {}, ramUsage := 0 }
  | resourceLimitsState, o => { o with value := {} }
  | resourceLimitsConfig, o => { o with value := {} }

/-- The objects agree in what modifiers do not change. -/
def SameFrame (t : HistoryTable) (a b : t.Object) : Prop := t.frame a = t.frame b

variable {t : HistoryTable}

theorem Change.sameFrame (change : Change t) (o : t.Object) : SameFrame t o (change.apply o) := by
  cases change <;> rfl

theorem discipline (t : HistoryTable) : Discipline (SameFrame t) where
  refl _ := rfl
  trans := Eq.trans
  id := by
    intro a b h
    have hframe : ∀ o : t.Object, ValueType.id (t.frame o) = ValueType.id o := by
      cases t <;> exact fun _ => rfl
    rw [← hframe a, ← hframe b, h]
  clash := by
    intro a b h v
    have hframe : ∀ o : t.Object, ValueType.clash (t.frame o) v = ValueType.clash o v := by
      cases t <;> exact fun _ => rfl
    rw [← hframe a, ← hframe b, h]

theorem TableOperation.within (op : TableOperation t) : op.toOperation.Within (SameFrame t) := by
  cases op with
  | create constructor id_eq => exact id_eq
  | modify id change => exact change.sameFrame
  | remove id => trivial

/-! ## What holds throughout -/

/-- Every row of a contract belongs to a table, every permission but those at the top has a parent,
and the indices for one object hold no more. -/
structure Linked (db : Db) : Prop where
  tables : ∀ tid, TableUsed db tid → ∃ t ∈ db .contractTable, t.id = tid
  parents : ∀ o ∈ db .permission, o.parent ≠ 0 → ∃ p ∈ db .permission, p.id = o.parent
  single : ∀ t : HistoryTable, t.Single → ∀ a ∈ db t, ∀ b ∈ db t, a = b

section Operations

variable {db : Db} {t : HistoryTable} {op : TableOperation t} {g : GenericIndex t.Object}

theorem TableOperation.now_of_run (run : op.toOperation.run (db t) = .ok g) {w : t.Object}
    (hw : w ∈ g) :
    (∃ constructor id_eq, op = .create constructor id_eq ∧ w = constructor (db t).nextId) ∨
      ∃ v ∈ db t, SameFrame t v w := by
  rcases Operation.now_of_run (discipline t) op.within run hw with ⟨c, hop, hw⟩ | hbefore
  · cases op with
    | create constructor id_eq =>
      cases hop
      exact .inl ⟨_, id_eq, rfl, hw⟩
    | modify id change | remove id => cases hop
  · exact .inr hbefore

theorem TableOperation.kept_of_run (run : op.toOperation.run (db t) = .ok g) {v : t.Object}
    (hv : v ∈ db t) : op = .remove (ValueType.id v) ∨ ∃ w ∈ g, SameFrame t v w := by
  rcases Operation.kept_of_run (discipline t) op.within run hv with hop | hkept
  · cases op with
    | create constructor id_eq | modify id change => cases hop
    | remove id => exact .inl (by cases hop; rfl)
  · exact .inr hkept

section

variable (h : Linked db) (allowed : op.Allowed db) (run : op.toOperation.run (db t) = .ok g)
include h allowed run

theorem Linked.tables_operation {tid : Int}
    (hused : TableUsed (update db t g) tid) :
    ∃ table ∈ (update db t g) .contractTable, table.id = tid := by
  cases t with
  | contractTable =>
    have hused₀ : TableUsed db tid := by simpa [TableUsed] using hused
    obtain ⟨table, htable, rfl⟩ := h.tables tid hused₀
    rcases TableOperation.kept_of_run run htable with rfl | ⟨w, hw, hsame⟩
    · -- a table that is removed has no rows
      exact absurd hused₀ allowed
    · exact ⟨w, hw, (discipline .contractTable).id hsame⟩
  | contractRow =>
    rcases hused with ⟨o, ho, rfl⟩ | ⟨k, o, ho, rfl⟩
    · rw [update_self] at ho
      rcases TableOperation.now_of_run run ho with ⟨c, hc, rfl, rfl⟩ | ⟨v, hv, hsame⟩
      · exact allowed
      · exact h.tables _ (.inl ⟨v, hv, (congrArg KeyValueObject.tId hsame :)⟩)
    · rw [update_of_ne (by simp)] at ho
      exact h.tables _ (.inr ⟨k, o, ho, rfl⟩)
  | contractIndex k' =>
    rcases hused with ⟨o, ho, rfl⟩ | ⟨k, o, ho, rfl⟩
    · rw [update_of_ne (by simp)] at ho
      exact h.tables _ (.inl ⟨o, ho, rfl⟩)
    · by_cases hk : k = k'
      · subst hk
        rw [update_self] at ho
        rcases TableOperation.now_of_run run ho with ⟨c, hc, rfl, rfl⟩ | ⟨v, hv, hsame⟩
        · exact allowed
        · exact h.tables _ (.inr ⟨k, v, hv, (congrArg IndexObject.tId hsame :)⟩)
      · rw [update_of_ne (by simpa using hk)] at ho
        exact h.tables _ (.inr ⟨k, o, ho, rfl⟩)
  | _ => simpa using h.tables tid (by simpa [TableUsed] using hused)

theorem Linked.parents_operation {o : PermissionObject}
    (ho : o ∈ (update db t g) .permission) (hparent : o.parent ≠ 0) :
    ∃ p ∈ (update db t g) .permission, p.id = o.parent := by
  by_cases ht : t = .permission
  · subst ht
    rcases TableOperation.now_of_run run ho with ⟨c, hc, rfl, rfl⟩ | ⟨v, hv, hsame⟩
    · obtain ⟨p, hp, hid⟩ := allowed hparent
      rcases TableOperation.kept_of_run run hp with hop | ⟨w, hw, hsame⟩
      · cases hop
      · exact ⟨w, hw, ((discipline .permission).id hsame).trans hid⟩
    · have hsameParent : v.parent = o.parent := (congrArg PermissionObject.parent hsame :)
      rw [← hsameParent] at hparent ⊢
      obtain ⟨p, hp, hid⟩ := h.parents v hv hparent
      rcases TableOperation.kept_of_run run hp with rfl | ⟨w, hw, hsame⟩
      · -- a permission that is removed has no children
        exact absurd hid.symm (allowed v hv)
      · exact ⟨w, hw, ((discipline .permission).id hsame).trans hid⟩
  · rw [update_of_ne (Ne.symm ht)] at ho ⊢
    exact h.parents o ho hparent

theorem Linked.single_operation {t' : HistoryTable} (hsingle : t'.Single)
    {a b : t'.Object} (ha : a ∈ (update db t g) t')
    (hb : b ∈ (update db t g) t') : a = b := by
  by_cases ht : t' = t
  · subst ht
    rw [update_self] at ha hb
    -- where an object is created there was none
    have hnone : ∀ {c hc}, op = .create c hc → ∀ o, o ∉ db t' := by
      rintro c hc rfl
      cases t' <;> first | exact allowed hsingle | exact absurd hsingle id
    rcases TableOperation.now_of_run run ha with ⟨c, hc, hop, rfl⟩ | ⟨v, hv, hva⟩ <;>
      rcases TableOperation.now_of_run run hb with ⟨c', hc', hop', rfl⟩ | ⟨u, hu, hub⟩
    · cases hop.symm.trans hop'
      rfl
    · exact absurd hu (hnone hop u)
    · exact absurd hv (hnone hop' v)
    · apply Table.eq_of_mem_of_key_eq ha hb
      rw [(discipline t').id hva, (discipline t').id hub, h.single t' hsingle v hv u hu]
  · rw [update_of_ne ht] at ha hb
    exact h.single t' hsingle a ha b hb

theorem Linked.operation : Linked (update db t g) where
  tables _ hused := h.tables_operation allowed run hused
  parents _ ho hparent := h.parents_operation allowed run ho hparent
  single _ hsingle _ ha _ hb := h.single_operation allowed run hsingle ha hb

end

end Operations

variable {db db₀ : Db}

theorem Linked.congr {db' : Db} (h : Linked db) (heq : ∀ t, (db' t).indices = (db t).indices) :
    Linked db' := by
  have hmem : ∀ t, ∀ o : t.Object, o ∈ db' t ↔ o ∈ db t := by
    intro t o
    show o ∈ (db' t).indices.objects ↔ o ∈ (db t).indices.objects
    rw [heq t]
  have hused : ∀ tid, TableUsed db' tid ↔ TableUsed db tid := by
    simp only [TableUsed, hmem, implies_true]
  constructor <;> simp only [hmem, hused]
  · exact h.tables
  · exact h.parents
  · exact h.single

/-! ## Sessions -/

/-- The indices in a session that was opened in `db₀`. -/
structure Session (db₀ db : Db) : Prop where
  layers : ∀ t, ∃ head, Layer (SameFrame t) (db₀ t) head (db t)
  linked : Linked db

namespace Session

variable {db₀ db₁ db db' : Db}

theorem start (hbelow : ∀ t, (db t).IdsBelow) (hlinked : Linked db) :
    Session db fun t => (db t).startUndoSession true :=
  ⟨fun t => ⟨_, .start (discipline t) (hbelow t)⟩, hlinked.congr fun _ => rfl⟩

theorem operation (h : Session db₀ db) {op : TableOperation t} {g : GenericIndex t.Object}
    (allowed : op.Allowed db) (run : op.toOperation.run (db t) = .ok g) :
    Session db₀ (update db t g) := by
  refine ⟨fun t' => ?_, h.linked.operation allowed run⟩
  by_cases ht : t' = t
  · subst ht
    rw [update_self]
    obtain ⟨head, hlayer⟩ := h.layers t'
    exact hlayer.step (discipline t') op.within run
  · rw [update_of_ne ht]
    exact h.layers t'

theorem squash (h : Session db₀ db₁) (h' : Session db₁ db)
    (run : ∀ t, (db t).squash = .ok (db' t)) : Session db₀ db' := by
  refine ⟨fun t => ?_, h'.linked.congr fun t => GenericIndex.indices_squash (run t)⟩
  obtain ⟨a, ha⟩ := h.layers t
  obtain ⟨b, hb⟩ := h'.layers t
  exact ⟨_, ha.squash (discipline t) hb (run t)⟩

/-- Undoing gives back the state in which the session was opened. -/
theorem undo_eq (h : Session db₀ db) (run : ∀ t, (db t).undo = .ok (db' t)) : db' = db₀ := by
  funext t
  obtain ⟨head, hlayer⟩ := h.layers t
  exact Except.ok.inj ((run t).symm.trans (hlayer.undo_eq (discipline t)))

end Session

/-- The session of a block and `n` sessions inside it. -/
inductive Levels (db₀ : Db) : Nat → Db → Prop where
  | outer {db : Db} (h : Session db₀ db) : Levels db₀ 0 db
  | inner {n : Nat} {db₁ db : Db} (rest : Levels db₀ n db₁) (h : Session db₁ db) :
      Levels db₀ (n + 1) db

theorem Levels.exists_session {n : Nat} (h : Levels db₀ n db) : ∃ db₁, Session db₁ db := by
  cases h with
  | outer h | inner _ h => exact ⟨_, h⟩

theorem Levels.idsBelow {n : Nat} (h : Levels db₀ n db) (t : HistoryTable) : (db t).IdsBelow :=
  (h.exists_session.choose_spec.layers t).choose_spec.below

/-- **In a block** each index is in the session of the block and in those inside it, and the objects
are linked. -/
theorem InBlock.levels {n : Nat} (h : InBlock db₀ n db) (hbelow : ∀ t, (db₀ t).IdsBelow)
    (hlinked : Linked db₀) : Levels db₀ n db := by
  induction h with
  | start => exact .outer (.start hbelow hlinked)
  | operation _ t op allowed run ih =>
    cases ih with
    | outer h => exact .outer (h.operation allowed run)
    | inner rest h => exact .inner rest (h.operation allowed run)
  | startUndoSession _ ih => exact .inner ih (.start ih.idsBelow ih.exists_session.choose_spec.linked)
  | squash _ run ih =>
    cases ih with
    | inner rest h =>
      cases rest with
      | outer h₀ => exact .outer (h₀.squash h run)
      | inner rest h₀ => exact .inner rest (h₀.squash h run)
  | undo _ run ih =>
    cases ih with
    | inner rest h => exact h.undo_eq run ▸ rest

/-- What holds between blocks: objects are linked, ids are given out in order and no limits are
pending. -/
structure Consistent (db : Db) : Prop extends Linked db where
  below : ∀ t, (db t).IdsBelow
  settled : ∀ o ∈ db .resourceLimits, o.pending = false

theorem Block.session (h : Block db₀ db) (h₀ : Consistent db₀) : Session db₀ db := by
  cases h.inBlock.levels h₀.below h₀.toLinked with
  | outer h => exact h

theorem Block.settled (h : Block db₀ db) : ∀ o ∈ db .resourceLimits, o.pending = false := by
  obtain ⟨m, m', hprocess, hlimits⟩ := h.processed
  rw [← hlimits]
  exact ResourceLimitsManager.settled_of_processAccountLimitUpdates hprocess

/-- **Blocks keep the state consistent.** -/
theorem Block.consistent (h : Block db₀ db) (h₀ : Consistent db₀) : Consistent db where
  toLinked := (h.session h₀).linked
  below t := ((h.session h₀).layers t).choose_spec.below
  settled := h.settled

/-- By induction on the operations. -/
theorem Initialized.consistent (h : Initialized db) : Linked db ∧ ∀ t, (db t).IdsBelow := by
  induction h with
  | empty => exact ⟨⟨nofun, nofun, nofun⟩, nofun⟩
  | @operation db _ t op allowed g run ih =>
    refine ⟨ih.1.operation allowed run, fun t' => ?_⟩
    by_cases ht : t' = t
    · subst ht
      rw [update_self]
      exact (ih.2 t').operation (op.within.leavesIds (discipline t')) run
    · rw [update_of_ne ht]
      exact ih.2 t'

/-- **Every state of a chain is consistent.** -/
theorem Reached.consistent (h : Reached db) : Consistent db := by
  induction h with
  | genesis h settled => exact ⟨h.consistent.1, h.consistent.2, settled⟩
  | block _ hblock ih => exact hblock.consistent ih

end PotatoNode.StateHistoryPlugin
