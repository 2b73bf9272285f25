import Mathlib.Data.Finset.Card
import Mathlib.Data.List.MinMax
import PotatoNode.Lib.Bimap
import PotatoNode.Chain.PermissionBlocks

/-!
# The account query database (`account_query_db.cpp`)

A mirror of the permission index, by authorizer: which keys and permissions have what weight in
which permission. It is built once from the index and then follows the chain. `commit_block` looks
up again the permissions that the actions of the block name, and those that were last updated at the
time of the block or later, which a fork switch has made obsolete.
-/

namespace PotatoNode.ChainPlugin

open Lib Chain List Table
open Chainbase (GenericIndex)

@[ext] structure PermissionInfo where
  owner : AccountName
  name : PermissionName
  lastUpdated : Nat
  threshold : Nat
deriving DecidableEq, Repr

def PermissionInfo.level (pi : PermissionInfo) : PermissionLevel := ⟨pi.owner, pi.name⟩

/-- `weighted<T>`. -/
structure Weighted (T : Type) where
  value : T
  weight : Nat
deriving DecidableEq, Repr

/-- The shared structures of `account_query_db_impl`. A reference to a permission info is the key
that finds it. -/
structure QueryMap where
  permissionInfoIndex : Table PermissionInfo.level
  nameBimap : Bimap (Weighted PermissionLevel) PermissionLevel
  keyBimap : Bimap (Weighted PublicKey) PermissionLevel
deriving DecidableEq

namespace QueryMap

def empty : QueryMap := ⟨Table.empty, 0, 0⟩

/-- The accounts of an authority, as `add_to_bimaps` inserts them. -/
def nameEntries (po : PermissionObject) : List (Weighted PermissionLevel) :=
  po.auth.accounts.map fun a => ⟨a.permission, a.weight⟩

/-- The keys of an authority, as `add_to_bimaps` inserts them. -/
def keyEntries (po : PermissionObject) : List (Weighted PublicKey) :=
  po.auth.keys.map fun k => ⟨k.key, k.weight⟩

section

variable (m : QueryMap)

def addToBimaps (pi : PermissionLevel) (po : PermissionObject) : QueryMap :=
  { m with
    nameBimap := m.nameBimap.insertAll pi (nameEntries po)
    keyBimap := m.keyBimap.insertAll pi (keyEntries po) }

def removeFromBimaps (pi : PermissionLevel) : QueryMap :=
  { m with nameBimap := m.nameBimap.removeAll pi, keyBimap := m.keyBimap.removeAll pi }

def infoOf (po : PermissionObject) : PermissionInfo :=
  ⟨po.owner, po.name, po.lastUpdated, po.auth.threshold⟩

/-- One round of the loop of `build_account_query_map`. -/
def add (po : PermissionObject) : QueryMap :=
  { m with permissionInfoIndex := m.permissionInfoIndex.emplace (infoOf po) }.addToBimaps
    (infoOf po).level po

variable (permissions : GenericIndex PermissionObject)

def build : QueryMap :=
  permissions.indices.objects.entries.foldl add empty

def newest : Option PermissionInfo :=
  m.permissionInfoIndex.entries.argmax PermissionInfo.lastUpdated

def isRollbackRequired (t : Nat) : Bool :=
  match m.newest with
  | none => false
  | some pi => t ≤ pi.lastUpdated

def lookup (level : PermissionLevel) : Option PermissionObject :=
  find permissions fun po => po.owner = level.actor ∧ po.name = level.permission

def refresh (pi : PermissionInfo) (po : PermissionObject) : QueryMap :=
  { m.removeFromBimaps pi.level with
    permissionInfoIndex := m.permissionInfoIndex.insert
      { pi with lastUpdated := po.lastUpdated, threshold := po.auth.threshold } }.addToBimaps
    pi.level po

def drop (level : PermissionLevel) : QueryMap :=
  { m.removeFromBimaps level with permissionInfoIndex := m.permissionInfoIndex.erase level }

end

/-- The loop of `rollback_to_before`. -/
def rollback (permissions : GenericIndex PermissionObject) (t : Nat) :
    Nat → QueryMap → Result QueryMap
  | 0, _ => .error .divergence
  | fuel + 1, m =>
    match m.newest with
    | none => .ok m
    | some pi =>
      if pi.lastUpdated < t then .ok m
      else
        match lookup permissions pi.level with
        | none => rollback permissions t fuel (m.drop pi.level)
        | some po => rollback permissions t fuel (m.refresh pi po)

/-- `rollback_to_before`. An info that comes up a second time comes up forever, so the loop ends
within one round for each info or not at all. -/
def rollbackToBefore (permissions : GenericIndex PermissionObject) (t : Nat) (m : QueryMap) :
    Result QueryMap :=
  rollback permissions t (m.permissionInfoIndex.size + 1) m

def update (permissions : GenericIndex PermissionObject) (up : PermissionLevel) (m : QueryMap) :
    Result QueryMap :=
  match lookup permissions up with
  | none => eosThrow .pluginException "chain data is missing"
  | some po =>
    match m.permissionInfoIndex.find? up with
    | none => .ok (m.add po)
    | some pi => .ok (m.refresh pi po)

def delete (dp : PermissionLevel) (m : QueryMap) : QueryMap :=
  if m.permissionInfoIndex.contains dp = true then m.drop dp else m

/-- The part of `commit_block` that holds the write lock. -/
def commit (permissions : GenericIndex PermissionObject) (t : Nat)
    (updated deleted : FlatSet PermissionLevel) : EStateM Failure QueryMap Unit := do
  attempt (rollbackToBefore permissions t)
  updated.entries.forM fun up => attempt (update permissions up)
  deleted.entries.forM fun dp => EStateM.modifyGet fun m => ((), m.delete dp)

/-- What `push_results` says of the entries of a bimap: authorizer and weight, permission, and the
threshold of the permission. -/
def results {T : Type} (m : QueryMap) (bimap : Bimap (Weighted T) PermissionLevel) :
    Multiset (Weighted T × PermissionLevel × Option Nat) :=
  bimap.map fun e => (e.1, e.2, (m.permissionInfoIndex.find? e.2).map PermissionInfo.threshold)

/-- The two maps answer queries alike. -/
def SameResults (m m' : QueryMap) : Prop :=
  m.results m.nameBimap = m'.results m'.nameBimap ∧ m.results m.keyBimap = m'.results m'.keyBimap

instance (m m' : QueryMap) : Decidable (m.SameResults m') := inferInstanceAs (Decidable (_ ∧ _))

end QueryMap

/-! ## Traces -/

/-- `account_query_db_impl`. -/
structure AccountQueryDb where
  map : QueryMap
  cachedTraceMap : FlatMap Nat TransactionTrace
  onblockTrace : Option TransactionTrace

def isOnblock (trace : TransactionTrace) : Bool :=
  match trace.actionTraces with
  | ⟨_, account, context, .onblock⟩ :: _ =>
    account = systemAccountName ∧ context.authorization = [⟨systemAccountName, activeName⟩]
  | _ => false

/-- The permissions that the actions name, `updated` and `deleted`. -/
abbrev Touched := FlatSet PermissionLevel × FlatSet PermissionLevel

def processActionTrace (touched : Touched) (trace : ActionTrace) : Touched :=
  if trace.receiver = systemAccountName ∧ trace.account = systemAccountName then
    match trace.data with
    | .native (.updateauth data) =>
      (touched.1.insert ⟨data.account, data.permission⟩, touched.2.erase ⟨data.account, data.permission⟩)
    | .native (.deleteauth data) =>
      (touched.1.erase ⟨data.account, data.permission⟩, touched.2.insert ⟨data.account, data.permission⟩)
    | _ => touched
  else touched

def processTrace (touched : Touched) (trace : TransactionTrace) : Touched :=
  trace.actionTraces.foldl processActionTrace touched

def receiptId (trace : TransactionTrace) : Nat := trace.failedDtrx.getD trace.id

namespace AccountQueryDb

def start (permissions : GenericIndex PermissionObject) : AccountQueryDb :=
  ⟨.build permissions, FlatMap.empty, none⟩

def cacheTransactionTrace (db : AccountQueryDb) (trace : TransactionTrace) : AccountQueryDb :=
  if trace.effective = true then
    if isOnblock trace = true then { db with onblockTrace := some trace }
    else { db with cachedTraceMap := db.cachedTraceMap.set (receiptId trace) trace }
  else db

/-- What `commit_block_prelock` finds in the traces of a block with these receipts. -/
def touched (db : AccountQueryDb) (receipts : List Nat) : Touched :=
  (db.onblockTrace.toList ++ receipts.filterMap db.cachedTraceMap.get?).foldl processTrace
    (Table.empty, Table.empty)

def commitBlock (permissions : GenericIndex PermissionObject) (t : Nat) (receipts : List Nat) :
    EStateM Failure AccountQueryDb Unit := do
  let db ← EStateM.get
  let (updated, deleted) := db.touched receipts
  whenever (updated.entries ≠ [] ∨ deleted.entries ≠ [] ∨ db.map.isRollbackRequired t = true)
    (zoom map (fun db map => { db with map }) (QueryMap.commit permissions t updated deleted))
  EStateM.modifyGet fun db => ((), { db with cachedTraceMap := FlatMap.empty, onblockTrace := none })

end AccountQueryDb

/-! ## Entries -/

namespace QueryMap

variable {m m' : QueryMap} {j k : PermissionLevel} {po : PermissionObject}

@[ext] structure Entry where
  info : Option PermissionInfo
  names : Multiset (Weighted PermissionLevel)
  keys : Multiset (Weighted PublicKey)

def entry (m : QueryMap) (level : PermissionLevel) : Entry :=
  ⟨m.permissionInfoIndex.find? level, m.nameBimap.values level, m.keyBimap.values level⟩

/-- What the map should hold for a permission. -/
def entryOf : Option PermissionObject → Entry
  | none => ⟨none, 0, 0⟩
  | some po => ⟨some (infoOf po), .ofList (nameEntries po), .ofList (keyEntries po)⟩

theorem ext_entry (h : ∀ k, m.entry k = m'.entry k) : m = m' := by
  have hindex : m.permissionInfoIndex = m'.permissionInfoIndex :=
    ext_find? fun k => congrArg Entry.info (h k)
  have hnames : m.nameBimap = m'.nameBimap := Bimap.ext_values fun k => congrArg Entry.names (h k)
  have hkeys : m.keyBimap = m'.keyBimap := Bimap.ext_values fun k => congrArg Entry.keys (h k)
  cases m
  congr

theorem entry_drop : (m.drop k).entry j = if j = k then entryOf none else m.entry j := by
  simp only [entry, drop, removeFromBimaps, find?_erase, Bimap.values_removeAll]
  split <;> rfl

theorem entry_refresh {pi : PermissionInfo} (h : (infoOf po).level = pi.level) :
    (m.refresh pi po).entry j = if j = pi.level then entryOf (some po) else m.entry j := by
  have howner : po.owner = pi.owner := congrArg PermissionLevel.actor h
  have hname : po.name = pi.name := congrArg PermissionLevel.permission h
  have hinfo : { pi with lastUpdated := po.lastUpdated, threshold := po.auth.threshold }
      = infoOf po := PermissionInfo.ext howner.symm hname.symm rfl rfl
  simp only [entry, refresh, addToBimaps, removeFromBimaps, hinfo, find?_insert, h,
    Bimap.values_insertAll, Bimap.values_removeAll]
  split
  · simp [entryOf]
  · rfl

theorem entry_add (h : m.entry (infoOf po).level = entryOf none) :
    (m.add po).entry j = if j = (infoOf po).level then entryOf (some po) else m.entry j := by
  have hinfo : m.permissionInfoIndex.find? (infoOf po).level = none := congrArg Entry.info h
  have hnames : m.nameBimap.values (infoOf po).level = 0 := congrArg Entry.names h
  have hkeys : m.keyBimap.values (infoOf po).level = 0 := congrArg Entry.keys h
  simp only [entry, add, addToBimaps, find?_emplace, Bimap.values_insertAll]
  split
  · next heq => simp [heq, hinfo, hnames, hkeys, entryOf]
  · rfl

variable {permissions : GenericIndex PermissionObject}

theorem lookup_eq_some
    (h : lookup permissions k = some po) : po ∈ permissions ∧ (infoOf po).level = k := by
  obtain ⟨hpo, hkey⟩ := find_eq_some h
  obtain ⟨howner, hname⟩ := of_decide_eq_true hkey
  exact ⟨hpo, PermissionLevel.ext howner hname⟩

/-- The map holds what it should for every permission that `f` finds. -/
def Mirrors (m : QueryMap) (f : PermissionLevel → Option PermissionObject) : Prop :=
  ∀ k, m.entry k = entryOf (f k)

/-- The permissions that the loop of `build_account_query_map` has done. -/
def findIn (done : List PermissionObject) (k : PermissionLevel) : Option PermissionObject :=
  done.find? fun po => po.owner = k.actor ∧ po.name = k.permission

variable {done : List PermissionObject}

theorem findIn_eq_none (h : k ∉ done.map fun po => (infoOf po).level) : findIn done k = none := by
  refine find?_eq_none.2 fun po hpo hkey => h (mem_map.2 ⟨po, hpo, ?_⟩)
  obtain ⟨howner, hname⟩ := of_decide_eq_true hkey
  exact PermissionLevel.ext howner hname

theorem findIn_concat :
    findIn (done ++ [po]) k
      = (findIn done k).or (if k = (infoOf po).level then some po else none) := by
  have hkey : decide (po.owner = k.actor ∧ po.name = k.permission) = decide (k = (infoOf po).level) := by
    rw [decide_eq_decide, PermissionLevel.ext_iff, eq_comm, @eq_comm _ po.name]
    rfl
  unfold findIn
  rw [find?_append, find?_cons, hkey]
  by_cases h : k = (infoOf po).level
  · simp [h]
  · simp [h]

theorem Mirrors.add (h : m.Mirrors (findIn done))
    (hnew : (infoOf po).level ∉ done.map fun po => (infoOf po).level) :
    (m.add po).Mirrors (findIn (done ++ [po])) := by
  have hnone := findIn_eq_none hnew
  intro k
  rw [entry_add ((h _).trans (by rw [hnone])), findIn_concat]
  split
  · next heq => rw [heq, hnone, Option.none_or]
  · rw [h k, Option.or_none]

theorem mirrors_foldl_add :
    ∀ (rest done : List PermissionObject) (m : QueryMap),
      ((done ++ rest).map fun po => (infoOf po).level).Nodup → m.Mirrors (findIn done) →
      (rest.foldl QueryMap.add m).Mirrors (findIn (done ++ rest)) := by
  intro rest
  induction rest with
  | nil =>
    intro done m _ h
    rwa [append_nil]
  | cons po rest ih =>
    intro done m hnodup h
    have hnew : (infoOf po).level ∉ done.map fun po => (infoOf po).level := by
      rw [map_append] at hnodup
      exact fun hmem => (nodup_append.1 hnodup).2.2 _ hmem _ mem_cons_self rfl
    have hdone : done ++ po :: rest = (done ++ [po]) ++ rest := by simp
    rw [hdone] at hnodup ⊢
    exact ih _ _ hnodup (h.add hnew)

/-- **What `build_account_query_map` computes**, permission by permission. -/
theorem mirrors_build (permissions : GenericIndex PermissionObject) :
    (build permissions).Mirrors (lookup permissions) := by
  have hnodup : (permissions.indices.objects.entries.map fun po => (infoOf po).level).Nodup := by
    refine List.Nodup.map_on ?_ (List.Nodup.of_map _ permissions.indices.objects.nodup_keys)
    intro a ha b hb hlevel
    refine permissions.indices.unique a ha b hb (decide_eq_true ?_)
    exact ⟨congrArg PermissionLevel.actor hlevel, congrArg PermissionLevel.permission hlevel⟩
  exact mirrors_foldl_add _ [] _ hnodup fun k => rfl

theorem Mirrors.eq_build (h : m.Mirrors (lookup permissions)) : m = build permissions :=
  ext_entry fun k => (h k).trans (mirrors_build permissions k).symm

end QueryMap

end PotatoNode.ChainPlugin
