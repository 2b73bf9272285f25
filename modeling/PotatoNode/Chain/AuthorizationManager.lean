import PotatoNode.Chain.Authority
import PotatoNode.Chain.ResourceUsage

/-!
# Permissions in the database (`authorization_manager.cpp`, `permission_object.hpp`)

A permission names the account that owns it and, by object id, its parent; the id `0` stands for no
parent and is reserved by an object that belongs to nobody. `satisfies` walks from a permission up
to the owner permission of its account.
-/

namespace PotatoNode.Chain

open Lib Chainbase

/-! ## Objects -/

structure AccountObject where
  id : Int
  name : AccountName
  creationDate : Nat
deriving DecidableEq, Repr

instance : ValueType AccountObject where
  id := AccountObject.id
  clash a b := a.name = b.name
  clash_comm a b := by simp only [eq_comm]

structure AccountMetadataObject where
  id : Int
  name : AccountName
  privileged : Bool := false
deriving DecidableEq, Repr

instance : ValueType AccountMetadataObject where
  id := AccountMetadataObject.id
  clash a b := a.name = b.name
  clash_comm a b := by simp only [eq_comm]

structure PermissionUsageObject where
  id : Int
  lastUsed : Nat
deriving DecidableEq, Repr

instance : ValueType PermissionUsageObject where
  id := PermissionUsageObject.id
  clash _ _ := false
  clash_comm _ _ := rfl

structure PermissionObject where
  id : Int
  usageId : Int := 0
  parent : Int := 0
  owner : AccountName := 0
  name : PermissionName := 0
  lastUpdated : Nat := 0
  auth : Authority := ⟨0, [], [], []⟩
deriving DecidableEq, Repr

instance : ValueType PermissionObject where
  id := PermissionObject.id
  clash a b := a.owner = b.owner ∧ a.name = b.name
  clash_comm a b := by simp only [eq_comm]

structure PermissionLinkObject where
  id : Int
  account : AccountName
  code : AccountName
  messageType : ActionName
  requiredPermission : PermissionName
deriving DecidableEq, Repr

instance : ValueType PermissionLinkObject where
  id := PermissionLinkObject.id
  clash a b := a.account = b.account ∧ a.code = b.code ∧ a.messageType = b.messageType
  clash_comm a b := by simp only [eq_comm]

/-- The indices that the authorization manager and the native actions work on. -/
structure Database where
  accounts : GenericIndex AccountObject := emptyIndex
  accountMetadata : GenericIndex AccountMetadataObject := emptyIndex
  permissions : GenericIndex PermissionObject := emptyIndex
  permissionUsage : GenericIndex PermissionUsageObject := emptyIndex
  permissionLinks : GenericIndex PermissionLinkObject := emptyIndex
  resources : AccountResources := ⟨emptyIndex, emptyIndex⟩

/-! ## Billable sizes -/

def billableSizeV (value : Nat) : Nat := (value + 16 - 1) / 16 * 16

def overheadPerRowPerIndexRamBytes : Nat := 32

def sharedAuthorityBillableSize : Nat := billableSizeV (3 * 16 + 4)

def permissionObjectBillableSize : Nat :=
  billableSizeV (sharedAuthorityBillableSize + 64 + 5 * overheadPerRowPerIndexRamBytes)

def permissionLinkObjectBillableSize : Nat :=
  billableSizeV (40 + overheadPerRowPerIndexRamBytes * 3)

/-! ## What is read of the controller -/

/-- What the permission functions and the native actions read besides the database. -/
structure ActionContext where
  /-- `act->authorization` -/
  authorization : List PermissionLevel
  /-- the time of the pending block, if there is one -/
  pendingTime : Option Nat
  /-- `max_transaction_delay` of the chain configuration -/
  maxTransactionDelay : Nat
  /-- `key.which() < num_supported_key_types` -/
  keyTypeActivated : PublicKey → Bool
  /-- `fc::raw::pack_size` of a key -/
  packSize : PublicKey → Nat
  /-- `enforce_allowdenylist && is_producing_block()` -/
  checkKeyLists : Bool
  /-- `conf.key_denylist` -/
  keyDenylist : List PublicKey

def ActionContext.pendingBlockTime (ctx : ActionContext) : Result Nat :=
  match ctx.pendingTime with
  | none => eosThrow .blockValidateException "no pending block"
  | some time => .ok time

/-- When a permission is created; an `initial_creation_time` of zero means the time of the pending
block. -/
def ActionContext.creationTime (ctx : ActionContext) (initialCreationTime : Nat) : Result Nat :=
  if initialCreationTime = 0 then ctx.pendingBlockTime else .ok initialCreationTime

def Authority.getBillableSize (packSize : PublicKey → Nat) (a : Authority) : Nat :=
  a.accounts.length * billableSizeV 24 + a.waits.length * billableSizeV 16
    + (a.keys.map fun k => billableSizeV 8 + packSize k.key).sum

/-! ## The authorization manager -/

namespace Database

variable (ctx : ActionContext) (db : Database)

def createPermission (account : AccountName) (name : PermissionName) (parent : Int)
    (auth : Authority) (initialCreationTime : Nat) : Result (PermissionObject × Database) := do
  eosAssert (∀ k ∈ auth.keys, ctx.keyTypeActivated k.key = true) .unactivatedKeyType
    "Unactivated key type used when creating permission"
  let creationTime ← ctx.creationTime initialCreationTime
  let (permUsage, permissionUsage) ←
    create db.permissionUsage fun id => { id, lastUsed := creationTime }
  let (perm, permissions) ← create db.permissions fun id =>
    { id, usageId := permUsage.id, parent, owner := account, name, lastUpdated := creationTime, auth }
  .ok (perm, { db with permissionUsage, permissions })

def modifyPermission (permission : PermissionObject) (auth : Authority) : Result Database := do
  eosAssert (∀ k ∈ auth.keys, ctx.keyTypeActivated k.key = true) .unactivatedKeyType
    "Unactivated key type used when modifying permission"
  let time ← ctx.pendingBlockTime
  let permissions ← Chain.modify db.permissions permission.id fun po =>
    { po with auth, lastUpdated := time }
  .ok { db with permissions }

def removePermission (permission : PermissionObject) : Result Database := do
  eosAssert (find db.permissions (·.parent = permission.id) = none) .actionValidateException
    "Cannot remove a permission which has children. Remove the children first."
  let permissionUsage ← removeObject db.permissionUsage permission.usageId
  let permissions ← remove db.permissions permission.id
  .ok { db with permissionUsage, permissions }

variable (level : PermissionLevel)

def findByOwner : Option PermissionObject :=
  find db.permissions fun p => p.owner = level.actor ∧ p.name = level.permission

def findPermission : Result (Option PermissionObject) := do
  eosAssert (level.actor ≠ 0 ∧ level.permission ≠ 0) .invalidPermission "Invalid permission"
  .ok (db.findByOwner level)

def getPermission : Result PermissionObject := do
  eosAssert (level.actor ≠ 0 ∧ level.permission ≠ 0) .invalidPermission "Invalid permission"
  match db.findByOwner level with
  | none =>
    eosThrow .permissionQueryException "Failed to retrieve permission: ${level} (${what})"
  | some permission => .ok permission

end Database

namespace PermissionObject

/-- The loop of `satisfies`, which stands at `parent`. -/
def satisfiesFrom (permissionIndex : GenericIndex PermissionObject) (id : Int) :
    Nat → PermissionObject → Result Bool
  | 0, _ => .error .divergence
  | fuel + 1, parent =>
    if id = parent.parent then .ok true
    else if parent.parent = 0 then .ok false
    else
      match permissionIndex.indices.find? parent.parent with
      | none => .error .undefinedBehaviour
      | some parent => satisfiesFrom permissionIndex id fuel parent

/-- `satisfies`. The ids in use lie below `nextId`, so a walk of more steps has come to some object
twice and does not end. -/
def satisfies (self other : PermissionObject) (permissionIndex : GenericIndex PermissionObject) :
    Result Bool :=
  if self.owner ≠ other.owner then .ok false
  else if self.id = other.id ∨ self.id = other.parent then .ok true
  else
    match permissionIndex.indices.find? other.parent with
    | none => .error .undefinedBehaviour
    | some parent => satisfiesFrom permissionIndex self.id permissionIndex.nextId.toNat parent

end PermissionObject

/-! ## What the writers leave -/

namespace Database

variable {ctx : ActionContext} {db db' : Database} {level : PermissionLevel} {p : PermissionObject}

theorem findByOwner_eq_some (h : db.findByOwner level = some p) :
    p ∈ db.permissions ∧ p.owner = level.actor ∧ p.name = level.permission := by
  obtain ⟨hp, hkey⟩ := find_eq_some h
  exact ⟨hp, of_decide_eq_true hkey⟩

theorem findPermission_eq_ok {o : Option PermissionObject} (h : db.findPermission level = .ok o) :
    level.actor ≠ 0 ∧ level.permission ≠ 0 ∧ db.findByOwner level = o := by
  obtain ⟨_, hassert, h⟩ := bind_eq_ok.1 h
  obtain ⟨hactor, hpermission⟩ := eosAssert_eq_ok.1 hassert
  cases h
  exact ⟨hactor, hpermission, rfl⟩

theorem getPermission_eq_ok (h : db.getPermission level = .ok p) :
    level.actor ≠ 0 ∧ level.permission ≠ 0 ∧ db.findByOwner level = some p := by
  obtain ⟨_, hassert, h⟩ := bind_eq_ok.1 h
  obtain ⟨hactor, hpermission⟩ := eosAssert_eq_ok.1 hassert
  split at h
  · cases h
  · next hfind =>
    cases h
    exact ⟨hactor, hpermission, hfind⟩

variable {auth : Authority}

theorem createPermission_eq_ok {account : AccountName} {name : PermissionName} {parent : Int}
    {initialCreationTime : Nat}
    (h : db.createPermission ctx account name parent auth initialCreationTime = .ok (p, db')) :
    (p.id = db.permissions.nextId ∧ p.parent = parent ∧ p.owner = account ∧ p.name = name
        ∧ p.auth = auth)
      ∧ Created db.permissions p db'.permissions
      ∧ db' = { db with permissions := db'.permissions, permissionUsage := db'.permissionUsage } := by
  obtain ⟨_, -, creationTime, -, h⟩ := bind₂_eq_ok.1 h
  obtain ⟨⟨usage, permissionUsage⟩, -, h⟩ := bind_eq_ok.1 h
  obtain ⟨⟨perm, permissions⟩, hcreate, h⟩ := bind_eq_ok.1 h
  cases h
  obtain ⟨rfl, hcreated⟩ := create_eq_ok hcreate
  exact ⟨⟨rfl, rfl, rfl, rfl, rfl⟩, hcreated, rfl⟩

theorem modifyPermission_eq_ok (hp : p ∈ db.permissions)
    (h : db.modifyPermission ctx p auth = .ok db') :
    ∃ time, ctx.pendingBlockTime = .ok time
      ∧ Modified db.permissions { p with auth, lastUpdated := time } db'.permissions
      ∧ db' = { db with permissions := db'.permissions } := by
  obtain ⟨_, -, time, htime, permissions, hmodify, h⟩ := bind₃_eq_ok.1 h
  cases h
  obtain ⟨q, hq, hid, hmodified⟩ := modify_eq_ok hmodify fun _ => rfl
  obtain rfl : q = p := eq_of_id_eq hq hp hid
  exact ⟨time, htime, hmodified, rfl⟩

theorem removePermission_eq_ok (h : db.removePermission p = .ok db') :
    (∀ q ∈ db.permissions, q.parent ≠ p.id)
      ∧ Removed db.permissions p.id db'.permissions
      ∧ db' = { db with permissions := db'.permissions, permissionUsage := db'.permissionUsage } := by
  obtain ⟨_, hassert, permissionUsage, -, permissions, hremove, h⟩ := bind₃_eq_ok.1 h
  cases h
  refine ⟨fun q hq hparent => ?_, remove_eq_ok hremove, rfl⟩
  exact find_eq_none (eosAssert_eq_ok.1 hassert) q hq (decide_eq_true hparent)

end Database

end PotatoNode.Chain
