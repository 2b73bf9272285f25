import PotatoNode.Chain.AuthorizationManager

/-!
# Native actions on accounts and permissions (`eosio_contract.cpp`, `controller.cpp`)

`newaccount`, `updateauth`, `deleteauth`, `linkauth` and `unlinkauth`, and the accounts that the
chain is born with. Each handler checks the action, changes the database and charges the RAM; a
handler that throws changes nothing, since the transaction around it is undone.
-/

namespace PotatoNode.Chain

open Lib Chainbase

/-! ## The actions -/

/-- An authority as it is unpacked from an action; a `weight_type` has 16 bits. -/
structure UnpackedAuthority extends Authority where
  weight_lt : ∀ w ∈ toAuthority.weights, w < 2 ^ 16

structure Newaccount where
  creator : AccountName
  name : AccountName
  owner : UnpackedAuthority
  active : UnpackedAuthority

structure Updateauth where
  account : AccountName
  permission : PermissionName
  parent : PermissionName
  auth : UnpackedAuthority

structure Deleteauth where
  account : AccountName
  permission : PermissionName

structure Linkauth where
  account : AccountName
  code : AccountName
  type : ActionName
  requirement : PermissionName

structure Unlinkauth where
  account : AccountName
  code : AccountName
  type : ActionName

/-- An action of the system account on accounts and permissions. -/
inductive NativeAction where
  | newaccount (create : Newaccount)
  | updateauth (update : Updateauth)
  | deleteauth (remove : Deleteauth)
  | linkauth (requirement : Linkauth)
  | unlinkauth (unlink : Unlinkauth)

/-! ## The checks -/

namespace ActionContext

variable (ctx : ActionContext)

def requireAuthorization (account : AccountName) : Result Unit :=
  eosAssert (∃ level ∈ ctx.authorization, level.actor = account) .missingAuthException
    "missing authority of ${account}"

def checkKeyList (key : PublicKey) : Result Unit :=
  eosAssert (key ∉ ctx.keyDenylist) .keyDenylistException
    "public key '${key}' is on the key denylist"

end ActionContext

namespace Database

variable (ctx : ActionContext) (db : Database)

def findAccount (name : AccountName) : Option AccountObject := find db.accounts (·.name = name)

/-- One round of the loop of `validate_authority_precondition`. -/
def validatePermissionLevel (level : PermissionLevel) : Result Unit := do
  eosAssert ((db.findAccount level.actor).isSome = true) .actionValidateException
    "account '${account}' does not exist"
  if level.permission = ownerName ∨ level.permission = activeName
      ∨ level.permission = eosioCodeName then .ok ()
  else
    match db.getPermission level with
    | .ok _ => .ok ()
    | .error (.exception ⟨.permissionQueryException, _⟩) =>
      eosThrow .actionValidateException "permission '${perm}' does not exist"
    | .error e => .error e

def validateAuthorityPrecondition (auth : Authority) : Result Unit := do
  auth.accounts.forM fun a => db.validatePermissionLevel a.permission
  if ctx.checkKeyLists = true then auth.keys.forM fun p => ctx.checkKeyList p.key else .ok ()

/-! ## The handlers -/

def addRamUsage (account : AccountName) (ramDelta : Int) : Result Database := do
  let resources ← db.resources.addPendingRamUsage account ramDelta
  .ok { db with resources }

def permissionSize (auth : Authority) : Int :=
  permissionObjectBillableSize + auth.getBillableSize ctx.packSize

def overheadPerAccountRamBytes : Nat := 2 * 1024

/-- The objects of a new account, as `newaccount` creates them after its checks. -/
def createAccount (name : AccountName) (creationDate : Nat) (privileged : Bool) :
    Result Database := do
  let (_, accounts) ← create db.accounts fun id => { id, name, creationDate }
  let (_, accountMetadata) ← create db.accountMetadata fun id => { id, name, privileged }
  .ok { db with accounts, accountMetadata }

def createAccountPermissions (name : AccountName) (owner active : Authority)
    (initialCreationTime : Nat) : Result Database := do
  let (ownerPermission, db) ← db.createPermission ctx name ownerName 0 owner initialCreationTime
  let (activePermission, db) ←
    db.createPermission ctx name activeName ownerPermission.id active initialCreationTime
  let resources ← db.resources.initializeAccount name
  { db with resources }.addRamUsage name
    (overheadPerAccountRamBytes + 2 * permissionObjectBillableSize
      + ownerPermission.auth.getBillableSize ctx.packSize
      + activePermission.auth.getBillableSize ctx.packSize)

def applyEosioNewaccount (act : Newaccount) : Result Database := do
  ctx.requireAuthorization act.creator
  eosAssert (act.owner.validate = true) .actionValidateException "Invalid owner authority"
  eosAssert (act.active.validate = true) .actionValidateException "Invalid active authority"
  eosAssert (act.name ≠ 0) .actionValidateException "account name cannot be empty"
  eosAssert ((nameToString act.name).length ≤ 12) .actionValidateException
    "account names can only be 12 chars long"
  let creator ← Chain.get db.accountMetadata (·.name = act.creator)
  eosAssert (creator.privileged = true ∨ startsWithEosioDot act.name = false)
    .actionValidateException "only privileged accounts can have names that start with 'eosio.'"
  eosAssert (db.findAccount act.name = none) .accountNameExistsException
    "Cannot create account named ${name}, as that name is already taken"
  let time ← ctx.pendingBlockTime
  let db ← db.createAccount act.name time false
  db.validateAuthorityPrecondition ctx act.owner.toAuthority
  db.validateAuthorityPrecondition ctx act.active.toAuthority
  db.createAccountPermissions ctx act.name act.owner.toAuthority act.active.toAuthority 0

def parentId (update : Updateauth) : Result Int :=
  if update.permission = ownerName then .ok 0
  else do
    let parent ← db.getPermission ⟨update.account, update.parent⟩
    .ok parent.id

/-- What `updateauth` does after its checks. -/
def updatePermission (update : Updateauth) (parentId : Int) :
    Option PermissionObject → Result Database
  | some permission => do
    eosAssert (parentId = permission.parent) .actionValidateException
      "Changing parent authority is not currently supported"
    let db ← db.modifyPermission ctx permission update.auth.toAuthority
    db.addRamUsage permission.owner
      (permissionSize ctx update.auth.toAuthority - permissionSize ctx permission.auth)
  | none => do
    let (p, db) ←
      db.createPermission ctx update.account update.permission parentId update.auth.toAuthority 0
    db.addRamUsage update.account (permissionSize ctx p.auth)

def applyEosioUpdateauth (update : Updateauth) : Result Database := do
  ctx.requireAuthorization update.account
  eosAssert (update.permission ≠ 0) .actionValidateException
    "Cannot create authority with empty name"
  eosAssert (startsWithEosioDot update.permission = false) .actionValidateException
    "Permission names that start with 'eosio.' are reserved"
  eosAssert (update.permission ≠ update.parent) .actionValidateException
    "Cannot set an authority as its own parent"
  let _ ← Chain.get db.accounts (·.name = update.account)
  eosAssert (update.auth.validate = true) .actionValidateException "Invalid authority: ${auth}"
  eosAssert (update.permission = activeName → update.parent = ownerName) .actionValidateException
    "Cannot change active authority's parent from owner"
  eosAssert (update.permission = ownerName → update.parent = 0) .actionValidateException
    "Cannot change owner authority's parent"
  eosAssert (update.permission ≠ ownerName → update.parent ≠ 0) .actionValidateException
    "Only owner permission can have empty parent"
  eosAssert (∀ w ∈ update.auth.waits.getLast?, w.waitSec ≤ ctx.maxTransactionDelay)
    .actionValidateException
    "Cannot set delay longer than max_transacton_delay, which is ${max_delay} seconds"
  db.validateAuthorityPrecondition ctx update.auth.toAuthority
  let permission ← db.findPermission ⟨update.account, update.permission⟩
  let parentId ← db.parentId update
  db.updatePermission ctx update parentId permission

def applyEosioDeleteauth (act : Deleteauth) : Result Database := do
  ctx.requireAuthorization act.account
  eosAssert (act.permission ≠ activeName) .actionValidateException "Cannot delete active authority"
  eosAssert (act.permission ≠ ownerName) .actionValidateException "Cannot delete owner authority"
  eosAssert (find db.permissionLinks (fun l =>
      l.account = act.account ∧ l.requiredPermission = act.permission) = none)
    .actionValidateException
    "Cannot delete a linked authority. Unlink the authority first. This authority is linked to ${code}::${type}."
  let permission ← db.getPermission ⟨act.account, act.permission⟩
  let db ← db.removePermission permission
  db.addRamUsage act.account (-permissionSize ctx permission.auth)

def findLink (account code : AccountName) (type : ActionName) : Option PermissionLinkObject :=
  find db.permissionLinks fun l => l.account = account ∧ l.code = code ∧ l.messageType = type

/-- What `linkauth` does after its checks. -/
def link (act : Linkauth) : Option PermissionLinkObject → Result Database
  | some link => do
    eosAssert (link.requiredPermission ≠ act.requirement) .actionValidateException
      "Attempting to update required authority, but new requirement is same as old"
    let permissionLinks ← Chain.modify db.permissionLinks link.id fun l =>
      { l with requiredPermission := act.requirement }
    .ok { db with permissionLinks }
  | none => do
    let (l, permissionLinks) ← create db.permissionLinks fun id =>
      { id, account := act.account, code := act.code, messageType := act.type,
        requiredPermission := act.requirement }
    { db with permissionLinks }.addRamUsage l.account permissionLinkObjectBillableSize

def applyEosioLinkauth (act : Linkauth) : Result Database := do
  eosAssert (act.requirement ≠ 0) .actionValidateException "Required permission cannot be empty"
  ctx.requireAuthorization act.account
  eosAssert ((db.findAccount act.account).isSome = true) .accountQueryException
    "Failed to retrieve account: ${account}"
  eosAssert ((db.findAccount act.code).isSome = true) .accountQueryException
    "Failed to retrieve code for account: ${account}"
  eosAssert (act.requirement ≠ eosioAnyName →
      (db.findByOwner ⟨act.account, act.requirement⟩).isSome = true) .permissionQueryException
    "Failed to retrieve permission: ${permission}"
  db.link act (db.findLink act.account act.code act.type)

def applyEosioUnlinkauth (act : Unlinkauth) : Result Database := do
  ctx.requireAuthorization act.account
  match db.findLink act.account act.code act.type with
  | none =>
    eosThrow .actionValidateException "Attempting to unlink authority, but no link found"
  | some link => do
    let db ← db.addRamUsage link.account (-permissionLinkObjectBillableSize)
    let permissionLinks ← remove db.permissionLinks link.id
    .ok { db with permissionLinks }

/-- The handler that `find_apply_handler` has for the action. -/
def apply (ctx : ActionContext) (db : Database) : NativeAction → Result Database
  | .newaccount create => db.applyEosioNewaccount ctx create
  | .updateauth update => db.applyEosioUpdateauth ctx update
  | .deleteauth remove => db.applyEosioDeleteauth ctx remove
  | .linkauth requirement => db.applyEosioLinkauth ctx requirement
  | .unlinkauth unlink => db.applyEosioUnlinkauth ctx unlink

/-! ## What a successful action went through -/

section Handlers

variable {ctx : ActionContext} {db db' : Database}

theorem applyEosioNewaccount_eq_ok {act : Newaccount}
    (h : db.applyEosioNewaccount ctx act = .ok db') :
    (act.owner.validate = true ∧ act.active.validate = true ∧ act.name ≠ 0
        ∧ db.findAccount act.name = none)
      ∧ ∃ time db₁, ctx.pendingBlockTime = .ok time ∧ db.createAccount act.name time false = .ok db₁
        ∧ db₁.createAccountPermissions ctx act.name act.owner.toAuthority act.active.toAuthority 0
          = .ok db' := by
  simp only [applyEosioNewaccount, bind_eq_ok, eosAssert_eq_ok, exists_const] at h
  obtain ⟨_, -, howner, hactive, hname, -, _, -, -, hnew, time, htime, db₁, haccount, _, -, _, -,
    h⟩ := h
  exact ⟨⟨howner, hactive, hname, hnew⟩, time, db₁, htime, haccount, h⟩

variable {update : Updateauth}

theorem applyEosioUpdateauth_eq_ok
    (h : db.applyEosioUpdateauth ctx update = .ok db') :
    (update.permission ≠ 0 ∧ update.auth.validate = true
        ∧ ∃ a ∈ db.accounts, a.name = update.account)
      ∧ ∃ parentId, db.parentId update = .ok parentId
        ∧ db.updatePermission ctx update parentId
            (db.findByOwner ⟨update.account, update.permission⟩) = .ok db' := by
  simp only [applyEosioUpdateauth, bind_eq_ok, eosAssert_eq_ok, exists_const] at h
  obtain ⟨_, -, hname, -, -, a, hget, hvalidate, -, -, -, -, _, -, o, hfind, parentId, hparent,
    h⟩ := h
  obtain ⟨ha, haccount⟩ := get_eq_ok hget
  obtain ⟨-, -, rfl⟩ := findPermission_eq_ok hfind
  exact ⟨⟨hname, hvalidate, a, ha, of_decide_eq_true haccount⟩, parentId, hparent, h⟩

theorem parentId_eq_ok {parentId : Int}
    (h : db.parentId update = .ok parentId) (hname : update.permission ≠ ownerName) :
    ∃ p ∈ db.permissions, p.id = parentId ∧ p.owner = update.account := by
  rw [Database.parentId, if_neg hname] at h
  obtain ⟨p, hget, h⟩ := bind_eq_ok.1 h
  cases h
  obtain ⟨-, -, hfind⟩ := getPermission_eq_ok hget
  obtain ⟨hp, howner, -⟩ := findByOwner_eq_some hfind
  exact ⟨p, hp, rfl, howner⟩

theorem applyEosioDeleteauth_eq_ok {act : Deleteauth}
    (h : db.applyEosioDeleteauth ctx act = .ok db') :
    (act.permission ≠ activeName ∧ act.permission ≠ ownerName ∧ act.account ≠ 0)
      ∧ (∀ l ∈ db.permissionLinks, ¬ (l.account = act.account ∧ l.requiredPermission = act.permission))
      ∧ ∃ p db₁, db.findByOwner ⟨act.account, act.permission⟩ = some p
        ∧ db.removePermission p = .ok db₁
        ∧ db₁.addRamUsage act.account (-permissionSize ctx p.auth) = .ok db' := by
  simp only [applyEosioDeleteauth, bind_eq_ok, eosAssert_eq_ok, exists_const] at h
  obtain ⟨_, -, hactive, howner, hlinks, p, hget, db₁, hremove, h⟩ := h
  obtain ⟨haccount, -, hfind⟩ := getPermission_eq_ok hget
  exact ⟨⟨hactive, howner, haccount⟩,
    fun l hl hlink => find_eq_none hlinks l hl (decide_eq_true hlink), p, db₁, hfind, hremove, h⟩

theorem applyEosioLinkauth_eq_ok {act : Linkauth} (h : db.applyEosioLinkauth ctx act = .ok db') :
    (act.requirement ≠ eosioAnyName →
        ∃ p ∈ db.permissions, p.owner = act.account ∧ p.name = act.requirement)
      ∧ db.link act (db.findLink act.account act.code act.type) = .ok db' := by
  simp only [applyEosioLinkauth, bind_eq_ok, eosAssert_eq_ok, exists_const] at h
  obtain ⟨-, _, -, -, -, hrequirement, h⟩ := h
  refine ⟨fun hany => ?_, h⟩
  obtain ⟨p, hfind⟩ := Option.isSome_iff_exists.1 (hrequirement hany)
  exact ⟨p, findByOwner_eq_some hfind⟩

theorem applyEosioUnlinkauth_eq_ok {act : Unlinkauth}
    (h : db.applyEosioUnlinkauth ctx act = .ok db') :
    ∃ link db₁ permissionLinks, db.findLink act.account act.code act.type = some link
      ∧ db.addRamUsage link.account (-permissionLinkObjectBillableSize) = .ok db₁
      ∧ remove db₁.permissionLinks link.id = .ok permissionLinks
      ∧ db' = { db₁ with permissionLinks } := by
  obtain ⟨_, -, h⟩ := bind_eq_ok.1 h
  split at h
  · cases h
  · next link hfind =>
    obtain ⟨db₁, husage, permissionLinks, hremove, h⟩ := bind₂_eq_ok.1 h
    cases h
    exact ⟨link, db₁, permissionLinks, hfind, husage, hremove, rfl⟩

end Handlers

/-! ## Genesis -/

def createNativeAccount (initialTimestamp : Nat) (name : AccountName) (owner active : Authority)
    (isPrivileged : Bool) : Result Database := do
  let db ← db.createAccount name initialTimestamp isPrivileged
  let db ← db.createAccountPermissions ctx name owner active initialTimestamp
  db.resources.verifyAccountRamUsage name
  .ok db

/-- `authorization_manager::initialize_database`: the object that reserves the id `0`. -/
def reservePermission : Result Database := do
  let (_, permissions) ← create db.permissions fun id => { id }
  .ok { db with permissions }

/-- What `initialize_database` reads of the genesis state. -/
structure GenesisState where
  initialTimestamp : Nat
  initialKey : PublicKey

def systemAuthority (key : PublicKey) : Authority := ⟨1, [⟨key, 1⟩], [], []⟩

theorem systemAuthority_weight_lt (key : PublicKey) : ∀ w ∈
    (systemAuthority key).weights, w < 2 ^ 16 := by
  simp [Authority.weights, systemAuthority]

def emptyAuthority : Authority := ⟨1, [], [], []⟩

def activeProducersAuthority : Authority :=
  ⟨1, [], [⟨⟨systemAccountName, activeName⟩, 1⟩], []⟩

def initializeDatabase (genesis : GenesisState) : Result Database := do
  let db ← reservePermission {}
  let systemAuth := systemAuthority genesis.initialKey
  let db ← db.createNativeAccount ctx genesis.initialTimestamp systemAccountName
    systemAuth systemAuth true
  let db ← db.createNativeAccount ctx genesis.initialTimestamp nullAccountName
    emptyAuthority emptyAuthority false
  let db ← db.createNativeAccount ctx genesis.initialTimestamp producersAccountName
    emptyAuthority activeProducersAuthority false
  let activePermission ← db.getPermission ⟨producersAccountName, activeName⟩
  let (majorityPermission, db) ← db.createPermission ctx producersAccountName
    majorityProducersPermissionName activePermission.id activeProducersAuthority
    genesis.initialTimestamp
  let (_, db) ← db.createPermission ctx producersAccountName
    minorityProducersPermissionName majorityPermission.id activeProducersAuthority
    genesis.initialTimestamp
  .ok db

/-- The states that sequences of successful actions reach from genesis. -/
inductive Reached : Database → Prop where
  | genesis {ctx : ActionContext} {genesis : GenesisState} {db : Database} :
      initializeDatabase ctx genesis = .ok db → Reached db
  | action {ctx : ActionContext} {act : NativeAction} {db db' : Database} :
      Reached db → db.apply ctx act = .ok db' → Reached db'

/-- The actions one after the other, as long as they succeed. -/
def applyAll (ctx : ActionContext) : List NativeAction → Database → Result Database
  | [], db => .ok db
  | act :: rest, db => do
    let db ← db.apply ctx act
    applyAll ctx rest db

theorem Reached.applyAll {ctx : ActionContext} {db' : Database} :
    ∀ {acts : List NativeAction} {db : Database}, Reached db →
      Database.applyAll ctx acts db = .ok db' → Reached db' := by
  intro acts
  induction acts with
  | nil =>
    intro db h hrun
    cases hrun
    exact h
  | cons act rest ih =>
    intro db h hrun
    obtain ⟨db₁, happly, hrest⟩ := bind_eq_ok.1 hrun
    exact ih (h.action happly) hrest

end Database

end PotatoNode.Chain
