import PotatoNode.Chain.EosioContract

/-!
# The permission hierarchy

What the native actions are for, in terms of who is whose parent: a `Forest` has accounts, the nodes
of their permission trees and the permissions that links require. `Forest.Move` says what one action
can do to a forest, and every successful action is such a move (`apply_move`). The invariant
`Forest.Hierarchy` is kept by the moves; `satisfies` then walks along a tree in which every parent
stands and is older than its children.
-/

namespace PotatoNode.Chain

open Lib Chainbase Table

/-! ## Forests -/

/-- A permission without its authority. -/
@[ext] structure Node where
  id : Int
  parent : Int
  owner : AccountName
  name : PermissionName
deriving DecidableEq, Repr

/-- The permission trees of the accounts. -/
@[ext] structure Forest where
  accounts : Set AccountName
  nodes : Set Node
  /-- the permissions, by account and name, that some link requires -/
  links : Set (AccountName × PermissionName)
  nextId : Int

namespace Forest

def reservedNode : Node := ⟨0, 0, 0, 0⟩

def Has (f : Forest) (owner : AccountName) (name : PermissionName) : Prop :=
  ∃ n ∈ f.nodes, n.owner = owner ∧ n.name = name

/-- What a successful action can do. -/
inductive Move (f : Forest) : Forest → Prop where
  | newAccount {name : AccountName} :
      name ≠ 0 →
      Move f { f with
        accounts := insert name f.accounts
        nodes := insert ⟨f.nextId + 1, f.nextId, name, activeName⟩
          (insert ⟨f.nextId, 0, name, ownerName⟩ f.nodes)
        nextId := f.nextId + 2 }
  | addPermission {account : AccountName} {name : PermissionName} {parent : Int} :
      account ∈ f.accounts → ¬ f.Has account name →
      (name ≠ ownerName → ∃ p ∈ f.nodes, p.id = parent ∧ p.owner = account) →
      Move f { f with
        nodes := insert ⟨f.nextId, parent, account, name⟩ f.nodes
        nextId := f.nextId + 1 }
  | removePermission {n : Node} :
      n.owner ≠ 0 → n.name ≠ activeName → n.name ≠ ownerName →
      (∀ m ∈ f.nodes, m.parent ≠ n.id) → (n.owner, n.name) ∉ f.links →
      Move f { f with nodes := f.nodes \ {n} }
  | changeLinks {links : Set (AccountName × PermissionName)} :
      (∀ l ∈ links, l ∈ f.links ∨ l.2 = eosioAnyName ∨ f.Has l.1 l.2) → Move f { f with links }

def Rooted (f : Forest) (account : AccountName) : Prop :=
  ∃ owner ∈ f.nodes, ∃ active ∈ f.nodes,
    (owner.owner = account ∧ owner.name = ownerName ∧ owner.parent = 0)
      ∧ active.owner = account ∧ active.name = activeName ∧ active.parent = owner.id

def HasParent (f : Forest) (n : Node) : Prop :=
  ∃ p ∈ f.nodes, p.id = n.parent ∧ p.owner = n.owner ∧ p.id < n.id

/-- The permissions of every account form a tree below its owner permission. -/
structure Hierarchy (f : Forest) : Prop where
  reserved : reservedNode ∈ f.nodes
  id_lt : ∀ n ∈ f.nodes, n.id < f.nextId
  proper : ∀ n ∈ f.nodes, n = reservedNode ∨ (0 < n.id ∧ n.owner ∈ f.accounts)
  account_ne : ∀ a ∈ f.accounts, a ≠ 0
  rooted : ∀ a ∈ f.accounts, f.Rooted a
  owner_parent : ∀ n ∈ f.nodes, n.name = ownerName → n.parent = 0
  parent : ∀ n ∈ f.nodes, n ≠ reservedNode → n.name ≠ ownerName → f.HasParent n
  links : ∀ l ∈ f.links, l.2 = eosioAnyName ∨ f.Has l.1 l.2

section Mono

variable {f f' : Forest} (hnodes : f.nodes ⊆ f'.nodes)
include hnodes

theorem Has.mono {owner : AccountName} {name : PermissionName} (h : f.Has owner name) :
    f'.Has owner name := by
  obtain ⟨n, hn, hkey⟩ := h
  exact ⟨n, hnodes hn, hkey⟩

theorem Rooted.mono {account : AccountName} (h : f.Rooted account) : f'.Rooted account := by
  obtain ⟨owner, howner, active, hactive, hrooted⟩ := h
  exact ⟨owner, hnodes howner, active, hnodes hactive, hrooted⟩

theorem HasParent.mono {n : Node} (h : f.HasParent n) : f'.HasParent n := by
  obtain ⟨p, hp, hparent⟩ := h
  exact ⟨p, hnodes hp, hparent⟩

end Mono

namespace Hierarchy

variable {f f' : Forest}

section

variable (h : f.Hierarchy)
include h

theorem nextId_pos : 0 < f.nextId := h.id_lt _ h.reserved

theorem grow (hnodes : f.nodes ⊆ f'.nodes) (haccounts : f.accounts ⊆ f'.accounts)
    (hlinks : f'.links = f.links) (hnextId : f.nextId ≤ f'.nextId)
    (hnew : ∀ n ∈ f'.nodes, n ∉ f.nodes →
      (0 < n.id ∧ n.id < f'.nextId ∧ n.owner ∈ f'.accounts)
        ∧ (n.name = ownerName → n.parent = 0) ∧ (n.name ≠ ownerName → f'.HasParent n))
    (hrooted : ∀ a ∈ f'.accounts, a ∉ f.accounts → a ≠ 0 ∧ f'.Rooted a) : f'.Hierarchy where
  reserved := hnodes h.reserved
  id_lt n hn := by
    by_cases hold : n ∈ f.nodes
    · exact (h.id_lt n hold).trans_le hnextId
    · exact (hnew n hn hold).1.2.1
  proper n hn := by
    by_cases hold : n ∈ f.nodes
    · exact (h.proper n hold).imp_right fun hproper => ⟨hproper.1, haccounts hproper.2⟩
    · exact .inr ⟨(hnew n hn hold).1.1, (hnew n hn hold).1.2.2⟩
  account_ne a ha := by
    by_cases hold : a ∈ f.accounts
    · exact h.account_ne a hold
    · exact (hrooted a ha hold).1
  rooted a ha := by
    by_cases hold : a ∈ f.accounts
    · exact (h.rooted a hold).mono hnodes
    · exact (hrooted a ha hold).2
  owner_parent n hn hname := by
    by_cases hold : n ∈ f.nodes
    · exact h.owner_parent n hold hname
    · exact (hnew n hn hold).2.1 hname
  parent n hn hne hname := by
    by_cases hold : n ∈ f.nodes
    · exact (h.parent n hold hne hname).mono hnodes
    · exact (hnew n hn hold).2.2 hname
  links l hl := (h.links l (hlinks ▸ hl)).imp_right (Has.mono hnodes)

theorem newAccount {name : AccountName} (hname : name ≠ 0) :
    Hierarchy { f with
      accounts := insert name f.accounts
      nodes := insert ⟨f.nextId + 1, f.nextId, name, activeName⟩
        (insert ⟨f.nextId, 0, name, ownerName⟩ f.nodes)
      nextId := f.nextId + 2 } := by
  have hpos := h.nextId_pos
  have hactive : activeName ≠ ownerName := by decide +kernel
  refine h.grow (fun n hn => .inr (.inr hn)) (Set.subset_insert _ _) rfl (by simp) ?_ ?_
  · rintro n (rfl | rfl | hn) hnew
    · refine ⟨⟨?_, ?_, .inl rfl⟩, fun heq => absurd heq hactive, fun _ => ?_⟩
      · show 0 < f.nextId + 1
        omega
      · show f.nextId + 1 < f.nextId + 2
        omega
      · exact ⟨_, .inr (.inl rfl), rfl, rfl, Int.lt_succ _⟩
    · refine ⟨⟨hpos, ?_, .inl rfl⟩, fun _ => rfl, fun hne => absurd rfl hne⟩
      show f.nextId < f.nextId + 2
      omega
    · exact absurd hn hnew
  · rintro a (rfl | ha) hnew
    · exact ⟨hname, _, .inr (.inl rfl), _, .inl rfl, ⟨rfl, rfl, rfl⟩, rfl, rfl, rfl⟩
    · exact absurd ha hnew

theorem addPermission {account : AccountName} {name : PermissionName}
    {parent : Int} (haccount : account ∈ f.accounts) (hname : ¬ f.Has account name)
    (hparent : name ≠ ownerName → ∃ p ∈ f.nodes, p.id = parent ∧ p.owner = account) :
    Hierarchy { f with
      nodes := insert ⟨f.nextId, parent, account, name⟩ f.nodes
      nextId := f.nextId + 1 } := by
  refine h.grow (Set.subset_insert _ _) subset_rfl rfl (Int.le_add_one le_rfl) ?_
    fun a ha hnew => absurd ha hnew
  rintro n (rfl | hn) hnew
  · refine ⟨⟨h.nextId_pos, Int.lt_succ _, haccount⟩, fun howner => ?_, fun hne => ?_⟩
    · -- the account has its owner permission already
      obtain ⟨o, ho, -, -, ⟨hoowner, honame, -⟩, -⟩ := h.rooted account haccount
      exact absurd ⟨o, ho, hoowner, honame.trans howner.symm⟩ hname
    · obtain ⟨p, hp, hid, hpowner⟩ := hparent hne
      exact ⟨p, .inr hp, hid, hpowner, h.id_lt p hp⟩
  · exact absurd hn hnew

theorem removePermission {n : Node} (howner : n.owner ≠ 0)
    (hactive : n.name ≠ activeName) (hname : n.name ≠ ownerName)
    (hchildren : ∀ m ∈ f.nodes, m.parent ≠ n.id) (hlinks : (n.owner, n.name) ∉ f.links) :
    Hierarchy { f with nodes := f.nodes \ {n} } where
  reserved := ⟨h.reserved, fun heq => howner (congrArg Node.owner heq).symm⟩
  id_lt m hm := h.id_lt m hm.1
  proper m hm := h.proper m hm.1
  account_ne := h.account_ne
  rooted a ha := by
    obtain ⟨o, ho, act, hact, hroot, hbelow⟩ := h.rooted a ha
    refine ⟨o, ⟨ho, ?_⟩, act, ⟨hact, ?_⟩, hroot, hbelow⟩
    · rintro rfl
      exact hname hroot.2.1
    · rintro rfl
      exact hactive hbelow.2.1
  owner_parent m hm := h.owner_parent m hm.1
  parent m hm hne hm' := by
    obtain ⟨p, hp, hid, hrest⟩ := h.parent m hm.1 hne hm'
    refine ⟨p, ⟨hp, ?_⟩, hid, hrest⟩
    rintro rfl
    exact hchildren m hm.1 hid.symm
  links l hl := by
    refine (h.links l hl).imp_right ?_
    rintro ⟨m, hm, hmowner, hmname⟩
    refine ⟨m, ⟨hm, ?_⟩, hmowner, hmname⟩
    rintro rfl
    rw [hmowner, hmname] at hlinks
    exact hlinks hl

/-- **The moves keep the hierarchy.** -/
theorem move (hmove : f.Move f') : f'.Hierarchy := by
  cases hmove with
  | newAccount hname => exact h.newAccount hname
  | addPermission haccount hname hparent => exact h.addPermission haccount hname hparent
  | removePermission howner hactive hname hchildren hlinks =>
    exact h.removePermission howner hactive hname hchildren hlinks
  | changeLinks hlinks =>
    refine { h with links := fun l hl => ?_ }
    rcases hlinks l hl with hold | hnew
    · exact h.links l hold
    · exact hnew

end

theorem reservedOnly : Hierarchy ⟨∅, {reservedNode}, ∅, 1⟩ where
  reserved := rfl
  id_lt n hn := by
    rw [Set.mem_singleton_iff.1 hn]
    decide
  proper n hn := .inl hn
  account_ne a ha := ha.elim
  rooted a ha := ha.elim
  owner_parent n hn _ := by rw [Set.mem_singleton_iff.1 hn]; rfl
  parent n hn hne := absurd hn hne
  links l hl := hl.elim

end Hierarchy

end Forest

/-! ## The actions as moves -/

def PermissionObject.node (p : PermissionObject) : Node := ⟨p.id, p.parent, p.owner, p.name⟩

def PermissionLinkObject.required (l : PermissionLinkObject) : AccountName × PermissionName :=
  (l.account, l.requiredPermission)

namespace Database

variable {ctx : ActionContext} {db db' : Database}

def forest (db : Database) : Forest where
  accounts := view AccountObject.name db.accounts
  nodes := view PermissionObject.node db.permissions
  links := view PermissionLinkObject.required db.permissionLinks
  nextId := db.permissions.nextId

variable {name : PermissionName} {account : AccountName} {auth : Authority}
  {initialCreationTime : Nat} {p : PermissionObject}

theorem has_iff {owner : AccountName} :
    db.forest.Has owner name ↔ ∃ p ∈ db.permissions, p.owner = owner ∧ p.name = name := by
  constructor
  · rintro ⟨_, ⟨p, hp, rfl⟩, hkey⟩
    exact ⟨p, hp, hkey⟩
  · rintro ⟨p, hp, hkey⟩
    exact ⟨p.node, mem_view hp, hkey⟩

variable {ramDelta : Int}

section

variable (h : db.addRamUsage account ramDelta = .ok db')
include h

theorem addRamUsage_eq_ok : db' = { db with resources := db'.resources } := by
  obtain ⟨resources, -, h⟩ := bind_eq_ok.1 h
  cases h
  rfl

theorem forest_addRamUsage : db'.forest = db.forest := by
  rw [addRamUsage_eq_ok h]
  rfl

end

variable {name : AccountName}

theorem forest_createAccount {creationDate : Nat} {privileged : Bool}
    (h : db.createAccount name creationDate privileged = .ok db') :
    db'.forest = { db.forest with accounts := insert name db.forest.accounts } := by
  obtain ⟨⟨a, accounts⟩, hcreate, h⟩ := bind_eq_ok.1 h
  obtain ⟨⟨m, accountMetadata⟩, -, h⟩ := bind_eq_ok.1 h
  cases h
  obtain ⟨rfl, hcreated⟩ := create_eq_ok hcreate
  exact Forest.ext (view_created hcreated) rfl rfl rfl

variable {parent : Int}

section

variable (h : db.createPermission ctx account name parent auth initialCreationTime = .ok (p, db'))
include h

theorem forest_createPermission :
    db'.forest = { db.forest with
      nodes := insert ⟨db.forest.nextId, parent, account, name⟩ db.forest.nodes
      nextId := db.forest.nextId + 1 } := by
  obtain ⟨⟨hid, hparent, howner, hname, -⟩, hcreated, hdb⟩ := createPermission_eq_ok h
  have hnode : p.node = ⟨db.forest.nextId, parent, account, name⟩ := Node.ext hid hparent howner hname
  rw [hdb]
  exact Forest.ext rfl (hnode ▸ view_created hcreated) rfl hcreated.nextId

theorem not_has_of_createPermission : ¬ db.forest.Has account name := by
  obtain ⟨⟨-, -, howner, hname, -⟩, hcreated, -⟩ := createPermission_eq_ok h
  intro hhas
  obtain ⟨q, hq, hqowner, hqname⟩ := has_iff.1 hhas
  have hclash : ValueType.clash q p = false := (hcreated.admits q hq).2
  exact of_decide_eq_false hclash ⟨hqowner.trans howner.symm, hqname.trans hname.symm⟩

end

theorem forest_modifyPermission (hp : p ∈ db.permissions)
    (h : db.modifyPermission ctx p auth = .ok db') : db'.forest = db.forest := by
  obtain ⟨time, -, hmodified, hdb⟩ := modifyPermission_eq_ok hp h
  rw [hdb]
  exact Forest.ext rfl (view_modified hmodified hp rfl rfl) rfl hmodified.nextId

theorem forest_removePermission (hp : p ∈ db.permissions) (h : db.removePermission p = .ok db') :
    (∀ n ∈ db.forest.nodes, n.parent ≠ p.id)
      ∧ db'.forest = { db.forest with nodes := db.forest.nodes \ {p.node} } := by
  obtain ⟨hchildren, hremoved, hdb⟩ := removePermission_eq_ok h
  refine ⟨?_, ?_⟩
  · rintro _ ⟨q, hq, rfl⟩
    exact hchildren q hq
  · rw [hdb]
    exact Forest.ext rfl (view_removed hremoved hp fun a b hnode => congrArg Node.id hnode) rfl
      hremoved.nextId

variable {owner active : Authority}

theorem forest_createAccountPermissions
    (h : db.createAccountPermissions ctx name owner active initialCreationTime = .ok db') :
    db'.forest = { db.forest with
      nodes := insert ⟨db.forest.nextId + 1, db.forest.nextId, name, activeName⟩
        (insert ⟨db.forest.nextId, 0, name, ownerName⟩ db.forest.nodes)
      nextId := db.forest.nextId + 2 } := by
  obtain ⟨⟨ownerPermission, db₁⟩, howner, h⟩ := bind_eq_ok.1 h
  obtain ⟨⟨activePermission, db₂⟩, hactive, h⟩ := bind_eq_ok.1 h
  obtain ⟨resources, -, h⟩ := bind_eq_ok.1 h
  obtain ⟨⟨hid, -⟩, -⟩ := createPermission_eq_ok howner
  rw [forest_addRamUsage h]
  show db₂.forest = _
  rw [forest_createPermission hactive, forest_createPermission howner, hid]
  exact Forest.ext rfl rfl rfl (Int.add_assoc _ _ _)

theorem newaccount_move {act : Newaccount} (h : db.applyEosioNewaccount ctx act = .ok db') :
    db.forest.Move db'.forest := by
  obtain ⟨⟨-, -, hname, -⟩, _, db₁, -, haccount, h⟩ := applyEosioNewaccount_eq_ok h
  rw [forest_createAccountPermissions h, forest_createAccount haccount]
  exact .newAccount hname

theorem stay {f : Forest} : f.Move f := .changeLinks fun _ hl => .inl hl

theorem updateauth_move {update : Updateauth} (h : db.applyEosioUpdateauth ctx update = .ok db') :
    db.forest.Move db'.forest := by
  obtain ⟨⟨-, -, haccount⟩, parentId, hparent, h⟩ := applyEosioUpdateauth_eq_ok h
  cases hfind : db.findByOwner ⟨update.account, update.permission⟩ with
  | some p =>
    rw [hfind] at h
    obtain ⟨_, -, db₁, hmodify, h⟩ := bind₂_eq_ok.1 h
    obtain ⟨hp, -⟩ := findByOwner_eq_some hfind
    rw [forest_addRamUsage h, forest_modifyPermission hp hmodify]
    exact stay
  | none =>
    rw [hfind] at h
    obtain ⟨⟨p, db₁⟩, hcreate, h⟩ := bind_eq_ok.1 h
    rw [forest_addRamUsage h, forest_createPermission hcreate]
    refine .addPermission haccount (not_has_of_createPermission hcreate) fun hname => ?_
    obtain ⟨q, hq, hid, howner⟩ := parentId_eq_ok hparent hname
    exact ⟨q.node, mem_view hq, hid, howner⟩

theorem deleteauth_move {act : Deleteauth} (h : db.applyEosioDeleteauth ctx act = .ok db') :
    db.forest.Move db'.forest := by
  obtain ⟨⟨hactive, howner, haccount⟩, hlinks, p, db₁, hfind, hremove, h⟩ :=
    applyEosioDeleteauth_eq_ok h
  obtain ⟨hp, hpowner, hpname⟩ := findByOwner_eq_some hfind
  obtain ⟨hchildren, hforest⟩ := forest_removePermission hp hremove
  rw [forest_addRamUsage h, hforest]
  refine .removePermission (hpowner.trans_ne haccount) (hpname.trans_ne hactive)
    (hpname.trans_ne howner) hchildren ?_
  rintro ⟨l, hl, hrequired⟩
  exact hlinks l hl ⟨(congrArg Prod.fst hrequired).trans hpowner,
    (congrArg Prod.snd hrequired).trans hpname⟩

theorem linkauth_move {act : Linkauth} (h : db.applyEosioLinkauth ctx act = .ok db') :
    db.forest.Move db'.forest := by
  obtain ⟨hrequirement, h⟩ := applyEosioLinkauth_eq_ok h
  -- the one link that changes requires what the action names
  have hrequired : (act.account, act.requirement).2 = eosioAnyName
      ∨ db.forest.Has act.account act.requirement := by
    by_cases hany : act.requirement = eosioAnyName
    · exact .inl hany
    · exact .inr (has_iff.2 (hrequirement hany))
  cases hfind : db.findLink act.account act.code act.type with
  | some link =>
    rw [hfind] at h
    obtain ⟨_, -, permissionLinks, hmodify, h⟩ := bind₂_eq_ok.1 h
    cases h
    obtain ⟨hlink, hkey⟩ := find_eq_some hfind
    obtain ⟨l, hl, hid, hmodified⟩ := modify_eq_ok hmodify fun _ => rfl
    obtain rfl : l = link := eq_of_id_eq hl hlink hid
    refine .changeLinks ?_
    rintro _ ⟨l', hl', rfl⟩
    rcases hmodified.mem_iff.1 hl' with rfl | ⟨hl', -⟩
    · have haccount : l.account = act.account := (of_decide_eq_true hkey).1
      right
      simpa [PermissionLinkObject.required, haccount] using hrequired
    · exact .inl (mem_view hl')
  | none =>
    rw [hfind] at h
    obtain ⟨⟨l, permissionLinks⟩, hcreate, h⟩ := bind_eq_ok.1 h
    obtain ⟨rfl, hcreated⟩ := create_eq_ok hcreate
    rw [forest_addRamUsage h]
    refine .changeLinks ?_
    rintro _ ⟨l', hl', rfl⟩
    rcases hcreated.mem_iff.1 hl' with rfl | hl'
    · exact .inr hrequired
    · exact .inl (mem_view hl')

theorem unlinkauth_move {act : Unlinkauth} (h : db.applyEosioUnlinkauth ctx act = .ok db') :
    db.forest.Move db'.forest := by
  obtain ⟨link, db₁, permissionLinks, -, husage, hremove, rfl⟩ := applyEosioUnlinkauth_eq_ok h
  rw [← forest_addRamUsage husage]
  refine .changeLinks ?_
  rintro _ ⟨l, hl, rfl⟩
  exact .inl (mem_view ((remove_eq_ok hremove).mem_iff.1 hl).1)

/-- **Every successful action is a move.** -/
theorem apply_move {act : NativeAction} (h : db.apply ctx act = .ok db') :
    db.forest.Move db'.forest := by
  cases act with
  | newaccount create => exact newaccount_move h
  | updateauth update => exact updateauth_move h
  | deleteauth remove => exact deleteauth_move h
  | linkauth requirement => exact linkauth_move h
  | unlinkauth unlink => exact unlinkauth_move h

/-! ## Reached states -/

theorem forest_reservePermission (h : reservePermission {} = .ok db) :
    db.forest = ⟨∅, {Forest.reservedNode}, ∅, 1⟩ := by
  obtain ⟨⟨p, permissions⟩, hcreate, h⟩ := bind_eq_ok.1 h
  cases h
  obtain ⟨rfl, hcreated⟩ := create_eq_ok hcreate
  have hempty {V β : Type} [ValueType V] (f : V → β) : view f emptyIndex = ∅ :=
    Set.eq_empty_of_forall_notMem fun _ ⟨v, hv, _⟩ => notMem_empty v hv
  refine Forest.ext (hempty _) ?_ (hempty _) hcreated.nextId
  refine (view_created hcreated).trans ?_
  rw [hempty]
  exact insert_empty_eq _

theorem createNativeAccount_move {initialTimestamp : Nat} {isPrivileged : Bool} (hname : name ≠ 0)
    (h : db.createNativeAccount ctx initialTimestamp name owner active isPrivileged = .ok db') :
    db.forest.Move db'.forest := by
  obtain ⟨db₁, haccount, db₂, hpermissions, _, -, h⟩ := bind₃_eq_ok.1 h
  cases h
  rw [forest_createAccountPermissions hpermissions, forest_createAccount haccount]
  exact .newAccount hname

theorem createPermission_move {name : PermissionName} {parent p : PermissionObject}
    {auth : Authority} {initialCreationTime : Nat} (hdb : db.forest.Hierarchy)
    (hparent : parent ∈ db.permissions) (howner : parent.owner ≠ 0)
    (h : db.createPermission ctx parent.owner name parent.id auth initialCreationTime
      = .ok (p, db')) : db.forest.Move db'.forest := by
  rw [forest_createPermission h]
  refine .addPermission ?_ (not_has_of_createPermission h) fun _ =>
    ⟨parent.node, mem_view hparent, rfl, rfl⟩
  rcases hdb.proper _ (mem_view hparent) with hreserved | ⟨-, haccount⟩
  · exact absurd (congrArg Node.owner hreserved) howner
  · exact haccount

theorem hierarchy_genesis {genesis : GenesisState} (h : initializeDatabase ctx genesis = .ok db) :
    db.forest.Hierarchy := by
  obtain ⟨db₁, hreserve, db₂, hsystem, db₃, hnull, h⟩ := bind₃_eq_ok.1 h
  obtain ⟨db₄, hproducers, active, hactive, h⟩ := bind₂_eq_ok.1 h
  obtain ⟨⟨majority, db₅⟩, hmajority, h⟩ := bind_eq_ok.1 h
  obtain ⟨⟨minority, db₆⟩, hminority, h⟩ := bind_eq_ok.1 h
  cases h
  have h₁ : db₁.forest.Hierarchy := forest_reservePermission hreserve ▸ .reservedOnly
  have h₂ := h₁.move (createNativeAccount_move (by decide) hsystem)
  have h₃ := h₂.move (createNativeAccount_move (by decide +kernel) hnull)
  have h₄ := h₃.move (createNativeAccount_move (by decide +kernel) hproducers)
  have hname : producersAccountName ≠ 0 := by decide +kernel
  obtain ⟨-, -, hfind⟩ := getPermission_eq_ok hactive
  obtain ⟨hmem, howner, -⟩ := findByOwner_eq_some hfind
  have howner : active.owner = producersAccountName := howner
  rw [← howner] at hmajority hminority
  have h₅ := h₄.move (createPermission_move h₄ hmem (howner.trans_ne hname) hmajority)
  obtain ⟨⟨-, -, hmajorityOwner, -⟩, hcreated, -⟩ := createPermission_eq_ok hmajority
  rw [← hmajorityOwner] at hminority
  have hmem : majority ∈ db₅.permissions := hcreated.mem_iff.2 (.inl rfl)
  exact h₅.move (createPermission_move h₅ hmem
    ((hmajorityOwner.trans howner).trans_ne hname) hminority)

/-- **Whatever the actions, the permissions form a forest.** -/
theorem Reached.hierarchy (h : Reached db) : db.forest.Hierarchy := by
  induction h with
  | genesis hgenesis => exact hierarchy_genesis hgenesis
  | action _ happly ih => exact ih.move (apply_move happly)

end Database

/-! ## Ancestors -/

def IsParent (index : GenericIndex PermissionObject) (p q : PermissionObject) : Prop :=
  p ∈ index ∧ q ∈ index ∧ q.parent = p.id ∧ q.parent ≠ 0

def IsAncestor (index : GenericIndex PermissionObject) : PermissionObject → PermissionObject → Prop :=
  Relation.TransGen (IsParent index)

section Ancestors

variable {index : GenericIndex PermissionObject} {p x y : PermissionObject}

theorem not_isAncestor_of_parent_eq (h : x.parent = 0) : ¬ IsAncestor index p x := by
  intro hancestor
  cases hancestor with
  | single hparent | tail _ hparent => exact hparent.2.2.2 h

theorem isAncestor_iff (hparent : IsParent index y x) :
    IsAncestor index p x ↔ p = y ∨ IsAncestor index p y := by
  have hunique {z : PermissionObject} (hz : IsParent index z x) : z = y :=
    eq_of_id_eq hz.1 hparent.1 (hz.2.2.1.symm.trans hparent.2.2.1)
  constructor
  · intro hancestor
    cases hancestor with
    | single hz => exact .inl (hunique hz)
    | tail hbefore hz => exact .inr (hunique hz ▸ hbefore)
  · rintro (rfl | hancestor)
    · exact .single hparent
    · exact .tail hancestor hparent

end Ancestors

namespace Database

variable {db : Database} {p q x : PermissionObject}

section Satisfies

variable (hdb : db.forest.Hierarchy)
include hdb

theorem id_ne_zero (hp : p ∈ db.permissions) (howner : p.owner ≠ 0) : p.id ≠ 0 := by
  rcases hdb.proper _ (mem_view hp) with hreserved | ⟨hpos, -⟩
  · exact absurd (congrArg Node.owner hreserved) howner
  · exact Int.ne_of_gt hpos

theorem id_nonneg (hp : p ∈ db.permissions) : 0 ≤ p.id := by
  rcases hdb.proper _ (mem_view hp) with hreserved | ⟨hpos, -⟩
  · exact (congrArg Node.id hreserved).ge
  · exact Int.le_of_lt hpos

theorem exists_isParent (hx : x ∈ db.permissions) (hparent : x.parent ≠ 0) :
    ∃ y, IsParent db.permissions y x ∧ y.owner = x.owner ∧ y.id < x.id := by
  have hreserved : x.node ≠ Forest.reservedNode := fun heq => hparent (congrArg Node.parent heq)
  have hname : x.name ≠ ownerName := fun heq => hparent (hdb.owner_parent _ (mem_view hx) heq)
  obtain ⟨_, ⟨y, hy, rfl⟩, hid, howner, hlt⟩ := hdb.parent _ (mem_view hx) hreserved hname
  exact ⟨y, ⟨hy, hx, hid.symm, hparent⟩, howner, hlt⟩

theorem satisfiesFrom_spec (hp : p.id ≠ 0) (hmem : p ∈ db.permissions) :
    ∀ (fuel : Nat) {x : PermissionObject}, x ∈ db.permissions → x.id < fuel →
      ∃ b, PermissionObject.satisfiesFrom db.permissions p.id fuel x = .ok b
        ∧ (b = true ↔ IsAncestor db.permissions p x) := by
  intro fuel
  induction fuel with
  | zero =>
    intro x hx hlt
    exact absurd (id_nonneg hdb hx) (not_le.2 hlt)
  | succ fuel ih =>
    intro x hx hlt
    unfold PermissionObject.satisfiesFrom
    split
    · next hfound =>
      refine ⟨true, rfl, iff_of_true rfl (.single ⟨hmem, hx, hfound.symm, ?_⟩)⟩
      exact hfound ▸ hp
    · next hmiss =>
      split
      · next hroot => exact ⟨false, rfl, by simp [not_isAncestor_of_parent_eq hroot]⟩
      · next hparent =>
        obtain ⟨y, hy, -, hyx⟩ := exists_isParent hdb hx hparent
        have hfind : db.permissions.indices.find? x.parent = some y :=
          find?_eq_some_iff.2 ⟨hy.1, hy.2.2.1.symm⟩
        have hne : p ≠ y := fun heq => hmiss (heq ▸ hy.2.2.1.symm)
        rw [hfind, isAncestor_iff hy, or_iff_right hne]
        exact ih hy.1 (by omega)

theorem node_eq_reserved (hp : p ∈ db.permissions) (howner : p.owner = 0) :
    p.node = Forest.reservedNode := by
  rcases hdb.proper _ (mem_view hp) with hreserved | ⟨-, haccount⟩
  · exact hreserved
  · exact absurd howner (hdb.account_ne _ haccount)

theorem exists_walk_start (hq : q ∈ db.permissions) (hne : p.id ≠ q.parent) :
    ∃ y ∈ db.permissions, db.permissions.indices.find? q.parent = some y
      ∧ (IsAncestor db.permissions p q ↔ IsAncestor db.permissions p y) := by
  by_cases hparent : q.parent = 0
  · -- the walk from an owner permission starts at the object with the id `0`
    obtain ⟨r, hr, hnode⟩ := hdb.reserved
    have hid : r.id = 0 := congrArg Node.id hnode
    have hroot : r.parent = 0 := congrArg Node.parent hnode
    refine ⟨r, hr, find?_eq_some_iff.2 ⟨hr, hid.trans hparent.symm⟩, ?_⟩
    exact iff_of_false (not_isAncestor_of_parent_eq hparent) (not_isAncestor_of_parent_eq hroot)
  · obtain ⟨y, hy, -⟩ := exists_isParent hdb hq hparent
    refine ⟨y, hy.1, find?_eq_some_iff.2 ⟨hy.1, hy.2.2.1.symm⟩, ?_⟩
    rw [isAncestor_iff hy, or_iff_right]
    rintro rfl
    exact hne hy.2.2.1.symm

/-- **`satisfies` returns**, and says whether the permission is the other one or stands above it. -/
theorem satisfies_spec (hp : p ∈ db.permissions) (hq : q ∈ db.permissions) :
    ∃ b, p.satisfies q db.permissions = .ok b
      ∧ (b = true ↔ p = q ∨ (p.owner = q.owner ∧ IsAncestor db.permissions p q)) := by
  unfold PermissionObject.satisfies
  split
  · next howner =>
    refine ⟨false, rfl, iff_of_false nofun ?_⟩
    rintro (rfl | ⟨heq, -⟩)
    · exact howner rfl
    · exact howner heq
  · next howner =>
    have howner : p.owner = q.owner := not_not.1 howner
    have hreserved : p.owner = 0 → p = q := fun hzero =>
      eq_of_id_eq hp hq (congrArg Node.id ((node_eq_reserved hdb hp hzero).trans
        (node_eq_reserved hdb hq (howner ▸ hzero)).symm))
    split
    · next hdirect =>
      refine ⟨true, rfl, iff_of_true rfl ?_⟩
      by_cases hzero : p.owner = 0
      · exact .inl (hreserved hzero)
      · refine hdirect.imp (eq_of_id_eq hp hq) fun hparent => ⟨howner, .single ⟨hp, hq, ?_⟩⟩
        exact ⟨hparent.symm, hparent ▸ id_ne_zero hdb hp hzero⟩
    · next hdirect =>
      obtain ⟨hid, hparent⟩ := not_or.1 hdirect
      have hne : p ≠ q := fun heq => hid (congrArg PermissionObject.id heq)
      have hpid : p.id ≠ 0 := id_ne_zero hdb hp (mt hreserved hne)
      obtain ⟨y, hy, hfind, hancestor⟩ := exists_walk_start hdb hq hparent
      have hlt : y.id < db.permissions.nextId.toNat := by
        have hlt : y.id < db.permissions.nextId := hdb.id_lt _ (mem_view hy)
        omega
      obtain ⟨b, hwalk, hb⟩ := satisfiesFrom_spec hdb hpid hp _ hy hlt
      rw [hfind]
      refine ⟨b, hwalk, ?_⟩
      rw [hb, or_iff_right hne, and_iff_right howner, hancestor]

end Satisfies

/-- The permissions of every account form a tree below its owner permission, links require
permissions that stand, and `satisfies` finds the ancestors. -/
structure PermissionHierarchy (db : Database) : Prop where
  /-- every account has an owner permission without a parent and an active permission below it -/
  account : ∀ a ∈ db.accounts, ∃ owner ∈ db.permissions, ∃ active ∈ db.permissions,
    (owner.owner = a.name ∧ owner.name = ownerName ∧ owner.parent = 0)
      ∧ active.owner = a.name ∧ active.name = activeName ∧ active.parent = owner.id
  /-- all permissions but the one that reserves the id `0` are permissions of accounts -/
  owner : ∀ p ∈ db.permissions, p.id ≠ 0 → ∃ a ∈ db.accounts, a.name = p.owner
  /-- an owner permission has no parent -/
  root : ∀ p ∈ db.permissions, p.name = ownerName → p.parent = 0
  /-- the parent of any other permission stands, has the same owner and was created earlier -/
  parent : ∀ p ∈ db.permissions, p.id ≠ 0 → p.name ≠ ownerName →
    ∃ q ∈ db.permissions, q.id = p.parent ∧ q.id ≠ 0 ∧ q.owner = p.owner ∧ q.id < p.id
  /-- the permission that a link requires stands -/
  link : ∀ l ∈ db.permissionLinks, l.requiredPermission = eosioAnyName ∨
    ∃ p ∈ db.permissions, p.owner = l.account ∧ p.name = l.requiredPermission
  satisfies : ∀ p ∈ db.permissions, ∀ q ∈ db.permissions,
    ∃ b, p.satisfies q db.permissions = .ok b
      ∧ (b = true ↔ p = q ∨ (p.owner = q.owner ∧ IsAncestor db.permissions p q))

theorem permissionHierarchy_of_reached (h : Reached db) : db.PermissionHierarchy := by
  have hdb := h.hierarchy
  have hne {p : PermissionObject} (hid : p.id ≠ 0) : p.node ≠ Forest.reservedNode :=
    fun heq => hid (congrArg Node.id heq)
  refine ⟨fun a ha => ?_, fun p hp hid => ?_, fun p hp => hdb.owner_parent _ (mem_view hp),
    fun p hp hid hname => ?_, fun l hl => ?_, fun p hp q hq => satisfies_spec hdb hp hq⟩
  · obtain ⟨_, ⟨o, ho, rfl⟩, _, ⟨act, hact, rfl⟩, hrooted⟩ := hdb.rooted _ (mem_view ha)
    exact ⟨o, ho, act, hact, hrooted⟩
  · rcases hdb.proper _ (mem_view hp) with hreserved | ⟨-, haccount⟩
    · exact absurd hreserved (hne hid)
    · exact haccount
  · obtain ⟨_, ⟨q, hq, rfl⟩, hparent, howner, hlt⟩ := hdb.parent _ (mem_view hp) (hne hid) hname
    refine ⟨q, hq, hparent, id_ne_zero hdb hq ?_, howner, hlt⟩
    intro hzero
    exact hne hid (node_eq_reserved hdb hp (howner.symm.trans hzero))
  · exact (hdb.links _ (mem_view hl)).imp_right has_iff.1

/-! ## An account with a linked permission -/

def alice : AccountName := stringToName "alice"
def spend : PermissionName := stringToName "spend"

def aliceContext : ActionContext where
  authorization := [⟨systemAccountName, activeName⟩, ⟨alice, activeName⟩]
  pendingTime := some 1
  maxTransactionDelay := 45
  keyTypeActivated _ := true
  packSize _ := 34
  checkKeyLists := true
  keyDenylist := [9]

def keyAuthority (key : PublicKey) : UnpackedAuthority where
  toAuthority := systemAuthority key
  weight_lt := systemAuthority_weight_lt key

def aliceActions : List NativeAction :=
  [.newaccount ⟨systemAccountName, alice, keyAuthority 1, keyAuthority 2⟩,
   .updateauth ⟨alice, spend, activeName, keyAuthority 3⟩,
   .linkauth ⟨alice, systemAccountName, 0, spend⟩]

def aliceDatabase : Result Database := do
  let db ← initializeDatabase aliceContext ⟨1, 7⟩
  applyAll aliceContext aliceActions db

theorem permissionHierarchy_alice :
    ∃ db, Reached db ∧ aliceDatabase = .ok db ∧ db.forest.Has alice spend
      ∧ db.PermissionHierarchy := by
  obtain ⟨db, hdb⟩ : ∃ db, aliceDatabase = .ok db := by decide +kernel
  have hspend : ∀ db, aliceDatabase = .ok db → (db.findByOwner ⟨alice, spend⟩).isSome = true := by
    decide +kernel
  obtain ⟨db₀, hgenesis, hrun⟩ := bind_eq_ok.1 hdb
  have hreached : Reached db := (Reached.genesis hgenesis).applyAll hrun
  obtain ⟨p, hfind⟩ := Option.isSome_iff_exists.1 (hspend db hdb)
  exact ⟨db, hreached, hdb, has_iff.2 ⟨p, findByOwner_eq_some hfind⟩,
    permissionHierarchy_of_reached hreached⟩

end Database

end PotatoNode.Chain
