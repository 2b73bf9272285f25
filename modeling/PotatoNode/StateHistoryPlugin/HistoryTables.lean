import PotatoNode.Chain.ContractTables
import PotatoNode.Chain.TransactionContext

/-!
# History tables (`state_history_serialization.hpp`, `state_history_plugin.cpp`)

The state history plugin publishes the objects of fifteen kinds of indices as rows of tables. A row
is the record of the fields that are packed, in their order; the table's key names, as the ABI of
the plugin gives them, say which fields identify a row.
-/

namespace PotatoNode.StateHistoryPlugin

open Lib Chain
open Chainbase hiding Result Failure

/-! ## Objects -/

/-- `account_object`, with its ABI. -/
structure Account extends AccountObject where
  abi : Bytes := []
deriving DecidableEq

instance : ValueType Account where
  id a := a.id
  clash a b := a.name = b.name
  clash_comm a b := by simp only [eq_comm]

/-- `account_metadata_object`, with all its fields. -/
structure AccountMetadata extends AccountMetadataObject where
  recvSequence : UInt64 := 0
  authSequence : UInt64 := 0
  codeSequence : UInt64 := 0
  abiSequence : UInt64 := 0
  codeHash : Digest := 0
  lastCodeUpdate : Nat := 0
  vmType : UInt8 := 0
  vmVersion : UInt8 := 0
deriving DecidableEq

instance : ValueType AccountMetadata where
  id a := a.id
  clash a b := a.name = b.name
  clash_comm a b := by simp only [eq_comm]

structure CodeObject where
  id : Int
  codeHash : Digest
  code : Bytes
  codeRefCount : UInt64
  firstBlockUsed : UInt32
  vmType : UInt8 := 0
  vmVersion : UInt8 := 0
deriving DecidableEq

instance : ValueType CodeObject where
  id o := o.id
  clash a b := a.codeHash = b.codeHash ∧ a.vmType = b.vmType ∧ a.vmVersion = b.vmVersion
  clash_comm a b := by simp only [eq_comm]

/-- `chain_config`, with the parameters that are only packed. -/
structure FullChainConfig extends ChainConfig where
  netUsageLeeway : UInt32 := 500
  deferredTrxExpirationWindow : UInt32 := 10 * 60
  maxTransactionDelay : UInt32 := 45 * 24 * 3600
  maxInlineActionSize : UInt32 := 512 * 1024
  maxInlineActionDepth : UInt16 := 4
deriving DecidableEq

/-- `global_property_object`. -/
structure GlobalProperty where
  proposedScheduleBlockNum : Option Nat
  proposedSchedule : ProducerAuthoritySchedule
  configuration : FullChainConfig
  chainId : Digest
  standbySchedule : ProducerAuthoritySchedule
  enableStandbySchedule : Bool := false
  standbyScheduleBlockNum : Option Nat
deriving DecidableEq

/-- `protocol_state_object`. -/
structure ProtocolState where
  allowlistedIntrinsics : List String
  numSupportedKeyTypes : UInt32 := 0
deriving DecidableEq

/-- An object of an index that is only ordered by id, as those with one object are. -/
structure Identified (α : Type) where
  id : Int
  value : α
deriving DecidableEq

instance (α : Type) : ValueType (Identified α) where
  id o := o.id
  clash _ _ := false
  clash_comm _ _ := rfl

/-- The tables, by the names that `store_chain_state` gives them. -/
inductive HistoryTable where
  | account
  | accountMetadata
  | code
  | contractTable
  | contractRow
  | contractIndex (k : IndexKind)
  | globalProperty
  | generatedTransaction
  | protocolState
  | permission
  | permissionLink
  | resourceLimits
  | resourceUsage
  | resourceLimitsState
  | resourceLimitsConfig
deriving DecidableEq

namespace HistoryTable

abbrev Object : HistoryTable → Type
  | account => Account
  | accountMetadata => AccountMetadata
  | code => CodeObject
  | contractTable => TableIdObject
  | contractRow => KeyValueObject
  | contractIndex k => IndexObject k
  | globalProperty => Identified GlobalProperty
  | generatedTransaction => GeneratedTransactionObject
  | protocolState => Identified ProtocolState
  | permission => PermissionObject
  | permissionLink => PermissionLinkObject
  | resourceLimits => ResourceLimitsObject
  | resourceUsage => ResourceUsageObject
  | resourceLimitsState => Identified ResourceLimitsStateObject
  | resourceLimitsConfig => Identified ResourceLimitsConfigObject

instance : (t : HistoryTable) → ValueType t.Object
  | account => inferInstanceAs (ValueType Account)
  | accountMetadata => inferInstanceAs (ValueType AccountMetadata)
  | code => inferInstanceAs (ValueType CodeObject)
  | contractTable => inferInstanceAs (ValueType TableIdObject)
  | contractRow => inferInstanceAs (ValueType KeyValueObject)
  | contractIndex k => inferInstanceAs (ValueType (IndexObject k))
  | globalProperty => inferInstanceAs (ValueType (Identified _))
  | generatedTransaction => inferInstanceAs (ValueType GeneratedTransactionObject)
  | protocolState => inferInstanceAs (ValueType (Identified _))
  | permission => inferInstanceAs (ValueType PermissionObject)
  | permissionLink => inferInstanceAs (ValueType PermissionLinkObject)
  | resourceLimits => inferInstanceAs (ValueType ResourceLimitsObject)
  | resourceUsage => inferInstanceAs (ValueType ResourceUsageObject)
  | resourceLimitsState => inferInstanceAs (ValueType (Identified _))
  | resourceLimitsConfig => inferInstanceAs (ValueType (Identified _))

end HistoryTable

/-! ## Rows -/

/-- `account`. -/
structure AccountRow where
  name : AccountName
  creationDate : Nat
  abi : Bytes
deriving DecidableEq

structure CodeId where
  vmType : UInt8
  vmVersion : UInt8
  codeHash : Digest
deriving DecidableEq

/-- `account_metadata`. -/
structure AccountMetadataRow where
  name : AccountName
  privileged : Bool
  lastCodeUpdate : Nat
  code : Option CodeId
deriving DecidableEq

/-- `code`. -/
structure CodeRow extends CodeId where
  code : Bytes
deriving DecidableEq

structure TableNames where
  code : Nat
  scope : Nat
  table : Nat
deriving DecidableEq

/-- `contract_table`. -/
structure ContractTableRow extends TableNames where
  payer : AccountName
deriving DecidableEq

structure ContractRow extends TableNames where
  primaryKey : Nat
  payer : AccountName
  value : Bytes
deriving DecidableEq

/-- `contract_index64` and the like, with the numbers that the secondary key is packed as. -/
structure ContractIndexRow extends TableNames where
  primaryKey : Nat
  payer : AccountName
  secondaryKey : List Nat
deriving DecidableEq

/-- `global_property`. -/
structure GlobalPropertyRow where
  proposedScheduleBlockNum : Option Nat
  proposedSchedule : ProducerAuthoritySchedule
  configuration : FullChainConfig
  chainId : Digest
deriving DecidableEq

/-- `generated_transaction`. -/
structure GeneratedTransactionRow where
  sender : AccountName
  senderId : Nat
  payer : AccountName
  trxId : Digest
  packedTrx : Bytes
deriving DecidableEq

/-- `permission`. -/
structure PermissionRow where
  owner : AccountName
  name : PermissionName
  parent : PermissionName
  lastUpdated : Nat
  auth : Authority
deriving DecidableEq

/-- `permission_link`. -/
structure PermissionLinkRow where
  account : AccountName
  code : AccountName
  messageType : ActionName
  requiredPermission : PermissionName
deriving DecidableEq

/-- `resource_limits`. -/
structure ResourceLimitsRow where
  owner : AccountName
  netWeight : Int
  cpuWeight : Int
  ramBytes : Int
deriving DecidableEq

/-- `resource_usage`. -/
structure ResourceUsageRow where
  owner : AccountName
  netUsage : UsageAccumulator
  cpuUsage : UsageAccumulator
  ramUsage : UInt64
deriving DecidableEq

/-- `resource_limits_state`. -/
structure ResourceLimitsStateRow where
  averageBlockNetUsage : UsageAccumulator
  averageBlockCpuUsage : UsageAccumulator
  totalNetWeight : Nat
  totalCpuWeight : Nat
  totalRamBytes : Nat
  virtualNetLimit : Nat
  virtualCpuLimit : Nat
deriving DecidableEq

namespace HistoryTable

abbrev Row : HistoryTable → Type
  | account => AccountRow
  | accountMetadata => AccountMetadataRow
  | code => CodeRow
  | contractTable => ContractTableRow
  | contractRow => ContractRow
  | contractIndex _ => ContractIndexRow
  | globalProperty => GlobalPropertyRow
  | generatedTransaction => GeneratedTransactionRow
  | protocolState => Unit
  | permission => PermissionRow
  | permissionLink => PermissionLinkRow
  | resourceLimits => ResourceLimitsRow
  | resourceUsage => ResourceUsageRow
  | resourceLimitsState => ResourceLimitsStateRow
  | resourceLimitsConfig => ResourceLimitsConfigObject

/-- The types of the fields that `key_names` lists. -/
abbrev Key : HistoryTable → Type
  | account => AccountName
  | accountMetadata => AccountName
  | code => CodeId
  | contractTable => TableNames
  | contractRow => TableNames × Nat
  | contractIndex _ => TableNames × Nat
  | globalProperty => Unit
  | generatedTransaction => AccountName × Nat
  | protocolState => Unit
  | permission => AccountName × PermissionName
  | permissionLink => AccountName × AccountName × ActionName
  | resourceLimits => AccountName
  | resourceUsage => AccountName
  | resourceLimitsState => Unit
  | resourceLimitsConfig => Unit

instance : (t : HistoryTable) → DecidableEq t.Key
  | account => inferInstanceAs (DecidableEq AccountName)
  | accountMetadata => inferInstanceAs (DecidableEq AccountName)
  | code => inferInstanceAs (DecidableEq CodeId)
  | contractTable => inferInstanceAs (DecidableEq TableNames)
  | contractRow => inferInstanceAs (DecidableEq (TableNames × Nat))
  | contractIndex _ => inferInstanceAs (DecidableEq (TableNames × Nat))
  | globalProperty => inferInstanceAs (DecidableEq Unit)
  | generatedTransaction => inferInstanceAs (DecidableEq (AccountName × Nat))
  | protocolState => inferInstanceAs (DecidableEq Unit)
  | permission => inferInstanceAs (DecidableEq (AccountName × PermissionName))
  | permissionLink => inferInstanceAs (DecidableEq (AccountName × AccountName × ActionName))
  | resourceLimits => inferInstanceAs (DecidableEq AccountName)
  | resourceUsage => inferInstanceAs (DecidableEq AccountName)
  | resourceLimitsState => inferInstanceAs (DecidableEq Unit)
  | resourceLimitsConfig => inferInstanceAs (DecidableEq Unit)

def key : (t : HistoryTable) → t.Row → t.Key
  | account, row => row.name
  | accountMetadata, row => row.name
  | code, row => row.toCodeId
  | contractTable, row => row.toTableNames
  | contractRow, row => (row.toTableNames, row.primaryKey)
  | contractIndex _, row => (row.toTableNames, row.primaryKey)
  | globalProperty, _ => ()
  | generatedTransaction, row => (row.sender, row.senderId)
  | protocolState, _ => ()
  | permission, row => (row.owner, row.name)
  | permissionLink, row => (row.account, row.code, row.messageType)
  | resourceLimits, row => row.owner
  | resourceUsage, row => row.owner
  | resourceLimitsState, _ => ()
  | resourceLimitsConfig, _ => ()

end HistoryTable

/-! ## Packing -/

abbrev Db := (t : HistoryTable) → GenericIndex t.Object

def removedValues {V : Type} [ValueType V] (g : GenericIndex V) : ObjectTable V :=
  match g.stack with
  | [] => Table.empty
  | undo :: _ => undo.removedValues

def getTableId (db : Db) (tid : Int) : Result TableIdObject :=
  match (db .contractTable).indices.find? tid with
  | some obj => .ok obj
  | none =>
    match (removedValues (db .contractTable)).find? tid with
    | some removed => .ok removed
    | none => eosThrow .pluginException "can not found table id ${tid}"

def parentName (db : Db) (parent : Int) : Result PermissionName :=
  if parent ≠ 0 then
    match (db .permission).indices.find? parent with
    | some obj => .ok obj.name
    | none =>
      match (removedValues (db .permission)).find? parent with
      | some removed => .ok removed.name
      | none => eosThrow .pluginException "can not find parent of permission_object"
  else .ok 0

def tableNames (t : TableIdObject) : TableNames := ⟨t.code, t.scope, t.table⟩

/-- The bytes of a `uint128_t` in the other order. -/
def reverseWord (x : Nat) : Nat := leValue (leBytes 16 x).reverse

def serializeSecondaryIndexData : IndexKind → Nat → List Nat
  | .idx256, key => [reverseWord (key / 2 ^ 128), reverseWord (key % 2 ^ 128)]
  | _, key => [key]

def packRow (db : Db) : (t : HistoryTable) → t.Object → Result t.Row
  | .account, o => .ok ⟨o.name, o.creationDate, o.abi⟩
  | .accountMetadata, o =>
    .ok ⟨o.name, o.privileged, o.lastCodeUpdate,
      if o.codeHash ≠ 0 then some ⟨o.vmType, o.vmVersion, o.codeHash⟩ else none⟩
  | .code, o => .ok ⟨⟨o.vmType, o.vmVersion, o.codeHash⟩, o.code⟩
  | .contractTable, o => .ok ⟨tableNames o, o.payer⟩
  | .contractRow, o => do
    let t ← getTableId db o.tId
    .ok ⟨tableNames t, o.primaryKey, o.payer, o.value⟩
  | .contractIndex k, o => do
    let t ← getTableId db o.tId
    .ok ⟨tableNames t, o.primaryKey, o.payer, serializeSecondaryIndexData k o.secondaryKey⟩
  | .globalProperty, o =>
    .ok ⟨o.value.proposedScheduleBlockNum, o.value.proposedSchedule, o.value.configuration,
      o.value.chainId⟩
  | .generatedTransaction, o => .ok ⟨o.sender, o.senderId, o.payer, o.trxId, o.packedTrx⟩
  | .protocolState, _ => .ok ()
  | .permission, o => do
    let parent ← parentName db o.parent
    .ok ⟨o.owner, o.name, parent, o.lastUpdated, o.auth⟩
  | .permissionLink, o => .ok ⟨o.account, o.code, o.messageType, o.requiredPermission⟩
  | .resourceLimits, o => do
    eosAssert (o.pending = false) .pluginException
      "accepted_block sent while resource_limits_object in pending state"
    .ok ⟨o.owner, o.netWeight, o.cpuWeight, o.ramBytes⟩
  | .resourceUsage, o => .ok ⟨o.owner, o.netUsage, o.cpuUsage, o.ramUsage⟩
  | .resourceLimitsState, o =>
    .ok ⟨o.value.averageBlockNetUsage, o.value.averageBlockCpuUsage, o.value.totalNetWeight,
      o.value.totalCpuWeight, o.value.totalRamBytes, o.value.virtualNetLimit,
      o.value.virtualCpuLimit⟩
  | .resourceLimitsConfig, o => .ok o.value

/-- `include_delta`: is the modification published? -/
def includeDelta : (t : HistoryTable) → (old curr : t.Object) → Bool
  | .contractTable, old, curr => old.payer ≠ curr.payer
  | .resourceLimits, old, curr =>
    old.netWeight ≠ curr.netWeight ∨ old.cpuWeight ≠ curr.cpuWeight ∨ old.ramBytes ≠ curr.ramBytes
  | .resourceLimitsState, ⟨_, old⟩, ⟨_, curr⟩ =>
    old.averageBlockNetUsage.lastOrdinal ≠ curr.averageBlockNetUsage.lastOrdinal ∨
    old.averageBlockNetUsage.valueEx ≠ curr.averageBlockNetUsage.valueEx ∨
    old.averageBlockNetUsage.consumed ≠ curr.averageBlockNetUsage.consumed ∨
    old.averageBlockCpuUsage.lastOrdinal ≠ curr.averageBlockCpuUsage.lastOrdinal ∨
    old.averageBlockCpuUsage.valueEx ≠ curr.averageBlockCpuUsage.valueEx ∨
    old.averageBlockCpuUsage.consumed ≠ curr.averageBlockCpuUsage.consumed ∨
    old.totalNetWeight ≠ curr.totalNetWeight ∨
    old.totalCpuWeight ≠ curr.totalCpuWeight ∨
    old.totalRamBytes ≠ curr.totalRamBytes ∨
    old.virtualNetLimit ≠ curr.virtualNetLimit ∨
    old.virtualCpuLimit ≠ curr.virtualCpuLimit
  | .accountMetadata, old, curr =>
    old.name ≠ curr.name ∨ old.privileged ≠ curr.privileged ∨
    old.lastCodeUpdate ≠ curr.lastCodeUpdate ∨ old.vmType ≠ curr.vmType ∨
    old.vmVersion ≠ curr.vmVersion ∨ old.codeHash ≠ curr.codeHash
  | .code, _, _ => false
  | .protocolState, old, curr =>
    old.value.allowlistedIntrinsics ≠ curr.value.allowlistedIntrinsics
  | _, _, _ => true

/-! ## Deltas -/

/-- `delta.rows.obj`: rows that are present, or removed. -/
abbrev DeltaRows (Row : Type) := List (Bool × Row)

section ProcessTable

variable {V Row : Type} [ValueType V] (packRow : V → Result Row) (includeDelta : V → V → Bool)
  (index : GenericIndex V)

def getObject (id : Int) : Result V :=
  match index.indices.find? id with
  | some obj => .ok obj
  | none => .error (.stdException "key not found")

def packEntry (present : Bool) (v : V) : Result (Bool × Row) := do
  let row ← packRow v
  .ok (present, row)

def packModified (old : V) : Result (Option (Bool × Row)) := do
  let row ← getObject index (ValueType.id old)
  if includeDelta old row = true then do
    let entry ← packEntry packRow true row
    .ok (some entry)
  else .ok none

def packCreated (id : Int) : Result (Bool × Row) := do
  let row ← getObject index id
  packEntry packRow true row

/-- `process_table`, for the first block that is stored and for the others. -/
def processTable (fresh : Bool) : Result (Option (DeltaRows Row)) :=
  if fresh = true then
    if index.indices.objects.entries = [] then .ok none
    else do
      let rows ← index.indices.objects.entries.mapM (packEntry packRow true)
      .ok (some rows)
  else
    match index.stack with
    | [] => .ok none
    | undo :: _ =>
      if undo.oldValues.entries = [] ∧ undo.newIds.entries = [] ∧ undo.removedValues.entries = []
      then .ok none
      else do
        let modified ← undo.oldValues.entries.mapM (packModified packRow includeDelta index)
        let removed ← undo.removedValues.entries.mapM (packEntry packRow false)
        let created ← undo.newIds.entries.mapM (packCreated packRow index)
        .ok (some (modified.reduceOption ++ removed ++ created))

end ProcessTable

abbrev TableDelta := (t : HistoryTable) × DeltaRows t.Row

/-- The tables in the order of `store_chain_state`. -/
def processedTables : List HistoryTable :=
  [.account, .accountMetadata, .code, .contractTable, .contractRow, .contractIndex .idx64,
    .contractIndex .idx128, .contractIndex .idx256, .contractIndex .idxDouble,
    .contractIndex .idxLongDouble, .globalProperty, .generatedTransaction, .protocolState,
    .permission, .permissionLink, .resourceLimits, .resourceUsage, .resourceLimitsState,
    .resourceLimitsConfig]

def processTables (fresh : Bool) (db : Db) : List HistoryTable → Result (List TableDelta)
  | [] => .ok []
  | t :: rest => do
    let delta ← processTable (packRow db t) (includeDelta t) (db t) fresh
    let deltas ← processTables fresh db rest
    .ok ((delta.map (Sigma.mk t)).toList ++ deltas)

/-- `store_chain_state`: the deltas that it writes. The newest undo record is read before the stack
is asked whether it has one. -/
def storeChainState (fresh : Bool) (db : Db) : Result (List TableDelta) :=
  if (db .contractTable).stack = [] then .error .undefinedBehaviour
  else processTables fresh db processedTables

end PotatoNode.StateHistoryPlugin
