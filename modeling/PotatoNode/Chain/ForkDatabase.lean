import Mathlib.Data.List.Lex
import Mathlib.Data.List.MinMax
import Mathlib.Data.Prod.Lex
import PotatoNode.Lib.Worklist
import PotatoNode.Chain.HeaderChain

/-!
# The fork database (`block_state.hpp`, `fork_database.hpp`, `fork_database.cpp`)

The fork database holds the blocks that are not yet irreversible: a multi-index container of
block states, and pointers to the root (the last irreversible block, not in the container) and to
the head.

The container is a `Table` over the unique index `by_block_id`. The other two indices are read
off its entries: `by_prev` is a filter, and an iterator to the beginning of `by_lib_block_num` is
the entry with the least composite key.

Block states are shared pointers in the source. The only field that changes is `validated`, it
changes through the container, and an entry that is the head is validated already; so the head
and the entries can be values. A database that was never `reset` has null pointers and is not a
`ForkDatabase`.
-/

namespace PotatoNode.Chain

open Lib

/-! ## Block states -/

/-- The number of a block is the one its id begins with, and one above its parent's. -/
def BlockHeaderState.Numbered (s : BlockHeaderState) : Prop :=
  numFromId s.id = s.blockNum ∧ s.blockNum = numFromId s.header.previous + 1

instance (s : BlockHeaderState) : Decidable s.Numbered := inferInstanceAs (Decidable (_ ∧ _))

theorem numFromId_mul_add (num digest : Nat) :
    numFromId (num * 2 ^ 224 + digest % 2 ^ 224) = num := by
  show (num * 2 ^ 224 + digest % 2 ^ 224) / 2 ^ 224 = num
  have hlt : digest % 2 ^ 224 < 2 ^ 224 := Nat.mod_lt _ (Nat.two_pow_pos 224)
  rw [Nat.add_comm, Nat.add_mul_div_right _ _ (Nat.two_pow_pos 224), Nat.div_eq_of_lt hlt,
    Nat.zero_add]

theorem numFromId_id (fc : Fc) (h : BlockHeader) : numFromId (h.id fc) = h.blockNum :=
  numFromId_mul_add h.blockNum _

theorem Accepts.numbered {fc : Fc} {s s' : BlockHeaderState} {pro : ProducerAuthority}
    (h : Accepts fc s s' pro) (hs : s.Numbered) : s'.Numbered := by
  have hnum : s'.blockNum = numFromId s'.header.previous + 1 := by
    rw [h.blockNum, h.previous, hs.1]
  refine ⟨?_, hnum⟩
  rw [h.id, numFromId_id, hnum]
  rfl

theorem HeaderChain.numbered {fc : Fc} {g : GenesisState} {s : BlockHeaderState}
    {older : List BlockHeaderState} (h : HeaderChain fc g (s :: older)) : s.Numbered := by
  have hhead : ∀ t ∈ (s :: older).head?, t.Numbered := by
    refine h.invariant (P := fun chain => ∀ t ∈ chain.head?, t.Numbered) ?_ ?_
    · intro t ht
      injection ht with ht
      subst ht
      exact ⟨numFromId_id fc _, rfl⟩
    · intro s s' older pro _ hacc ih t ht
      injection ht with ht
      subst ht
      exact hacc.numbered (ih s rfl)
  exact hhead s rfl

/-- `signed_block`: the header and the digests of the transaction receipts. -/
structure SignedBlock extends SignedBlockHeader where
  transactions : List Digest
deriving DecidableEq, Repr

structure BlockState extends BlockHeaderState where
  /-- null in the root and in a state that was read from a snapshot -/
  block : Option SignedBlock
  validated : Bool
  numbered : toBlockHeaderState.Numbered
deriving DecidableEq

namespace BlockState

variable (b : BlockState)

def prev : BlockId := b.header.previous

/-- The composite key of the index `by_lib_block_num`: validated blocks first, then the larger
last irreversible block, the larger block number, the id that is less by `sha256_less`. -/
def byLibBlockNum : Bool ×ₗ ℕᵒᵈ ×ₗ ℕᵒᵈ ×ₗ List ℕ :=
  toLex (!b.validated, toLex (OrderDual.toDual b.dposIrreversibleBlocknum,
    toLex (OrderDual.toDual b.blockNum, sha256Words b.id)))

/-- What `first_preferred` compares. -/
def preference : ℕ ×ₗ ℕ := toLex (b.dposIrreversibleBlocknum, b.blockNum)

/-- The same block with another `validated` flag. -/
def setValidated (validated : Bool) : BlockState :=
  { b with validated := validated }

@[simp] theorem setValidated_id (v : Bool) : (b.setValidated v).id = b.id := rfl

theorem setValidated_eq {b : BlockState} {v : Bool} (h : b.validated = v) :
    b.setValidated v = b := by
  cases h
  rfl

theorem blockNum_prev : numFromId b.prev + 1 = numFromId b.id := by
  rw [b.numbered.1, b.numbered.2]
  rfl

end BlockState

def firstPreferred (lhs rhs : BlockState) : Prop := rhs.preference < lhs.preference

instance (lhs rhs : BlockState) : Decidable (firstPreferred lhs rhs) :=
  inferInstanceAs (Decidable (_ < _))

/-! ## The database -/

/-- `fork_multi_index_type`. -/
abbrev ForkIndex := Table (fun b : BlockState => b.id)

/-- `fork_database_impl`. -/
structure ForkDatabase where
  index : ForkIndex
  root : BlockState
  head : BlockState
deriving DecidableEq

namespace ForkIndex

def first (index : ForkIndex) : Option BlockState :=
  index.entries.argmin BlockState.byLibBlockNum

/-- `index.get<by_lib_block_num>().lower_bound( false )`, unless all blocks are validated. -/
def firstUnvalidated (index : ForkIndex) : Option BlockState :=
  (index.entries.filter fun b => !b.validated).argmin BlockState.byLibBlockNum

def successors (index : ForkIndex) (id : BlockId) : List BlockId :=
  (index.entries.filter fun b => b.prev = id).map (·.id)

end ForkIndex

namespace ForkDatabase

section Functions

variable (self : ForkDatabase) (id : BlockId)

def getBlock : Option BlockState := self.index.find? id

def getBlockHeader : Option BlockState :=
  if self.root.id = id then some self.root else self.getBlock id

def reset (rootBhs : BlockState) : ForkDatabase :=
  let root := { rootBhs with block := none, validated := true }
  ⟨Table.empty, root, root⟩

def rollbackHeadToRoot : ForkDatabase :=
  { self with
    index := self.index.map (·.setValidated false) fun _ => rfl
    head := self.root }

/-- The end of `add`: the first block becomes the head if it is validated. -/
def takeValidated (index : ForkIndex) : ForkDatabase :=
  { self with
    index := index
    head := match index.first with
      | some candidate => if candidate.validated then candidate else self.head
      | none => self.head }

/-- `fork_database_impl::add`. Its parameter `validate` is not read. -/
def add (n : BlockState) (ignoreDuplicate : Bool) : Result ForkDatabase := do
  eosAssert (self.getBlockHeader n.prev).isSome .unlinkableBlockException "unlinkable block"
  if (self.getBlock n.id).isSome then
    if ignoreDuplicate then .ok self
    else eosThrow .forkDatabaseException "duplicate block added"
  else .ok (self.takeValidated (self.index.insert n))

def pendingHead : BlockState :=
  match self.index.firstUnvalidated with
  | some candidate => if firstPreferred candidate self.head then candidate else self.head
  | none => self.head

/-- The end of `mark_valid`: the first block becomes the head if it is preferred. -/
def takePreferred (index : ForkIndex) : ForkDatabase :=
  { self with
    index := index
    head := match index.first with
      | some candidate => if firstPreferred candidate self.head then candidate else self.head
      | none => self.head }

def markValid (h : BlockState) : Result ForkDatabase :=
  if h.validated then .ok self
  else
    match self.getBlock h.id with
    | some b => .ok (self.takePreferred (self.index.insert (b.setValidated true)))
    | none =>
      eosThrow .forkDatabaseException "block state not in fork database; cannot mark as valid"

def fetchBranchLoop (trimAfterBlockNum : Nat) :
    (fuel : Nat) → Option BlockState → Result (List BlockState)
  | _, none => .ok []
  | 0, some _ => .error .divergence
  | fuel + 1, some s => do
    let rest ← fetchBranchLoop trimAfterBlockNum fuel (self.getBlock s.prev)
    .ok (if s.blockNum ≤ trimAfterBlockNum then s :: rest else rest)

def fetchBranch (h : BlockId) (trimAfterBlockNum : Nat) : Result (List BlockState) :=
  self.fetchBranchLoop trimAfterBlockNum (numFromId h) (self.getBlock h)

/-- `(id == root->id) ? root : get_block( id )`, which must not be null. -/
def existingBlock : Result BlockState :=
  match self.getBlockHeader id with
  | some b => .ok b
  | none => eosThrow .forkDbBlockNotFound "block ${id} does not exist"

/-- The first two loops of `fetch_branch_from`: up from `b` while its number is above `num`. -/
def climb (num : Nat) : (fuel : Nat) → BlockState → Result (List BlockState × BlockState)
  | 0, b => if num < b.blockNum then .error .divergence else .ok ([], b)
  | fuel + 1, b =>
    if num < b.blockNum then do
      let p ← self.existingBlock b.prev
      let (branch, top) ← climb num fuel p
      .ok (b :: branch, top)
    else .ok ([], b)

/-- `get_block( id )`, which must not be null. -/
def indexedBlock : Result BlockState :=
  match self.getBlock id with
  | some b => .ok b
  | none => eosThrow .forkDbBlockNotFound "block ${id} does not exist"

/-- The third loop of `fetch_branch_from`, and the two blocks pushed after it. -/
def climbBoth :
    (fuel : Nat) → BlockState → BlockState → Result (List BlockState × List BlockState)
  | 0, _, _ => .error .divergence
  | fuel + 1, a, b =>
    if a.prev ≠ b.prev then do
      let p ← self.indexedBlock a.prev
      let q ← self.indexedBlock b.prev
      let (first, second) ← climbBoth fuel p q
      .ok (a :: first, b :: second)
    else .ok ([a], [b])

def fetchBranchFrom (first second : BlockId) : Result (List BlockState × List BlockState) := do
  let a ← self.existingBlock first
  let b ← self.existingBlock second
  let (firstBranch, a) ← self.climb b.blockNum a.blockNum a
  let (secondBranch, b) ← self.climb a.blockNum b.blockNum b
  if a.id = b.id then .ok (firstBranch, secondBranch)
  else do
    let (restA, restB) ← self.climbBoth a.blockNum a b
    .ok (firstBranch ++ restA, secondBranch ++ restB)

/-- One iteration of the first loop of `remove`: what it appends to the queue. -/
def removeVisit : Result (List BlockId) := do
  eosAssert (id ≠ self.head.id) .forkDatabaseException
    "removing the block and its descendants would remove the current head block"
  .ok (self.index.successors id)

def remove : Result ForkDatabase := do
  let removeQueue ← worklist self.removeVisit .divergence (self.index.size + 1) [] [id]
  .ok { self with index := removeQueue.foldl (fun index blockId => index.erase blockId) self.index }

/-- `blocks_to_remove` in `advance_root`: the ids of the ancestors of `b` down to the root. -/
def blocksToRemove : (fuel : Nat) → BlockState → Result (List BlockId)
  | 0, _ => .error .divergence
  | fuel + 1, b =>
    match self.getBlock b.prev with
    | some p => do
      let rest ← blocksToRemove fuel p
      .ok (b.prev :: rest)
    | none => do
      eosAssert (b.prev = self.root.id) .forkDatabaseException
        "invariant violation: orphaned branch was present in forked database"
      .ok [b.prev]

def checkNewRoot : Result (BlockState × List BlockId) :=
  match self.getBlock id with
  | none =>
    eosThrow .forkDatabaseException
      "cannot advance root to a block that does not exist in the fork database"
  | some newRoot => do
    eosAssert newRoot.validated .forkDatabaseException
      "cannot advance root to a block that has not yet been validated"
    let ids ← self.blocksToRemove newRoot.blockNum newRoot
    .ok (newRoot, ids)

end Functions

/-- `fork_database::advance_root`. The root is erased alone; its ancestors are removed with what
branches off them. A `remove` that throws leaves what was done before it. -/
def advanceRoot (id : BlockId) : EStateM Failure ForkDatabase Unit := do
  let (newRoot, ids) ← compute fun self => self.checkNewRoot id
  modify fun self => { self with index := self.index.erase id }
  ids.forM fun blockId => attempt fun self => self.remove blockId
  modify fun self => { self with root := newRoot }

end ForkDatabase

/-! ## Calls -/

inductive ForkCall where
  | reset (rootBhs : BlockState)
  | add (n : BlockState) (ignoreDuplicate : Bool)
  | markValid (h : BlockState)
  | remove (id : BlockId)
  | advanceRoot (id : BlockId)
  | rollbackHeadToRoot

def ForkCall.run : ForkCall → EStateM Failure ForkDatabase Unit
  | .reset rootBhs => set (ForkDatabase.reset rootBhs)
  | .add n ignoreDuplicate => attempt fun self => self.add n ignoreDuplicate
  | .markValid h => attempt fun self => self.markValid h
  | .remove id => attempt fun self => self.remove id
  | .advanceRoot id => ForkDatabase.advanceRoot id
  | .rollbackHeadToRoot => modify fun self => self.rollbackHeadToRoot

/-- The databases that sequences of calls lead to. A call may throw, unless it is
`advance_root`. -/
inductive ForkRun : ForkDatabase → Prop where
  | reset (rootBhs : BlockState) : ForkRun (ForkDatabase.reset rootBhs)
  | returns {d d' : ForkDatabase} {c : ForkCall} (run : ForkRun d) (h : c.run d = .ok () d') :
      ForkRun d'
  | throws {d d' : ForkDatabase} {c : ForkCall} {e : Failure} (run : ForkRun d)
      (hc : ∀ id, c ≠ .advanceRoot id) (h : c.run d = .error e d') : ForkRun d'

def runForkCalls : List ForkCall → ForkDatabase → Option ForkDatabase
  | [], d => some d
  | c :: rest, d =>
    match c.run d with
    | .ok () d' => runForkCalls rest d'
    | .error _ _ => none

theorem forkRun_of_runForkCalls {calls : List ForkCall} {d d' : ForkDatabase} (run : ForkRun d)
    (h : runForkCalls calls d = some d') : ForkRun d' := by
  induction calls generalizing d with
  | nil =>
    injection h with h
    exact h ▸ run
  | cons c rest ih =>
    unfold runForkCalls at h
    split at h
    · next d₁ hc => exact ih (run.returns hc) h
    · cases h

theorem exists_forkRun_of_runForkCalls (rootBhs : BlockState) (calls : List ForkCall)
    {P : ForkDatabase → Bool}
    (h : (runForkCalls calls (ForkDatabase.reset rootBhs)).any P = true) :
    ∃ d, ForkRun d ∧ P d = true := by
  obtain ⟨d, hd, hP⟩ := (Option.any_eq_true _ _).1 h
  exact ⟨d, forkRun_of_runForkCalls (ForkRun.reset rootBhs) hd, hP⟩

def BlockState.genesis : BlockState where
  toBlockHeaderState := GenesisState.sample.headerState Fc.sample
  block := none
  validated := true
  numbered := HeaderChain.genesis.numbered

/-- A block on top of `parent`: the rest of its id and its last irreversible block are given. -/
def BlockState.child (parent : BlockState) (digest lib : Nat) : BlockState where
  toBlockHeaderState :=
    { (default : BlockHeaderState) with
      blockNum := parent.blockNum + 1
      dposIrreversibleBlocknum := lib
      id := (parent.blockNum + 1) * 2 ^ 224 + digest % 2 ^ 224
      header := { (default : SignedBlockHeader) with previous := parent.id } }
  block := some ⟨default, []⟩
  validated := false
  numbered := ⟨numFromId_mul_add _ _, congrArg (· + 1) parent.numbered.1.symm⟩

end PotatoNode.Chain
