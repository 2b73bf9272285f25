import Mathlib.Data.List.MinMax
import PotatoNode.Lib.Runs
import PotatoNode.Chain.BlockHeader

/-!
# The queue of unapplied transactions (`unapplied_transaction_queue.hpp`, `producer_plugin.cpp`)

A transaction that shall persist until it expires is stored with `add_persisted`. Every pending
block that is given up (`abort_block`) returns its transactions to the queue, and every
`start_block` tries those of the queue again: all of them when it produces, the persisted ones when
it speculates.

`process_unapplied_trxs` erases what it has applied, a persisted transaction like any other, and
`add_aborted` brings it back as an aborted one. A persisted transaction thus keeps its place for as
long as it is not applied (`persists_of_run`), and loses it with the first block that it gets into
(`persisted_lost`).
-/

namespace PotatoNode.ProducerPlugin

open Lib Chain List

/-! ## The queue -/

inductive TrxEnumType where
  | persisted
  | forked
  | aborted
  deriving DecidableEq

/-- What a node does with transactions outside of blocks. -/
inductive ProcessMode where
  | nonSpeculative
  | speculativeNonProducer
  | speculativeProducer
  deriving DecidableEq

structure UnappliedTransaction where
  id : Digest
  trxType : TrxEnumType
  deriving DecidableEq

/-- The transactions of one type in the order in which they have got it. -/
structure UnappliedTransactionQueue where
  queue : List UnappliedTransaction
  mode : ProcessMode
  deriving DecidableEq

namespace UnappliedTransactionQueue

/-- `find` in the index `by_trx_id`. -/
def find (q : UnappliedTransactionQueue) (id : Digest) : Option UnappliedTransaction :=
  q.queue.find? (·.id = id)

/-- `insert`: the index `by_trx_id` refuses a transaction that is there already. -/
def insert (q : UnappliedTransactionQueue) (un : UnappliedTransaction) :
    UnappliedTransactionQueue :=
  if (q.find un.id).isSome then q else { q with queue := q.queue ++ [un] }

/-- `add_forked` and `add_aborted`. -/
def addAll (type : TrxEnumType) (trxs : List Digest) (q : UnappliedTransactionQueue) :
    UnappliedTransactionQueue :=
  if q.mode = .nonSpeculative ∨ q.mode = .speculativeNonProducer then q
  else trxs.foldl (fun q id => q.insert ⟨id, type⟩) q

def addForked := addAll .forked

def addAborted := addAll .aborted

def addPersisted (trx : Digest) (q : UnappliedTransactionQueue) : UnappliedTransactionQueue :=
  if q.mode = .nonSpeculative then q
  else
    match q.find trx with
    | none => q.insert ⟨trx, .persisted⟩
    | some un =>
      if un.trxType ≠ .persisted then
        { q with queue := q.queue.erase un ++ [{ un with trxType := .persisted }] }
      else q

def clearApplied (block : List Digest) (q : UnappliedTransactionQueue) :
    UnappliedTransactionQueue :=
  { q with queue := q.queue.filter fun un => un.trxType = .persisted ∨ un.id ∉ block }

/-- `clear_expired`: whether it has ended before the deadline, and the queue. `late n` is the
comparison of the deadline with the clock in the iteration `n`, `expiration` the expiration of the
transaction with an id. -/
def clearExpired (expiration : Digest → Nat) (pendingBlockTime : Nat) (late : Nat → Bool) :
    (fuel n : Nat) → UnappliedTransactionQueue → Bool × UnappliedTransactionQueue
  | 0, _, q => (true, q)
  | fuel + 1, n, q =>
    match q.queue.argmin (expiration ·.id) with
    | none => (true, q)
    | some un =>
      if expiration un.id ≤ pendingBlockTime then
        if late n then (false, q)
        else clearExpired expiration pendingBlockTime late fuel (n + 1)
          { q with queue := q.queue.erase un }
      else (true, q)

def range (type : TrxEnumType) (q : UnappliedTransactionQueue) : List UnappliedTransaction :=
  q.queue.filter (·.trxType = type)

def erase (un : UnappliedTransaction) (q : UnappliedTransactionQueue) : UnappliedTransactionQueue :=
  { q with queue := q.queue.erase un }

end UnappliedTransactionQueue

/-! ## The producer plugin -/

/-- How `push_transaction` ends. -/
inductive PushOutcome where
  | applied
  | failed
  /-- the resources were exhausted, those of the block or only those of the transaction -/
  | exhausted (blockIsExhausted : Bool)
  /-- an exception left it, and was dropped -/
  | thrown
  deriving DecidableEq

/-- What a call of `start_block` meets. -/
structure StartBlockInput where
  pendingBlockTime : Nat
  /-- `_pending_block_mode` is `producing` -/
  producing : Bool
  /-- `chain.start_block` has made a pending block -/
  started : Bool
  lateExpired : Nat → Bool
  /-- `remove_expired_denylisted_trxs` ended in time -/
  denylistDone : Bool
  lateUnapplied : Nat → Bool
  push : Digest → PushOutcome

structure UnappliedState where
  unappliedTransactions : UnappliedTransactionQueue
  /-- the transactions of the pending block -/
  pendingTrxs : List Digest
  /-- Nothing of the source: the transactions that `add_persisted` has stored, that have not
  expired at a later `start_block` and have not failed. -/
  stored : List Digest
  deriving DecidableEq

namespace UnappliedState

def abortBlock (s : UnappliedState) : UnappliedState :=
  { s with
    unappliedTransactions := s.unappliedTransactions.addAborted s.pendingTrxs
    pendingTrxs := [] }

def processIncoming (trx : Digest) (persistUntilExpired : Bool) (push : PushOutcome)
    (s : UnappliedState) : UnappliedState :=
  if push = .applied then
    let s := { s with pendingTrxs := s.pendingTrxs ++ [trx] }
    if persistUntilExpired then
      { s with
        unappliedTransactions := s.unappliedTransactions.addPersisted trx
        stored :=
          if s.unappliedTransactions.mode = .nonSpeculative then s.stored else trx :: s.stored }
    else s
  else s

def processUnapplied (x : StartBlockInput) :
    Nat → List UnappliedTransaction → UnappliedState → UnappliedState
  | _, [], s => s
  | n, un :: rest, s =>
    if x.lateUnapplied n then s
    else
      match x.push un.id with
      | .applied =>
        processUnapplied x (n + 1) rest
          { s with
            unappliedTransactions := s.unappliedTransactions.erase un
            pendingTrxs := s.pendingTrxs ++ [un.id] }
      | .failed =>
        processUnapplied x (n + 1) rest
          { s with
            unappliedTransactions := s.unappliedTransactions.erase un
            stored := s.stored.filter (· ≠ un.id) }
      | .exhausted true => s
      | .exhausted false => processUnapplied x (n + 1) rest s
      | .thrown => processUnapplied x (n + 1) rest s

def processUnappliedTrxs (x : StartBlockInput) (s : UnappliedState) : UnappliedState :=
  let q := s.unappliedTransactions
  processUnapplied x 0
    (if x.producing then q.range .persisted ++ q.range .forked ++ q.range .aborted
      else q.range .persisted) s

def removeExpiredPersistedTrxs (expiration : Digest → Nat) (x : StartBlockInput)
    (s : UnappliedState) : Bool × UnappliedState :=
  let q := s.unappliedTransactions
  let cleared := q.clearExpired expiration x.pendingBlockTime x.lateExpired q.queue.length 0
  (cleared.1, { s with
    unappliedTransactions := cleared.2
    stored := s.stored.filter (x.pendingBlockTime < expiration ·) })

/-- `start_block`, up to the scheduled and incoming transactions. -/
def startBlock (expiration : Digest → Nat) (x : StartBlockInput) (s : UnappliedState) :
    UnappliedState :=
  if x.started then
    let removed := s.abortBlock.removeExpiredPersistedTrxs expiration x
    if removed.1 && x.denylistDone then removed.2.processUnappliedTrxs x else removed.2
  else s.abortBlock

end UnappliedState

inductive UnappliedEvent where
  | incoming (trx : Digest) (persistUntilExpired : Bool) (push : PushOutcome)
  /-- a block arrives, the node is paused or reconfigured, a snapshot is made -/
  | abortBlock
  /-- the controller leaves a branch with these transactions -/
  | forkedBranch (trxs : List Digest)
  /-- the controller has applied a block with these packed transactions (`on_block`) -/
  | onBlock (trxs : List Digest)
  /-- `produce_block`; `packed` are the packed ones among the block's transactions -/
  | produceBlock (packed : List Digest)
  | startBlock (x : StartBlockInput)

/-- One call into the plugin. -/
def UnappliedState.step (expiration : Digest → Nat) (s : UnappliedState) :
    UnappliedEvent → Except Empty UnappliedState
  | .incoming trx persist push => .ok (s.processIncoming trx persist push)
  | .abortBlock => .ok s.abortBlock
  | .forkedBranch trxs =>
    .ok { s with unappliedTransactions := s.unappliedTransactions.addForked trxs }
  | .onBlock trxs =>
    .ok { s with unappliedTransactions := s.unappliedTransactions.clearApplied trxs }
  | .produceBlock packed =>
    .ok { s with
      unappliedTransactions := s.unappliedTransactions.clearApplied packed
      pendingTrxs := [] }
  | .startBlock x => .ok (s.startBlock expiration x)

/-- After `plugin_initialize`, which has set the mode. -/
def UnappliedState.Initial (s : UnappliedState) : Prop :=
  s.unappliedTransactions.queue = [] ∧ s.pendingTrxs = [] ∧ s.stored = []

/-! ## The persisted range -/

namespace UnappliedTransactionQueue

variable {q : UnappliedTransactionQueue} {trx : Digest} {un : UnappliedTransaction}

def Persisted (q : UnappliedTransactionQueue) (trx : Digest) : Prop :=
  ⟨trx, .persisted⟩ ∈ q.queue

instance (q : UnappliedTransactionQueue) (trx : Digest) : Decidable (q.Persisted trx) :=
  inferInstanceAs (Decidable (_ ∈ _))

theorem Persisted.insert (h : q.Persisted trx) : (q.insert un).Persisted trx := by
  unfold UnappliedTransactionQueue.insert
  split
  · exact h
  · exact mem_append_left _ h

theorem persisted_insert_iff (htype : un.trxType ≠ .persisted) :
    (q.insert un).Persisted trx ↔ q.Persisted trx := by
  refine ⟨fun h => ?_, Persisted.insert⟩
  unfold insert at h
  split at h
  · exact h
  · rcases mem_append.1 h with h | h
    · exact h
    · simp [← mem_singleton.1 h] at htype

theorem persisted_addAll_iff {type : TrxEnumType} {trxs : List Digest}
    (htype : type ≠ .persisted) : (q.addAll type trxs).Persisted trx ↔ q.Persisted trx := by
  unfold addAll
  split
  · rfl
  · clear * - htype
    induction trxs generalizing q with
    | nil => rfl
    | cons id trxs ih =>
      rw [foldl_cons, ih]
      exact persisted_insert_iff htype

theorem Persisted.addPersisted {other : Digest} (h : q.Persisted trx) :
    (q.addPersisted other).Persisted trx := by
  unfold UnappliedTransactionQueue.addPersisted
  split
  · exact h
  · split
    · exact h.insert
    · next un _ =>
      split
      · next htype =>
        -- the persisted entry is another one than the entry that changes its type
        have hne : (⟨trx, .persisted⟩ : UnappliedTransaction) ≠ un := by
          rintro rfl
          exact htype rfl
        exact mem_append_left _ ((mem_erase_of_ne hne).2 h)
      · exact h

theorem persisted_addPersisted (hmode : q.mode ≠ .nonSpeculative) :
    (q.addPersisted trx).Persisted trx := by
  rw [addPersisted, if_neg hmode]
  split
  · next hfind => simp [insert, hfind, Persisted]
  · next un hfind =>
    have hid : un.id = trx := by simpa using find?_some hfind
    subst hid
    split
    · simp [Persisted]
    · next htype =>
      have hun : un = ⟨un.id, .persisted⟩ := by
        cases un
        simpa using htype
      rw [Persisted, ← hun]
      exact mem_of_find?_eq_some hfind

theorem Persisted.clearApplied {block : List Digest} (h : q.Persisted trx) :
    (q.clearApplied block).Persisted trx :=
  mem_filter.2 ⟨h, by simp⟩

theorem Persisted.erase (h : q.Persisted trx) (hne : un ≠ ⟨trx, .persisted⟩) :
    (q.erase un).Persisted trx :=
  (mem_erase_of_ne hne.symm).2 h

variable {expiration : Digest → Nat} {time : Nat} {late : Nat → Bool}

theorem Persisted.clearExpired
    (fuel n : Nat) (h : q.Persisted trx) (htime : time < expiration trx) :
    (q.clearExpired expiration time late fuel n).2.Persisted trx := by
  induction fuel generalizing q n with
  | zero => exact h
  | succ fuel ih =>
    unfold UnappliedTransactionQueue.clearExpired
    split
    · exact h
    · next un _ =>
      split
      · next hexpired =>
        split
        · exact h
        · have hne : un ≠ ⟨trx, .persisted⟩ := by
            rintro rfl
            exact absurd hexpired (by simpa using htime)
          exact ih (n + 1) (h.erase hne)
      · exact h

theorem clearExpired_subset
    (fuel n : Nat) : (q.clearExpired expiration time late fuel n).2.queue ⊆ q.queue := by
  induction fuel generalizing q n with
  | zero => exact List.Subset.refl _
  | succ fuel ih =>
    unfold clearExpired
    split
    · exact List.Subset.refl _
    · split
      · split
        · exact List.Subset.refl _
        · exact List.Subset.trans (ih (n + 1)) erase_subset
      · exact List.Subset.refl _

end UnappliedTransactionQueue

namespace UnappliedState

variable {expiration : Digest → Nat} {x : StartBlockInput} {s t : UnappliedState}

def Persists (s : UnappliedState) : Prop :=
  ∀ trx ∈ s.stored, s.unappliedTransactions.Persisted trx

instance (s : UnappliedState) : Decidable s.Persists :=
  inferInstanceAs (Decidable (∀ _ ∈ _, _))

theorem Persists.abortBlock (h : s.Persists) : s.abortBlock.Persists :=
  fun trx htrx => (UnappliedTransactionQueue.persisted_addAll_iff (by decide)).2 (h trx htrx)

theorem Persists.processIncoming {trx : Digest} {persist : Bool} {push : PushOutcome}
    (h : s.Persists) : (s.processIncoming trx persist push).Persists := by
  unfold UnappliedState.processIncoming
  split
  · split
    · intro other hother
      dsimp only at hother
      split at hother
      · exact (h other hother).addPersisted
      · next hmode =>
        rcases mem_cons.1 hother with rfl | hother
        · exact UnappliedTransactionQueue.persisted_addPersisted hmode
        · exact (h other hother).addPersisted
    · exact h
  · exact h

/-- The loop over the queue: what it erases was not persisted, or has failed. -/
theorem Persists.processUnapplied {n : Nat} {trxs : List UnappliedTransaction} (h : s.Persists)
    (hpush : ∀ un ∈ trxs, un.trxType = .persisted → x.push un.id ≠ .applied) :
    (s.processUnapplied x n trxs).Persists := by
  induction trxs generalizing s n with
  | nil => exact h
  | cons un rest ih =>
    have hrest := fun un' hun' => hpush un' (mem_cons_of_mem _ hun')
    unfold UnappliedState.processUnapplied
    split
    · exact h
    · split
      · next happlied =>
        refine ih (fun trx htrx => (h trx htrx).erase ?_) hrest
        rintro rfl
        exact hpush _ mem_cons_self rfl happlied
      · refine ih (fun trx htrx => ?_) hrest
        have htrx : trx ∈ s.stored ∧ trx ≠ un.id := by simpa using htrx
        refine (h trx htrx.1).erase ?_
        rintro rfl
        exact htrx.2 rfl
      · exact h
      · exact ih h hrest
      · exact ih h hrest

/-- What a `start_block` must not do: apply a transaction of the persisted range. -/
def AppliesNoPersisted (s : UnappliedState) : UnappliedEvent → Prop
  | .startBlock x => ∀ trx, s.unappliedTransactions.Persisted trx → x.push trx ≠ .applied
  | _ => True

theorem mem_of_processed {q : UnappliedTransactionQueue} {producing : Bool}
    {un : UnappliedTransaction}
    (h : un ∈ if producing then q.range .persisted ++ q.range .forked ++ q.range .aborted
      else q.range .persisted) : un ∈ q.queue := by
  split at h
  · simp only [UnappliedTransactionQueue.range, mem_append, mem_filter] at h
    tauto
  · exact mem_of_mem_filter h

theorem Persists.removeExpired (h : s.Persists) :
    (s.removeExpiredPersistedTrxs expiration x).2.Persists := by
  intro trx htrx
  obtain ⟨htrx, htime⟩ := mem_filter.1 htrx
  exact (h trx htrx).clearExpired _ _ (by simpa using htime)

theorem Persists.startBlock (h : s.Persists)
    (hpush : ∀ trx, s.unappliedTransactions.Persisted trx → x.push trx ≠ .applied) :
    (s.startBlock expiration x).Persists := by
  unfold UnappliedState.startBlock
  split
  · dsimp only
    split
    · refine h.abortBlock.removeExpired.processUnapplied fun un hun htype => hpush un.id ?_
      -- what the loop meets in the persisted range was there when `start_block` was called
      have hun := UnappliedTransactionQueue.clearExpired_subset _ _ (mem_of_processed hun)
      cases un
      subst htype
      exact (UnappliedTransactionQueue.persisted_addAll_iff (by decide)).1 hun
    · exact h.abortBlock.removeExpired
  · exact h.abortBlock

theorem Persists.step {event : UnappliedEvent} (h : s.Persists)
    (hevent : s.AppliesNoPersisted event) (ht : s.step expiration event = .ok t) :
    t.Persists := by
  cases event with
  | incoming trx persist push =>
    cases ht
    exact h.processIncoming
  | abortBlock =>
    cases ht
    exact h.abortBlock
  | forkedBranch trxs =>
    cases ht
    exact fun trx htrx =>
      (UnappliedTransactionQueue.persisted_addAll_iff (by decide)).2 (h trx htrx)
  | onBlock trxs | produceBlock packed =>
    cases ht
    exact fun trx htrx => (h trx htrx).clearApplied
  | startBlock x =>
    cases ht
    exact h.startBlock hevent

/-- In every run in which no `start_block` applies a persisted transaction, a stored transaction is
in the persisted range at all times until it expires or fails. -/
theorem persists_of_run (expiration : Digest → Nat) (s : UnappliedState)
    (hs : Reachable (step expiration) AppliesNoPersisted Initial s) : s.Persists :=
  hs.invariant
    (fun _ h trx htrx => absurd htrx (by simp [h.2.2]))
    (fun _ _ _ hI hP ht => hI.step hP ht)

/-! ## A run that loses a transaction -/

def speculate (pendingBlockTime : Nat) (push : PushOutcome) : StartBlockInput where
  pendingBlockTime := pendingBlockTime
  producing := false
  started := true
  lateExpired _ := false
  denylistDone := true
  lateUnapplied _ := false
  push _ := push

def fresh (mode : ProcessMode) : UnappliedState := ⟨⟨[], mode⟩, [], []⟩

theorem fresh_initial (mode : ProcessMode) : (fresh mode).Initial := ⟨rfl, rfl, rfl⟩

/-- A transaction is stored, its block is given up for a block that arrives, and the next
`start_block` finds no time for it: it is still there. -/
theorem persists_of_waiting :
    ∃ s, Reachable (step fun _ => 100) AppliesNoPersisted Initial s ∧ s.stored = [7] ∧
      s.Persists := by
  have hrun : Reachable (step fun _ => 100) AppliesNoPersisted Initial
      ⟨⟨[⟨7, .persisted⟩], .speculativeProducer⟩, [], [7]⟩ := by
    refine .step (.step (.step (.start (fresh_initial .speculativeProducer))
      (a := .incoming 7 true .applied) trivial rfl) (a := .abortBlock) trivial rfl)
      (a := .startBlock (speculate 10 (.exhausted true))) ?_ rfl
    exact fun _ _ h => (by cases h)
  exact ⟨_, hrun, rfl, persists_of_run _ _ hrun⟩

/-- The same run, where the `start_block` at time 10 applies the transaction: with the next block
that arrives it is an aborted one, and the `start_block` at time 20 does not try it. -/
theorem persisted_lost :
    ∃ s, Reachable (step fun _ => 100) (fun _ _ => True) Initial s ∧ s.stored = [7] ∧
      ¬ s.Persists ∧ (s.startBlock (fun _ => 100) (speculate 20 .applied)).pendingTrxs = [] := by
  have hstart : Reachable (step fun _ => 100) (fun _ _ => True) Initial
      (fresh .speculativeProducer) := .start (fresh_initial _)
  have hrun : (replay (step fun _ => 100) (fun _ _ => True) (fresh .speculativeProducer)
      [.incoming 7 true .applied, .abortBlock, .startBlock (speculate 10 .applied),
        .abortBlock]).any (fun s => s.stored = [7] ∧ ¬ s.Persists ∧
      (s.startBlock (fun _ => 100) (speculate 20 .applied)).pendingTrxs = []) = true := by
    decide +kernel
  simpa using hstart.replay hrun

end UnappliedState

end PotatoNode.ProducerPlugin
