import PotatoNode.Lib.Cursor
import PotatoNode.Chain.TransactionContext

/-!
# The loop over the scheduled transactions (`producer_plugin.cpp`)

When a block is started, `process_scheduled_and_incoming_trxs` goes through the generated
transactions in the order `by_delay` and executes those that are due, with incoming transactions in
between. What is executed creates, replaces and cancels generated transactions, in the index that
the loop goes through: the loop keeps the key of the next one and looks it up again.

The clock and what the transactions do are inputs (`SchedulingEnv`), one for each time they are
asked for. The loop ends because everything new is published at the time of the pending block, so
that it is passed over.
-/

namespace PotatoNode.ProducerPlugin

open Lib Chain List
open Chainbase (GenericIndex)

abbrev GeneratedIndex := GenericIndex GeneratedTransactionObject

def delayKey (gto : GeneratedTransactionObject) : ℕ ×ₗ ℤ := toLex (gto.delayUntil, gto.id)

def byDelay (g : GeneratedIndex) : Table delayKey := Table.ofList g.indices.objects.entries

theorem mem_byDelay {g : GeneratedIndex} {gto : GeneratedTransactionObject} :
    gto ∈ byDelay g ↔ gto ∈ g := by
  refine Table.mem_ofList (.of_map (fun k => (ofLex k).2) ?_)
  rw [map_map]
  exact g.indices.objects.nodup_keys

/-! ## What transactions do to the index -/

/-- A generated transaction to be created; times in microseconds. -/
structure NewDeferred where
  trxId : Digest
  sender : AccountName
  senderId : Nat
  payer : AccountName
  delay : Nat
  expirationWindow : Nat
  packedTrx : Bytes

section

variable (pendingBlockTime : Nat)

def NewDeferred.object (new : NewDeferred) (id : Int) : GeneratedTransactionObject where
  id := id
  trxId := new.trxId
  sender := new.sender
  senderId := new.senderId
  payer := new.payer
  published := pendingBlockTime
  delayUntil := pendingBlockTime + new.delay
  expiration := pendingBlockTime + new.delay + new.expirationWindow
  packedTrx := new.packedTrx

/-- What a transaction does to the generated transactions. -/
inductive DeferredChange where
  /-- `transaction_context::schedule_transaction`, for an input transaction with a delay -/
  | scheduleTransaction (new : NewDeferred)
  /-- `apply_context::schedule_deferred_transaction` -/
  | scheduleDeferred (new : NewDeferred) (replaceExisting : Bool)
  /-- `apply_context::cancel_deferred_transaction` -/
  | cancelDeferred (sender : AccountName) (senderId : Nat)

def findBySenderId (g : GeneratedIndex) (sender : AccountName) (senderId : Nat) :
    Option GeneratedTransactionObject :=
  find g fun gto => gto.sender = sender ∧ gto.senderId = senderId

def createDeferred (new : NewDeferred) (g : GeneratedIndex) : Result GeneratedIndex := do
  let (_, g) ← create g (new.object pendingBlockTime)
  .ok g

def DeferredChange.run (g : GeneratedIndex) :
    DeferredChange → Result GeneratedIndex
  | scheduleTransaction new => createDeferred pendingBlockTime new g
  | scheduleDeferred new replaceExisting =>
    match findBySenderId g new.sender new.senderId with
    | some gto => do
      eosAssert (replaceExisting = true) .deferredTxDuplicate
        "deferred transaction with the same sender_id and payer already exists"
      -- remove and create rather than modify
      let g ← remove g gto.id
      createDeferred pendingBlockTime new g
    | none => createDeferred pendingBlockTime new g
  | cancelDeferred sender senderId =>
    match findBySenderId g sender senderId with
    | some gto => remove g gto.id
    | none => .ok g

/-- What the execution of a transaction does: its changes, and whether it fails after them. -/
structure Execution where
  changes : List DeferredChange
  fails : Bool

def Execution.apply (x : Execution) (g : GeneratedIndex) : GeneratedIndex :=
  match x.changes.foldlM (DeferredChange.run pendingBlockTime) g with
  | .ok g' => if x.fails then g else g'
  | .error _ => g

/-- How `push_scheduled_transaction` ends, as the loop sees it. -/
inductive ScheduledOutcome where
  | applied
  /-- with an exception that says that the block is full, and whether `block_is_exhausted` -/
  | exhausted (blockIsExhausted : Bool)
  | failed
  /-- with an exception that is logged and dropped -/
  | thrown

/-- `controller::push_scheduled_transaction`: the generated transaction with the id is removed and
executed, unless all of it is undone. -/
def pushScheduledTransaction (gto : GeneratedTransactionObject)
    (x : Execution) (g : GeneratedIndex) : GeneratedIndex :=
  match remove g gto.id with
  | .ok g' => if x.fails then g else x.apply pendingBlockTime g'
  | .error _ => g

end

/-! ## The loop -/

/-- The arithmetic of `incoming_trx_weight`, a `double`. -/
structure WeightArithmetic (ω : Type) where
  zero : ω
  /-- `incoming_trx_weight >= 1.0` -/
  atLeastOne : ω → Bool
  /-- `incoming_trx_weight -= 1.0` -/
  spend : ω → ω
  /-- `incoming_trx_weight += _incoming_defer_ratio` -/
  earn : ω → ω

/-- What becomes of an incoming transaction: what it does, whether it is added to the pending ones
again, and what `process_incoming_transaction_async` returns. -/
structure IncomingOutcome where
  execution : Execution
  requeued : Bool
  returned : Bool

/-- The inputs of the loop: for each reading of the clock, whether the deadline has passed, and for
each transaction what it does. -/
structure SchedulingEnv (ω : Type) where
  pendingBlockTime : Nat
  weights : WeightArithmetic ω
  deadlineReached : Nat → Bool
  incoming : Nat → IncomingOutcome
  scheduled : Nat → Execution × ScheduledOutcome

/-- The variables that the loop over the incoming transactions uses too. -/
structure Workload (ω : Type) where
  index : GeneratedIndex
  exhausted : Bool
  incomingTrxWeight : ω
  pendingIncomingProcessLimit : Nat
  /-- the size of `_pending_incoming_transactions` -/
  pendingIncoming : Nat
  /-- how many inputs were used -/
  ticks : Nat

/-- The variables of the loop, and what it has done so far. -/
structure SchedulingLoop (ω : Type) extends Workload ω where
  /-- what `sch_itr` points to, unless it is at the end -/
  schItr : Option GeneratedTransactionObject
  denylist : List Digest
  /-- what `sch_itr` has pointed to at the head of the loop -/
  visited : List GeneratedTransactionObject
  /-- of these, whose id was passed to `push_scheduled_transaction` -/
  attempted : List GeneratedTransactionObject
  /-- what `push_scheduled_transaction` found by these ids -/
  executed : List GeneratedTransactionObject

section

variable {ω : Type} (env : SchedulingEnv ω)

/-- `deadline <= fc::time_point::now()`. -/
def Workload.deadlineReached (w : Workload ω) : Bool := env.deadlineReached w.ticks

def Workload.processIncoming (w : Workload ω) : (limit : Nat) → Workload ω
  | 0 => w
  | limit + 1 =>
    if env.weights.atLeastOne w.incomingTrxWeight ∧ 0 < w.pendingIncoming then
      if w.deadlineReached env then { w with exhausted := true }
      else
        let x := env.incoming w.ticks
        let w' : Workload ω :=
          { w with
            index := x.execution.apply env.pendingBlockTime w.index
            pendingIncoming := w.pendingIncoming - 1 + x.requeued.toNat
            pendingIncomingProcessLimit := limit
            incomingTrxWeight := env.weights.spend w.incomingTrxWeight
            ticks := w.ticks + 1 }
        if x.returned then w'.processIncoming limit else { w' with exhausted := true }
    else w

namespace SchedulingLoop

variable (s : SchedulingLoop ω)

section

variable (gto : GeneratedTransactionObject)

def attempt : SchedulingLoop ω :=
  let s := { s with attempted := s.attempted ++ [gto], ticks := s.ticks + 1 }
  let x := env.scheduled s.ticks
  match find s.index (·.trxId = gto.trxId) with
  -- "unknown transaction" is logged and dropped
  | none => s
  | some found =>
    let s := { s with
      executed := s.executed ++ [found]
      index := pushScheduledTransaction env.pendingBlockTime found x.1 s.index }
    match x.2 with
    | .exhausted blockIsExhausted => { s with exhausted := blockIsExhausted }
    | .failed => { s with denylist := gto.trxId :: s.denylist }
    | .applied => s
    | .thrown => s

def updateWeight : SchedulingLoop ω :=
  { s with
    incomingTrxWeight :=
      if s.pendingIncomingProcessLimit = 0 then env.weights.zero
      else env.weights.earn s.incomingTrxWeight }

/-- What is done with a transaction that is due and may be executed, and whether the loop goes on. -/
def processDue : SchedulingLoop ω × Bool :=
  -- save off next since sch_itr may be invalidated by loop
  let schItrNext := (byDelay s.index).next gto
  let w := { s.toWorkload with ticks := s.ticks + 1 }
  let w := w.processIncoming env s.pendingIncomingProcessLimit
  if w.exhausted ∨ w.deadlineReached env then
    ({ s with toWorkload := { w with exhausted := true } }, false)
  else
    let s := attempt env { s with toWorkload := w } gto
    if s.exhausted then (s, false)
    else
      let s := s.updateWeight env
      match schItrNext with
      | none => (s, false)
      | some next => ({ s with schItr := (byDelay s.index).lowerBound (delayKey next) }, true)

def skip : SchedulingLoop ω × Bool :=
  ({ s with schItr := (byDelay s.index).next gto }, true)

def visit : SchedulingLoop ω :=
  { s with visited := s.visited ++ [gto], ticks := s.ticks + 1 }

end

/-- One iteration, and whether there is another one. -/
def iterate : SchedulingLoop ω × Bool :=
  match s.schItr with
  | none => (s, false)
  | some gto =>
    let s := s.visit gto
    -- not scheduled yet
    if env.pendingBlockTime < gto.delayUntil then (s, false)
    else if s.exhausted ∨ s.deadlineReached env then ({ s with exhausted := true }, false)
    -- do not allow schedule and execute in same block
    else if env.pendingBlockTime ≤ gto.published then s.skip gto
    else if gto.trxId ∈ s.denylist then s.skip gto
    else s.processDue env gto

/-- The loop, with a bound on the number of iterations. -/
def loop : (fuel : Nat) → SchedulingLoop ω → Option (SchedulingLoop ω)
  | 0, _ => none
  | fuel + 1, s => if (s.iterate env).2 then loop fuel (s.iterate env).1 else some (s.iterate env).1

def start (g : GeneratedIndex) (denylist : List Digest)
    (pendingIncomingProcessLimit pendingIncoming : Nat) : SchedulingLoop ω where
  index := g
  schItr := (byDelay g).entries.head?
  denylist
  exhausted := false
  incomingTrxWeight := env.weights.zero
  pendingIncomingProcessLimit
  pendingIncoming
  ticks := 0
  visited := []
  attempted := []
  executed := []

end SchedulingLoop

/-- `process_scheduled_and_incoming_trxs`, with a bound on the number of iterations. -/
def processScheduledAndIncomingTrxs (g : GeneratedIndex) (denylist : List Digest)
    (pendingIncomingProcessLimit pendingIncoming fuel : Nat) : Option (SchedulingLoop ω) :=
  SchedulingLoop.loop env fuel (.start env g denylist pendingIncomingProcessLimit pendingIncoming)

end

/-! ## New transactions are published at the time of the pending block -/

def DeferredChange.new? : DeferredChange → Option NewDeferred
  | scheduleTransaction new => some new
  | scheduleDeferred new _ => some new
  | cancelDeferred _ _ => none

def Execution.Creates (x : Execution) (trxId : Digest) : Prop :=
  ∃ c ∈ x.changes, ∃ new ∈ c.new?, new.trxId = trxId

def Grows (pendingBlockTime : Nat) (New : Digest → Prop) (g g' : GeneratedIndex) : Prop :=
  ∀ gto ∈ g', gto ∈ g ∨ gto.published = pendingBlockTime ∧ New gto.trxId

section

variable {t : Nat} {New : Digest → Prop} {g g' g'' : GeneratedIndex}

theorem Grows.refl : Grows t New g g := fun _ h => .inl h

theorem Grows.trans (h : Grows t New g g') (h' : Grows t New g' g'') : Grows t New g g'' :=
  fun gto hgto => (h' gto hgto).elim (h gto) .inr

theorem Grows.mono {New' : Digest → Prop} (h : Grows t New g g') (himp : ∀ d, New d → New' d) :
    Grows t New' g g' :=
  fun gto hgto => (h gto hgto).imp_right fun hnew => ⟨hnew.1, himp _ hnew.2⟩

theorem grows_remove {id : Int} (h : remove g id = .ok g') : Grows t New g g' :=
  fun _ hgto => .inl ((remove_eq_ok h).mem_iff.1 hgto).1

theorem grows_createDeferred {new : NewDeferred} (hnew : New new.trxId)
    (h : createDeferred t new g = .ok g') : Grows t New g g' := by
  obtain ⟨⟨v, g₁⟩, hcreate, h⟩ := bind_eq_ok.1 h
  cases h
  obtain ⟨rfl, hcreated⟩ := create_eq_ok hcreate
  intro gto hgto
  rcases hcreated.mem_iff.1 hgto with rfl | hold
  · exact .inr ⟨rfl, hnew⟩
  · exact .inl hold

theorem DeferredChange.grows_run {c : DeferredChange} (hnew : ∀ new ∈ c.new?, New new.trxId)
    (h : c.run t g = .ok g') : Grows t New g g' := by
  cases c with
  | scheduleTransaction new => exact grows_createDeferred (hnew new rfl) h
  | scheduleDeferred new replaceExisting =>
    simp only [run] at h
    split at h
    · obtain ⟨_, -, h⟩ := bind_eq_ok.1 h
      obtain ⟨g₁, hremove, h⟩ := bind_eq_ok.1 h
      exact (grows_remove hremove).trans (grows_createDeferred (hnew new rfl) h)
    · exact grows_createDeferred (hnew new rfl) h
  | cancelDeferred sender senderId =>
    simp only [run] at h
    split at h
    · exact grows_remove h
    · cases h
      exact .refl

theorem grows_foldlM {changes : List DeferredChange}
    (hnew : ∀ c ∈ changes, ∀ new ∈ c.new?, New new.trxId)
    (h : changes.foldlM (DeferredChange.run t) g = .ok g') : Grows t New g g' := by
  induction changes generalizing g with
  | nil =>
    cases h
    exact .refl
  | cons c changes ih =>
    obtain ⟨g₁, hrun, h⟩ := bind_eq_ok.1 h
    have hfirst := c.grows_run (hnew c mem_cons_self) hrun
    exact hfirst.trans (ih (fun c hc => hnew c (mem_cons_of_mem _ hc)) h)

theorem Execution.grows_apply (x : Execution) : Grows t x.Creates g (x.apply t g) := by
  unfold apply
  split
  · next g' h =>
    split
    · exact .refl
    · exact grows_foldlM (fun c hc new hnew => ⟨c, hc, new, hnew, rfl⟩) h
  · exact .refl

theorem grows_pushScheduledTransaction (gto : GeneratedTransactionObject) (x : Execution) :
    Grows t x.Creates g (pushScheduledTransaction t gto x g) := by
  unfold pushScheduledTransaction
  split
  · next g' h =>
    split
    · exact .refl
    · exact (grows_remove h).trans x.grows_apply
  · exact .refl

end

/-! ## One iteration -/

section

variable {ω : Type} {env : SchedulingEnv ω}

def SchedulingEnv.Creates (env : SchedulingEnv ω) (trxId : Digest) : Prop :=
  ∃ tick, (env.incoming tick).execution.Creates trxId ∨ (env.scheduled tick).1.Creates trxId

def SchedulingEnv.Grows (env : SchedulingEnv ω) : GeneratedIndex → GeneratedIndex → Prop :=
  ProducerPlugin.Grows env.pendingBlockTime env.Creates

theorem Workload.grows_processIncoming (w : Workload ω) (limit : Nat) :
    env.Grows w.index (w.processIncoming env limit).index := by
  induction limit generalizing w with
  | zero => exact .refl
  | succ limit ih =>
    have happly : env.Grows w.index
        ((env.incoming w.ticks).execution.apply env.pendingBlockTime w.index) :=
      (Execution.grows_apply _).mono fun _ hnew => ⟨_, .inl hnew⟩
    simp only [processIncoming]
    split_ifs
    · exact .refl
    · exact happly.trans (ih _)
    · exact happly
    · exact .refl

namespace SchedulingLoop

variable {s : SchedulingLoop ω} {g : GeneratedIndex} {gto : GeneratedTransactionObject}

/-- What an attempt does. -/
structure Attempted (env : SchedulingEnv ω) (gto : GeneratedTransactionObject)
    (s s' : SchedulingLoop ω) : Prop where
  visited : s'.visited = s.visited
  grows : env.Grows s.index s'.index
  attempted : s'.attempted = s.attempted ++ [gto]
  executed : ∀ o ∈ s'.executed, o ∈ s.executed ∨ o ∈ s.index ∧ o.trxId = gto.trxId

theorem attempted_attempt : Attempted env gto s (s.attempt env gto) := by
  unfold attempt
  dsimp only
  cases hfind : find s.index (·.trxId = gto.trxId) with
  | none => exact ⟨rfl, .refl, rfl, fun o ho => .inl ho⟩
  | some found =>
    obtain ⟨hfound, htrxId⟩ := find_eq_some hfind
    have hgrows : env.Grows s.index (pushScheduledTransaction env.pendingBlockTime found
        (env.scheduled (s.ticks + 1)).1 s.index) :=
      (grows_pushScheduledTransaction found _).mono fun _ hnew => ⟨_, .inr hnew⟩
    have hexecuted : ∀ o ∈ s.executed ++ [found],
        o ∈ s.executed ∨ o ∈ s.index ∧ o.trxId = gto.trxId := by
      grind
    cases (env.scheduled _).2 <;> exact ⟨rfl, hgrows, rfl, hexecuted⟩

/-- What an iteration does, and where it leaves the iterator. -/
structure Step (env : SchedulingEnv ω) (gto : GeneratedTransactionObject) (s : SchedulingLoop ω)
    (r : SchedulingLoop ω × Bool) : Prop where
  visited : r.1.visited = s.visited ++ [gto]
  grows : env.Grows s.index r.1.index
  attempted : r.1.attempted = s.attempted ∧ r.1.executed = s.executed
    ∨ gto.delayUntil ≤ env.pendingBlockTime ∧ gto.published < env.pendingBlockTime
      ∧ r.1.attempted = s.attempted ++ [gto]
      ∧ ∀ o ∈ r.1.executed, o ∈ s.executed
        ∨ o.trxId = gto.trxId ∧ (o ∈ s.index ∨ env.Creates o.trxId)
  next : r.2 = true → r.1.index = s.index ∧ r.1.schItr = (byDelay s.index).next gto
    ∨ gto.published < env.pendingBlockTime
      ∧ ∃ next, (byDelay s.index).next gto = some next
        ∧ r.1.schItr = (byDelay r.1.index).lowerBound (delayKey next)

theorem step_processDue (hdue : gto.delayUntil ≤ env.pendingBlockTime)
    (hpublished : gto.published < env.pendingBlockTime) :
    Step env gto s ((s.visit gto).processDue env gto) := by
  unfold processDue
  dsimp only
  generalize hw : Workload.processIncoming env _ _ = w
  have hincoming : env.Grows s.index w.index := by
    rw [← hw]
    exact Workload.grows_processIncoming _ _
  split
  · exact ⟨rfl, hincoming, .inl ⟨rfl, rfl⟩, fun h => (by cases h)⟩
  · have hattempt : Attempted env gto { s.visit gto with toWorkload := w } _ := attempted_attempt
    generalize attempt env { s.visit gto with toWorkload := w } gto = s' at hattempt ⊢
    have hgrows := hincoming.trans hattempt.grows
    have hattempted := hattempt.attempted
    have hexecuted : ∀ o ∈ s'.executed, o ∈ s.executed
        ∨ o.trxId = gto.trxId ∧ (o ∈ s.index ∨ env.Creates o.trxId) := by
      intro o ho
      refine (hattempt.executed o ho).imp_right fun hfound => ⟨hfound.2, ?_⟩
      exact (hincoming o hfound.1).imp_right (·.2)
    split
    · exact ⟨hattempt.visited, hgrows, .inr ⟨hdue, hpublished, hattempted, hexecuted⟩,
        fun h => (by cases h)⟩
    · split
      · exact ⟨hattempt.visited, hgrows, .inr ⟨hdue, hpublished, hattempted, hexecuted⟩,
          fun h => (by cases h)⟩
      · next next hnext =>
        exact ⟨hattempt.visited, hgrows, .inr ⟨hdue, hpublished, hattempted, hexecuted⟩,
          fun _ => .inr ⟨hpublished, next, hnext, rfl⟩⟩

theorem step_iterate (h : s.schItr = some gto) : Step env gto s (s.iterate env) := by
  unfold iterate
  split
  · next hnone => cases hnone.symm.trans h
  · next o ho =>
    cases ho.symm.trans h
    dsimp only
    split_ifs with hdue hexhausted hpublished hdenied
    · exact ⟨rfl, .refl, .inl ⟨rfl, rfl⟩, fun h => (by cases h)⟩
    · exact ⟨rfl, .refl, .inl ⟨rfl, rfl⟩, fun h => (by cases h)⟩
    · exact ⟨rfl, .refl, .inl ⟨rfl, rfl⟩, fun _ => .inl ⟨rfl, rfl⟩⟩
    · exact ⟨rfl, .refl, .inl ⟨rfl, rfl⟩, fun _ => .inl ⟨rfl, rfl⟩⟩
    · exact step_processDue (not_lt.1 hdue) (not_le.1 hpublished)

variable {r : SchedulingLoop ω × Bool}

theorem Step.lt_next (h : Step env gto s r) (hmore : r.2 = true) :
    ∀ next ∈ r.1.schItr, next ∈ r.1.index ∧ delayKey gto < delayKey next := by
  intro next hnext
  rcases h.next hmore with ⟨hindex, hitr⟩ | ⟨-, saved, hsaved, hitr⟩
  · obtain ⟨hmem, hlt⟩ := Table.next_eq_some (hitr.symm.trans hnext)
    exact ⟨hindex ▸ mem_byDelay.1 hmem, hlt⟩
  · obtain ⟨hmem, hle⟩ := Table.lowerBound_eq_some (hitr.symm.trans hnext)
    exact ⟨mem_byDelay.1 hmem, (Table.next_eq_some hsaved).2.trans_le hle⟩

/-- How many transactions from the iterator on were published before, and how many there are. -/
def remaining (env : SchedulingEnv ω) (s : SchedulingLoop ω) : ℕ ×ₗ ℕ :=
  toLex ((byDelay s.index).remaining (·.published < env.pendingBlockTime) s.schItr,
    (byDelay s.index).remaining (fun _ => true) s.schItr)

/-- Where an iteration changes the index, it leaves behind a transaction that was published before.
Nothing of that kind is ever added. -/
theorem Step.remaining_lt (h : Step env gto s r) (hitr : s.schItr = some gto) (hgto : gto ∈ s.index)
    (hmore : r.2 = true) : r.1.remaining env < s.remaining env := by
  have hlater := fun next hnext => (h.lt_next hmore next hnext).2
  have hmem := mem_byDelay.2 hgto
  have hold : ∀ b ∈ byDelay r.1.index, decide (b.published < env.pendingBlockTime) = true
      → b ∈ byDelay s.index := by
    intro b hb hpublished
    rcases h.grows b (mem_byDelay.1 hb) with hb | ⟨heq, -⟩
    · exact mem_byDelay.2 hb
    · exact absurd heq (of_decide_eq_true hpublished).ne
  unfold remaining
  rw [hitr, Prod.Lex.toLex_lt_toLex']
  refine ⟨Table.remaining_le hlater hold, fun heq => ?_⟩
  rcases h.next hmore with ⟨hindex, -⟩ | ⟨hpublished, -⟩
  · exact Table.remaining_lt hmem rfl hlater fun b hb _ => hindex ▸ hb
  · exact absurd heq (Table.remaining_lt hmem (decide_eq_true hpublished) hlater hold).ne

/-! ## The whole loop -/

/-- What the loop has done so far, on the index `g` it began with. -/
structure Progress (env : SchedulingEnv ω) (g : GeneratedIndex) (s : SchedulingLoop ω) : Prop where
  /-- in strictly increasing order -/
  visited : s.visited.Pairwise (delayKey · < delayKey ·)
  attempted : s.attempted.Sublist s.visited
  /-- what was attempted was there from the start, due, and published before -/
  due : ∀ gto ∈ s.attempted, gto ∈ g ∧ gto.delayUntil ≤ env.pendingBlockTime
    ∧ gto.published < env.pendingBlockTime
  /-- and it is what was executed, or has the id of a new transaction -/
  executed : ∀ gto ∈ s.executed, gto ∈ s.attempted ∨ env.Creates gto.trxId

/-- The iterator is in the index, past all that was visited. -/
structure AtHead (env : SchedulingEnv ω) (g : GeneratedIndex) (s : SchedulingLoop ω) : Prop where
  progress : Progress env g s
  grows : env.Grows g s.index
  schItr : ∀ gto ∈ s.schItr, gto ∈ s.index ∧ ∀ v ∈ s.visited, delayKey v < delayKey gto

theorem AtHead.progress_step (h : AtHead env g s) (hitr : s.schItr = some gto)
    (hr : Step env gto s r) : Progress env g r.1 := by
  obtain ⟨hgto, hlater⟩ := h.schItr gto hitr
  have hvisited : r.1.visited.Pairwise (delayKey · < delayKey ·) := by
    rw [hr.visited, pairwise_append]
    exact ⟨h.progress.visited, pairwise_singleton _ _, by simpa using hlater⟩
  rcases hr.attempted with ⟨hsame, hexecuted⟩ | ⟨hdue, hpublished, hattempted, hexecuted⟩
  · refine ⟨hvisited, ?_, hsame ▸ h.progress.due, hsame ▸ hexecuted ▸ h.progress.executed⟩
    rw [hsame, hr.visited]
    exact h.progress.attempted.trans (sublist_append_left _ _)
  · have hold : gto ∈ g := (h.grows gto hgto).resolve_right fun hnew => hpublished.ne hnew.1
    refine ⟨hvisited, ?_, ?_, ?_⟩
    · rw [hattempted, hr.visited]
      exact h.progress.attempted.append (.refl _)
    · rw [hattempted]
      simpa [or_imp, forall_and, hold, hdue, hpublished] using h.progress.due
    · intro o ho
      rw [hattempted, mem_append, mem_singleton]
      rcases hexecuted o ho with ho | ⟨hid, hmem | hnew⟩
      · exact (h.progress.executed o ho).imp_left .inl
      -- the index has one transaction of that id
      · exact .inl (.inr (s.index.indices.unique o hmem gto hgto (decide_eq_true (.inl hid))))
      · exact .inr hnew

theorem AtHead.step (h : AtHead env g s) (hitr : s.schItr = some gto) (hr : Step env gto s r)
    (hmore : r.2 = true) : AtHead env g r.1 := by
  refine ⟨h.progress_step hitr hr, h.grows.trans hr.grows, fun next hnext => ?_⟩
  obtain ⟨hmem, hlt⟩ := hr.lt_next hmore next hnext
  refine ⟨hmem, fun v hv => ?_⟩
  rw [hr.visited, mem_append, mem_singleton] at hv
  rcases hv with hv | rfl
  · exact ((h.schItr gto hitr).2 v hv).trans hlt
  · exact hlt

theorem AtHead.exists_loop (h : AtHead env g s) :
    ∃ fuel s', loop env fuel s = some s' ∧ Progress env g s' := by
  induction hs : s.remaining env using WellFoundedLT.induction generalizing s with
  | ind m ih =>
    cases hitr : s.schItr with
    | none =>
      have hiterate : s.iterate env = (s, false) := by
        unfold iterate
        rw [hitr]
      exact ⟨1, s, by simp [loop, hiterate], h.progress⟩
    | some gto =>
      have hr : Step env gto s (s.iterate env) := step_iterate hitr
      by_cases hmore : (s.iterate env).2 = true
      · have hless := hr.remaining_lt hitr (h.schItr gto hitr).1 hmore
        obtain ⟨fuel, s', hloop, hs'⟩ := ih _ (hs ▸ hless) (h.step hitr hr hmore) rfl
        exact ⟨fuel + 1, s', by simpa [loop, hmore] using hloop, hs'⟩
      · exact ⟨1, _, by simp [loop, hmore], h.progress_step hitr hr⟩

end SchedulingLoop

/-- **The loop over the scheduled transactions makes progress.** Whatever the transactions do and
whenever the deadline is, it ends; it visits transactions in strictly increasing order of
`(delay_until, id)`, and attempts each one at most once, only those due and published before the
pending block. -/
theorem processScheduled_progresses (env : SchedulingEnv ω) (g : GeneratedIndex)
    (denylist : List Digest) (pendingIncomingProcessLimit pendingIncoming : Nat) :
    ∃ fuel s, processScheduledAndIncomingTrxs env g denylist pendingIncomingProcessLimit
        pendingIncoming fuel = some s
      ∧ SchedulingLoop.Progress env g s ∧ (s.attempted.map (·.trxId)).Nodup := by
  have hhead : ∀ gto ∈ (byDelay g).entries.head?, gto ∈ g := fun gto hgto =>
    mem_byDelay.1 (mem_of_head? hgto)
  have hstart : SchedulingLoop.AtHead env g
      (.start env g denylist pendingIncomingProcessLimit pendingIncoming) :=
    ⟨⟨.nil, .slnil, nofun, nofun⟩, .refl, fun gto hgto => ⟨hhead gto hgto, nofun⟩⟩
  obtain ⟨fuel, s, hloop, hs⟩ := hstart.exists_loop
  refine ⟨fuel, s, hloop, hs, ?_⟩
  have hnodup : s.attempted.Nodup := by
    refine (hs.visited.imp ?_).sublist hs.attempted
    rintro a b hlt rfl
    exact lt_irrefl _ hlt
  refine hnodup.map_on fun a ha b hb hid => ?_
  exact g.indices.unique a (hs.due a ha).1 b (hs.due b hb).1 (decide_eq_true (.inl hid))

end

end PotatoNode.ProducerPlugin
