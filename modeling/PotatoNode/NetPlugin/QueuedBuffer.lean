import Mathlib.Data.UInt
import PotatoNode.Lib.FifoLedger
import PotatoNode.Chain.Exceptions

/-!
# The outgoing buffers of a connection (`queued_buffer` of `net_plugin.cpp`)

Messages wait in one of two queues, that of blocks a peer asked for and that of everything else.
`fill_out_buffer` empties one of them into a third, which holds what is being written. One counter
of 32 bits has the size of both queues, and `fill_out_buffer` asserts that it is zero once nothing
waits.
-/

namespace PotatoNode.NetPlugin

open Lib Chain List UInt32

/-- A message as the bytes that go to the socket. -/
abbrev Buffer : Type := List UInt8

/-- `queued_write`. The callbacks are of any type: they are carried along. -/
structure QueuedWrite (κ : Type) where
  buff : Buffer
  callback : κ
deriving DecidableEq, Repr

def defMaxWriteQueueSize : Nat := 1024 * 1024 * 4 * 10

structure QueuedBuffer (κ : Type) where
  writeQueueSize : UInt32
  writeQueue : List (QueuedWrite κ)
  syncWriteQueue : List (QueuedWrite κ)
  outQueue : List (QueuedWrite κ)
deriving DecidableEq, Repr

inductive WriteQueue where
  | sync
  | normal
deriving DecidableEq, Repr

namespace QueuedBuffer

variable {κ : Type} (q : QueuedBuffer κ)

def new : QueuedBuffer κ := ⟨0, [], [], []⟩

def clearWriteQueue : QueuedBuffer κ :=
  { q with writeQueue := [], syncWriteQueue := [], writeQueueSize := 0 }

def clearOutQueue : QueuedBuffer κ := { q with outQueue := [] }

/-- `add_write_queue`; the value returned says whether there is room left. -/
def addWriteQueue (w : QueuedWrite κ) (toSyncQueue : Bool) : Bool × QueuedBuffer κ :=
  let q := if toSyncQueue then { q with syncWriteQueue := q.syncWriteQueue ++ [w] }
    else { q with writeQueue := q.writeQueue ++ [w] }
  let q := { q with writeQueueSize := q.writeQueueSize + UInt32.ofNat w.buff.length }
  (q.writeQueueSize ≤ UInt32.ofNat (2 * defMaxWriteQueueSize), q)

/-- The loop of the private `fill_out_buffer`: it empties `wQueue` into `bufs` and `_out_queue`, and
counts down `_write_queue_size`. -/
def fillOutBufferFrom : (wQueue : List (QueuedWrite κ)) → (bufs : List Buffer) →
    QueuedBuffer κ → List Buffer × QueuedBuffer κ
  | [], bufs, q => (bufs, q)
  | m :: wQueue, bufs, q =>
    fillOutBufferFrom wQueue (bufs ++ [m.buff])
      { q with
        writeQueueSize := q.writeQueueSize - UInt32.ofNat m.buff.length
        outQueue := q.outQueue ++ [m] }

def fillOutBuffer (bufs : List Buffer) : Result (List Buffer × QueuedBuffer κ) :=
  -- always send msgs from sync_write_queue first
  if 0 < q.syncWriteQueue.length then
    .ok (fillOutBufferFrom q.syncWriteQueue bufs { q with syncWriteQueue := [] })
  -- postpone real_time write_queue if sync queue is not empty
  else do
    let (bufs, q) := fillOutBufferFrom q.writeQueue bufs { q with writeQueue := [] }
    eosAssert (q.writeQueueSize = 0) .pluginException "write queue size expected to be zero"
    pure (bufs, q)

/-! ## The counter -/

def totalSize (queue : List (QueuedWrite κ)) : Nat :=
  (queue.map fun w => w.buff.length).sum

/-- The counter has what is queued, modulo `2 ^ 32`. -/
def Sized : Prop :=
  q.writeQueueSize = UInt32.ofNat (totalSize q.syncWriteQueue + totalSize q.writeQueue)

variable {q}

theorem totalSize_append (l l' : List (QueuedWrite κ)) :
    totalSize (l ++ l') = totalSize l + totalSize l' := by
  unfold totalSize
  rw [map_append, sum_append]

theorem totalSize_cons (m : QueuedWrite κ) (l : List (QueuedWrite κ)) :
    totalSize (m :: l) = m.buff.length + totalSize l :=
  totalSize_append [m] l

theorem sized_new : (new : QueuedBuffer κ).Sized := rfl

theorem fillOutBufferFrom_eq (wQueue : List (QueuedWrite κ)) (bufs : List Buffer)
    (q : QueuedBuffer κ) :
    fillOutBufferFrom wQueue bufs q = (bufs ++ wQueue.map QueuedWrite.buff,
      { q with
        writeQueueSize := q.writeQueueSize - ofNat (totalSize wQueue)
        outQueue := q.outQueue ++ wQueue }) := by
  induction wQueue generalizing bufs q with
  | nil => simp [fillOutBufferFrom, totalSize]
  | cons m wQueue ih =>
    unfold fillOutBufferFrom
    rw [ih]
    simp [totalSize_cons, sub_sub]

theorem fillOutBuffer_eq (h : q.Sized) (bufs : List Buffer) :
    q.fillOutBuffer bufs =
      if q.syncWriteQueue ≠ [] then
        .ok (bufs ++ q.syncWriteQueue.map QueuedWrite.buff,
          { q with
            syncWriteQueue := []
            writeQueueSize := ofNat (totalSize q.writeQueue)
            outQueue := q.outQueue ++ q.syncWriteQueue })
      else
        .ok (bufs ++ q.writeQueue.map QueuedWrite.buff,
          { q with
            writeQueue := []
            writeQueueSize := 0
            outQueue := q.outQueue ++ q.writeQueue }) := by
  unfold fillOutBuffer
  simp only [fillOutBufferFrom_eq]
  by_cases hsync : q.syncWriteQueue = []
  · have hzero : q.writeQueueSize - ofNat (totalSize q.writeQueue) = 0 := by
      rw [h, hsync]
      simp [totalSize]
    simp [hsync, hzero, eosAssert_of]
  · have hpos : 0 < q.syncWriteQueue.length := length_pos_iff.2 hsync
    rw [if_pos hpos, if_pos hsync, h, ofNat_add, add_sub_cancel_left]

/-! ## Sequences of calls -/

end QueuedBuffer

inductive QueueCall (κ : Type) where
  | addWriteQueue (w : QueuedWrite κ) (toSyncQueue : Bool)
  | fillOutBuffer
  | clearOutQueue
  | clearWriteQueue
deriving DecidableEq, Repr

namespace QueuedBuffer

variable {κ : Type} (q : QueuedBuffer κ)

/-- One call, with what it adds to the buffers of its caller: `do_queue_write` passes an empty
vector. -/
def apply : QueueCall κ → Result (List Buffer × QueuedBuffer κ)
  | .addWriteQueue w toSyncQueue => .ok ([], (q.addWriteQueue w toSyncQueue).2)
  | .fillOutBuffer => q.fillOutBuffer []
  | .clearOutQueue => .ok ([], q.clearOutQueue)
  | .clearWriteQueue => .ok ([], q.clearWriteQueue)

def queue : WriteQueue → List (QueuedWrite κ)
  | .sync => q.syncWriteQueue
  | .normal => q.writeQueue

def waiting (k : WriteQueue) : List Buffer := (q.queue k).map QueuedWrite.buff

end QueuedBuffer

/-- A call in a run: the state it was made in, and what it handed out. -/
structure QueueStep (κ : Type) where
  before : QueuedBuffer κ
  call : QueueCall κ
  bufs : List Buffer

namespace QueueStep

variable {κ : Type} (s : QueueStep κ) (k : WriteQueue)

def added : List Buffer :=
  match s.call with
  | .addWriteQueue w toSyncQueue =>
    if k = (if toSyncQueue then .sync else .normal) then [w.buff] else []
  | _ => []

def handedOut : List Buffer :=
  match s.call with
  | .fillOutBuffer =>
    if k = (if s.before.syncWriteQueue = [] then .normal else .sync) then s.bufs else []
  | _ => []

def dropped : List Buffer :=
  match s.call with
  | .clearWriteQueue => s.before.waiting k
  | _ => []

end QueueStep

namespace QueuedBuffer

variable {κ : Type} {q q' : QueuedBuffer κ}

def run (q : QueuedBuffer κ) : List (QueueCall κ) → Result (List (QueueStep κ) × QueuedBuffer κ)
  | [] => .ok ([], q)
  | call :: calls => do
    let (bufs, q') ← q.apply call
    let (steps, q'') ← q'.run calls
    pure (⟨q, call, bufs⟩ :: steps, q'')

/-- What holds of one call that is made with a right counter. -/
structure Sound (q : QueuedBuffer κ) (call : QueueCall κ) (bufs : List Buffer)
    (q' : QueuedBuffer κ) : Prop where
  sized : q'.Sized
  -- the queue that hands out something is emptied, and the normal one only hands out alone
  source : call = .fillOutBuffer →
    bufs = q.waiting (if q.syncWriteQueue = [] then .normal else .sync)
  accounted : ∀ {k added handedOut dropped}, Fifo.Accounted added handedOut dropped (q.waiting k) →
    Fifo.Accounted (added ++ (⟨q, call, bufs⟩ : QueueStep κ).added k)
      (handedOut ++ (⟨q, call, bufs⟩ : QueueStep κ).handedOut k)
      (dropped ++ (⟨q, call, bufs⟩ : QueueStep κ).dropped k) (q'.waiting k)

theorem addWriteQueue_sized (h : q.Sized) (w : QueuedWrite κ) (toSyncQueue : Bool) :
    (q.addWriteQueue w toSyncQueue).2.Sized := by
  unfold Sized at h
  cases toSyncQueue with
  | false => simp [addWriteQueue, Sized, h, totalSize, add_assoc]
  | true => simp [addWriteQueue, Sized, h, totalSize, add_right_comm]

theorem addWriteQueue_waiting (w : QueuedWrite κ) (toSyncQueue : Bool) (k : WriteQueue) :
    (q.addWriteQueue w toSyncQueue).2.waiting k =
      q.waiting k ++ (⟨q, .addWriteQueue w toSyncQueue, []⟩ : QueueStep κ).added k := by
  cases k <;> cases toSyncQueue <;> simp [QueueStep.added, addWriteQueue, waiting, queue]

theorem fillOutBuffer_sound (h : q.Sized) :
    ∃ bufs q', q.fillOutBuffer [] = .ok (bufs, q') ∧ q.Sound .fillOutBuffer bufs q' := by
  have hfill := fillOutBuffer_eq h []
  by_cases hsync : q.syncWriteQueue = []
  · rw [if_neg (not_not.2 hsync)] at hfill
    refine ⟨_, _, hfill, ?_, ?_, ?_⟩
    · simp [Sized, hsync, totalSize]
    · simp [hsync, waiting, queue]
    · intro k added handedOut dropped hk
      simp only [QueueStep.added, QueueStep.handedOut, QueueStep.dropped, append_nil, if_pos hsync]
      cases k with
      | sync => simpa [waiting, queue] using hk
      | normal => simpa [waiting, queue] using hk.handOut
  · rw [if_pos hsync] at hfill
    refine ⟨_, _, hfill, ?_, ?_, ?_⟩
    · simp [Sized, totalSize]
    · simp [hsync, waiting, queue]
    · intro k added handedOut dropped hk
      simp only [QueueStep.added, QueueStep.handedOut, QueueStep.dropped, append_nil, if_neg hsync]
      cases k with
      | sync => simpa [waiting, queue] using hk.handOut
      | normal => simpa [waiting, queue] using hk

theorem apply_sound (h : q.Sized) (call : QueueCall κ) :
    ∃ bufs q', q.apply call = .ok (bufs, q') ∧ q.Sound call bufs q' := by
  cases call with
  | addWriteQueue w toSyncQueue =>
    refine ⟨[], _, rfl, addWriteQueue_sized h w toSyncQueue, fun h => (by cases h), ?_⟩
    intro k added handedOut dropped hk
    rw [addWriteQueue_waiting]
    simpa only [QueueStep.handedOut, QueueStep.dropped, append_nil] using hk.add _
  | fillOutBuffer => exact fillOutBuffer_sound h
  | clearOutQueue =>
    refine ⟨[], _, rfl, h, fun h => (by cases h), ?_⟩
    intro k added handedOut dropped hk
    simp only [QueueStep.added, QueueStep.handedOut, QueueStep.dropped, append_nil]
    cases k <;> exact hk
  | clearWriteQueue =>
    refine ⟨[], _, rfl, rfl, fun h => (by cases h), ?_⟩
    intro k added handedOut dropped hk
    simp only [QueueStep.added, QueueStep.handedOut, QueueStep.dropped, append_nil]
    cases k <;> exact hk.drop

/-- The same over a run, from any state with a right counter. -/
theorem run_sound (calls : List (QueueCall κ)) (h : q.Sized)
    (added handedOut dropped : WriteQueue → List Buffer)
    (hq : ∀ k, Fifo.Accounted (added k) (handedOut k) (dropped k) (q.waiting k)) :
    ∃ steps q', q.run calls = .ok (steps, q') ∧ steps.map QueueStep.call = calls
      ∧ (∀ k, Fifo.Accounted (added k ++ steps.flatMap (QueueStep.added · k))
          (handedOut k ++ steps.flatMap (QueueStep.handedOut · k))
          (dropped k ++ steps.flatMap (QueueStep.dropped · k)) (q'.waiting k))
      ∧ ∀ s ∈ steps, s.call = .fillOutBuffer →
          s.bufs = s.before.waiting (if s.before.syncWriteQueue = [] then .normal else .sync) := by
  induction calls generalizing q added handedOut dropped with
  | nil => exact ⟨[], q, rfl, rfl, by simpa using hq, by simp⟩
  | cons call calls ih =>
    obtain ⟨bufs, q₁, hq₁, hsound⟩ := apply_sound h call
    obtain ⟨steps, q', hrun, hcalls, hacc, hsource⟩ :=
      ih hsound.sized _ _ _ fun k => hsound.accounted (hq k)
    refine ⟨⟨q, call, bufs⟩ :: steps, q', ?_, by rw [map_cons, hcalls], fun k => ?_, ?_⟩
    · rw [run, hq₁, ok_bind]
      dsimp only
      rw [hrun]
      rfl
    · simpa only [flatMap_cons, append_assoc] using hacc k
    · exact forall_mem_cons.2 ⟨hsound.source, hsource⟩

/-- Whatever calls are made, none fails. In each of the two queues every buffer added still waits, or
was dropped, or was handed out once and in the order of the queue, and `fill_out_buffer` hands out all
of the sync queue, or, if nothing waits there, all of the normal one. -/
theorem run_accounted (calls : List (QueueCall κ)) :
    ∃ steps q, (new : QueuedBuffer κ).run calls = .ok (steps, q) ∧ steps.map QueueStep.call = calls
      ∧ (∀ k, Fifo.Accounted (steps.flatMap (QueueStep.added · k))
          (steps.flatMap (QueueStep.handedOut · k)) (steps.flatMap (QueueStep.dropped · k))
          (q.waiting k))
      ∧ ∀ s ∈ steps, s.call = .fillOutBuffer →
          s.bufs = s.before.waiting (if s.before.syncWriteQueue = [] then .normal else .sync) :=
  run_sound calls sized_new (fun _ => []) (fun _ => []) (fun _ => [])
    fun k => (by cases k <;> exact Fifo.accounted_nil)

end QueuedBuffer

end PotatoNode.NetPlugin
