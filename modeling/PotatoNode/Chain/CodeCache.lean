import Mathlib.Data.List.AList
import PotatoNode.Chain.BlockHeader

/-!
# The cache of compiled contracts (`webassembly/eos-vm-oc/code_cache.cpp`)

Contracts are compiled by another process, the compile monitor. `code_cache_async` asks it to, one
code per thread at a time, and takes up its results when it is next asked for a code. The monitor
allocates the memory of a compiled code, which the cache knows by its `code_descriptor`, and only
frees it when an evict message names that descriptor.

`CodeCache` is `code_cache_async`; `CompileSystem` has the monitor too. The two exchange messages
over sockets, and a thread of the node moves the results that come in to the result queue, so all
that happens on the side of the monitor may happen between any two calls. Messages are not lost.
-/

namespace PotatoNode.Chain

structure CodeTuple where
  codeId : Digest
  vmVersion : UInt8
deriving DecidableEq, Repr

/-- `code_descriptor`, with the two places of its memory. -/
structure CodeDescriptor where
  codeHash : Digest
  vmVersion : UInt8
  codeBegin : Nat
  initdataBegin : Nat
deriving DecidableEq, Repr

/-- The key of the index `by_hash`. -/
def CodeDescriptor.code (cd : CodeDescriptor) : CodeTuple := ⟨cd.codeHash, cd.vmVersion⟩

inductive WasmCompilationResult where
  | codeDescriptor (cd : CodeDescriptor)
  | unknownFailure
  | tooFull
deriving DecidableEq, Repr

def WasmCompilationResult.descriptor? : WasmCompilationResult → Option CodeDescriptor
  | .codeDescriptor cd => some cd
  | _ => none

structure WasmCompilationResultMessage where
  code : CodeTuple
  result : WasmCompilationResult
  cacheFreeBytes : Nat
deriving DecidableEq, Repr

/-- What the node writes to the compile monitor. -/
inductive MonitorMessage where
  | compileWasm (code : CodeTuple)
  | evictWasms (codes : List CodeDescriptor)
deriving DecidableEq, Repr

namespace MonitorMessage

def requested? : MonitorMessage → Option CodeTuple
  | compileWasm code => some code
  | evictWasms _ => none

def evicted : MonitorMessage → List CodeDescriptor
  | compileWasm _ => []
  | evictWasms codes => codes

end MonitorMessage

/-! ## The index -/

/-- `code_cache_index`: in the order of use, the most recent first, and unique by code. -/
structure CodeCacheIndex where
  entries : List CodeDescriptor
  unique : (entries.map CodeDescriptor.code).Nodup

namespace CodeCacheIndex

variable (index : CodeCacheIndex)

theorem unique_of_sublist {entries : List CodeDescriptor} (h : entries.Sublist index.entries) :
    (entries.map CodeDescriptor.code).Nodup :=
  index.unique.sublist (h.map _)

theorem unique_cons {cd : CodeDescriptor} (h : cd.code ∉ index.entries.map CodeDescriptor.code) :
    ((cd :: index.entries).map CodeDescriptor.code).Nodup :=
  List.nodup_cons.2 ⟨h, index.unique⟩

def empty : CodeCacheIndex := ⟨[], List.nodup_nil⟩

def find? (ct : CodeTuple) : Option CodeDescriptor := index.entries.find? (·.code = ct)

/-- `push_front`, which does nothing if the code has an entry. -/
def pushFront (cd : CodeDescriptor) : CodeCacheIndex :=
  if h : cd.code ∈ index.entries.map CodeDescriptor.code then index
  else ⟨cd :: index.entries, index.unique_cons h⟩

def erase (ct : CodeTuple) : CodeCacheIndex :=
  ⟨index.entries.filter (·.code ≠ ct), index.unique_of_sublist List.filter_sublist⟩

def relocateFront (cd : CodeDescriptor) : CodeCacheIndex := (index.erase cd.code).pushFront cd

def popBack : CodeCacheIndex :=
  ⟨index.entries.dropLast, index.unique_of_sublist (List.dropLast_sublist _)⟩

end CodeCacheIndex

/-! ## The cache -/

/-- `code_cache_async`. The order of the queued compiles is that of an unordered set: see `DbEnv`. -/
structure CodeCache where
  cacheIndex : CodeCacheIndex
  queuedCompiles : List CodeTuple
  outstandingCompilesAndPoison : AList fun _ : CodeTuple => Bool
  denylist : List CodeTuple
  resultQueue : List WasmCompilationResultMessage
  threads : Nat
  freeBytesEvictionThreshold : Nat
  /-- the messages written to the compile monitor so far -/
  written : List MonitorMessage

/-- What a call finds: the codes that have a `code_object`, and which of the queued compiles is the
first one of the unordered set. -/
structure DbEnv where
  hasCodeObject : CodeTuple → Bool
  begin : List CodeTuple → Nat

namespace CodeCache

variable (s : CodeCache)

def write (message : MonitorMessage) : CodeCache := { s with written := s.written ++ [message] }

/-- The loop of `run_eviction_round`: up to `n` descriptors from the back, but never the last one. -/
def evict : (n : Nat) → (codes : List CodeDescriptor) → CodeCacheIndex →
    List CodeDescriptor × CodeCacheIndex
  | 0, codes, index => (codes, index)
  | n + 1, codes, index =>
    match index.entries.getLast? with
    | some cd =>
      if 1 < index.entries.length then evict n (codes ++ [cd]) index.popBack else (codes, index)
    | none => (codes, index)

def runEvictionRound : CodeCache :=
  let (codes, index) := evict 25 [] s.cacheIndex
  { s with cacheIndex := index }.write (.evictWasms codes)

def checkEvictionThreshold (freeBytes : Nat) : CodeCache :=
  if freeBytes < s.freeBytesEvictionThreshold then s.runEvictionRound else s

def visitResult (result : WasmCompilationResultMessage) : CodeCache :=
  match result.result with
  | .codeDescriptor cd => { s with cacheIndex := s.cacheIndex.pushFront cd }
  | .unknownFailure => { s with denylist := result.code :: s.denylist }
  | .tooFull => s.runEvictionRound

variable (ct : CodeTuple)

/-- A compile that `free_code` has poisoned since it was started. -/
def poisoned : Bool := (s.outstandingCompilesAndPoison.lookup ct).getD false

/-- What `consume_compile_thread_queue` does with a result. -/
def consumeResult (result : WasmCompilationResultMessage) : CodeCache :=
  let s := if s.poisoned result.code then s else s.visitResult result
  { s with outstandingCompilesAndPoison := s.outstandingCompilesAndPoison.erase result.code }

/-- `consume_compile_thread_queue`, with the number of results and the bytes that remain according
to the last one. -/
def consumeCompileThreadQueue : Nat × Nat × CodeCache :=
  (s.resultQueue.length, (s.resultQueue.getLast?.map (·.cacheFreeBytes)).getD 0,
    s.resultQueue.foldl consumeResult { s with resultQueue := [] })

def startCompile : CodeCache :=
  { s with
    outstandingCompilesAndPoison :=
      if ct ∈ s.outstandingCompilesAndPoison then s.outstandingCompilesAndPoison
      else s.outstandingCompilesAndPoison.insert ct false }.write (.compileWasm ct)

def dequeue : CodeCache :=
  { s with queuedCompiles := s.queuedCompiles.filter (· ≠ ct) }

def nextUp (env : DbEnv) : Option CodeTuple :=
  s.queuedCompiles[env.begin s.queuedCompiles % s.queuedCompiles.length]?

/-- The loop that starts queued compiles, one for each result that was processed. Every iteration
takes a queued compile, so it ends within as many iterations as there are. -/
def startQueued (env : DbEnv) : (fuel : Nat) → (countProcessed : Nat) → CodeCache → CodeCache
  | 0, _, s => s
  | fuel + 1, countProcessed, s =>
    if countProcessed = 0 then s
    else
      match s.nextUp env with
      | none => s
      | some nextup =>
        if env.hasCodeObject nextup then
          startQueued env fuel (countProcessed - 1) ((s.startCompile nextup).dequeue nextup)
        else startQueued env fuel countProcessed (s.dequeue nextup)

/-- The results that have come in are taken up; the last one says how much memory is left. -/
def takeResults : CodeCache :=
  let (countProcessed, bytesRemaining, s) := s.consumeCompileThreadQueue
  if countProcessed = 0 then s else s.checkEvictionThreshold bytesRemaining

/-- What `get_descriptor_for_code` does first: if there are any outstanding compiles, the result
queue is processed, and queued compiles are started in the place of those that are over. -/
def processResults (env : DbEnv) : CodeCache :=
  if s.outstandingCompilesAndPoison.keys.length = 0 then s
  else startQueued env s.takeResults.queuedCompiles.length s.resultQueue.length s.takeResults

def getDescriptorForCode (env : DbEnv) (ct : CodeTuple) : Option CodeDescriptor × CodeCache :=
  let s := s.processResults env
  match s.cacheIndex.find? ct with
  | some cd => (some cd, { s with cacheIndex := s.cacheIndex.relocateFront cd })
  | none =>
    if ct ∈ s.denylist then (none, s)
    else if ct ∈ s.outstandingCompilesAndPoison then
      (none, { s with
        outstandingCompilesAndPoison := s.outstandingCompilesAndPoison.replace ct false })
    else if ct ∈ s.queuedCompiles then (none, s)
    else if s.threads ≤ s.outstandingCompilesAndPoison.keys.length then
      (none, { s with queuedCompiles := ct :: s.queuedCompiles })
    -- should be impossible right?
    else if !env.hasCodeObject ct then (none, s)
    else (none, s.startCompile ct)

def freeCode : CodeCache :=
  let s :=
    match s.cacheIndex.find? ct with
    | some cd => { s.write (.evictWasms [cd]) with cacheIndex := s.cacheIndex.erase ct }
    | none => s
  -- if it's in the queued list, erase it
  let s := s.dequeue ct
  -- if it's currently being compiled there is no way to cancel the compile
  { s with outstandingCompilesAndPoison := s.outstandingCompilesAndPoison.replace ct true }

end CodeCache

/-! ## The system -/

/-- How a compile ends in the monitor: with the memory allocated for its code and its initial data,
with a failure, or with no memory left. -/
inductive CompileOutcome where
  | allocated (codeBegin initdataBegin : Nat)
  | failed
  | tooFull
deriving DecidableEq, Repr

/-- The result of `read_message_from_compile_task` for a code. -/
def CompileOutcome.result (code : CodeTuple) : CompileOutcome → WasmCompilationResult
  | allocated codeBegin initdataBegin =>
    .codeDescriptor ⟨code.codeId, code.vmVersion, codeBegin, initdataBegin⟩
  | failed => .unknownFailure
  | tooFull => .tooFull

structure CompileSystem where
  cache : CodeCache
  /-- how many of the messages written the monitor has read -/
  readCount : Nat
  /-- `current_compiles` of the monitor -/
  currentCompiles : List CodeTuple
  /-- the descriptors the monitor has delivered so far -/
  delivered : List CodeDescriptor

inductive CompileEvent where
  | getDescriptorForCode (env : DbEnv) (ct : CodeTuple)
  | freeCode (ct : CodeTuple)
  | runEvictionRound
  /-- the monitor reads a message -/
  | monitorReads
  /-- the monitor replies to one of its compiles, and the reply is pushed to the result queue -/
  | monitorReplies (code : CodeTuple) (outcome : CompileOutcome) (freeBytes : Nat)

namespace CompileSystem

variable (s : CompileSystem)

def unread : List MonitorMessage := s.cache.written.drop s.readCount

def monitorReads : CompileSystem :=
  match s.unread.head? with
  | some message =>
    { s with
      readCount := s.readCount + 1
      currentCompiles := message.requested?.toList ++ s.currentCompiles }
  | none => s

/-- The monitor replies to a compile. The result queue has room for `2 * _threads` results: what
does not fit is lost. -/
def monitorReplies (code : CodeTuple) (outcome : CompileOutcome) (freeBytes : Nat) :
    CompileSystem :=
  if code ∈ s.currentCompiles then
    let result : WasmCompilationResultMessage := ⟨code, outcome.result code, freeBytes⟩
    { s with
      currentCompiles := s.currentCompiles.erase code
      delivered := s.delivered ++ (outcome.result code).descriptor?.toList
      cache :=
        if s.cache.resultQueue.length < 2 * s.cache.threads then
          { s.cache with resultQueue := s.cache.resultQueue ++ [result] }
        else s.cache }
  else s

def handle : CompileEvent → CompileSystem
  | .getDescriptorForCode env ct => { s with cache := (s.cache.getDescriptorForCode env ct).2 }
  | .freeCode ct => { s with cache := s.cache.freeCode ct }
  | .runEvictionRound => { s with cache := s.cache.runEvictionRound }
  | .monitorReads => s.monitorReads
  | .monitorReplies code outcome freeBytes => s.monitorReplies code outcome freeBytes

end CompileSystem

end PotatoNode.Chain
