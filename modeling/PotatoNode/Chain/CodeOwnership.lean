import Mathlib.Data.List.Perm.Basic
import PotatoNode.Lib.Runs
import PotatoNode.Chain.CodeCache

/-!
# Who owns compiled code

The memory of every descriptor the compile monitor delivers must stay known to the cache until an
evict message gives it back. Each function of the cache has one lemma on its books (`CodeCache.Inv`,
and `owned` for the descriptors), and a run keeps those of the whole system.
-/

namespace PotatoNode.Chain

open Lib CodeDescriptor MonitorMessage CodeCacheIndex List Nat

variable {cd : CodeDescriptor}

theorem WasmCompilationResult.descriptor?_eq_some {result : WasmCompilationResult} :
    result.descriptor? = some cd ↔ result = .codeDescriptor cd := by
  cases result <;> simp [WasmCompilationResult.descriptor?]

theorem CompileOutcome.code_of_result {code : CodeTuple} {outcome : CompileOutcome}
    (h : outcome.result code = .codeDescriptor cd) : cd.code = code := by
  cases outcome with
  | allocated codeBegin initdataBegin =>
    injection h with h
    rw [← h]
    rfl
  | failed => cases h
  | tooFull => cases h

namespace CodeCacheIndex

variable {index : CodeCacheIndex} {cd : CodeDescriptor} {ct : CodeTuple}

theorem pushFront_entries (h : cd.code ∉ index.entries.map code) :
    (index.pushFront cd).entries = cd :: index.entries := by
  unfold pushFront
  rw [dif_neg h]

theorem not_mem_codes_of_find? (h : index.find? ct = none) : ct ∉ index.entries.map code := by
  intro hmem
  obtain ⟨cd, hcd, rfl⟩ := mem_map.1 hmem
  exact find?_eq_none.1 h cd hcd (decide_eq_true rfl)

theorem not_mem_codes_erase (index : CodeCacheIndex) (ct : CodeTuple) :
    ct ∉ (index.erase ct).entries.map code := by
  intro hmem
  obtain ⟨cd, hcd, rfl⟩ := mem_map.1 hmem
  exact of_decide_eq_true (mem_filter.1 hcd).2 rfl

section

variable (h : index.find? ct = some cd)
include h

theorem code_of_find? : cd.code = ct := by
  simpa using find?_some h

theorem mem_of_find? : cd ∈ index.entries := mem_of_find?_eq_some h

theorem perm_of_find? : index.entries.Perm (cd :: (index.erase ct).entries) := by
  have hcd := mem_of_find? h
  have hct := code_of_find? h
  have hnew : cd ∉ (index.erase ct).entries := by
    intro hmem
    apply index.not_mem_codes_erase ct
    exact mem_map.2 ⟨cd, hmem, hct⟩
  have hnodup : ((cd :: (index.erase ct).entries)).Nodup :=
    nodup_cons.2 ⟨hnew, .of_map _ (index.erase ct).unique⟩
  rw [perm_ext_iff_of_nodup (.of_map _ index.unique) hnodup]
  intro cd'
  rw [mem_cons]
  constructor
  · intro hcd'
    by_cases hsame : cd'.code = ct
    · exact .inl (inj_on_of_nodup_map index.unique hcd' hcd (hsame.trans hct.symm))
    · exact .inr (mem_filter.2 ⟨hcd', decide_eq_true hsame⟩)
  · rintro (rfl | hcd')
    · exact hcd
    · exact (mem_filter.1 hcd').1

/-- A descriptor in use moves to the front; none is lost. -/
theorem relocateFront_perm : (index.relocateFront cd).entries.Perm index.entries := by
  have hct := code_of_find? h
  unfold relocateFront
  rw [pushFront_entries (by rw [hct]; exact index.not_mem_codes_erase ct), hct]
  exact (perm_of_find? h).symm

end

end CodeCacheIndex

namespace CodeCache

variable {c c' : CodeCache} {results : List WasmCompilationResultMessage} {busy : List CodeTuple}

/-- Eviction loses no descriptor. -/
theorem evict_perm (n : Nat) (codes : List CodeDescriptor) (index : CodeCacheIndex) :
    ((evict n codes index).1 ++ (evict n codes index).2.entries).Perm (codes ++ index.entries) := by
  induction n generalizing codes index with
  | zero => exact .refl _
  | succ n ih =>
    unfold evict
    split
    · rename_i cd hlast
      split
      · refine (ih _ _).trans ?_
        rw [append_assoc]
        refine (List.Perm.append_left codes ?_)
        have hentries : index.entries = index.entries.dropLast ++ [cd] :=
          (dropLast_append_getLast? cd hlast).symm
        rw [hentries]
        exact perm_append_comm
      · exact .refl _
    · exact .refl _

/-! ## The books of the cache -/

/-- The books of the cache, for the results it has yet to process and the codes that are with the
monitor or on their way there. -/
structure Inv (results : List WasmCompilationResultMessage) (busy : List CodeTuple)
    (c : CodeCache) : Prop where
  outstanding : (results.map (·.code) ++ busy).Perm c.outstandingCompilesAndPoison.keys
  queued : ∀ ct ∈ c.queuedCompiles, ct ∉ c.outstandingCompilesAndPoison.keys
    ∧ ct ∉ c.cacheIndex.entries.map code
  cached : ∀ ct ∈ c.cacheIndex.entries.map code,
    ct ∉ c.outstandingCompilesAndPoison.keys
  results : ∀ r ∈ results, ∀ cd, r.result = .codeDescriptor cd → cd.code = r.code

/-- The descriptors that are cached or were given back. -/
def owned (c : CodeCache) : List CodeDescriptor :=
  c.cacheIndex.entries ++ c.written.flatMap evicted

/-- From `c` to `c'` these codes were requested. -/
structure Requests (c c' : CodeCache) (codes : List CodeTuple) : Prop where
  threads : c'.threads = c.threads
  written : ∃ messages, c'.written = c.written ++ messages
    ∧ messages.filterMap requested? = codes

theorem Requests.refl (c : CodeCache) : Requests c c [] := ⟨rfl, [], by simp, rfl⟩

variable {c₁ c₂ c₃ : CodeCache}

theorem Requests.trans {codes codes' : List CodeTuple}
    (h : Requests c₁ c₂ codes) (h' : Requests c₂ c₃ codes') : Requests c₁ c₃ (codes ++ codes') := by
  obtain ⟨messages, hwritten, hcodes⟩ := h.written
  obtain ⟨messages', hwritten', hcodes'⟩ := h'.written
  refine ⟨h'.threads.trans h.threads, messages ++ messages', ?_, ?_⟩
  · rw [hwritten', hwritten, append_assoc]
  · rw [filterMap_append, hcodes, hcodes']

/-- Less in the queue and in the index keeps the books. -/
theorem Inv.mono (h : c.Inv results busy)
    (hkeys : c'.outstandingCompilesAndPoison.keys = c.outstandingCompilesAndPoison.keys)
    (hqueued : c'.queuedCompiles ⊆ c.queuedCompiles)
    (hentries : c'.cacheIndex.entries ⊆ c.cacheIndex.entries) : c'.Inv results busy := by
  have hcodes := map_subset code hentries
  refine ⟨by rw [hkeys]; exact h.outstanding, fun ct hct => ?_, fun ct hct => ?_, h.results⟩
  · obtain ⟨hout, hcached⟩ := h.queued ct (hqueued hct)
    exact ⟨hkeys ▸ hout, fun hmem => hcached (hcodes hmem)⟩
  · rw [hkeys]
    exact h.cached ct (hcodes hct)

/-! ### Eviction rounds -/

theorem runEvictionRound_requests (c : CodeCache) : Requests c c.runEvictionRound [] :=
  ⟨rfl, [_], rfl, rfl⟩

/-- What is evicted is given back. -/
theorem runEvictionRound_owned (c : CodeCache) : c.runEvictionRound.owned.Perm c.owned := by
  have hperm := evict_perm 25 [] c.cacheIndex
  unfold owned runEvictionRound write
  rw [flatMap_append, flatMap_singleton]
  rw [perm_iff_count] at hperm ⊢
  intro cd
  have hcount := hperm cd
  simp only [count_append, evicted, nil_append] at hcount ⊢
  omega

theorem runEvictionRound_subset (c : CodeCache) :
    c.runEvictionRound.cacheIndex.entries ⊆ c.cacheIndex.entries := by
  intro cd hcd
  exact (evict_perm 25 [] c.cacheIndex).subset (mem_append_right _ hcd)

theorem Inv.runEvictionRound (h : c.Inv results busy) : c.runEvictionRound.Inv results busy :=
  h.mono rfl (List.Subset.refl _) c.runEvictionRound_subset

theorem checkEvictionThreshold_eq (c : CodeCache) (freeBytes : Nat) :
    c.checkEvictionThreshold freeBytes = c.runEvictionRound ∨ c.checkEvictionThreshold freeBytes = c := by
  unfold checkEvictionThreshold
  split
  · exact .inl rfl
  · exact .inr rfl

/-! ### Results -/

variable {r : WasmCompilationResultMessage}

theorem Inv.mem_outstanding (h : c.Inv results busy) (hr : r ∈ results) :
    r.code ∈ c.outstandingCompilesAndPoison.keys :=
  h.outstanding.subset (mem_append_left _ (mem_map_of_mem hr))

theorem visitResult_keeps (c : CodeCache) (r : WasmCompilationResultMessage) :
    (c.visitResult r).outstandingCompilesAndPoison = c.outstandingCompilesAndPoison
      ∧ (c.visitResult r).queuedCompiles = c.queuedCompiles
      ∧ (c.visitResult r).resultQueue = c.resultQueue := by
  unfold visitResult
  split <;> exact ⟨rfl, rfl, rfl⟩

theorem visitResult_requests (c : CodeCache) (r : WasmCompilationResultMessage) :
    Requests c (c.visitResult r) [] := by
  unfold visitResult
  split
  · exact ⟨rfl, [], by simp, rfl⟩
  · exact ⟨rfl, [], by simp, rfl⟩
  · exact c.runEvictionRound_requests

variable {ct : CodeTuple}

/-- Only the code of the result can be new in the index. -/
theorem visitResult_codes (hr : ∀ cd, r.result = .codeDescriptor cd → cd.code = r.code)
    (hct : ct ∈ (c.visitResult r).cacheIndex.entries.map code) :
    ct ∈ c.cacheIndex.entries.map code ∨ ct = r.code := by
  unfold visitResult at hct
  split at hct
  · rename_i cd hcd
    by_cases hmem : cd.code ∈ c.cacheIndex.entries.map code
    · dsimp only [pushFront] at hct
      rw [dif_pos hmem] at hct
      exact .inl hct
    · rw [pushFront_entries hmem, map_cons, mem_cons] at hct
      rcases hct with rfl | hct
      · exact .inr (hr cd hcd)
      · exact .inl hct
  · exact .inl hct
  · exact .inl (map_subset _ c.runEvictionRound_subset hct)

/-- A result leaves the books. -/
theorem Inv.settle {r : WasmCompilationResultMessage} (h : c.Inv (r :: results) busy)
    (houtstanding : c'.outstandingCompilesAndPoison = c.outstandingCompilesAndPoison)
    (hqueued : c'.queuedCompiles = c.queuedCompiles)
    (hcodes : ∀ ct ∈ c'.cacheIndex.entries.map code,
      ct ∈ c.cacheIndex.entries.map code ∨ ct = r.code) :
    { c' with
      outstandingCompilesAndPoison := c'.outstandingCompilesAndPoison.erase r.code }.Inv results busy := by
  have hr := h.mem_outstanding mem_cons_self
  refine ⟨?_, fun ct hct => ?_, fun ct hct => ?_, fun r hr => h.results r (mem_cons_of_mem _ hr)⟩
  · have := h.outstanding.erase r.code
    rw [map_cons, cons_append, erase_cons_head] at this
    rwa [AList.keys_erase, houtstanding]
  · obtain ⟨hout, hcache⟩ := h.queued ct (hqueued ▸ hct)
    rw [AList.keys_erase, houtstanding]
    refine ⟨fun hmem => hout (mem_of_mem_erase hmem), fun hmem => ?_⟩
    rcases hcodes ct hmem with hmem | rfl
    · exact hcache hmem
    · exact hout hr
  · rw [AList.keys_erase, houtstanding]
    intro hmem
    rcases hcodes ct hct with hct | rfl
    · exact h.cached ct hct (mem_of_mem_erase hmem)
    · exact List.Nodup.not_mem_erase c.outstandingCompilesAndPoison.keys_nodup hmem

theorem Inv.consumeResult (h : c.Inv (r :: results) busy) :
    (c.consumeResult r).Inv results busy := by
  unfold CodeCache.consumeResult
  split
  · exact h.settle rfl rfl fun ct hct => .inl hct
  · obtain ⟨houtstanding, hqueued, -⟩ := c.visitResult_keeps r
    exact h.settle houtstanding hqueued fun ct hct =>
      visitResult_codes (h.results r mem_cons_self) hct

theorem consumeResult_requests (c : CodeCache) (r : WasmCompilationResultMessage) :
    Requests c (c.consumeResult r) [] := by
  unfold CodeCache.consumeResult
  split
  · exact ⟨rfl, [], by simp, rfl⟩
  · obtain ⟨hthreads, messages, hwritten, hcodes⟩ := c.visitResult_requests r
    exact ⟨hthreads, messages, hwritten, hcodes⟩

theorem consumeResult_resultQueue (c : CodeCache) (r : WasmCompilationResultMessage) :
    (c.consumeResult r).resultQueue = c.resultQueue := by
  unfold CodeCache.consumeResult
  split
  · rfl
  · exact (c.visitResult_keeps r).2.2

/-- The descriptor of an unpoisoned result is cached. -/
theorem Inv.consumeResult_owned (h : c.Inv (r :: results) busy)
    (hr : r.result.descriptor?.isSome → c.poisoned r.code = false) :
    (c.consumeResult r).owned.Perm (c.owned ++ r.result.descriptor?.toList) := by
  have howned : (c.consumeResult r).owned =
      (if c.poisoned r.code then c else c.visitResult r).owned := rfl
  rw [howned]
  unfold visitResult
  cases hresult : r.result with
  | codeDescriptor cd =>
    rw [hresult] at hr
    -- the code of an outstanding compile has no entry, so the descriptor gets one
    have hnew : cd.code ∉ c.cacheIndex.entries.map code := by
      rw [h.results r mem_cons_self cd hresult]
      intro hmem
      exact h.cached _ hmem (h.mem_outstanding mem_cons_self)
    rw [hr rfl, if_neg (by decide)]
    unfold owned
    rw [pushFront_entries hnew]
    show ([cd] ++ (c.cacheIndex.entries ++ _)).Perm _
    exact perm_append_comm
  | unknownFailure =>
    simp only [WasmCompilationResult.descriptor?, Option.toList_none, append_nil]
    split <;> exact .refl _
  | tooFull =>
    simp only [WasmCompilationResult.descriptor?, Option.toList_none, append_nil]
    split
    · exact .refl _
    · exact c.runEvictionRound_owned

/-- No result with a descriptor is of a poisoned compile. -/
def Unpoisoned (c : CodeCache) (results : List WasmCompilationResultMessage) : Prop :=
  ∀ r ∈ results, r.result.descriptor?.isSome → c.poisoned r.code = false

theorem Unpoisoned.consumeResult (h : c.Unpoisoned results) :
    (c.consumeResult r).Unpoisoned results := by
  intro r' hr' hsome
  have hlookup : (c.consumeResult r).outstandingCompilesAndPoison =
      c.outstandingCompilesAndPoison.erase r.code := by
    unfold CodeCache.consumeResult
    dsimp only
    split
    · rfl
    · rw [(c.visitResult_keeps r).1]
  unfold poisoned
  rw [hlookup]
  by_cases hsame : r'.code = r.code
  · rw [hsame, AList.lookup_erase]
    rfl
  · rw [AList.lookup_erase_ne hsame]
    exact h r' hr' hsome

/-- By induction on the results. -/
theorem Inv.consumeAll (h : c.Inv results busy) :
    (results.foldl CodeCache.consumeResult c).Inv [] busy
      ∧ Requests c (results.foldl CodeCache.consumeResult c) []
      ∧ (results.foldl CodeCache.consumeResult c).resultQueue = c.resultQueue
      ∧ (c.Unpoisoned results → (results.foldl CodeCache.consumeResult c).owned.Perm
        (c.owned ++ results.filterMap (·.result.descriptor?))) := by
  induction results generalizing c with
  | nil => exact ⟨h, .refl c, rfl, by simp⟩
  | cons r results ih =>
    obtain ⟨hinv, hrequests, hqueue, howned⟩ := ih h.consumeResult
    refine ⟨hinv, (c.consumeResult_requests r).trans hrequests,
      hqueue.trans (c.consumeResult_resultQueue r), fun hun => ?_⟩
    have hrest : c.Unpoisoned results := fun r' hr' => hun r' (mem_cons_of_mem _ hr')
    have hfirst := h.consumeResult_owned (hun r mem_cons_self)
    refine (howned hrest.consumeResult).trans ((hfirst.append_right _).trans (.of_eq ?_))
    cases hr : r.result.descriptor? <;> simp [hr]

theorem Inv.takeResults (h : c.Inv c.resultQueue busy) :
    c.takeResults.Inv [] busy ∧ Requests c c.takeResults [] ∧ c.takeResults.resultQueue = []
      ∧ (c.Unpoisoned c.resultQueue →
        c.takeResults.owned.Perm (c.owned ++ c.resultQueue.filterMap (·.result.descriptor?))) := by
  have hinv : { c with resultQueue := [] }.Inv c.resultQueue busy :=
    ⟨h.outstanding, h.queued, h.cached, h.results⟩
  obtain ⟨hconsumed, hrequests, hqueue, howned⟩ := hinv.consumeAll
  have hround : c.takeResults = (c.resultQueue.foldl CodeCache.consumeResult
        { c with resultQueue := [] }).runEvictionRound
      ∨ c.takeResults = c.resultQueue.foldl CodeCache.consumeResult { c with resultQueue := [] } := by
    unfold CodeCache.takeResults consumeCompileThreadQueue
    dsimp only
    split
    · exact .inr rfl
    · exact checkEvictionThreshold_eq _ _
  rcases hround with heq | heq
  · rw [heq]
    refine ⟨hconsumed.runEvictionRound, ?_, hqueue, fun hun => ?_⟩
    · have hboth := hrequests.trans (runEvictionRound_requests _)
      exact ⟨hboth.threads, hboth.written⟩
    · exact (runEvictionRound_owned _).trans (howned hun)
  · rw [heq]
    exact ⟨hconsumed, ⟨hrequests.threads, hrequests.written⟩, hqueue, howned⟩

/-! ### Compiles -/

theorem Inv.dequeue (h : c.Inv results busy) (ct : CodeTuple) : (c.dequeue ct).Inv results busy :=
  h.mono rfl (filter_subset_self _) (List.Subset.refl _)

/-- A compile that is started is outstanding. -/
theorem Inv.startCompile (h : c.Inv results busy) (hqueued : ct ∉ c.queuedCompiles)
    (hout : ct ∉ c.outstandingCompilesAndPoison.keys)
    (hcached : ct ∉ c.cacheIndex.entries.map code) :
    (c.startCompile ct).Inv results (busy ++ [ct]) := by
  have hkeys : (c.startCompile ct).outstandingCompilesAndPoison.keys =
      ct :: c.outstandingCompilesAndPoison.keys := by
    unfold CodeCache.startCompile write
    rw [if_neg (mt AList.mem_keys.1 hout), AList.keys_insert, erase_of_not_mem hout]
  refine ⟨?_, fun ct' hct' => ?_, fun ct' hct' => ?_, h.results⟩
  · rw [hkeys, ← append_assoc]
    exact perm_append_comm.trans (h.outstanding.cons ct)
  · obtain ⟨hout', hcached'⟩ := h.queued ct' hct'
    rw [hkeys]
    refine ⟨?_, hcached'⟩
    rintro (_ | ⟨_, hmem⟩)
    · exact hqueued hct'
    · exact hout' hmem
  · rw [hkeys]
    rintro (_ | ⟨_, hmem⟩)
    · exact hcached hct'
    · exact h.cached ct' hct' hmem

theorem startCompile_requests (c : CodeCache) (ct : CodeTuple) : Requests c (c.startCompile ct) [ct] :=
  ⟨rfl, [_], rfl, rfl⟩

theorem startCompile_owned (c : CodeCache) (ct : CodeTuple) : (c.startCompile ct).owned = c.owned := by
  unfold owned CodeCache.startCompile write
  simp [evicted]

/-- By induction on the fuel. -/
theorem Inv.startQueued (env : DbEnv) (fuel count : Nat) (h : c.Inv results busy) :
    ∃ codes, Requests c (CodeCache.startQueued env fuel count c) codes ∧ codes.length ≤ count
      ∧ (CodeCache.startQueued env fuel count c).Inv results (busy ++ codes)
      ∧ (CodeCache.startQueued env fuel count c).owned = c.owned
      ∧ (CodeCache.startQueued env fuel count c).resultQueue = c.resultQueue := by
  induction fuel generalizing c count busy with
  | zero => exact ⟨[], .refl c, zero_le _, by simpa [CodeCache.startQueued] using h, rfl, rfl⟩
  | succ fuel ih =>
    unfold CodeCache.startQueued
    split
    · exact ⟨[], .refl c, zero_le _, by simpa using h, rfl, rfl⟩
    split
    · exact ⟨[], .refl c, zero_le _, by simpa using h, rfl, rfl⟩
    rename_i nextup hnextup
    have hmem : nextup ∈ c.queuedCompiles := mem_of_getElem? hnextup
    obtain ⟨hout, hcached⟩ := h.queued nextup hmem
    split
    · have hnew : nextup ∉ (c.dequeue nextup).queuedCompiles := by
        simp [CodeCache.dequeue]
      have hstarted := (h.dequeue nextup).startCompile hnew hout hcached
      obtain ⟨codes, hrequests, hlength, hinv, howned, hqueue⟩ := ih _ hstarted
      refine ⟨[nextup] ++ codes, ?_, ?_, ?_, ?_, hqueue⟩
      · have hfirst : Requests c ((c.dequeue nextup).startCompile nextup) [nextup] := ⟨rfl, [_], rfl, rfl⟩
        exact hfirst.trans hrequests
      · simp only [length_append, length_singleton]
        omega
      · rwa [← append_assoc]
      · exact howned.trans (startCompile_owned _ nextup)
    · obtain ⟨codes, hrequests, hlength, hinv, howned, hqueue⟩ := ih count (h.dequeue nextup)
      exact ⟨codes, ⟨hrequests.threads, hrequests.written⟩, hlength, hinv, howned, hqueue⟩

/-! ### The calls -/

/-- The books between two calls. -/
structure Books (busy : List CodeTuple) (c : CodeCache) : Prop where
  inv : c.Inv c.resultQueue busy
  le_threads : c.resultQueue.length + busy.length ≤ c.threads

/-- There are at most as many outstanding compiles as threads. -/
theorem Books.outstanding_le (h : c.Books busy) :
    c.outstandingCompilesAndPoison.keys.length ≤ c.threads := by
  rw [← h.inv.outstanding.length_eq, length_append, length_map]
  exact h.le_threads

theorem Books.perm {busy' : List CodeTuple} (h : c.Books busy) (hperm : busy.Perm busy') :
    c.Books busy' := by
  refine ⟨⟨?_, h.inv.queued, h.inv.cached, h.inv.results⟩, ?_⟩
  · exact (hperm.symm.append_left _).trans h.inv.outstanding
  · rw [← hperm.length_eq]
    exact h.le_threads

def waiting (c : CodeCache) : List CodeDescriptor :=
  c.resultQueue.filterMap (·.result.descriptor?)

/-- A call on the cache: it keeps the books, and the descriptors too if it finds things `clean`. -/
structure Sound (clean : Prop) (busy : List CodeTuple) (c c' : CodeCache) : Prop where
  books : ∃ codes, Requests c c' codes ∧ c'.Books (busy ++ codes)
  owned : clean → (c'.owned ++ c'.waiting).Perm (c.owned ++ c.waiting)

theorem Sound.trans {clean : Prop} (h : Sound clean busy c₁ c₂)
    (h' : ∀ busy, c₂.Books busy → Sound True busy c₂ c₃) : Sound clean busy c₁ c₃ := by
  obtain ⟨codes, hrequests, hbooks⟩ := h.books
  obtain ⟨codes', hrequests', hbooks'⟩ := (h' _ hbooks).books
  refine ⟨⟨codes ++ codes', hrequests.trans hrequests', ?_⟩, fun hc => ?_⟩
  · rwa [← append_assoc]
  · exact ((h' _ hbooks).owned trivial).trans (h.owned hc)

section

variable (h : c.Books busy)
include h

theorem Books.processResults (env : DbEnv) :
    Sound (c.Unpoisoned c.resultQueue) busy c (c.processResults env) := by
  unfold CodeCache.processResults
  split
  · exact ⟨⟨[], .refl c, by simpa using h⟩, fun _ => .refl _⟩
  · obtain ⟨htaken, hrequests, hqueue, howned⟩ := h.inv.takeResults
    obtain ⟨codes, hrequests', hlength, hinv, howned', hqueue'⟩ :=
      htaken.startQueued env c.takeResults.queuedCompiles.length c.resultQueue.length
    have hempty := hqueue'.trans hqueue
    refine ⟨⟨codes, hrequests.trans hrequests', ?_, ?_⟩, fun hun => ?_⟩
    · rwa [hempty]
    · have := h.le_threads
      rw [hempty, hrequests'.threads, hrequests.threads]
      simp only [length_nil, length_append]
      omega
    · rw [howned', waiting, hempty]
      simpa [waiting] using howned hun

theorem Books.sound_refl : Sound True busy c c :=
  ⟨⟨[], .refl c, by simpa using h⟩, fun _ => .refl _⟩

theorem Books.sound_of_inv (hrequests : Requests c c' [])
    (hqueue : c'.resultQueue = c.resultQueue) (hinv : c'.Inv c.resultQueue busy)
    (howned : c'.owned.Perm c.owned) : Sound True busy c c' := by
  refine ⟨⟨[], hrequests, ?_, ?_⟩, fun _ => ?_⟩
  · rwa [hqueue, append_nil]
  · rw [hqueue, hrequests.threads, append_nil]
    exact h.le_threads
  · rw [waiting, hqueue]
    exact howned.append_right _

theorem Books.getDescriptorForCode (env : DbEnv) (ct : CodeTuple) :
    Sound (c.Unpoisoned c.resultQueue) busy c (c.getDescriptorForCode env ct).2 := by
  refine (h.processResults env).trans fun busy h => ?_
  · unfold CodeCache.getDescriptorForCode
    dsimp only
    generalize c.processResults env = c at h ⊢
    have hunchanged : Requests c c [] := .refl c
    split
    · rename_i cd hfind
      have hperm := relocateFront_perm hfind
      exact h.sound_of_inv ⟨rfl, hunchanged.written⟩ rfl
        (h.inv.mono rfl (List.Subset.refl _) hperm.subset) (hperm.append_right _)
    rename_i hfind
    split
    · exact h.sound_refl
    split
    · -- un-poisoned: what is outstanding stays the same
      exact h.sound_of_inv ⟨rfl, hunchanged.written⟩ rfl
        (h.inv.mono (AList.keys_replace ..) (List.Subset.refl _) (List.Subset.refl _)) (.refl _)
    rename_i hout
    have hcached := not_mem_codes_of_find? hfind
    split
    · exact h.sound_refl
    rename_i hqueued
    split
    · refine h.sound_of_inv ⟨rfl, hunchanged.written⟩ rfl ?_ (.refl _)
      refine ⟨h.inv.outstanding, fun ct' hct' => ?_, h.inv.cached, h.inv.results⟩
      rcases mem_cons.1 hct' with rfl | hct'
      · exact ⟨hout, hcached⟩
      · exact h.inv.queued ct' hct'
    split
    · exact h.sound_refl
    · refine ⟨⟨[ct], c.startCompile_requests ct, h.inv.startCompile hqueued hout hcached, ?_⟩,
        fun _ => ?_⟩
      · have hlength := h.inv.outstanding.length_eq
        rw [length_append, length_map] at hlength
        show c.resultQueue.length + (busy ++ [ct]).length ≤ c.threads
        rw [length_append, length_singleton]
        omega
      · rw [startCompile_owned]
        exact .refl _

theorem Books.freeCode (ct : CodeTuple) : Sound True busy c (c.freeCode ct) := by
  have hkeys : (c.freeCode ct).outstandingCompilesAndPoison.keys =
      c.outstandingCompilesAndPoison.keys := by
    unfold CodeCache.freeCode
    rw [AList.keys_replace]
    split <;> rfl
  have hqueued : (c.freeCode ct).queuedCompiles ⊆ c.queuedCompiles := by
    intro ct' hct'
    have hmem := (mem_filter.1 hct').1
    split at hmem <;> exact hmem
  have hsame : (c.freeCode ct).resultQueue = c.resultQueue
      ∧ (c.freeCode ct).threads = c.threads := by
    unfold CodeCache.freeCode
    cases c.cacheIndex.find? ct <;> exact ⟨rfl, rfl⟩
  obtain ⟨hqueue, hthreads⟩ := hsame
  cases hfind : c.cacheIndex.find? ct with
  | none =>
    have hindex : (c.freeCode ct).cacheIndex = c.cacheIndex
        ∧ (c.freeCode ct).written = c.written := by
      unfold CodeCache.freeCode
      rw [hfind]
      exact ⟨rfl, rfl⟩
    obtain ⟨hindex, hwritten⟩ := hindex
    refine h.sound_of_inv ⟨hthreads, [], by simp [hwritten], rfl⟩ hqueue
      (h.inv.mono hkeys hqueued (by rw [hindex]; exact List.Subset.refl _)) ?_
    rw [owned, owned, hindex, hwritten]
  | some cd =>
    have hperm := perm_of_find? hfind
    have hindex : (c.freeCode ct).cacheIndex = c.cacheIndex.erase ct
        ∧ (c.freeCode ct).written = c.written ++ [.evictWasms [cd]] := by
      unfold CodeCache.freeCode
      rw [hfind]
      exact ⟨rfl, rfl⟩
    obtain ⟨hindex, hwritten⟩ := hindex
    refine h.sound_of_inv ⟨hthreads, [_], hwritten, rfl⟩ hqueue (h.inv.mono hkeys hqueued ?_) ?_
    · rw [hindex]
      exact fun cd' hcd' => hperm.symm.subset (mem_cons_of_mem _ hcd')
    · rw [owned, owned, hindex, hwritten, flatMap_append, perm_iff_count]
      intro cd'
      have hcount := hperm.count_eq cd'
      simp only [flatMap_singleton, evicted, count_append, count_cons, count_nil] at hcount ⊢
      omega

theorem Books.runEvictionRound : Sound True busy c c.runEvictionRound :=
  h.sound_of_inv c.runEvictionRound_requests rfl h.inv.runEvictionRound c.runEvictionRound_owned

end

end CodeCache

/-! ## The system -/

namespace CompileSystem

variable {s : CompileSystem} {loaded : List CodeDescriptor}

def busy (s : CompileSystem) : List CodeTuple :=
  s.currentCompiles ++ s.unread.filterMap requested?

/-- The books of the system. -/
structure Books (s : CompileSystem) : Prop where
  cache : s.cache.Books s.busy
  readCount_le : s.readCount ≤ s.cache.written.length

/-- Every descriptor, loaded at the start or delivered since, is in one place: cached, given back, or
waiting in the result queue. -/
def Ledger (loaded : List CodeDescriptor) (s : CompileSystem) : Prop :=
  (loaded ++ s.delivered).Perm (s.cache.owned ++ s.cache.waiting)

/-- The state after start-up, with what the cache file had. -/
structure Started (loaded : List CodeDescriptor) (s : CompileSystem) : Prop where
  entries : s.cache.cacheIndex.entries = loaded
  queued : s.cache.queuedCompiles = []
  outstanding : s.cache.outstandingCompilesAndPoison = ∅
  results : s.cache.resultQueue = []
  written : s.cache.written = []
  readCount : s.readCount = 0
  currentCompiles : s.currentCompiles = []
  delivered : s.delivered = []

/-- From `s` to `s'` the books are kept, and the descriptors too if things are `clean`. -/
def Keeps (clean : Prop) (s s' : CompileSystem) : Prop :=
  s'.Books ∧ (clean → ∀ loaded, Ledger loaded s → Ledger loaded s')

/-- A call on the cache, in the system. -/
theorem Books.call {clean : Prop} {c' : CodeCache} (h : s.Books)
    (hsound : CodeCache.Sound clean s.busy s.cache c') : Keeps clean s { s with cache := c' } := by
  obtain ⟨codes, hrequests, hbooks⟩ := hsound.books
  obtain ⟨messages, hwritten, hcodes⟩ := hrequests.written
  have hbusy : { s with cache := c' }.busy = s.busy ++ codes := by
    unfold busy unread
    rw [hwritten, drop_append_of_le_length h.readCount_le, filterMap_append, hcodes, append_assoc]
  refine ⟨⟨by rwa [hbusy], ?_⟩, fun hclean _ hledger => hledger.trans (hsound.owned hclean).symm⟩
  have := h.readCount_le
  show s.readCount ≤ c'.written.length
  rw [hwritten, length_append]
  omega

theorem Books.monitorReads (h : s.Books) : Keeps True s s.monitorReads := by
  unfold CompileSystem.monitorReads
  split
  · rename_i message hhead
    obtain ⟨rest, hunread⟩ := head?_eq_some_iff.1 hhead
    have hrest : s.cache.written.drop (s.readCount + 1) = rest := by
      rw [← tail_drop]
      exact congrArg tail hunread
    have hlt : s.readCount < s.cache.written.length := by
      have hlength := congrArg length hunread
      rw [unread, length_drop, length_cons] at hlength
      omega
    refine ⟨⟨h.cache.perm ?_, hlt⟩, fun _ _ => id⟩
    show (s.currentCompiles ++ s.unread.filterMap requested?).Perm
      (message.requested?.toList ++ s.currentCompiles
        ++ (s.cache.written.drop (s.readCount + 1)).filterMap requested?)
    rw [hrest, hunread]
    cases hmessage : message.requested? with
    | none => simp [hmessage]
    | some code =>
      simp only [filterMap_cons, hmessage, Option.toList_some, cons_append]
      exact perm_middle
  · exact ⟨h, fun _ _ => id⟩

/-- Every reply fits in the result queue. -/
theorem Books.has_room (h : s.Books) {code : CodeTuple} (hcode : code ∈ s.currentCompiles) :
    s.cache.resultQueue.length < 2 * s.cache.threads := by
  have hpos : 0 < s.currentCompiles.length := length_pos_of_mem hcode
  have hle := h.cache.le_threads
  unfold busy at hle
  rw [length_append] at hle
  omega

theorem Books.monitorReplies (h : s.Books) (code : CodeTuple) (outcome : CompileOutcome)
    (freeBytes : Nat) : Keeps True s (s.monitorReplies code outcome freeBytes) := by
  unfold CompileSystem.monitorReplies
  split
  · rename_i hcode
    dsimp only
    rw [if_pos (h.has_room hcode)]
    have hperm := perm_cons_erase hcode
    refine ⟨⟨⟨⟨?_, h.cache.inv.queued, h.cache.inv.cached, ?_⟩, ?_⟩, h.readCount_le⟩,
      fun _ loaded hledger => ?_⟩
    · refine List.Perm.trans ?_ h.cache.inv.outstanding
      rw [map_append, append_assoc]
      refine List.Perm.append_left _ ?_
      exact hperm.symm.append_right _
    · intro r hr cd hcd
      rcases mem_append.1 hr with hr | hr
      · exact h.cache.inv.results r hr cd hcd
      · rw [mem_singleton.1 hr] at hcd ⊢
        exact CompileOutcome.code_of_result hcd
    · have hle := h.cache.le_threads
      have hlength := hperm.length_eq
      show (s.cache.resultQueue ++ [_]).length + (s.currentCompiles.erase code
        ++ s.unread.filterMap requested?).length ≤ s.cache.threads
      unfold busy at hle
      simp only [length_append, length_cons, length_nil] at hle hlength ⊢
      omega
    · unfold Ledger CodeCache.waiting at hledger ⊢
      rw [filterMap_append, ← append_assoc, ← append_assoc]
      exact hledger.append_right _
  · exact ⟨h, fun _ _ => id⟩

/-! ## Runs -/

/-- One event as a step of a run; none fails. -/
def step (s : CompileSystem) (e : CompileEvent) : Result CompileSystem := .ok (s.handle e)

def TakesUnpoisoned (s : CompileSystem) : CompileEvent → Prop
  | .getDescriptorForCode _ _ => s.cache.Unpoisoned s.cache.resultQueue
  | _ => True

/-- Every event keeps the books. -/
theorem Books.handle (h : s.Books) (e : CompileEvent) :
    Keeps (s.TakesUnpoisoned e) s (s.handle e) := by
  cases e with
  | getDescriptorForCode env ct => exact h.call (h.cache.getDescriptorForCode env ct)
  | freeCode ct => exact h.call (h.cache.freeCode ct)
  | runEvictionRound => exact h.call h.cache.runEvictionRound
  | monitorReads => exact h.monitorReads
  | monitorReplies code outcome freeBytes => exact h.monitorReplies code outcome freeBytes

theorem Started.books (h : Started loaded s) : s.Books := by
  have hbusy : s.busy = [] := by
    unfold busy unread
    rw [h.currentCompiles, h.written]
    simp
  refine ⟨⟨⟨?_, ?_, ?_, ?_⟩, ?_⟩, ?_⟩
  · rw [hbusy, h.results, h.outstanding]
    exact .refl _
  · rw [h.queued]
    simp
  · rw [h.outstanding]
    simp
  · rw [h.results]
    simp
  · rw [hbusy, h.results]
    exact zero_le _
  · rw [h.readCount]
    exact zero_le _

theorem Started.ledger (h : Started loaded s) : Ledger loaded s := by
  unfold Ledger CodeCache.owned CodeCache.waiting
  rw [h.entries, h.written, h.results, h.delivered]
  exact .of_eq (by simp)

variable {P : CompileSystem → CompileEvent → Prop}

/-- By induction on the run. -/
theorem books_of_run (run : Reachable step P (Started loaded) s) : s.Books := by
  refine run.invariant (fun s h => h.books) fun s e t h _ ht => ?_
  injection ht with ht
  exact ht ▸ (h.handle e).1

theorem outstanding_le_threads (run : Reachable step P (Started loaded) s) :
    s.cache.outstandingCompilesAndPoison.keys.length ≤ s.cache.threads :=
  (books_of_run run).cache.outstanding_le

def NeverLeaks (s : CompileSystem) : Prop :=
  ∀ cd ∈ s.delivered, cd ∈ s.cache.cacheIndex.entries
    ∨ (∃ codes, evictWasms codes ∈ s.cache.written ∧ cd ∈ codes)
    ∨ ∃ r ∈ s.cache.resultQueue, r.result = .codeDescriptor cd

/-- Delivered code is owned, or waits in the result queue. -/
theorem neverLeaks_iff :
    s.NeverLeaks ↔ ∀ cd ∈ s.delivered, cd ∈ s.cache.owned ++ s.cache.waiting := by
  refine forall₂_congr fun cd _ => ?_
  unfold CodeCache.owned CodeCache.waiting
  rw [mem_append, mem_append, mem_flatMap, mem_filterMap, or_assoc]
  simp only [WasmCompilationResult.descriptor?_eq_some]
  refine or_congr_right (or_congr_left ?_)
  constructor
  · rintro ⟨codes, hwritten, hcd⟩
    exact ⟨_, hwritten, hcd⟩
  · rintro ⟨message, hwritten, hcd⟩
    cases message with
    | compileWasm code => cases hcd
    | evictWasms codes => exact ⟨codes, hwritten, hcd⟩

theorem Ledger.neverLeaks (h : Ledger loaded s) : s.NeverLeaks :=
  neverLeaks_iff.2 fun _ hcd => h.subset (mem_append_right loaded hcd)

instance : Decidable s.NeverLeaks := decidable_of_iff' _ neverLeaks_iff

instance (c : CodeCache) (results : List WasmCompilationResultMessage) :
    Decidable (c.Unpoisoned results) :=
  inferInstanceAs (Decidable (∀ r ∈ results, _))

instance (s : CompileSystem) (e : CompileEvent) : Decidable (s.TakesUnpoisoned e) :=
  match e with
  | .getDescriptorForCode _ _ =>
    inferInstanceAs (Decidable (s.cache.Unpoisoned s.cache.resultQueue))
  | .freeCode _ => isTrue trivial
  | .runEvictionRound => isTrue trivial
  | .monitorReads => isTrue trivial
  | .monitorReplies _ _ _ => isTrue trivial

/-- In a run in which no call takes up the descriptor of a poisoned compile, compiled code never leaks,
and no more compiles are outstanding than there are threads. -/
theorem neverLeaks_of_run (run : Reachable step TakesUnpoisoned (Started loaded) s) :
    s.NeverLeaks ∧ s.cache.outstandingCompilesAndPoison.keys.length ≤ s.cache.threads := by
  refine ⟨?_, outstanding_le_threads run⟩
  suffices h : s.Books ∧ Ledger loaded s from h.2.neverLeaks
  refine run.invariant (I := fun s => s.Books ∧ Ledger loaded s)
    (fun s h => ⟨h.books, h.ledger⟩) fun s e t h hclean ht => ?_
  injection ht with ht
  rw [← ht]
  exact ⟨(h.1.handle e).1, (h.1.handle e).2 hclean loaded h.2⟩

def sampleSystem : CompileSystem where
  cache :=
    { cacheIndex := .empty
      queuedCompiles := []
      outstandingCompilesAndPoison := ∅
      denylist := []
      resultQueue := []
      threads := 1
      freeBytesEvictionThreshold := 0
      written := [] }
  readCount := 0
  currentCompiles := []
  delivered := []

theorem started_sampleSystem : Started [] sampleSystem := ⟨rfl, rfl, rfl, rfl, rfl, rfl, rfl, rfl⟩

/-- All codes exist. -/
def sampleEnv : DbEnv := ⟨fun _ => true, fun _ => 0⟩

/-- A code is asked for and compiled; the next call takes up the result. -/
def compiled (whileCompiling : List CompileEvent) : List CompileEvent :=
  [.getDescriptorForCode sampleEnv ⟨7, 0⟩, .monitorReads] ++ whileCompiling
    ++ [.monitorReplies ⟨7, 0⟩ (.allocated 64 128) 1000, .getDescriptorForCode sampleEnv ⟨8, 0⟩]

theorem exists_run_of_replay [∀ s e, Decidable (P s e)] (events : List CompileEvent)
    (q : CompileSystem → Bool) (h : (replay step P sampleSystem events).any q = true) :
    ∃ s, Reachable step P (Started []) s ∧ q s = true :=
  Reachable.replay (.start started_sampleSystem) h

/-- The code is cached; once it is freed, an evict message names it. -/
theorem neverLeaks_freed :
    ∃ s, Reachable step TakesUnpoisoned (Started []) s
      ∧ s.delivered = [⟨7, 0, 64, 128⟩] ∧ s.cache.cacheIndex.entries = []
      ∧ s.NeverLeaks ∧ s.cache.outstandingCompilesAndPoison.keys.length ≤ s.cache.threads := by
  obtain ⟨s, run, hs⟩ := exists_run_of_replay (P := TakesUnpoisoned)
    (compiled [] ++ [.freeCode ⟨7, 0⟩])
    (fun s => s.delivered = [⟨7, 0, 64, 128⟩] ∧ s.cache.cacheIndex.entries = []) (by decide +kernel)
  obtain ⟨hdelivered, hentries⟩ := of_decide_eq_true hs
  exact ⟨s, run, hdelivered, hentries, neverLeaks_of_run run⟩

/-- If it is freed while it is being compiled, its descriptor is dropped when the result is taken
up: it is neither cached nor named in an evict message. -/
theorem leaks_poisoned :
    ∃ s, Reachable step (fun _ _ => True) (Started []) s
      ∧ s.delivered = [⟨7, 0, 64, 128⟩] ∧ s.cache.resultQueue = [] ∧ ¬ s.NeverLeaks := by
  obtain ⟨s, run, hs⟩ := exists_run_of_replay (P := fun _ _ => True) (compiled [.freeCode ⟨7, 0⟩])
    (fun s => s.delivered = [⟨7, 0, 64, 128⟩] ∧ s.cache.resultQueue = [] ∧ ¬ s.NeverLeaks)
    (by decide +kernel)
  exact ⟨s, run, of_decide_eq_true hs⟩

end CompileSystem

end PotatoNode.Chain
