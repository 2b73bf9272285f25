import PotatoNode.NetPlugin.SyncManager

/-!
# The source of the next chunk (`sync_manager::request_next_chunk`)

The source of sync blocks has to be current and not for transactions only, which the function checks
at its end and not in every branch that selects one.
-/

namespace PotatoNode.NetPlugin

open Lib List

namespace SyncManager

variable {m : SyncManager} {info : ChainInfo} {conn : Option ConnectionId}

/-- A request that found a source: one that is eligible, the one supplied if it is so, and it is
sent the request or a handshake. -/
structure FindsSource (m m' : SyncManager) (conn : Option ConnectionId) (out : Outgoing) : Prop where
  found : ∃ source, m'.syncSource = some source ∧ m.eligible source
    ∧ ∃ message, out = [(source, message)]
  supplied : ∀ c, conn = some c → m.eligible c → m'.syncSource = some c

/-- What the selection does not look at: that the connection supplied is not for transactions only,
and, with a single connection listed, that the previous source can still be used. -/
structure Selectable (m : SyncManager) (conn : Option ConnectionId) : Prop where
  supplied : ∀ c, conn = some c → m.current c → m.eligible c
  single : (∀ c, conn = some c → ¬ m.current c) → m.connections.entries.length = 1 →
    ∀ source, m.syncSource = some source → m.eligible source

/-! ## The selection -/

variable {c : ConnectionId}

theorem mem_ring (hc : c ∈ m.connections) (start : Nat) : c ∈ m.ring start := by
  unfold ring
  rw [mem_append, Or.comm, ← mem_append, take_append_drop]
  exact hc

theorem find?_ring (hc : c ∈ m.connections) (h : m.eligible c) (start : Nat) :
    ∃ source, (m.ring start).find? m.eligible = some source ∧ m.eligible source := by
  cases hfind : (m.ring start).find? m.eligible with
  | none => exact absurd h (find?_eq_none.1 hfind c (mem_ring hc start))
  | some source => exact ⟨source, rfl, find?_some hfind⟩

theorem any_current_iff : conn.any m.current = true ↔ ∃ c, conn = some c ∧ m.current c :=
  Option.any_eq_true _ _

theorem current_of_eligible (h : m.eligible c) : m.current c := by
  exact (Bool.and_eq_true_iff.1 h).2

theorem selectSource_supplied (h : m.current c) : m.selectSource (some c) = some c := if_pos h

theorem selectSource_single (hconn : ¬ conn.any m.current) (hsingle : m.connections.entries = [c]) :
    m.selectSource conn = if m.syncSource = none then some c else m.syncSource := by
  unfold selectSource
  rw [if_neg hconn, hsingle]

theorem selectSource_scan (hconn : ¬ conn.any m.current)
    (hlength : m.connections.entries.length ≠ 1) (hc : c ∈ m.connections) (h : m.eligible c) :
    ∃ source, m.selectSource conn = some source ∧ m.eligible source := by
  obtain ⟨source, hsource, heligible⟩ := find?_ring hc h m.scanStart.1
  refine ⟨source, ?_, heligible⟩
  have hmem : c ∈ m.connections.entries := hc
  unfold selectSource
  rw [if_neg hconn]
  split
  · rename_i hnil
    rw [hnil] at hmem
    cases hmem
  · rename_i c' hsingle
    rw [hsingle] at hlength
    exact absurd rfl hlength
  · dsimp only
    rw [hsource]
    rfl

/-- The selection yields a usable source exactly if what it does not look at is as it should be. -/
theorem selectSource_iff (hlisted : ∃ c ∈ m.connections, m.eligible c) :
    (∃ source, m.selectSource conn = some source ∧ m.eligible source) ↔ m.Selectable conn := by
  obtain ⟨c, hc, heligible⟩ := hlisted
  by_cases hconn : conn.any m.current
  · obtain ⟨s, rfl, hs⟩ := any_current_iff.1 hconn
    rw [selectSource_supplied hs]
    constructor
    · rintro ⟨source, hsource, hsource'⟩
      injection hsource with hsource
      subst hsource
      refine ⟨fun c hc _ => ?_, fun hnone => absurd hs (hnone s rfl)⟩
      injection hc with hc
      exact hc ▸ hsource'
    · intro h
      exact ⟨s, rfl, h.supplied s rfl hs⟩
  · have hnone : ∀ c, conn = some c → ¬ m.current c := fun c hc hcurrent =>
      hconn (any_current_iff.2 ⟨c, hc, hcurrent⟩)
    by_cases hlength : m.connections.entries.length = 1
    · obtain ⟨c', hsingle⟩ := length_eq_one_iff.1 hlength
      have hcc' : c = c' := mem_singleton.1 (hsingle ▸ hc)
      subst hcc'
      rw [selectSource_single hconn hsingle]
      cases hsource : m.syncSource with
      | none =>
        refine ⟨fun _ => ⟨fun c hc h => absurd h (hnone c hc), fun _ _ source h => ?_⟩,
          fun _ => ⟨c, rfl, heligible⟩⟩
        rw [hsource] at h
        cases h
      | some source =>
        constructor
        · rintro ⟨source', hsource', h⟩
          injection hsource' with hsource'
          subst hsource'
          refine ⟨fun c hc h => absurd h (hnone c hc), fun _ _ source' hsource' => ?_⟩
          rw [hsource] at hsource'
          injection hsource' with hsource'
          exact hsource' ▸ h
        · intro h
          exact ⟨source, rfl, h.single hnone hlength source hsource⟩
    · refine ⟨fun _ => ⟨fun c hc h => absurd h (hnone c hc), fun _ h => absurd h hlength⟩, fun _ => ?_⟩
      exact selectSource_scan hconn hlength hc heligible

/-! ## The request -/

theorem sendRequest_spec (m : SyncManager) (source : ConnectionId) :
    (m.sendRequest source).1.syncSource = m.syncSource
      ∧ ∃ message, (m.sendRequest source).2 = [(source, message)] := by
  unfold sendRequest
  dsimp only
  split
  · exact ⟨rfl, _, rfl⟩
  · exact ⟨rfl, _, rfl⟩

theorem requestNextChunk_of_eligible (hpending : ¬ m.requestPending info) {source : ConnectionId}
    (hsource : m.selectSource conn = some source) (h : m.eligible source) :
    (m.requestNextChunk info conn).1.syncSource = some source
      ∧ ∃ message, (m.requestNextChunk info conn).2 = [(source, message)] := by
  have hfilter : (some source).filter { m with syncSource := some source }.eligible = some source := by
    rw [Option.filter_eq_some_iff]
    exact ⟨rfl, h⟩
  unfold requestNextChunk
  rw [if_neg hpending, hsource]
  dsimp only
  rw [hfilter]
  exact sendRequest_spec _ source

theorem requestNextChunk_of_not_eligible (hpending : ¬ m.requestPending info)
    (h : ∀ source, m.selectSource conn = some source → ¬ m.eligible source) :
    (m.requestNextChunk info conn).2 = [] := by
  have hfilter : (m.selectSource conn).filter
      { m with syncSource := m.selectSource conn }.eligible = none := by
    rw [Option.filter_eq_none_iff]
    exact h
  unfold requestNextChunk
  rw [if_neg hpending]
  dsimp only
  rw [hfilter]

/-- Whenever a request is not ignored and an eligible connection is listed, the request ends up
with an eligible source, the one supplied if it is eligible, exactly if the connection supplied is
not one that is current but for transactions only, and the previous source is not an unusable one
that is kept since a single connection is listed. -/
theorem findsSource_iff (hpending : ¬ m.requestPending info)
    (hlisted : ∃ c ∈ m.connections, m.eligible c) :
    m.FindsSource (m.requestNextChunk info conn).1 conn (m.requestNextChunk info conn).2 ↔
      m.Selectable conn := by
  rw [← selectSource_iff hlisted]
  constructor
  · rintro ⟨⟨source, -, -, message, hout⟩, -⟩
    by_contra hnone
    push Not at hnone
    rw [requestNextChunk_of_not_eligible hpending fun source h h' => hnone source h h'] at hout
    cases hout
  · rintro ⟨source, hsource, heligible⟩
    obtain ⟨hsource', message, hout⟩ := requestNextChunk_of_eligible hpending hsource heligible
    refine ⟨⟨source, hsource', heligible, message, hout⟩, fun c hc h => ?_⟩
    rw [hc, selectSource_supplied (current_of_eligible h)] at hsource
    rw [hsource', ← hsource]

/-- One connection is listed, the first; it is current. The second is the previous source, it was
closed and is not listed any more. The third is current and for transactions only. -/
def sampleSources : SyncManager where
  syncKnownLibNum := 100
  syncLastRequestedNum := 0
  syncNextExpectedNum := 4
  syncReqSpan := 10
  syncSource := some 2
  syncState := .libCatchup
  connections := FlatSet.ofList [1]
  connection := fun c =>
    { socketOpen := c ≠ 2
      connecting := false
      syncing := false
      connectionType := if c = 3 then .transactionsOnly else .both
      consecutiveRejectedBlocks := 0
      forkHead := 0
      forkHeadNum := 0
      lastIrreversibleBlockNum := 100 }

theorem findsSource_supplied :
    ¬ sampleSources.requestPending ⟨3, 3, 33⟩
      ∧ (∃ c ∈ sampleSources.connections, sampleSources.eligible c)
      ∧ sampleSources.FindsSource (sampleSources.requestNextChunk ⟨3, 3, 33⟩ (some 1)).1 (some 1)
        (sampleSources.requestNextChunk ⟨3, 3, 33⟩ (some 1)).2 := by
  have hpending : ¬ sampleSources.requestPending ⟨3, 3, 33⟩ := by decide +kernel
  have hlisted : ∃ c ∈ sampleSources.connections, sampleSources.eligible c :=
    ⟨1, by decide +kernel, by decide +kernel⟩
  refine ⟨hpending, hlisted, (findsSource_iff hpending hlisted).2 ⟨?_, ?_⟩⟩
  · intro c hc _
    injection hc with hc
    subst hc
    decide +kernel
  · intro hnone
    exact absurd (by decide +kernel) (hnone 1 rfl)

/-- With none supplied the closed source is kept, and with the third one supplied that one is taken:
both times the request gives up although the first connection could provide the blocks. -/
theorem gives_up_with_eligible_listed :
    (∃ c ∈ sampleSources.connections, sampleSources.eligible c)
      ∧ ¬ sampleSources.requestPending ⟨3, 3, 33⟩
      ∧ (sampleSources.requestNextChunk ⟨3, 3, 33⟩ none).1.syncState = .inSync
      ∧ ¬ sampleSources.FindsSource (sampleSources.requestNextChunk ⟨3, 3, 33⟩ none).1 none
        (sampleSources.requestNextChunk ⟨3, 3, 33⟩ none).2
      ∧ ¬ sampleSources.FindsSource (sampleSources.requestNextChunk ⟨3, 3, 33⟩ (some 3)).1 (some 3)
        (sampleSources.requestNextChunk ⟨3, 3, 33⟩ (some 3)).2 := by
  refine ⟨⟨1, by decide +kernel, by decide +kernel⟩, by decide +kernel, by decide +kernel,
    fun h => ?_, fun h => ?_⟩
  · obtain ⟨source, -, -, message, hout⟩ := h.found
    cases hout
  · obtain ⟨source, -, -, message, hout⟩ := h.found
    cases hout

end SyncManager

end PotatoNode.NetPlugin
