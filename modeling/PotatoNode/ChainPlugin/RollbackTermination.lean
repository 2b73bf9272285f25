import PotatoNode.ChainPlugin.QueryMirror

/-!
# Does `rollback_to_before` end?

The loop takes the info that was updated last and gives it the time of the permission in the chain,
which already has the effects of the block. It goes on as long as that time is not before the
block's own time: `rollback_terminates_iff`, for every map, every chain state and every time.

A node gets there by a fork switch: the block of the new branch repeats an `updateauth` of a block
on the old branch that has the same or a later time (`rollback_hangs`).
-/

namespace PotatoNode.ChainPlugin

open Lib Chain List Table
open Chainbase (GenericIndex)

namespace QueryMap

variable {m m' : QueryMap} {permissions : GenericIndex PermissionObject} {t : Nat}
  {k : PermissionLevel}

/-- **When `rollback_to_before` ends.** For every map, every permission index and every time: after
finitely many rounds, if and only if no info that was last updated at that time or later belongs to
a permission that was last updated at that time or later in the chain. -/
theorem rollback_terminates_iff (permissions : GenericIndex PermissionObject) (t : Nat)
    (m : QueryMap) :
    (∃ fuel m', rollback permissions t fuel m = .ok m')
      ↔ ∀ pi ∈ m.permissionInfoIndex, t ≤ pi.lastUpdated →
        ∀ po, lookup permissions pi.level = some po → po.lastUpdated < t := by
  constructor
  · rintro ⟨fuel, m', hrun⟩ pi hpi ht po hpo
    by_contra hnot
    have hstale : pi.level ∈ staleLevels t m :=
      mem_staleLevels_iff.2 ⟨pi, find?_of_mem hpi, ht⟩
    rw [rollback_not_settled ⟨po, hpo, not_lt.1 hnot⟩ fuel hstale] at hrun
    cases hrun
  · intro hsettled
    have hstale : ∀ k ∈ staleLevels t m, ¬ Stale t (lookup permissions k) := by
      rintro k hk ⟨po, hpo, hle⟩
      obtain ⟨pi, hfind, ht⟩ := mem_staleLevels_iff.1 hk
      obtain ⟨hpi, rfl⟩ := find?_eq_some_iff.1 hfind
      exact absurd (hsettled pi hpi ht po hpo) (not_lt.2 hle)
    obtain ⟨m', hrun, -⟩ := rollback_returns (P := fun _ => True) (fun _ _ _ _ _ => trivial) _
      trivial (Nat.lt_succ_self _) hstale
    exact ⟨_, m', hrun⟩

end QueryMap

namespace QueryNode

open QueryMap

def spendLevel : PermissionLevel := ⟨systemAccountName, stringToName "spend"⟩

def spendBlock (time : Nat) : PermissionBlock :=
  blockOf time [.updateauth ⟨systemAccountName, stringToName "spend", activeName, unpackedKey 3⟩]

/-- A node at the block of the time `5`, and the state after the block of the time `3` on the other
branch. -/
def switchingNode : Option (ChainState × QueryNode × Database) := do
  let chain ← genesisChain
  let node ← (start chain).extend chain (spendBlock 5)
  match chain.database.applyBlock (spendBlock 3) with
  | .ok other => some (chain, node, other)
  | .error _ => none

/-- The transaction of a block that is left is in a block of the new branch too. -/
theorem rollback_hangs :
    ∃ node parent chain, Run (fun _ _ _ => True) node ∧ parent ∈ node.states
      ∧ parent.time < (spendBlock 3).time ∧ parent.database.applyBlock (spendBlock 3) = .ok chain
      ∧ ∀ fuel, rollback chain.permissions (spendBlock 3).time fuel
        (node.queryDb.cacheBlock (spendBlock 3)).map = .error .divergence := by
  have hnodes : switchingNode.any (fun p => decide (p.1.time = 1)
      && decide (spendLevel ∈ staleLevels 3 p.2.1.queryDb.map)
      && (lookup p.2.2.permissions spendLevel).any fun po => decide (3 ≤ po.lastUpdated))
        = true := by
    decide +kernel
  obtain ⟨⟨chain, node, other⟩, hswitching, hP⟩ := Option.any_eq_true _ _ |>.1 hnodes
  obtain ⟨hP, hother⟩ := Bool.and_eq_true_iff.1 hP
  obtain ⟨htime, hstale⟩ := Bool.and_eq_true_iff.1 hP
  obtain ⟨po, hlookup, hpo⟩ := Option.any_eq_true _ _ |>.1 hother
  have htime : chain.time = 1 := of_decide_eq_true htime
  simp only [switchingNode, Option.bind_eq_bind, Option.bind_eq_some_iff] at hswitching
  obtain ⟨chain', -, node', hextend, hother'⟩ := hswitching
  split at hother'
  · next other' happly =>
    cases hother'
    obtain ⟨chain₁, queryDb, happly₁, hcommit, rfl⟩ := extend_eq_some hextend
    refine ⟨_, chain, other, (Run.start chain).commit mem_cons_self ?_ happly₁ trivial hcommit,
      mem_cons_of_mem _ mem_cons_self, ?_, happly, fun fuel => ?_⟩
    · show chain.time < 5
      omega
    · show chain.time < 3
      omega
    · rw [AccountQueryDb.map_cacheBlock]
      exact rollback_not_settled ⟨po, hlookup, of_decide_eq_true hpo⟩ fuel (of_decide_eq_true hstale)
  · cases hother'

end QueryNode

end PotatoNode.ChainPlugin
