import PotatoNode.Lib.Chains
import PotatoNode.Chain.AbiRoundTrip

/-!
# Typedefs and bases of an accepted ABI

`validate` walks along the typedefs from each of them on and remembers the names it has seen, and
`_is_type` follows them through arrays and optionals. So none of the chains comes back to a name,
and `resolve_type`, which takes at most as many steps as there are typedefs, gets to the end.
-/

namespace PotatoNode.Chain.AbiSerializer

open Lib Option

variable {s : AbiSerializer} {n scopes : Nat} {t : TypeName}

def targetThrough (s : AbiSerializer) (t : TypeName) : Option TypeName :=
  (s.typedefs.get? t).map fundamentalType

def baseOf (s : AbiSerializer) (st : StructDef) : Option StructDef :=
  if st.base = [] then none else s.structs.get? (s.resolveType st.base)

/-- The names of an ABI lead somewhere, and so do the bases of its structs. -/
structure Resolves (s : AbiSerializer) : Prop where
  acyclic : ∀ t, ¬ Relation.TransGen (fun x y => s.typedefs.get? x = some y) t t
  acyclicThrough : ∀ t, ¬ Relation.TransGen (fun x y => s.targetThrough x = some y) t t
  /-- the end of the chain, and not an earlier name -/
  resolved : ∀ t, Relation.ReflTransGen (fun x y => s.typedefs.get? x = some y) t (s.resolveType t)
    ∧ s.typedefs.get? (s.resolveType t) = none
  bases : ∀ x st, s.structs.get? x = some st → ∃ n last, EndsIn s.baseOf n st last

variable {typesSeen : List TypeName} {u : Unit}

theorem endsIn_of_checkTypedef
    (h : s.checkTypedef n typesSeen t = .ok u) :
    ∃ m last, EndsIn (s.typedefs.get? ·) m t last := by
  induction n generalizing typesSeen t with
  | zero => cases h
  | succ n ih =>
    rw [checkTypedef] at h
    split at h
    · next hnone => exact ⟨0, t, .stop hnone⟩
    · next target htarget =>
      obtain ⟨_, -, h⟩ := bind_eq_ok.1 h
      obtain ⟨m, last, hend⟩ := ih h
      exact ⟨m + 1, last, .step htarget hend⟩

theorem endsIn_of_checkBases {st : StructDef}
    (h : s.checkBases n typesSeen st = .ok u) : ∃ m last, EndsIn s.baseOf m st last := by
  induction n generalizing typesSeen st with
  | zero => cases h
  | succ n ih =>
    rw [checkBases] at h
    split at h
    · next hbase => exact ⟨0, st, .stop (if_pos hbase)⟩
    · next hbase =>
      obtain ⟨base, hget, _, -, h⟩ := bind₂_eq_ok.1 h
      obtain ⟨m, last, hend⟩ := ih h
      refine ⟨m + 1, last, .step ?_ hend⟩
      rw [baseOf, if_neg hbase]
      unfold getStruct at hget
      split at hget
      · cases hget
      · next hst =>
        cases hget
        exact hst

theorem endsIn_of_isType (hfresh : s.Fresh)
    (hplain : ∀ x, (s.builtInTypes x).isSome = true → fundamentalType x = x)
    (h : s.isType n t = .ok true) :
    ∃ m last, EndsIn s.targetThrough m (fundamentalType t) last := by
  induction n generalizing t with
  | zero => cases h
  | succ n ih =>
    rw [isType] at h
    split_ifs at h with hbuiltIn
    · refine ⟨0, _, .stop ?_⟩
      cases htypedef : s.typedefs.get? _ with
      | none => rw [targetThrough, htypedef, map_none]
      | some target =>
        have hnone := (hfresh _ target htypedef (hplain _ hbuiltIn)).1
        rw [hnone] at hbuiltIn
        cases hbuiltIn
    · split at h
      · next target htarget =>
        obtain ⟨m, last, hend⟩ := ih h
        exact ⟨m + 1, last, .step (by rw [targetThrough, htarget, map_some]) hend⟩
      · next hnone => exact ⟨0, _, .stop (by rw [targetThrough, hnone, map_none])⟩

variable {last : TypeName}

theorem chase_of_endsIn {m : Nat} (h : EndsIn (s.typedefs.get? ·) n t last)
    (hm : n < m) : s.chase m t = some last := by
  induction h generalizing m with
  | stop h =>
    obtain _ | m := m
    · omega
    rw [chase, h]
  | step h _ ih =>
    obtain _ | m := m
    · omega
    rw [chase, h]
    exact ih (by omega)

theorem resolveType_of_endsIn (h : EndsIn (s.typedefs.get? ·) n t last) :
    s.resolveType t = last := by
  have hle : n ≤ (s.typedefs.entries.map Prod.fst).length := by
    refine h.steps_le fun x hx => ?_
    obtain ⟨y, hy⟩ := isSome_iff_exists.1 hx
    exact List.mem_map_of_mem (FlatMap.get?_eq_some_iff.1 hy)
  rw [List.length_map] at hle
  cases h with
  | stop h => exact resolveType_of_get?_eq_none h
  | step htarget rest =>
    have hchase : s.chase s.typedefs.size _ = some last := chase_of_endsIn rest hle
    unfold resolveType
    rw [htarget]
    dsimp only
    rw [hchase, getD_some]

/-- **Accepted typedefs resolve**, and they are those of the ABI, as the structs are. -/
theorem resolves_of_setAbi {builtInTypes : TypeName → Option BuiltIn} {abi : AbiDef}
    (hplain : ∀ x, (builtInTypes x).isSome = true → fundamentalType x = x)
    (h : setAbi scopes builtInTypes abi = .ok s) : s.Stores abi ∧ s.Resolves := by
  refine ⟨stores_of_setAbi h, ?_⟩
  obtain ⟨hvalidate, hfresh, rfl⟩ := validate_of_setAbi h
  have hv := validated_of_validate hvalidate hfresh
  obtain ⟨_, hchains, _, -, hvalidate⟩ := bind₂_eq_ok.1 hvalidate
  obtain ⟨_, hstructs, -⟩ := bind_eq_ok.1 hvalidate
  rw [forM_eq_ok] at hchains hstructs
  have hend : ∀ t, ∃ n last, EndsIn (s.typedefs.get? ·) n t last := by
    intro t
    cases htarget : s.typedefs.get? t with
    | none => exact ⟨0, t, .stop htarget⟩
    | some target =>
      obtain ⟨n, last, hend⟩ := endsIn_of_checkTypedef
        (hchains _ (FlatMap.get?_eq_some_iff.1 htarget))
      exact ⟨n + 1, last, .step htarget hend⟩
  refine ⟨fun t => ?_, fun t => ?_, fun t => ?_, fun x st hst => ?_⟩
  · obtain ⟨n, last, hend⟩ := hend t
    exact hend.not_transGen_self
  · cases htarget : s.typedefs.get? t with
    | none => exact EndsIn.not_transGen_self (.stop (by rw [targetThrough, htarget, map_none]))
    | some target =>
      obtain ⟨n, last, hend⟩ := endsIn_of_isType hfresh hplain (hv.typedefs t target htarget)
      exact (EndsIn.step (by rw [targetThrough, htarget, map_some]) hend).not_transGen_self
  · obtain ⟨n, last, hend⟩ := hend t
    rw [resolveType_of_endsIn hend]
    exact ⟨hend.reflTransGen, hend.apply_last⟩
  · obtain ⟨_, hbases, -⟩ := bind_eq_ok.1 (hstructs (x, st) (FlatMap.get?_eq_some_iff.1 hst))
    exact endsIn_of_checkBases hbases

theorem resolves_ledgerAbi :
    ∃ s, setAbi 13 byteTypes ledgerAbi = .ok s ∧ s.Stores ledgerAbi ∧ s.Resolves := by
  obtain ⟨s, hs, -⟩ : ∃ s, setAbi 13 byteTypes ledgerAbi = .ok s ∧ True :=
    exists_of_setAbi (by decide +kernel)
  refine ⟨s, hs, resolves_of_setAbi (fun x hx => ?_) hs⟩
  unfold byteTypes at hx
  split_ifs at hx with hbyte
  · rw [hbyte]
    decide
  · cases hx

end PotatoNode.Chain.AbiSerializer
