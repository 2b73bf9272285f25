import PotatoNode.Chain.AbiSerializer

/-!
# What `set_abi` makes sure of
-/

namespace PotatoNode.Chain

open Lib List Bool FlatMap

namespace AbiSerializer

variable {s : AbiSerializer}

/-! ## Names and types -/

/-- A typedef with a plain name hides neither a built-in type nor a struct. -/
def Fresh (s : AbiSerializer) : Prop :=
  ∀ t target, s.typedefs.get? t = some target → fundamentalType t = t →
    s.builtInTypes t = none ∧ s.structs.get? t = none

/-- What `set_abi` has checked of the definitions. -/
structure Validated (s : AbiSerializer) (scopes : Nat) : Prop where
  typedefs : ∀ t target, s.typedefs.get? t = some target → s.isType scopes target = .ok true
  fields : ∀ x st, s.structs.get? x = some st →
    ∀ f ∈ st.fields, s.isType scopes (removeBinExtension f.type) = .ok true
  bases : ∀ x st, s.structs.get? x = some st → st.base ≠ [] →
    ∃ base, s.structs.get? (s.resolveType st.base) = some base
  variants : ∀ x v, s.variants.get? x = some v → ∀ t ∈ v.types, s.isType scopes t = .ok true
  fresh : s.Fresh

/-- The typedefs and structs are those of the ABI. -/
structure Stores (s : AbiSerializer) (abi : AbiDef) : Prop where
  typedefs : ∀ t target, s.typedefs.get? t = some target ↔ ⟨t, target⟩ ∈ abi.types
  structs : ∀ x st, s.structs.get? x = some st ↔ st ∈ abi.structs ∧ st.name = x

variable {n scopes : Nat} {t : TypeName}

theorem chase_eq_some {y : TypeName} (h : s.chase n t = some y) : s.typedefs.get? y = none := by
  induction n generalizing t with
  | zero => cases h
  | succ n ih =>
    rw [chase] at h
    split at h
    · next hnone =>
      cases h
      exact hnone
    · exact ih h

theorem resolveType_cases (s : AbiSerializer) (t : TypeName) :
    s.resolveType t = t ∨ s.typedefs.get? (s.resolveType t) = none := by
  unfold resolveType
  split
  · exact .inl rfl
  · next target _ =>
    cases hchase : s.chase s.typedefs.size target with
    | none => exact .inl rfl
    | some y => exact .inr (chase_eq_some hchase)

theorem resolveType_of_get?_eq_none (h : s.typedefs.get? t = none) : s.resolveType t = t := by
  unfold resolveType
  rw [h]

@[simp] theorem resolveType_resolveType (t : TypeName) :
    s.resolveType (s.resolveType t) = s.resolveType t := by
  rcases s.resolveType_cases t with h | hnone
  · rw [h, h]
  · exact resolveType_of_get?_eq_none hnone

theorem isType_mono {m : Nat} {known : Bool} (h : s.isType n t = .ok known) (hnm : n ≤ m) :
    s.isType m t = .ok known := by
  induction n generalizing t m with
  | zero => cases h
  | succ n ih =>
    obtain _ | m := m
    · omega
    rw [isType] at h ⊢
    split_ifs at h ⊢ with hbuiltIn
    · exact h
    · cases htypedef : s.typedefs.get? _ with
      | some target =>
        rw [htypedef] at h
        exact ih h (by omega)
      | none =>
        rw [htypedef] at h
        exact h

/-! ## Validation -/

variable {u : Unit}

theorem isType_of_assertType (h : s.assertType scopes t = .ok u) :
    s.isType scopes t = .ok true := by
  obtain ⟨known, hknown, h⟩ := bind_eq_ok.1 h
  rw [hknown, eosAssert_eq_ok.1 h]

theorem base_of_checkBases {typesSeen : List TypeName} {st : StructDef}
    (h : s.checkBases n typesSeen st = .ok u) (hbase : st.base ≠ []) :
    ∃ base, s.structs.get? (s.resolveType st.base) = some base := by
  cases n with
  | zero => cases h
  | succ n =>
    rw [checkBases, if_neg hbase] at h
    obtain ⟨base, hget, -⟩ := bind_eq_ok.1 h
    unfold getStruct at hget
    split at hget
    · cases hget
    · next st' hst' => exact ⟨st', hst'⟩

theorem Fresh.addTypedef (h : s.Fresh) {td : TypeDef} {s' : AbiSerializer}
    (hadd : addTypedef scopes s td = .ok s') : s'.Fresh := by
  obtain ⟨known, hknown, _, hassert, hadd⟩ := bind₂_eq_ok.1 hadd
  cases hadd
  rw [eosAssert_eq_ok.1 hassert] at hknown
  intro t target ht hplain
  by_cases hnew : t = td.newTypeName
  · subst hnew
    cases scopes with
    | zero => cases hknown
    | succ scopes =>
      rw [isType, hplain] at hknown
      split_ifs at hknown with hbuiltIn
      · cases hknown
      · cases htypedef : s.typedefs.get? td.newTypeName with
        | some target' => exact h _ target' htypedef hplain
        | none =>
          rw [htypedef] at hknown
          injection hknown with hknown
          obtain ⟨hstruct, -⟩ := or_eq_false_iff.1 hknown
          exact ⟨Option.not_isSome_iff_eq_none.1 hbuiltIn,
            Option.not_isSome_iff_eq_none.1 (eq_false_iff.1 hstruct)⟩
  · rw [get?_set, if_neg hnew] at ht
    exact h t target ht hplain

theorem validated_of_validate (h : s.validate scopes = .ok ()) (hfresh : s.Fresh) :
    s.Validated scopes := by
  obtain ⟨_, -, _, htypedefs, h⟩ := bind₂_eq_ok.1 h
  obtain ⟨_, hstructs, _, hvariants, -⟩ := bind₂_eq_ok.1 h
  rw [forM_eq_ok] at htypedefs hstructs hvariants
  have hstruct : ∀ x st, s.structs.get? x = some st → (∃ n seen, s.checkBases n seen st = .ok ())
      ∧ ∀ f ∈ st.fields, s.assertType scopes (removeBinExtension f.type) = .ok () := by
    intro x st hst
    obtain ⟨_, hbases, hfields⟩ := bind_eq_ok.1 (hstructs (x, st) (get?_eq_some_iff.1 hst))
    exact ⟨⟨_, _, hbases⟩, forM_eq_ok.1 hfields⟩
  refine ⟨fun t target ht => ?_, fun x st hst f hf => ?_, fun x st hst hbase => ?_,
    fun x v hv t ht => ?_, hfresh⟩
  · exact isType_of_assertType (htypedefs _ (get?_eq_some_iff.1 ht))
  · exact isType_of_assertType ((hstruct x st hst).2 f hf)
  · obtain ⟨⟨n, seen, hbases⟩, -⟩ := hstruct x st hst
    exact base_of_checkBases hbases hbase
  · have htypes := forM_eq_ok.1 (hvariants (x, v) (get?_eq_some_iff.1 hv))
    exact isType_of_assertType (htypes t ht)

variable {builtInTypes : TypeName → Option BuiltIn} {abi : AbiDef}

section

variable (h : setAbi scopes builtInTypes abi = .ok s)
include h

theorem validate_of_setAbi :
    s.validate scopes = .ok () ∧ s.Fresh ∧ s.builtInTypes = builtInTypes := by
  obtain ⟨_, -, s₁, htypes, h⟩ := bind₂_eq_ok.1 h
  obtain ⟨hfresh, hbuiltIn⟩ : s₁.Fresh ∧ s₁.builtInTypes = builtInTypes := by
    refine foldlM_invariant (I := fun t => t.Fresh ∧ t.builtInTypes = builtInTypes) htypes ?_
      ⟨fun t target ht => (by cases ht), rfl⟩
    intro t td t' ht hadd
    refine ⟨ht.1.addTypedef hadd, ?_⟩
    obtain ⟨_, -, _, -, hadd⟩ := bind₂_eq_ok.1 hadd
    cases hadd
    exact ht.2
  -- the checks for duplicates
  obtain ⟨_, -, _, -, _, -, h⟩ := bind₃_eq_ok.1 h
  obtain ⟨_, -, _, -, h⟩ := bind₂_eq_ok.1 h
  obtain ⟨_, -, _, hvalidate, h⟩ := bind₂_eq_ok.1 h
  cases h
  exact ⟨hvalidate, hfresh, hbuiltIn⟩

/-- **The definitions are stored**, each under its name, and nothing else is. -/
theorem stores_of_setAbi : s.Stores abi := by
  obtain ⟨_, -, s₁, htypes, h⟩ := bind₂_eq_ok.1 h
  have hnamed : ∀ e ∈ abi.structs.foldl (fun m st => m.set st.name st) empty,
      e ∈ abi.structs.map fun st => (st.name, st) := by
    refine foldlRecOn (motive := fun m => ∀ e ∈ m, e ∈ _) _ _ nofun fun m hm st hst e he => ?_
    rcases Table.mem_insert.1 he with rfl | ⟨he, -⟩
    · exact mem_map_of_mem hst
    · exact hm e he
  obtain ⟨-, htypedefs, hstructs⟩ := (meets_foldlM (I := fun rest t => rest ⊆ abi.types
      ∧ (∀ e ∈ t.typedefs, e ∈ abi.types.map fun td => (td.newTypeName, td.type))
      ∧ ∀ e ∈ t.structs, e ∈ abi.structs.map fun st => (st.name, st))
    (fun td rest t ht => meets_ok_iff.2 fun t' hadd => by
      obtain ⟨_, -, _, -, hadd⟩ := bind₂_eq_ok.1 hadd
      cases hadd
      obtain ⟨htd, hrest⟩ := cons_subset.1 ht.1
      refine ⟨hrest, fun e he => ?_, ht.2.2⟩
      rcases Table.mem_insert.1 he with rfl | ⟨he, -⟩
      · exact mem_map_of_mem htd
      · exact ht.2.1 e he)
    _ _ ⟨Subset.refl _, fun _ he => (by cases he), hnamed⟩).of_ok htypes
  obtain ⟨_, htypesSize, _, hstructsSize, _, -, h⟩ := bind₃_eq_ok.1 h
  obtain ⟨_, -, _, -, h⟩ := bind₂_eq_ok.1 h
  obtain ⟨_, -, _, -, h⟩ := bind₂_eq_ok.1 h
  cases h
  have htypesSize := eosAssert_eq_ok.1 htypesSize
  have hstructsSize := eosAssert_eq_ok.1 hstructsSize
  refine ⟨fun t y => ?_, fun x st => ?_⟩
  · rw [get?_eq_some_iff, Table.mem_iff_of_length htypedefs (by rw [length_map]; exact htypesSize.ge),
      mem_map]
    constructor
    · rintro ⟨td, htd, heq⟩
      cases heq
      exact htd
    · intro htd
      exact ⟨_, htd, rfl⟩
  · rw [get?_eq_some_iff, Table.mem_iff_of_length hstructs (by rw [length_map]; exact hstructsSize.ge),
      mem_map]
    constructor
    · rintro ⟨st', hst, heq⟩
      cases heq
      exact ⟨hst, rfl⟩
    · rintro ⟨hst, rfl⟩
      exact ⟨st, hst, rfl⟩

/-- **An accepted ABI.** -/
theorem validated_of_setAbi : s.Validated scopes ∧ s.builtInTypes = builtInTypes := by
  obtain ⟨hvalidate, hfresh, hbuiltIn⟩ := validate_of_setAbi h
  exact ⟨validated_of_validate hvalidate hfresh, hbuiltIn⟩

end

end AbiSerializer

end PotatoNode.Chain
