import Mathlib.Algebra.BigOperators.Group.List.Basic
import Mathlib.Algebra.GroupWithZero.Nat
import Mathlib.Data.List.Perm.Subperm
import PotatoNode.Chain.HeaderChain

/-!
# Signatures of blocks (`block_header_state.cpp`, `producer_schedule.hpp`)
-/

namespace PotatoNode.Chain

open Lib BlockSigningAuthority List

/-! ## Weights -/

namespace BlockSigningAuthority

variable (a : BlockSigningAuthority)

def weightOf (key : PublicKey) : Nat :=
  ((a.keys.find? fun kw => kw.key = key).map KeyWeight.weight).getD 0

def presented (keys : List PublicKey) : List KeyWeight := a.keys.filter (·.key ∈ keys)

section Loop

variable {threshold : Nat} {presentedKeys : List PublicKey} {acc : Nat × Nat} {kw : KeyWeight}

theorem addWeight_of_mem (h : kw.key ∈ presentedKeys) :
    addWeight threshold presentedKeys acc kw
      = (if acc.1 < threshold then acc.1 + min (2 ^ 32 - 1 - acc.1) kw.weight else acc.1,
        acc.2 + 1) := if_pos h

theorem addWeight_of_notMem (h : kw.key ∉ presentedKeys) :
    addWeight threshold presentedKeys acc kw = acc := if_neg h

theorem snd_addWeights (l : List KeyWeight) (acc : Nat × Nat) :
    (l.foldl (addWeight threshold presentedKeys) acc).2
      = acc.2 + (l.filter (·.key ∈ presentedKeys)).length := by
  induction l generalizing acc with
  | nil => rfl
  | cons kw l ih =>
    rw [foldl_cons, ih]
    by_cases hmem : kw.key ∈ presentedKeys
    · rw [addWeight_of_mem hmem, filter_cons_of_pos (by simpa using hmem), length_cons]
      omega
    · rw [addWeight_of_notMem hmem, filter_cons_of_neg (by simpa using hmem)]

theorem le_saturated_iff (hthreshold : threshold < 2 ^ 32) (total weight rest : Nat) :
    threshold
        ≤ (if total < threshold then total + min (2 ^ 32 - 1 - total) weight else total) + rest
      ↔ threshold ≤ total + (weight + rest) := by
  split <;> omega

theorem le_addWeights_iff (hthreshold : threshold < 2 ^ 32) (l : List KeyWeight) (acc : Nat × Nat) :
    threshold ≤ (l.foldl (addWeight threshold presentedKeys) acc).1
      ↔ threshold ≤ acc.1 + ((l.filter (·.key ∈ presentedKeys)).map KeyWeight.weight).sum := by
  induction l generalizing acc with
  | nil => simp
  | cons kw l ih =>
    rw [foldl_cons, ih]
    by_cases hmem : kw.key ∈ presentedKeys
    · rw [addWeight_of_mem hmem, filter_cons_of_pos (by simpa using hmem), map_cons]
      exact le_saturated_iff hthreshold _ _ _
    · rw [addWeight_of_notMem hmem, filter_cons_of_neg (by simpa using hmem)]

end Loop

theorem keysSatisfyAndRelevant_eq (hthreshold : a.threshold < 2 ^ 32) (keys : List PublicKey) :
    a.keysSatisfyAndRelevant keys
      = (decide (a.threshold ≤ ((a.presented keys).map KeyWeight.weight).sum),
        (a.presented keys).length) := by
  have hloop : a.keysSatisfyAndRelevant keys
      = (decide (a.threshold ≤ (a.keys.foldl (addWeight a.threshold keys) (0, 0)).1),
        (a.keys.foldl (addWeight a.threshold keys) (0, 0)).2) := rfl
  rw [hloop, snd_addWeights]
  simp only [le_addWeights_iff hthreshold, Nat.zero_add]
  rfl

variable {a} {keys : List PublicKey}

section

variable (ha : (a.keys.map KeyWeight.key).Nodup)
include ha

theorem presented_perm_iff :
    (a.presented keys).length = keys.length ↔ ((a.presented keys).map KeyWeight.key).Perm keys := by
  have hnodup : ((a.presented keys).map KeyWeight.key).Nodup := ha.sublist (filter_sublist.map _)
  have hsub : (a.presented keys).map KeyWeight.key ⊆ keys := by
    intro k hk
    obtain ⟨kw, hkw, rfl⟩ := mem_map.1 hk
    simpa using (mem_filter.1 hkw).2
  constructor
  · intro hlen
    refine (subperm_of_subset hnodup hsub).perm_of_length_le ?_
    rw [length_map, hlen]
  · intro hperm
    rw [← hperm.length_eq, length_map]

theorem presented_perm_iff_subset (hkeys : keys.Nodup) :
    ((a.presented keys).map KeyWeight.key).Perm keys ↔ keys ⊆ a.keys.map KeyWeight.key := by
  have hnodup : ((a.presented keys).map KeyWeight.key).Nodup := ha.sublist (filter_sublist.map _)
  rw [perm_ext_iff_of_nodup hnodup hkeys]
  constructor
  · intro hmem k hk
    obtain ⟨kw, hkw, rfl⟩ := mem_map.1 ((hmem k).2 hk)
    exact mem_map_of_mem (mem_filter.1 hkw).1
  · intro hsub k
    rw [mem_map]
    constructor
    · rintro ⟨kw, hkw, rfl⟩
      simpa using (mem_filter.1 hkw).2
    · intro hk
      obtain ⟨kw, hkw, rfl⟩ := mem_map.1 (hsub hk)
      exact ⟨kw, mem_filter.2 ⟨hkw, by simpa using hk⟩, rfl⟩

theorem weightOf_key {kw : KeyWeight} (hkw : kw ∈ a.keys) : a.weightOf kw.key = kw.weight := by
  unfold weightOf
  cases hfind : a.keys.find? (fun kw' => kw'.key = kw.key) with
  | none =>
    have hnone := find?_eq_none.1 hfind kw hkw
    simp at hnone
  | some kw' =>
    have hkey : kw'.key = kw.key := by simpa using find?_some hfind
    have heq := inj_on_of_nodup_map ha (mem_of_find?_eq_some hfind) hkw hkey
    rw [heq]
    rfl

theorem sum_presented
    (hperm : ((a.presented keys).map KeyWeight.key).Perm keys) :
    ((a.presented keys).map KeyWeight.weight).sum = (keys.map a.weightOf).sum := by
  have hentries : (a.presented keys).map KeyWeight.weight
      = ((a.presented keys).map KeyWeight.key).map a.weightOf := by
    rw [map_map]
    refine map_congr_left fun kw hkw => ?_
    exact (weightOf_key ha (mem_filter.1 hkw).1).symm
  rw [hentries]
  exact (hperm.map a.weightOf).sum_eq

end

end BlockSigningAuthority

/-! ## `verify_signee` -/

namespace BlockHeaderState

variable {fc : Fc} {digest : Digest}

theorem recoverKey_eq_ok {sig : Signature} {key : PublicKey} :
    recoverKey fc sig digest = .ok key ↔ fc.recover sig digest = some key := by
  unfold recoverKey
  cases fc.recover sig digest with
  | none => simp [eosThrow]
  | some k => simp

theorem collectKeys_eq_ok {sigs : List Signature} {keys keys' : List PublicKey}
    (hkeys : keys.Nodup) :
    collectKeys fc digest sigs keys = .ok keys' ↔
      ∃ new, sigs.map (fc.recover · digest) = new.map some ∧ keys' = keys ++ new ∧ keys'.Nodup := by
  induction sigs generalizing keys with
  | nil =>
    unfold collectKeys
    constructor
    · intro h
      injection h with h
      exact ⟨[], rfl, by rw [append_nil, h], h ▸ hkeys⟩
    · rintro ⟨new, hnew, rfl, -⟩
      rw [map_nil, eq_comm, map_eq_nil_iff] at hnew
      rw [hnew, append_nil]
  | cons sig sigs ih =>
    unfold collectKeys
    constructor
    · intro h
      obtain ⟨key, hkey, _, hnew, h⟩ := bind₂_eq_ok.1 h
      have hfresh := eosAssert_eq_ok.1 hnew
      have hnodup : (keys ++ [key]).Nodup := by
        refine nodup_append.2 ⟨hkeys, nodup_singleton key, fun x hx y hy heq => ?_⟩
        rw [heq, mem_singleton.1 hy] at hx
        exact hfresh hx
      obtain ⟨new, hmap, hkeys', hdist⟩ := (ih hnodup).1 h
      refine ⟨key :: new, ?_, ?_, hdist⟩
      · rw [map_cons, map_cons, recoverKey_eq_ok.1 hkey, hmap]
      · rw [hkeys', append_assoc]
        rfl
    · rintro ⟨new, hmap, rfl, hdist⟩
      cases new with
      | nil => cases hmap
      | cons key new =>
        injection hmap with hkey hmap
        have hfresh : key ∉ keys := by
          intro hmem
          exact (nodup_append.1 hdist).2.2 key hmem key mem_cons_self rfl
        have happend : keys ++ key :: new = (keys ++ [key]) ++ new := by simp
        have hnodup : (keys ++ [key]).Nodup := by
          rw [happend] at hdist
          exact (nodup_append.1 hdist).1
        rw [recoverKey_eq_ok.2 hkey, ok_bind, eosAssert_of hfresh]
        exact (ih hnodup).2 ⟨new, hmap, happend, hdist⟩

variable (s : BlockHeaderState)

def signatures : List Signature := s.header.producerSignature :: s.additionalSignatures

/-- **A well signed block.** With an authority of distinct keys, whose threshold is a `uint32_t`,
`verify_signee` succeeds if and only if the signatures recover to distinct keys of the authority
whose weights, in unbounded arithmetic, sum up to the threshold. -/
theorem verifySignee_eq_ok_iff
    (hdistinct : (s.validBlockSigningAuthority.keys.map KeyWeight.key).Nodup)
    (hthreshold : s.validBlockSigningAuthority.threshold < 2 ^ 32) :
    s.verifySignee fc = .ok () ↔
      ∃ keys : List PublicKey,
        s.signatures.map (fc.recover · (s.sigDigest fc)) = keys.map some ∧ keys.Nodup
        ∧ (∀ key ∈ keys, key ∈ s.validBlockSigningAuthority.keys.map KeyWeight.key)
        ∧ s.validBlockSigningAuthority.threshold
          ≤ (keys.map s.validBlockSigningAuthority.weightOf).sum := by
  -- what the signatures recover to, one by one and in all
  have hsigs : ∀ (first : PublicKey) (new : List PublicKey),
      s.signatures.map (fc.recover · (s.sigDigest fc)) = (first :: new).map some
      ↔ fc.recover s.header.producerSignature (s.sigDigest fc) = some first
        ∧ s.additionalSignatures.map (fc.recover · (s.sigDigest fc)) = new.map some := by
    intro first new
    rw [signatures, map_cons, map_cons, cons.injEq]
  unfold verifySignee
  dsimp only
  constructor
  · intro h
    obtain ⟨_, -, first, hfirst, keys, hkeys, h⟩ := bind₃_eq_ok.1 h
    obtain ⟨new, hnew, rfl, hnodup⟩ := (collectKeys_eq_ok (nodup_singleton first)).1 hkeys
    rw [keysSatisfyAndRelevant_eq _ hthreshold] at h
    obtain ⟨_, hrelevant, h⟩ := bind_eq_ok.1 h
    have hsatisfied := of_decide_eq_true (eosAssert_eq_ok.1 h)
    have hperm := (presented_perm_iff hdistinct).1
      (eosAssert_eq_ok.1 hrelevant)
    refine ⟨[first] ++ new, (hsigs _ _).2 ⟨recoverKey_eq_ok.1 hfirst, hnew⟩, hnodup, ?_, ?_⟩
    · exact (presented_perm_iff_subset hdistinct hnodup).1 hperm
    · rwa [← sum_presented hdistinct hperm]
  · rintro ⟨keys, hmap, hnodup, hsub, hweight⟩
    cases keys with
    | nil => cases hmap
    | cons first new =>
      obtain ⟨hfirst, hnew⟩ := (hsigs first new).1 hmap
      have hperm := (presented_perm_iff_subset hdistinct hnodup).2 hsub
      have hlen := (presented_perm_iff hdistinct).2 hperm
      -- distinct keys of the authority are not more than it has
      have hsize :
          1 + s.additionalSignatures.length ≤ s.validBlockSigningAuthority.keys.length := by
        have hle := (subperm_of_subset hnodup hsub).length_le
        have hsame := congrArg length hnew
        rw [length_map, length_map] at hsame
        rw [length_cons, length_map] at hle
        omega
      have hcollect : collectKeys fc (s.sigDigest fc) s.additionalSignatures [first]
          = .ok (first :: new) :=
        (collectKeys_eq_ok (nodup_singleton first)).2 ⟨new, hnew, rfl, hnodup⟩
      rw [eosAssert_of hsize, ok_bind, recoverKey_eq_ok.2 hfirst, ok_bind, hcollect, ok_bind,
        keysSatisfyAndRelevant_eq _ hthreshold]
      rw [← sum_presented hdistinct hperm] at hweight
      rw [eosAssert_of hlen]
      exact eosAssert_of (decide_eq_true hweight)

def twoOfThree : BlockHeaderState :=
  { (default : BlockHeaderState) with
    validBlockSigningAuthority := ⟨3, [⟨10, 1⟩, ⟨20, 2⟩, ⟨30, 1⟩]⟩
    header := { (default : SignedBlockHeader) with producerSignature := 20 }
    additionalSignatures := [30] }

theorem verifySignee_twoOfThree :
    twoOfThree.verifySignee Fc.sample = .ok () ↔
      ∃ keys : List PublicKey,
        twoOfThree.signatures.map (Fc.sample.recover · (twoOfThree.sigDigest Fc.sample))
          = keys.map some ∧ keys.Nodup
        ∧ (∀ key ∈ keys, key ∈ twoOfThree.validBlockSigningAuthority.keys.map KeyWeight.key)
        ∧ twoOfThree.validBlockSigningAuthority.threshold
          ≤ (keys.map twoOfThree.validBlockSigningAuthority.weightOf).sum :=
  verifySignee_eq_ok_iff twoOfThree (by decide) (by decide)

end BlockHeaderState

/-! ## Producer and validator -/

section Produced

variable {fc : Fc} {s s' : BlockHeaderState} {p : PendingBlockHeaderState}

theorem PendingBlockHeaderState.finishNextCore_signature {h : SignedBlockHeader}
    (hfin : p.finishNextCore fc h = .ok s') (sig : Signature) :
    p.finishNextCore fc { h with producerSignature := sig }
      = .ok { s' with header := { h with producerSignature := sig } } := by
  obtain ⟨hm, exts, hexts, hsched, rfl⟩ := finishNextCore_eq_ok.1 hfin
  refine finishNextCore_eq_ok.2 ⟨⟨hm.timestamp, hm.previous, hm.confirmed, hm.producer,
    hm.scheduleVersion⟩, exts, hexts, ?_, rfl⟩
  exact assertScheduleChange_eq_ok.2 (assertScheduleChange_eq_ok.1 hsched)

/-- **Producer and validator agree.** If the producer's way — the template for a time and a
confirmation count, its header, the signed state — gives the state `s'`, the validator's way from
the same parent accepts the header of `s'` with its additional signatures, and gives `s'`. -/
theorem nextHeader_of_produced (s : BlockHeaderState) (when' : BlockTimestamp) (confirmed : Nat)
    (transactionMroot actionMroot : Digest) (newProducers : Option ProducerAuthoritySchedule)
    (enableStandbySchedule : Bool) (standbyScheduleBlockNum : Option Nat)
    (signer : Digest → List Signature) (hnext : s.next fc when' confirmed = .ok p)
    (hfin : p.finishNextSigned fc (p.makeBlockHeader transactionMroot actionMroot newProducers
      enableStandbySchedule standbyScheduleBlockNum) signer = .ok s') :
    s.nextHeader fc s'.header s'.additionalSignatures false = .ok s' := by
  obtain ⟨r, hcore, hsign⟩ := bind_eq_ok.1 hfin
  obtain ⟨sig, sigs, hs', hverify⟩ := BlockHeaderState.sign_eq_ok hsign
  have hheader : s'.header = { p.makeBlockHeader transactionMroot actionMroot newProducers
      enableStandbySchedule standbyScheduleBlockNum with producerSignature := sig } := by
    obtain ⟨-, exts, -, -, hr⟩ := PendingBlockHeaderState.finishNextCore_eq_ok.1 hcore
    rw [hs', hr]
  have hcore' := PendingBlockHeaderState.finishNextCore_signature hcore sig
  unfold BlockHeaderState.nextHeader
  have htemplate : s.next fc s'.header.timestamp s'.header.confirmed = .ok p := by
    rw [hheader]
    exact BlockHeaderState.next_timestamp hnext
  rw [htemplate, ok_bind]
  unfold PendingBlockHeaderState.finishNext
  rw [hheader, hcore']
  have hresult : { r with
      header := { p.makeBlockHeader transactionMroot actionMroot newProducers
        enableStandbySchedule standbyScheduleBlockNum with producerSignature := sig }
      additionalSignatures := s'.additionalSignatures } = s' := by
    rw [← hheader, hs']
  show (do
    BlockHeaderState.verifySignee _ fc
    .ok _) = _
  rw [hresult, hverify]
  rfl

def settledGenesis : BlockHeaderState :=
  { GenesisState.sample.headerState Fc.sample with pendingSchedule := default }

/-- The block after it, by default in the next slot, introduces a schedule. -/
theorem nextHeader_of_produced_introducing :
    ∃ p s', settledGenesis.next Fc.sample ⟨0⟩ 0 = .ok p
      ∧ p.finishNextSigned Fc.sample (p.makeBlockHeader 5 6
          (some (.sample 1 [1, 2])) true (some 9)) (fun _ => [systemAccountName]) = .ok s'
      ∧ s'.header.timestamp = ⟨2⟩
      ∧ settledGenesis.nextHeader Fc.sample s'.header s'.additionalSignatures false = .ok s' := by
  have hrun : (do
      let p ← settledGenesis.next Fc.sample ⟨0⟩ 0
      let s' ← p.finishNextSigned Fc.sample (p.makeBlockHeader 5 6
        (some (.sample 1 [1, 2])) true (some 9)) fun _ => [systemAccountName]
      eosAssert (s'.header.timestamp = ⟨2⟩) .blockValidateException "" : Result Unit) = .ok () := by
    decide +kernel
  obtain ⟨p, hnext, s', hfin, hrun⟩ := bind₂_eq_ok.1 hrun
  exact ⟨p, s', hnext, hfin, eosAssert_eq_ok.1 hrun,
    nextHeader_of_produced _ _ _ _ _ _ _ _ _ hnext hfin⟩

end Produced

end PotatoNode.Chain
