import Mathlib.Data.Nat.Bitwise
import Mathlib.Data.Nat.Log
import PotatoNode.Chain.IncrementalMerkle
import PotatoNode.Lib.PairedLevels

/-!
# Two ways to a merkle root (`merkle.cpp`, `incremental_merkle.hpp`)

`merkle` folds a list of digests level by level, in place. `incremental_merkle_impl::append` takes
one digest at a time and keeps a few nodes. Both come to the root of the same tree.
-/

namespace PotatoNode.Chain

open Lib List Nat

variable {δ : Type}

/-! ## `merkle` -/

/-- The `for` loop of `merkle` from `i` on: `ids[i]` is overwritten with the hash of a pair. -/
def hashLevel (hashPair : δ → δ → δ) : (rounds i : Nat) → List δ → Result (List δ)
  | 0, _, ids => .ok ids
  | rounds + 1, i, ids =>
    match ids[2 * i]?, ids[2 * i + 1]? with
    | some left, some right => hashLevel hashPair rounds (i + 1) (ids.set i (hashPair left right))
    | _, _ => .error .undefinedBehaviour

def merkleLoop (hashPair : δ → δ → δ) : (fuel : Nat) → List δ → Result δ
  | 0, _ => .error .divergence
  | fuel + 1, ids =>
    if 1 < ids.length then do
      let ids := if ids.length % 2 ≠ 0 then ids ++ ids.getLast?.toList else ids
      let hashed ← hashLevel hashPair (ids.length / 2) 0 ids
      merkleLoop hashPair fuel (hashed.take (hashed.length / 2))
    else
      match ids.head? with
      | some root => .ok root
      | none => .error .undefinedBehaviour

/-- `merkle`; `zero` is the default-constructed digest. -/
def merkle (hashPair : δ → δ → δ) (zero : δ) (ids : List δ) : Result δ :=
  if ids.length = 0 then .ok zero else merkleLoop hashPair ids.length ids

section Batch

variable (hashPair : δ → δ → δ)

/-- Hashing in place reads no digest that has been overwritten. -/
theorem hashLevel_spec : ∀ (rounds i : Nat) (ids rest : List δ), ids.drop (2 * i) = rest →
    rest.length = 2 * rounds →
    ∃ hashed, hashLevel hashPair rounds i ids = .ok hashed ∧ hashed.length = ids.length
      ∧ hashed.take (i + rounds) = ids.take i ++ pairs hashPair rest
  | 0, i, ids, rest, _, hlen => by
    obtain rfl := length_eq_zero_iff.1 hlen
    exact ⟨ids, rfl, rfl, by simp [pairs]⟩
  | rounds + 1, i, ids, rest, hrest, hlen => by
    obtain ⟨a, b, rest, rfl⟩ : ∃ a b tail, rest = a :: b :: tail := by
      cases rest with
      | nil => simp at hlen
      | cons a rest =>
        cases rest with
        | nil => simp at hlen; omega
        | cons b tail => exact ⟨a, b, tail, rfl⟩
    · have ha : ids[2 * i]? = some a := by
        rw [← head?_drop, hrest]
        rfl
      have hdrop : ids.drop (2 * i + 1) = b :: rest := by
        rw [← tail_drop, hrest]
        rfl
      have hb : ids[2 * i + 1]? = some b := by
        rw [← head?_drop, hdrop]
        rfl
      have hnext : (ids.set i (hashPair a b)).drop (2 * (i + 1)) = rest := by
        rw [drop_set_of_lt (by omega), show 2 * (i + 1) = 2 * i + 1 + 1 by omega,
          ← tail_drop, hdrop]
        rfl
      obtain ⟨hashed, hok, hlength, htake⟩ := hashLevel_spec rounds (i + 1) _ rest hnext (by
        simp only [length_cons] at hlen
        omega)
      refine ⟨hashed, ?_, by rw [hlength, length_set], ?_⟩
      · rw [hashLevel, ha, hb]
        exact hok
      · have hi : i < ids.length := by
          have := (List.getElem?_eq_some_iff.1 ha).1
          omega
        have hset : (ids.set i (hashPair a b)).take (i + 1) = ids.take i ++ [hashPair a b] := by
          rw [take_add_one, getElem?_set_self hi, take_set_of_le (le_refl i)]
          rfl
        rw [show i + (rounds + 1) = i + 1 + rounds by omega, htake, hset]
        simp [pairs]

theorem merkleLoop_succ {fuel : Nat} {ids : List δ} (hlen : 1 < ids.length) :
    merkleLoop hashPair (fuel + 1) ids = merkleLoop hashPair fuel (level hashPair ids) := by
  have hpad : ∃ padded, (if ids.length % 2 ≠ 0 then ids ++ ids.getLast?.toList else ids) = padded
      ∧ padded.length % 2 = 0 ∧ pairs hashPair padded = level hashPair ids := by
    split
    · next hodd =>
      obtain ⟨l, a, rfl, hl⟩ := exists_concat_of_odd (show ids.length % 2 = 1 by omega)
      refine ⟨l ++ [a] ++ [a], by simp, by simp; omega, ?_⟩
      rw [append_assoc, level_append hashPair [a] hl]
      exact pairs_append hashPair [a, a] hl
    · next heven =>
      have heven : ids.length % 2 = 0 := by omega
      exact ⟨ids, rfl, heven, (level_of_even hashPair heven).symm⟩
  obtain ⟨padded, hpadded, heven, hpairs⟩ := hpad
  obtain ⟨hashed, hok, hlength, htake⟩ :=
    hashLevel_spec hashPair (padded.length / 2) 0 padded padded rfl (by omega)
  rw [merkleLoop, if_pos hlen, hpadded]
  show (hashLevel hashPair (padded.length / 2) 0 padded >>= fun hashed => _) = _
  rw [hok, ok_bind, hlength]
  rw [zero_add] at htake
  rw [htake, ← hpairs]
  rfl

/-- **`merkle`** of a non-empty list is what is left after as many levels as the logarithm says. -/
theorem merkleLoop_spec : ∀ (fuel : Nat) (ids : List δ), 0 < ids.length → ids.length ≤ fuel →
    ∃ root, merkleLoop hashPair fuel ids = .ok root
      ∧ (level hashPair)^[clog 2 ids.length] ids = [root]
  | 0, ids, hpos, hfuel => by omega
  | fuel + 1, ids, hpos, hfuel => by
    by_cases hlen : 1 < ids.length
    · rw [merkleLoop_succ hashPair hlen]
      have hlevel := length_level hashPair ids
      obtain ⟨root, hok, hroot⟩ := merkleLoop_spec fuel (level hashPair ids) (by omega) (by omega)
      refine ⟨root, hok, ?_⟩
      have hclog : clog 2 ids.length = clog 2 ((ids.length + 1) / 2) + 1 :=
        clog_of_two_le (by omega) hlen
      rw [hclog, Function.iterate_succ_apply, ← hlevel, hroot]
    · obtain ⟨root, rfl⟩ := length_eq_one_iff.1 (show ids.length = 1 by omega)
      refine ⟨root, by simp [merkleLoop], ?_⟩
      simp

end Batch

/-! ## The depth -/

/-- The bits of a number that has been or-ed with itself, shifted by `0, ..., n - 1`. -/
def Smeared (value n smeared : Nat) : Prop :=
  ∀ i, smeared.testBit i = true ↔ ∃ j < n, value.testBit (i + j) = true

variable {value n v : Nat}

theorem Smeared.step (h : Smeared value n v) : Smeared value (n + n) (v ||| (v >>> n)) := by
  intro i
  rw [testBit_or, testBit_shiftRight, Bool.or_eq_true, h i, h (n + i)]
  constructor
  · rintro (⟨j, hj, hbit⟩ | ⟨j, hj, hbit⟩)
    · exact ⟨j, by omega, hbit⟩
    · exact ⟨n + j, by omega, by rwa [show i + (n + j) = n + i + j by omega]⟩
  · rintro ⟨j, hj, hbit⟩
    by_cases hjn : j < n
    · exact .inl ⟨j, hjn, hbit⟩
    · exact .inr ⟨j - n, by omega, by rwa [show n + i + (j - n) = i + j by omega]⟩

theorem Smeared.eq {k : Nat} (h : Smeared value 64 v) (hlt : value < 2 ^ k)
    (hle : 2 ^ k ≤ 2 * value ∨ k = 0) (hk : k ≤ 64) : v = 2 ^ k - 1 := by
  apply eq_of_testBit_eq
  intro i
  rw [testBit_two_pow_sub_one, Bool.eq_iff_iff, h i, decide_eq_true_eq]
  constructor
  · rintro ⟨j, -, hbit⟩
    have := ge_two_pow_of_testBit hbit
    have hpow : 2 ^ (i + j) < 2 ^ k := by omega
    have := (Nat.pow_lt_pow_iff_right (by omega)).1 hpow
    omega
  · intro hi
    -- the highest bit of the value
    refine ⟨k - 1 - i, by omega, ?_⟩
    obtain _ | k := k
    · omega
    rw [show i + (k + 1 - 1 - i) = k by omega]
    rw [testBit_eq_decide_div_mod_eq, decide_eq_true_eq]
    have hdiv : value / 2 ^ k = 1 := by
      apply Nat.div_eq_of_lt_le
      · omega
      · omega
    rw [hdiv]

theorem nextPowerOf2_eq (hpos : 0 < n) (hle : n ≤ 2 ^ 63) : nextPowerOf2 n = 2 ^ clog 2 n := by
  have hk : clog 2 n ≤ 63 := clog_le_of_le_pow hle
  have hlt : n - 1 < 2 ^ clog 2 n := by
    have := le_pow_clog (b := 2) (by omega) n
    omega
  have hhigh : 2 ^ clog 2 n ≤ 2 * (n - 1) ∨ clog 2 n = 0 := by
    by_cases hone : n = 1
    · right
      simp [hone]
    · left
      have hpred := pow_pred_clog_lt_self (b := 2) (x := n) (by omega) (by omega)
      have hpos : 0 < clog 2 n := clog_pos (by omega) (by omega)
      have hsucc : 2 ^ clog 2 n = 2 * 2 ^ (clog 2 n - 1) := by
        rw [← pow_succ']
        congr 1
        omega
      rw [pred_eq_sub_one] at hpred
      omega
  have hstart : (n + 2 ^ 64 - 1) % 2 ^ 64 = n - 1 := by omega
  have hone : Smeared (n - 1) 1 (n - 1) := by
    intro i
    simp
  have hsmeared := hone.step.step.step.step.step.step.eq hlt hhigh (by omega)
  unfold nextPowerOf2
  rw [hstart]
  simp only [hsmeared]
  have hpow : 2 ^ Nat.clog 2 n ≤ 2 ^ 63 := Nat.pow_le_pow_right (by omega) hk
  omega

theorem clzPower2_two_pow : ∀ k : Nat, k < 64 → clzPower2 (2 ^ k) = k := by
  decide

/-- **`calcluate_max_depth`.** -/
theorem calcluateMaxDepth_eq (hpos : 0 < n) (hle : n ≤ 2 ^ 63) :
    calcluateMaxDepth n = clog 2 n + 1 := by
  have hk : clog 2 n ≤ 63 := clog_le_of_le_pow hle
  rw [calcluateMaxDepth, if_neg (by omega), nextPowerOf2_eq hpos hle,
    clzPower2_two_pow _ (by omega)]

/-! ## `append` -/

namespace IncrementalMerkle

variable (hashPair : δ → δ → δ)
  {depth index : Nat} {partialNode : Bool} {top : δ} {iter updated : List δ}

theorem collapse_left
    (hindex : index % 2 = 0) : collapse hashPair (depth + 1) index partialNode top iter updated
      = collapse hashPair depth (index / 2) true (hashPair top top) iter
        (if partialNode then updated else updated ++ [top]) :=
  if_pos hindex

theorem collapse_right {left : δ} (hindex : index % 2 = 1) :
    collapse hashPair (depth + 1) index partialNode top (left :: iter) updated
      = collapse hashPair depth (index / 2) partialNode (hashPair left top) iter
        (if partialNode then updated ++ [left] else updated) :=
  if_neg (by omega)

/-- A node that is on the left joins the frontier, and what is above it is partial. -/
theorem collapse_eq : ∀ (depth : Nat) (nodes : List δ) (partialNode : Bool) (top : δ)
    (rest updated : List δ), nodes.length < 2 ^ depth →
    ∃ root, (level hashPair)^[depth] (nodes ++ [top]) = [root]
      ∧ collapse hashPair depth nodes.length partialNode top (frontier hashPair nodes ++ rest) updated
        = .ok (updated ++ (if partialNode = true then frontier hashPair nodes
          else if nodes.length + 1 = 2 ^ depth then [] else frontier hashPair (nodes ++ [top]))
          ++ [root])
  | 0, nodes, partialNode, top, rest, updated, hlen => by
    obtain rfl := length_eq_zero_iff.1 (show nodes.length = 0 by simpa using hlen)
    exact ⟨top, rfl, by simp [collapse]⟩
  | depth + 1, nodes, partialNode, top, rest, updated, hlen => by
    rw [pow_succ] at hlen ⊢
    rw [Function.iterate_succ_apply]
    by_cases heven : nodes.length % 2 = 0
    · obtain ⟨root, hroot, hok⟩ := collapse_eq depth (pairs hashPair nodes) true
        (hashPair top top) rest (if partialNode then updated else updated ++ [top])
        (by rw [length_pairs]; omega)
      refine ⟨root, by rw [level_append hashPair [top] heven]; exact hroot, ?_⟩
      have hnot : ¬ nodes.length + 1 = 2 ^ depth * 2 := by omega
      rw [length_pairs, ← frontier_of_even hashPair heven, if_pos rfl] at hok
      rw [collapse_left hashPair heven, hok, if_neg hnot, frontier_concat hashPair heven,
        ← frontier_of_even hashPair heven]
      cases partialNode <;> simp
    · have hodd : nodes.length % 2 = 1 := by omega
      obtain ⟨nodes, left, rfl, hnodes⟩ := exists_concat_of_odd hodd
      have hlength : (nodes ++ [left]).length = nodes.length + 1 := by simp
      rw [hlength] at hlen
      obtain ⟨root, hroot, hok⟩ := collapse_eq depth (pairs hashPair nodes) partialNode
        (hashPair left top) rest (if partialNode then updated ++ [left] else updated)
        (by rw [length_pairs]; omega)
      refine ⟨root, ?_, ?_⟩
      · rw [append_assoc, level_append hashPair _ hnodes]
        exact hroot
      · have hindex : (nodes ++ [left]).length / 2 = (pairs hashPair nodes).length := by
          rw [length_pairs, hlength]
          omega
        have hfull : (nodes ++ [left]).length + 1 = 2 ^ depth * 2
            ↔ (pairs hashPair nodes).length + 1 = 2 ^ depth := by
          rw [length_pairs, hlength]
          omega
        rw [frontier_concat hashPair hnodes, cons_append, collapse_right hashPair hodd, hindex,
          hok, frontier_concat_concat hashPair hnodes]
        simp only [hfull]
        cases partialNode <;> simp

/-- The tree has been built from `ids`. The last active node is the root; the active nodes start
with what the next append needs. -/
structure Tracks (m : IncrementalMerkle δ) (ids : List δ) : Prop where
  nodeCount : m.nodeCount = ids.length
  active : ∃ rest, m.activeNodes = frontier hashPair ids ++ rest
  root : ids ≠ [] → ∃ nodes root, m.activeNodes = nodes ++ [root]
    ∧ (level hashPair)^[Nat.clog 2 ids.length] ids = [root]

theorem tracks_empty : Tracks hashPair (⟨[], 0⟩ : IncrementalMerkle δ) [] where
  nodeCount := rfl
  active := ⟨[], by simp⟩
  root h := absurd rfl h

variable {hashPair} {m : IncrementalMerkle δ} {ids : List δ}

/-- **`append`** never reads past the end of the active nodes. -/
theorem Tracks.append (h : m.Tracks hashPair ids) (digest : δ) (hlen : ids.length < 2 ^ 63) :
    ∃ m', m.append hashPair digest = .ok m' ∧ m'.Tracks hashPair (ids ++ [digest]) := by
  have hdepth : calcluateMaxDepth (m.nodeCount + 1) = clog 2 (ids.length + 1) + 1 := by
    rw [h.nodeCount]
    exact calcluateMaxDepth_eq (by omega) (by omega)
  have hpow : ids.length < 2 ^ clog 2 (ids.length + 1) := le_pow_clog (by omega) _
  obtain ⟨rest, hrest⟩ := h.active
  obtain ⟨root, hroot, hok⟩ := collapse_eq hashPair _ ids false digest rest [] hpow
  refine ⟨⟨(if ids.length + 1 = 2 ^ clog 2 (ids.length + 1) then []
    else frontier hashPair (ids ++ [digest])) ++ [root], m.nodeCount + 1⟩, ?_, ?_, ?_,
    fun _ => ⟨_, root, rfl, ?_⟩⟩
  · rw [IncrementalMerkle.append, hdepth]
    simp only [Int.add_sub_cancel, Int.toNat_natCast]
    rw [h.nodeCount, hrest, hok]
    rfl
  · simp [h.nodeCount]
  · -- a complete tree has its root as the only active node
    split
    · next hfull =>
      have hcomplete := frontier_of_complete hashPair _ (ids ++ [digest])
        ((length_append).trans hfull)
      exact ⟨[], by rw [hcomplete, hroot]; rfl⟩
    · exact ⟨[root], rfl⟩
  · simpa using hroot

theorem appendAll_spec : ∀ (more ids : List δ) (m : IncrementalMerkle δ), m.Tracks hashPair ids →
    (ids ++ more).length < 2 ^ 63 → ∃ m', more.foldlM (fun m d => m.append hashPair d) m = .ok m'
      ∧ m'.Tracks hashPair (ids ++ more)
  | [], ids, m, h, _ => ⟨m, rfl, by simpa using h⟩
  | digest :: more, ids, m, h, hlen => by
    obtain ⟨m₁, hok, h₁⟩ := h.append digest (by
      rw [length_append] at hlen
      omega)
    obtain ⟨m', hrest, h'⟩ := appendAll_spec more _ m₁ h₁ (by simpa using hlen)
    refine ⟨m', ?_, by simpa using h'⟩
    rw [foldlM_cons, hok, ok_bind]
    exact hrest

/-- **Both merkle roots agree.** Appending the digests one by one to the empty incremental tree
returns, so no append has read past the end of the active nodes, and `get_root` is `merkle` of the
list. -/
theorem merkle_eq_getRoot (hashPair : δ → δ → δ) (zero : δ) (ids : List δ)
    (hlen : ids.length < 2 ^ 63) :
    ∃ m, ids.foldlM (fun m d => append hashPair m d) ⟨[], 0⟩ = .ok m
      ∧ merkle hashPair zero ids = .ok (m.getRoot zero) := by
  obtain ⟨m, hok, h⟩ := appendAll_spec ids _ _ (tracks_empty hashPair) hlen
  refine ⟨m, hok, ?_⟩
  rw [nil_append] at h
  unfold merkle getRoot
  rw [h.nodeCount]
  by_cases hnil : ids = []
  · simp [hnil]
  · have hpos := length_pos_iff.2 hnil
    obtain ⟨nodes, root, hactive, hroot⟩ := h.root hnil
    obtain ⟨root', hmerkle, hroot'⟩ := merkleLoop_spec hashPair ids.length ids hpos (le_refl _)
    rw [hroot] at hroot'
    injection hroot' with hroot'
    rw [if_neg (by omega), if_pos hpos, hactive, hmerkle, ← hroot']
    simp

theorem merkle_eq_getRoot_seven :
    let hashPair := fun l r : Nat => (3 * l + 5 * r + 1) % 1000
    ∃ m, [1, 2, 3, 4, 5, 6, 7].foldlM (fun m d => append hashPair m d) ⟨[], 0⟩ = .ok m
      ∧ merkle hashPair 0 [1, 2, 3, 4, 5, 6, 7] = .ok (m.getRoot 0) :=
  merkle_eq_getRoot _ 0 [1, 2, 3, 4, 5, 6, 7] (by decide)

end IncrementalMerkle

end PotatoNode.Chain
