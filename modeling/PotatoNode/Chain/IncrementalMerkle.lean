import Mathlib.Algebra.Group.Nat.Defs
import PotatoNode.Chain.Exceptions

/-!
# The incremental merkle tree (`incremental_merkle.hpp`)

`incremental_merkle_impl<DigestType>` is a template, so the digest type stays a variable here;
`hashPair l r` is `DigestType::hash(make_canonical_pair(l, r))`. Node counts are `uint64_t`.
-/

namespace PotatoNode.Chain

/-- `next_power_of_2`: the smallest power of two that is not below `value`. -/
def nextPowerOf2 (value : Nat) : Nat :=
  let v := (value + 2 ^ 64 - 1) % 2 ^ 64
  let v := v ||| (v >>> 1)
  let v := v ||| (v >>> 2)
  let v := v ||| (v >>> 4)
  let v := v ||| (v >>> 8)
  let v := v ||| (v >>> 16)
  let v := v ||| (v >>> 32)
  (v + 1) % 2 ^ 64

/-- `clz_power_2`: the position of the one bit of a power of two. -/
def clzPower2 (value : Nat) : Int :=
  64 - (if value ≠ 0 then 1 else 0)
    - (if value &&& 0x00000000FFFFFFFF ≠ 0 then 32 else 0)
    - (if value &&& 0x0000FFFF0000FFFF ≠ 0 then 16 else 0)
    - (if value &&& 0x00FF00FF00FF00FF ≠ 0 then 8 else 0)
    - (if value &&& 0x0F0F0F0F0F0F0F0F ≠ 0 then 4 else 0)
    - (if value &&& 0x3333333333333333 ≠ 0 then 2 else 0)
    - (if value &&& 0x5555555555555555 ≠ 0 then 1 else 0)

def calcluateMaxDepth (nodeCount : Nat) : Int :=
  if nodeCount = 0 then 0 else clzPower2 (nextPowerOf2 nodeCount) + 1

/-- `incremental_merkle_impl`. -/
structure IncrementalMerkle (δ : Type) where
  activeNodes : List δ
  nodeCount : Nat
deriving DecidableEq, Repr

instance {δ : Type} : Inhabited (IncrementalMerkle δ) := ⟨⟨[], 0⟩⟩

namespace IncrementalMerkle

variable {δ : Type}

/-- The loop of `append`: `currentDepth` levels remain, `activeIter` is what is left of the old
active nodes, `updated` the new ones so far. A right node takes its left sibling from
`activeIter`, which must not be at its end. -/
def collapse (hashPair : δ → δ → δ) :
    (currentDepth index : Nat) → (partialNode : Bool) → (top : δ) →
      (activeIter updated : List δ) → Result (List δ)
  | 0, _, _, top, _, updated => .ok (updated ++ [top])
  | depth + 1, index, partialNode, top, activeIter, updated =>
    if index % 2 = 0 then
      -- a left node and an implied right node
      collapse hashPair depth (index / 2) true (hashPair top top) activeIter
        (if partialNode then updated else updated ++ [top])
    else
      match activeIter with
      | [] => .error .undefinedBehaviour
      | left :: activeIter =>
        collapse hashPair depth (index / 2) partialNode (hashPair left top) activeIter
          (if partialNode then updated ++ [left] else updated)

def append (hashPair : δ → δ → δ) (m : IncrementalMerkle δ) (digest : δ) :
    Result (IncrementalMerkle δ) := do
  let maxDepth := calcluateMaxDepth (m.nodeCount + 1)
  let nodes ← collapse hashPair (maxDepth - 1).toNat m.nodeCount false digest m.activeNodes []
  .ok ⟨nodes, m.nodeCount + 1⟩

/-- `get_root`; `zero` is the default-constructed digest. -/
def getRoot (zero : δ) (m : IncrementalMerkle δ) : δ :=
  if 0 < m.nodeCount then m.activeNodes.getLastD zero else zero

end IncrementalMerkle

end PotatoNode.Chain
