import Mathlib.Algebra.Group.Nat.Defs
import PotatoNode.Chain.Exceptions

/-!
# Producer schedules (`producer_schedule.hpp`)

A schedule is a version number and the list of producers in signing order, each with the
weighted multi-signature authority its blocks must satisfy. Public keys, account names and
signatures are compared and never inspected, so numbers stand for them.
-/

namespace PotatoNode.Chain

abbrev AccountName := Nat

def systemAccountName : AccountName := 6138663577826885632

abbrev PublicKey := Nat

/-- `signature_type`. -/
abbrev Signature := Nat

def maxProducers : Nat := 125

def producerRepetitions : Nat := 12

structure KeyWeight where
  key : PublicKey
  weight : Nat
deriving DecidableEq, Repr, Inhabited

/-- `block_signing_authority_v0`, the only alternative of `block_signing_authority`. -/
structure BlockSigningAuthority where
  threshold : Nat
  keys : List KeyWeight
deriving DecidableEq, Repr, Inhabited

/-- One iteration of the loop of `keys_satisfy_and_relevant`. -/
def BlockSigningAuthority.addWeight (threshold : Nat) (presentedKeys : List PublicKey)
    (acc : Nat × Nat) (kw : KeyWeight) : Nat × Nat :=
  if kw.key ∈ presentedKeys then
    (if acc.1 < threshold then acc.1 + min (2 ^ 32 - 1 - acc.1) kw.weight else acc.1, acc.2 + 1)
  else acc

/-- `block_signing_authority_v0::keys_satisfy_and_relevant`: the weight of the presented keys,
added in saturating 32-bit arithmetic until the threshold is met, and how many keys of the
authority were presented. -/
def BlockSigningAuthority.keysSatisfyAndRelevant (a : BlockSigningAuthority)
    (presentedKeys : List PublicKey) : Bool × Nat :=
  let (totalWeight, numRelevantKeys) := a.keys.foldl (addWeight a.threshold presentedKeys) (0, 0)
  (a.threshold ≤ totalWeight, numRelevantKeys)

structure ProducerAuthority where
  producerName : AccountName
  authority : BlockSigningAuthority
deriving DecidableEq, Repr, Inhabited

structure ProducerAuthoritySchedule where
  version : Nat
  producers : List ProducerAuthority
deriving DecidableEq, Repr, Inhabited

def ProducerAuthoritySchedule.names (sched : ProducerAuthoritySchedule) : List AccountName :=
  sched.producers.map ProducerAuthority.producerName

end PotatoNode.Chain
