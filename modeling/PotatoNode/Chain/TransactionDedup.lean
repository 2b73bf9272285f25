import PotatoNode.Lib.Runs
import PotatoNode.Chain.BlockHeaderState
import PotatoNode.Chain.ChainConfig
import PotatoNode.Chain.Objects

/-!
# No transaction is applied twice

An input transaction is recorded by its id when it is applied, and the record is kept until the
transaction has expired. Records are cleared at the start of a block where `now > expiration`, and a
transaction is accepted where `expiration >= now`; so what has been forgotten cannot come back, as long
as the time of the blocks does not go back.
-/

namespace PotatoNode.Chain

open Lib Chainbase List Option Nat

/-! ## Records -/

structure TransactionObject where
  id : Int
  /-- `time_point_sec`: seconds -/
  expiration : UInt32
  trxId : Digest
deriving DecidableEq, Repr

/-- The index by expiration ends in the id, so the index by transaction id is the one that can
clash. -/
instance : ValueType TransactionObject where
  id := TransactionObject.id
  clash a b := a.trxId = b.trxId
  clash_comm a b := by simp only [eq_comm]

/-- `fc::time_point( time_point_sec )`, in microseconds. -/
def timeOfSec (sec : UInt32) : Nat := sec.toNat * 1000000

/-- `fc::time_point( block_timestamp_type )`. -/
def timeOfSlot (slot : UInt32) : Nat := (slot.toNat * 500 + 1577880000000) * 1000

def recordTransaction (index : GenericIndex TransactionObject) (id : Digest) (expire : UInt32) :
    Result (GenericIndex TransactionObject) :=
  match create index fun oid => { id := oid, expiration := expire, trxId := id } with
  | .ok (_, index) => .ok index
  | .error .badAlloc => .error .badAlloc
  | .error _ => eosThrow .txDuplicate "duplicate transaction ${id}"

def TransactionObject.ExpiresBefore (a b : TransactionObject) : Prop :=
  a.expiration.toNat < b.expiration.toNat
    ∨ (a.expiration.toNat = b.expiration.toNat ∧ a.id ≤ b.id)

instance : DecidableRel TransactionObject.ExpiresBefore := fun a b =>
  inferInstanceAs (Decidable (a.expiration.toNat < b.expiration.toNat
    ∨ (a.expiration.toNat = b.expiration.toNat ∧ a.id ≤ b.id)))

instance : Std.Total TransactionObject.ExpiresBefore where
  total a b := by
    unfold TransactionObject.ExpiresBefore
    omega

instance : IsTrans TransactionObject TransactionObject.ExpiresBefore where
  trans a b c := by
    unfold TransactionObject.ExpiresBefore
    omega

/-- `dedupe_index.begin()`. -/
def firstToExpire (index : GenericIndex TransactionObject) : Option TransactionObject :=
  (index.indices.objects.entries.insertionSort TransactionObject.ExpiresBefore).head?

def clearExpiredLoop (now : Nat) :
    Nat → GenericIndex TransactionObject → Result (GenericIndex TransactionObject)
  | 0, index => .ok index
  | n + 1, index =>
    match firstToExpire index with
    | none => .ok index
    | some first =>
      if timeOfSec first.expiration < now then do
        let index ← remove index first.id
        clearExpiredLoop now n index
      else .ok index

/-- `clear_expired_input_transactions`. Every round removes a record. -/
def clearExpiredInputTransactions (now : Nat) (index : GenericIndex TransactionObject) :
    Result (GenericIndex TransactionObject) :=
  clearExpiredLoop now index.indices.objects.size index

section Records

variable {index index' : GenericIndex TransactionObject} {o : TransactionObject}

theorem recordTransaction_eq_ok {id : Digest} {expire : UInt32}
    (h : recordTransaction index id expire = .ok index') :
    Created index { id := index.nextId, expiration := expire, trxId := id } index' := by
  unfold recordTransaction at h
  split at h
  · next hcreate =>
    cases h
    obtain ⟨rfl, hcreated⟩ := create_eq_ok hcreate
    exact hcreated
  · cases h
  · cases h

theorem firstToExpire_eq_some (h : firstToExpire index = some o) :
    o ∈ index ∧ ∀ a ∈ index, o.expiration.toNat ≤ a.expiration.toNat := by
  obtain ⟨rest, hrest⟩ := head?_eq_some_iff.1 h
  have hsorted := pairwise_insertionSort TransactionObject.ExpiresBefore
    index.indices.objects.entries
  have hmem : ∀ {a}, a ∈ o :: rest ↔ a ∈ index := fun {a} => by
    rw [← hrest]
    exact mem_insertionSort _
  rw [hrest, pairwise_cons] at hsorted
  refine ⟨hmem.1 mem_cons_self, fun a ha => ?_⟩
  rcases mem_cons.1 (hmem.2 ha) with rfl | ha
  · exact le_refl _
  · have hbefore : o.ExpiresBefore a := hsorted.1 a ha
    unfold TransactionObject.ExpiresBefore at hbefore
    omega

theorem firstToExpire_eq_none (h : firstToExpire index = none) : ∀ a, a ∉ index := by
  intro a ha
  have hmem : a ∈ index.indices.objects.entries.insertionSort TransactionObject.ExpiresBefore :=
    (mem_insertionSort _).2 ha
  rw [head?_eq_none_iff.1 h] at hmem
  exact absurd hmem not_mem_nil

theorem meets_clearExpiredLoop (now : Nat) : ∀ (n : Nat) (index : GenericIndex TransactionObject),
    index.indices.objects.size ≤ n →
    Meets (clearExpiredLoop now n index)
      (fun index' => ∀ o, o ∈ index' ↔ o ∈ index ∧ now ≤ timeOfSec o.expiration) fun _ => False
  | 0, index, hsize => by
    have hnone : ∀ o, o ∉ index := fun o ho => by
      have hpos := length_pos_of_mem ho
      exact absurd hpos (not_lt.2 hsize)
    exact fun o => ⟨fun ho => absurd ho (hnone o), fun ho => absurd ho.1 (hnone o)⟩
  | n + 1, index, hsize => by
    unfold clearExpiredLoop
    split
    · next hfirst =>
      have hnone := firstToExpire_eq_none hfirst
      exact fun o => ⟨fun ho => absurd ho (hnone o), fun ho => absurd ho.1 (hnone o)⟩
    · next first hfirst =>
      obtain ⟨hmem, hmin⟩ := firstToExpire_eq_some hfirst
      split
      · next hexpired =>
        have hfind : index.indices.find? first.id = some first :=
          Table.find?_eq_some_iff.2 ⟨hmem, rfl⟩
        refine meets_bind.2 ?_
        cases hremove : remove index first.id with
        | error e => simp [remove, GenericIndex.remove, hfind, Except.mapError] at hremove
        | ok index₁ =>
          have hremoved := remove_eq_ok hremove
          have hcontents := hremoved.contents_eq (u := first) hmem
          have hsize₁ : index₁.indices.objects.size ≤ n := by
            have hcard := congrArg Multiset.card hcontents
            rw [Multiset.card_cons] at hcard
            have hcard : index.indices.objects.size = index₁.indices.objects.size + 1 := hcard
            omega
          refine (meets_clearExpiredLoop now n index₁ hsize₁).mono (fun index' h o => ?_)
            fun _ he => he
          rw [h o, hremoved.mem_iff]
          constructor
          · rintro ⟨⟨ho, -⟩, hlive⟩
            exact ⟨ho, hlive⟩
          · rintro ⟨ho, hlive⟩
            refine ⟨⟨ho, fun hid => ?_⟩, hlive⟩
            obtain rfl : o = first := eq_of_id_eq ho hmem hid
            omega
      · next hlive =>
        intro o
        refine ⟨fun ho => ⟨ho, ?_⟩, fun ho => ho.1⟩
        have hle : timeOfSec first.expiration ≤ timeOfSec o.expiration :=
          mul_le_mul_right _ (hmin o ho)
        omega

/-- **Exactly the expired records are cleared.** -/
theorem mem_clearExpired (now : Nat) (index : GenericIndex TransactionObject) :
    ∃ index', clearExpiredInputTransactions now index = .ok index'
      ∧ ∀ o, o ∈ index' ↔ o ∈ index ∧ now ≤ timeOfSec o.expiration := by
  have hloop := meets_clearExpiredLoop now _ index (le_refl _)
  cases hclear : clearExpiredInputTransactions now index with
  | ok index' => exact ⟨index', rfl, hloop.of_ok hclear⟩
  | error e => exact absurd hclear fun h => hloop.of_error h

end Records

/-! ## Transactions -/

/-- A `signed_transaction`: what the deduplication reads, and the rest of what is hashed. -/
structure InputTransaction where
  expiration : UInt32
  delaySec : UInt32 := 0
  body : Nat := 0
deriving DecidableEq, Repr

structure InputReceipt where
  trx : InputTransaction
  status : TransactionStatus
deriving DecidableEq, Repr

def validateExpiration (cfg : ChainConfig) (pendingBlockTime : Nat) (trx : InputTransaction) :
    Result Unit := do
  eosAssert (pendingBlockTime ≤ timeOfSec trx.expiration) .expiredTxException
    ("transaction has expired, "
      ++ "expiration is ${trx.expiration} and pending block time is ${pending_block_time}")
  eosAssert (timeOfSec trx.expiration
      ≤ pendingBlockTime + cfg.maxTransactionLifetime.toNat * 1000000) .txExpTooFarException
    ("Transaction expiration is too far in the future relative to the reference time of "
      ++ "${reference_time}, expiration is ${trx.expiration} and the maximum transaction lifetime is "
      ++ "${max_til_exp} seconds")

/-- What the application of a transaction depends on besides the records. -/
structure ApplyEnv where
  /-- `skip_trx_checks`, in a light validation -/
  skipTrxChecks : Bool := false
  /-- in a replay, the time up to which transactions need not be recorded -/
  replayHeadTime : Option Nat := none
  configuration : ChainConfig := {}
  /-- how `validate_tapos` and `validate_referenced_accounts` end -/
  otherChecks : Result Unit := .ok ()
  /-- how `init` ends -/
  init : Result Unit := .ok ()
  /-- how the authorization check, the execution and `finalize` end -/
  execution : Result Unit := .ok ()

def ApplyEnv.AllChecks (env : ApplyEnv) : Prop :=
  env.skipTrxChecks = false ∧ env.replayHeadTime = none

/-- The block that is being applied or built, with what its chain has executed so far. -/
structure DedupBlock where
  slot : UInt32
  transactions : GenericIndex TransactionObject
  /-- the receipts of input transactions of the whole chain -/
  executed : List InputReceipt

def checkInputTrx (env : ApplyEnv) (b : DedupBlock) (trx : InputTransaction) : Result Unit :=
  if env.skipTrxChecks then .ok ()
  else do
    validateExpiration env.configuration (timeOfSlot b.slot) trx
    env.otherChecks

protected def initForInputTrx (trxId : InputTransaction → Digest) (env : ApplyEnv) (b : DedupBlock)
    (trx : InputTransaction) : Result (GenericIndex TransactionObject) := do
  checkInputTrx env b trx
  env.init
  let skipRecording := env.replayHeadTime.any fun t => timeOfSec trx.expiration ≤ t
  if skipRecording then .ok b.transactions
  else recordTransaction b.transactions (trxId trx) trx.expiration

/-- `controller_impl::push_transaction`, of an input transaction. A transaction that fails is undone
and leaves no receipt. -/
protected def pushTransaction (trxId : InputTransaction → Digest) (env : ApplyEnv) (b : DedupBlock)
    (trx : InputTransaction) : DedupBlock :=
  let applied : Result (GenericIndex TransactionObject) := do
    let transactions ← Chain.initForInputTrx trxId env b trx
    env.execution
    .ok transactions
  match applied with
  | .ok transactions =>
    let status := if trx.delaySec = 0 then .executed else .delayed
    { b with transactions, executed := ⟨trx, status⟩ :: b.executed }
  | .error _ => b

/-! ## Chains -/

/-- The time of the next block, in `block_header_state::next`: the given one or by default the slot
after that of the head. `slot++` is not checked. -/
def nextSlot (head when' : UInt32) : Result UInt32 :=
  if when' ≠ 0 then do
    eosAssert (head < when') .blockValidateException "next block must be in the future"
    .ok when'
  else .ok (head + 1)

/-- A chain: the head, the states before it to which `pop_block` goes back, and the pending block. -/
structure DedupChain where
  head : DedupBlock
  earlier : List DedupBlock := []
  pending : Option DedupBlock := none

inductive ChainAction where
  | startBlock (when' : UInt32)
  | pushTransaction (env : ApplyEnv) (trx : InputTransaction)
  | commitBlock
  | abortBlock
  /-- a switch of forks takes blocks off the chain -/
  | popBlock

namespace DedupChain

variable (trxId : InputTransaction → Digest)

def perform (c : DedupChain) : ChainAction → Result DedupChain
  | .startBlock when' => do
    eosAssert (c.pending.isNone) .blockValidateException "pending block already exists"
    let slot ← nextSlot c.head.slot when'
    -- the implicit transaction `onblock` is not recorded
    let transactions ← clearExpiredInputTransactions (timeOfSlot slot) c.head.transactions
    .ok { c with pending := some { c.head with slot, transactions } }
  | .pushTransaction env trx =>
    .ok { c with pending := c.pending.map fun b => Chain.pushTransaction trxId env b trx }
  | .commitBlock =>
    match c.pending with
    | some b => .ok { head := b, earlier := c.head :: c.earlier }
    | none => .ok c
  | .abortBlock => .ok { c with pending := none }
  | .popBlock =>
    match c.earlier with
    | b :: earlier => .ok { head := b, earlier }
    | [] => .ok c

def Starts (c : DedupChain) : Prop :=
  ∃ slot, c = { head := ⟨slot, emptyIndex, []⟩ }

def Checked (_ : DedupChain) : ChainAction → Prop
  | .pushTransaction env _ => env.AllChecks
  | _ => True

def CheckedInTime (c : DedupChain) : ChainAction → Prop
  | .startBlock when' => when' = 0 → c.head.slot.toNat + 1 < 2 ^ 32
  | action => c.Checked action

end DedupChain

theorem nextSlot_le {head when' slot : UInt32} (hfits : when' = 0 → head.toNat + 1 < 2 ^ 32)
    (h : nextSlot head when' = .ok slot) : timeOfSlot head ≤ timeOfSlot slot := by
  have hle : head.toNat ≤ slot.toNat := by
    unfold nextSlot at h
    split at h
    · obtain ⟨_, hlt, h⟩ := bind_eq_ok.1 h
      cases h
      exact le_of_lt (UInt32.lt_iff_toNat_lt.1 (eosAssert_eq_ok.1 hlt))
    · next hzero =>
      cases h
      have hlt := hfits (Decidable.not_not.1 hzero)
      have hsucc : (head + 1).toNat = (head.toNat + 1) % 2 ^ 32 := UInt32.toNat_add head 1
      omega
  unfold timeOfSlot
  omega

/-! ## Once -/

/-- What is known of a block: each executed transaction is still recorded or has expired, and no two
of them have one id. -/
structure Once (trxId : InputTransaction → Digest) (b : DedupBlock) : Prop where
  recorded : ∀ r ∈ b.executed,
    (∃ o ∈ b.transactions, o.trxId = trxId r.trx ∧ o.expiration = r.trx.expiration)
      ∨ timeOfSec r.trx.expiration < timeOfSlot b.slot
  nodup : (b.executed.map fun r => trxId r.trx).Nodup

namespace Once

variable {trxId : InputTransaction → Digest} {b : DedupBlock}

theorem start (hb : Once trxId b) {slot : UInt32} (hslot : timeOfSlot b.slot ≤ timeOfSlot slot)
    {transactions : GenericIndex TransactionObject}
    (h : clearExpiredInputTransactions (timeOfSlot slot) b.transactions = .ok transactions) :
    Once trxId { b with slot, transactions } := by
  obtain ⟨transactions', hclear, hmem⟩ := mem_clearExpired _ b.transactions
  obtain rfl := Except.ok.inj (h.symm.trans hclear)
  refine ⟨fun r hr => ?_, hb.nodup⟩
  rcases hb.recorded r hr with ⟨o, ho, hid, hexpiration⟩ | hexpired
  · by_cases hlive : timeOfSlot slot ≤ timeOfSec o.expiration
    · exact .inl ⟨o, (hmem o).2 ⟨ho, hlive⟩, hid, hexpiration⟩
    · rw [hexpiration] at hlive
      exact .inr (Nat.lt_of_not_le hlive)
  · exact .inr (lt_of_lt_of_le hexpired hslot)

/-- **A transaction is applied.** One that was executed before is recorded, and then its record
clashes; or it has expired, and then it is not accepted. -/
theorem push (hid : ∀ t u, trxId t = trxId u → t.expiration = u.expiration) (hb : Once trxId b)
    {env : ApplyEnv} (henv : env.AllChecks) (trx : InputTransaction) :
    Once trxId (Chain.pushTransaction trxId env b trx) := by
  unfold Chain.pushTransaction
  simp only
  split
  · next transactions happlied =>
    obtain ⟨transactions', hinit, _, _, happlied⟩ := bind₂_eq_ok.1 happlied
    cases happlied
    obtain ⟨_, hcheck, _, _, hrecord⟩ := bind₂_eq_ok.1 hinit
    unfold checkInputTrx at hcheck
    simp only [henv.1, henv.2, Bool.false_eq_true, if_false, any_none] at hcheck hrecord
    obtain ⟨_, hexpiration, _⟩ := bind_eq_ok.1 hcheck
    obtain ⟨_, hlive, _⟩ := bind_eq_ok.1 hexpiration
    replace hlive := eosAssert_eq_ok.1 hlive
    have hcreated := recordTransaction_eq_ok hrecord
    constructor
    · intro r hr
      rcases mem_cons.1 hr with rfl | hr
      · exact .inl ⟨_, hcreated.mem_iff.2 (.inl rfl), rfl, rfl⟩
      · rcases hb.recorded r hr with ⟨o, ho, hrest⟩ | hexpired
        · exact .inl ⟨o, hcreated.mem_iff.2 (.inr ho), hrest⟩
        · exact .inr hexpired
    · rw [map_cons, nodup_cons]
      refine ⟨fun hmem => ?_, hb.nodup⟩
      obtain ⟨r, hr, heq⟩ := mem_map.1 hmem
      rcases hb.recorded r hr with ⟨o, ho, hoid, -⟩ | hexpired
      · have hclash : decide (o.trxId = trxId trx) = false := (hcreated.admits o ho).2
        exact of_decide_eq_false hclash (hoid.trans heq)
      · have hsame : r.trx.expiration = trx.expiration := hid _ _ heq
        rw [hsame] at hexpired
        omega
  · exact hb

end Once

namespace DedupChain

variable {trxId : InputTransaction → Digest} {c c' : DedupChain}

abbrev Run (trxId : InputTransaction → Digest) (P : DedupChain → ChainAction → Prop) :
    DedupChain → Prop :=
  Reachable (perform trxId) P Starts

def blocks (c : DedupChain) : List DedupBlock := c.pending.toList ++ c.head :: c.earlier

theorem once_perform (hid : ∀ t u, trxId t = trxId u → t.expiration = u.expiration)
    {action : ChainAction} (hc : ∀ b ∈ c.blocks, Once trxId b) (hP : c.CheckedInTime action)
    (h : c.perform trxId action = .ok c') : ∀ b ∈ c'.blocks, Once trxId b := by
  have hhead : Once trxId c.head := hc _ (by simp [blocks])
  have hearlier : ∀ b ∈ c.earlier, Once trxId b := fun b hb => hc b (by simp [blocks, hb])
  have hpending : ∀ b ∈ c.pending, Once trxId b := fun b hb =>
    hc b (mem_append_left _ (mem_toList.2 hb))
  cases action with
  | startBlock when' =>
    obtain ⟨_, _, slot, hslot, transactions, hclear, h⟩ := bind₃_eq_ok.1 h
    cases h
    have hnew := hhead.start (nextSlot_le hP hslot) hclear
    intro b hb
    simp only [blocks, toList_some, singleton_append, mem_cons] at hb
    rcases hb with rfl | rfl | hb
    · exact hnew
    · exact hhead
    · exact hearlier b hb
  | pushTransaction env trx =>
    cases h
    intro b hb
    rcases mem_append.1 hb with hb | hb
    · obtain ⟨b₀, hb₀, rfl⟩ := mem_map.1 (mem_toList.1 hb)
      exact (hpending b₀ hb₀).push hid hP trx
    · rcases mem_cons.1 hb with rfl | hb
      · exact hhead
      · exact hearlier b hb
  | commitBlock =>
    simp only [perform] at h
    split at h
    · next b₀ hb₀ =>
      cases h
      intro b hb
      simp only [blocks, toList_none, nil_append, mem_cons] at hb
      rcases hb with rfl | rfl | hb
      · exact hpending _ hb₀
      · exact hhead
      · exact hearlier b hb
    · cases h
      exact hc
  | abortBlock =>
    cases h
    intro b hb
    rcases mem_cons.1 hb with rfl | hb
    · exact hhead
    · exact hearlier b hb
  | popBlock =>
    simp only [perform] at h
    split at h
    · next b₀ earlier hsplit =>
      cases h
      intro b hb
      exact hearlier b (hsplit ▸ hb)
    · cases h
      exact hc

instance (env : ApplyEnv) : Decidable env.AllChecks :=
  inferInstanceAs (Decidable (env.skipTrxChecks = false ∧ env.replayHeadTime = none))

instance (c : DedupChain) : ∀ action, Decidable (c.Checked action)
  | .pushTransaction env _ => inferInstanceAs (Decidable env.AllChecks)
  | .startBlock _ | .commitBlock | .abortBlock | .popBlock => .isTrue trivial

instance (c : DedupChain) : ∀ action, Decidable (c.CheckedInTime action)
  | .startBlock when' =>
    inferInstanceAs (Decidable (when' = 0 → c.head.slot.toNat + 1 < 2 ^ 32))
  | .pushTransaction env trx => inferInstanceAs (Decidable (c.Checked (.pushTransaction env trx)))
  | .commitBlock | .abortBlock | .popBlock => .isTrue trivial

def plainId (t : InputTransaction) : Digest :=
  t.expiration.toNat + 2 ^ 32 * (t.delaySec.toNat + 2 ^ 32 * t.body)

theorem expiration_of_plainId (t u : InputTransaction) (h : plainId t = plainId u) :
    t.expiration = u.expiration := by
  have ht := t.expiration.toNat_lt
  have hu := u.expiration.toNat_lt
  have h : (t.expiration.toNat + 2 ^ 32 * (t.delaySec.toNat + 2 ^ 32 * t.body) : Nat)
      = u.expiration.toNat + 2 ^ 32 * (u.delaySec.toNat + 2 ^ 32 * u.body) := h
  exact UInt32.toNat_inj.1 (by omega)

def tenSeconds : InputTransaction := { expiration := 1577880010 }

def blockAt (when' : UInt32) : List ChainAction :=
  [.startBlock when', .pushTransaction {} tenSeconds, .commitBlock]

end DedupChain

end PotatoNode.Chain
