import PotatoNode.Lib.LittleEndian
import PotatoNode.Chain.ProducerSchedule

/-!
# Block headers (`block_header.hpp`, `block_timestamp.hpp`)

Block numbers and time slots are `uint32_t` counters in the source. They are natural numbers
here: a chain of `2^32` half-second blocks takes 68 years. Where the source subtracts from a
block number something that can exceed it, the subtraction is the wrapping one (`u32Sub`).

A digest is the 256-bit number its bytes spell in big-endian order, so that the block number stored
in the first four bytes of a block id is its quotient by `2^224`. That is not the order of
`sha256_less`, which compares words of the machine (`sha256Words`).
-/

namespace PotatoNode.Chain

/-- `digest_type`, `checksum256_type` and `block_id_type`, all `fc::sha256`. -/
abbrev Digest := Nat

/-- `block_id_type`. -/
abbrev BlockId := Digest

/-- The word `_hash[3 - i]` of a digest, on a machine that has the lowest byte of a word first. -/
def sha256Word (d : Digest) (i : Nat) : Nat :=
  Lib.leValue (Lib.leBytes 8 (d / 2 ^ (64 * i))).reverse

/-- What `sha256_less` compares. Digests of 256 bits with the same words are the same; that numbers
beyond them are told apart as well, the number itself comes last. -/
def sha256Words (d : Digest) : List Nat :=
  [sha256Word d 3, sha256Word d 2, sha256Word d 1, sha256Word d 0, d]

theorem sha256Words_inj {d d' : Digest} (h : sha256Words d = sha256Words d') : d = d' := by
  simp only [sha256Words, List.cons.injEq] at h
  exact h.2.2.2.2.1

/-- `a - b` on `uint32_t`. -/
def u32Sub (a b : Nat) : Nat :=
  if b ≤ a then a - b else 2 ^ 32 + a - b

/-- `block_timestamp_type`; the default-constructed one is slot 0. -/
structure BlockTimestamp where
  slot : Nat
deriving DecidableEq, Repr, Inhabited

/-- `transaction_receipt_header::status_enum`. -/
inductive TransactionStatus where
  | executed
  | softFail
  | hardFail
  | delayed
  | expired
deriving DecidableEq, Repr

/-- The data of a header extension: bytes that `fc::raw::unpack` reads as a
`producer_schedule_change_extension`, or bytes on which it throws. -/
inductive ExtensionData where
  | producerScheduleChange (schedule : ProducerAuthoritySchedule)
  | malformed
deriving DecidableEq, Repr

def producerScheduleChangeId : Nat := 1

structure BlockHeader where
  timestamp : BlockTimestamp
  producer : AccountName
  confirmed : Nat
  previous : BlockId
  transactionMroot : Digest
  actionMroot : Digest
  scheduleVersion : Nat
  headerExtensions : List (Nat × ExtensionData)
  enableStandbySchedule : Bool
  standbyScheduleBlockNum : Option Nat
deriving DecidableEq, Repr

instance : Inhabited BlockHeader :=
  ⟨⟨⟨0⟩, 0, 1, 0, 0, 0, 0, [], false, none⟩⟩

structure SignedBlockHeader extends BlockHeader where
  producerSignature : Signature
deriving DecidableEq, Repr

instance : Inhabited SignedBlockHeader := ⟨⟨default, 0⟩⟩

/-- What the header code takes from the `fc` library: hashing of packed values and recovery of
the signing key, which throws on a malformed signature. -/
structure Fc where
  digest : BlockHeader → Digest
  hashSchedule : ProducerAuthoritySchedule → Digest
  hashPair : Digest → Digest → Digest
  /-- of `make_canonical_pair`, for Merkle trees -/
  hashCanonicalPair : Digest → Digest → Digest
  recover : Signature → Digest → Option PublicKey

def numFromId (id : BlockId) : Nat := id / 2 ^ 224

def BlockHeader.blockNum (h : BlockHeader) : Nat := numFromId h.previous + 1

/-- `block_header::id`: the digest with the block number in place of its first four bytes. -/
def BlockHeader.id (fc : Fc) (h : BlockHeader) : BlockId :=
  h.blockNum * 2 ^ 224 + fc.digest h % 2 ^ 224

def emplaceExtension (exts : List (Nat × ExtensionData)) (eid : Nat) (data : ExtensionData) :
    List (Nat × ExtensionData) :=
  exts.takeWhile (fun e => e.1 ≤ eid) ++ (eid, data) :: exts.dropWhile (fun e => e.1 ≤ eid)

/-- The loop of `validate_and_extract_header_extensions` from position `i` on. -/
def extractExtensions :
    (i idTypeLowerBound : Nat) → List (Nat × ExtensionData) →
      Result (List (Nat × ProducerAuthoritySchedule))
  | _, _, [] => .ok []
  | i, idTypeLowerBound, (id, data) :: rest => do
    eosAssert (idTypeLowerBound ≤ id) .invalidBlockHeaderExtension
      "Block header extensions are not in the correct order (ascending id types required)"
    let value ←
      if id = producerScheduleChangeId then
        match data with
        | .producerScheduleChange schedule => (.ok schedule : Result _)
        | .malformed => eosThrow .unpackException "unable to unpack header extension"
      else
        eosThrow .invalidBlockHeaderExtension
          "Block header extension with id type ${id} is not supported"
    -- the schedule change extension is declared unique
    eosAssert (i = 0 ∨ idTypeLowerBound < id) .invalidBlockHeaderExtension
      "Block header extension with id type ${id} is not allowed to repeat"
    let results ← extractExtensions (i + 1) id rest
    .ok ((id, value) :: results)

def BlockHeader.validateAndExtractHeaderExtensions (h : BlockHeader) :
    Result (List (Nat × ProducerAuthoritySchedule)) :=
  extractExtensions 0 0 h.headerExtensions

def scheduleChange (exts : List (Nat × ProducerAuthoritySchedule)) :
    Option ProducerAuthoritySchedule :=
  (exts.find? (fun e => e.1 = producerScheduleChangeId)).map Prod.snd

end PotatoNode.Chain
