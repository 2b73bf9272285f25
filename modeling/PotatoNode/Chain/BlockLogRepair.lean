import PotatoNode.Chain.BlockLog

/-!
# Repairing the block log (`block_log::repair_log`)

The blocks are unpacked from the old log and packed into a new one, up to the first that cannot be
unpacked or is not followed by its position. The old log is read through a `std::fstream`: a read
past the end of the file does not throw, it leaves the stream failed and the variable as it was.

With packing canonical, the copy is a prefix of the old log. It ends where the longest sequence of
entries ends (`Entries`), or after the block at which it is to be truncated.
-/

namespace PotatoNode.Chain.BlockLog

open Lib List Nat

/-! ## The streams -/

/-- A `std::fstream` that is read. -/
structure IStream where
  file : Bytes
  pos : Nat := 0
  good : Bool := true

def IStream.read (s : IStream) (n : Nat) (initial : Bytes) : Bytes × IStream :=
  let data := if s.good then (s.file.drop s.pos).take n else []
  (data ++ initial.drop data.length,
    { s with pos := s.pos + data.length, good := s.good && data.length == n })

/-- `tellg`, as a `uint64_t`: -1 once the stream has failed. -/
def IStream.tellg (s : IStream) : Nat := if s.good then s.pos else npos

/-- What repairing takes from `fc::raw`. Unpacking may throw, and it may leave the stream failed. -/
structure StreamCodec (γ : Type) where
  pack : SignedBlock → Bytes
  unpack : IStream → Result (SignedBlock × IStream)
  packGenesis : γ → Bytes
  unpackGenesis : IStream → Result (γ × IStream)

section

variable {γ : Type} (codec : StreamCodec γ)

def copyFirstBlockNum (version : Nat) (s : IStream) : Result (Bytes × IStream) :=
  if version ≠ 1 then do
    let (first, s) := s.read 4 (leBytes 4 1)
    eosAssert (leValue first = 1) .blockLogException
      ("Block log ${file} must contain a genesis state and start at block number 1.  This block " ++
        "log starts at block number ${first_block_num}.")
    .ok (first, s)
  else .ok ([], s)

def copyTotem (version : Nat) (s : IStream) : Result (Bytes × IStream) :=
  if version ≠ 1 then do
    let (totem, s) := s.read 8 []
    if totem.length < 8 then .error .undefinedBehaviour
    else do
      eosAssert (leValue totem = npos) .blockLogException
        ("Expected separator between block log header and blocks was not found( expected: ${e}, " ++
          "actual: ${a} )")
      .ok (totem, s)
  else .ok ([], s)

def copyHeader (s : IStream) : Result (Bytes × IStream) := do
  let (version, s) := s.read 4 (leBytes 4 0)
  eosAssert (0 < leValue version) .blockLogException "Block log was not setup properly"
  eosAssert (isSupportedVersion (leValue version)) .blockLogUnsupportedVersion
    ("Unsupported version of block log. Block log version is ${version} while code supports " ++
      "version(s) [${min},${max}]")
  let (first, s) ← copyFirstBlockNum (leValue version) s
  let (gs, s) ← codec.unpackGenesis s
  let (totem, s) ← copyTotem (leValue version) s
  .ok (version ++ first ++ codec.packGenesis gs ++ totem, s)

/-- `block_num()`, which is a `uint32_t`: the bytes of a damaged log may have any number. -/
def blockNum32 (b : SignedBlock) : Nat := b.blockNum % 2 ^ 32

/-- The position behind a block, all ones if there is none. -/
def readPosition (endPos : Nat) (s : IStream) : Bytes × IStream :=
  if (s.tellg + 8) % 2 ^ 64 ≤ endPos then s.read 8 (leBytes 8 npos) else (leBytes 8 npos, s)

def repairLoop (truncateAtBlock endPos : Nat) :
    (fuel : Nat) → (s : IStream) → (copy : Bytes) → (pos : Nat) → Result Bytes
  | 0, _, _, _ => .error .divergence
  | fuel + 1, s, copy, pos =>
    if pos < endPos then
      match codec.unpack s with
      -- the rest of the old log goes to another file
      | .error _ => .ok copy
      | .ok (tmp, s) =>
        let (tmpPos, s) := readPosition endPos s
        if pos ≠ leValue tmpPos then .ok copy
        else
          let copy := copy ++ codec.pack tmp ++ leBytes 8 pos
          if blockNum32 tmp = truncateAtBlock then .ok copy
          else repairLoop truncateAtBlock endPos fuel s copy copy.length
    else .ok copy

def repairLog (file : Bytes) (truncateAtBlock : Nat) : Result Bytes := do
  let (copy, s) ← copyHeader codec ⟨file, 0, true⟩
  repairLoop codec truncateAtBlock file.length (file.length + 1) s copy s.tellg

/-! ## Entries -/

def StreamCodec.Canonical : Prop :=
  ∀ s b s', codec.unpack s = .ok (b, s') → s'.good = true →
    s.good = true ∧ s' = { s with pos := s.pos + (codec.pack b).length }
      ∧ ∃ rest, s.file.drop s.pos = codec.pack b ++ rest

def firstBytes (version : Nat) : Bytes := if version ≠ 1 then leBytes 4 1 else []

def totemBytes (version : Nat) : Bytes := if version ≠ 1 then leBytes 8 npos else []

/-- A valid header, for a log that starts at block 1. -/
structure IsHeader (header : Bytes) (version : Nat) (gs : γ) : Prop where
  supported : isSupportedVersion version
  bytes : header = leBytes 4 version ++ firstBytes version ++ codec.packGenesis gs
    ++ totemBytes version
  genesis : ∀ before rest, codec.unpackGenesis ⟨before ++ (codec.packGenesis gs ++ rest),
      before.length, true⟩
    = .ok (gs, ⟨before ++ (codec.packGenesis gs ++ rest),
        before.length + (codec.packGenesis gs).length, true⟩)

/-- The bytes from `pos` on decode as a block, and its position follows. -/
structure HasEntry (file : Bytes) (pos : Nat) (b : SignedBlock) : Prop where
  unpack : codec.unpack ⟨file, pos, true⟩ = .ok (b, ⟨file, pos + (codec.pack b).length, true⟩)
  bytes : ∃ rest, file.drop pos = codec.pack b ++ (leBytes 8 pos ++ rest)

/-- Entries one after the other, from one position to another. -/
inductive Entries (file : Bytes) : Nat → List SignedBlock → Nat → Prop where
  | nil (pos : Nat) : Entries file pos [] pos
  | cons {pos last : Nat} {b : SignedBlock} {bs : List SignedBlock} (h : HasEntry codec file pos b)
      (rest : Entries file (pos + (codec.pack b).length + 8) bs last) :
      Entries file pos (b :: bs) last

def Kept (file : Bytes) (truncateAtBlock : Nat) (bs : List SignedBlock) (last : Nat) : Prop :=
  (∃ before b, bs = before ++ [b] ∧ blockNum32 b = truncateAtBlock
      ∧ ∀ x ∈ before, blockNum32 x ≠ truncateAtBlock)
    ∨ (∀ x ∈ bs, blockNum32 x ≠ truncateAtBlock) ∧ ∀ b, ¬ HasEntry codec file last b

end

variable {γ : Type} {codec : StreamCodec γ} {file : Bytes} {pos fuel truncateAtBlock : Nat}
  {b : SignedBlock}

variable {rest : Bytes} {version : Nat}

theorem read_leBytes {n value : Nat} {initial : Bytes} (h : file.drop pos = leBytes n value ++ rest)
    (hinitial : initial.length ≤ n) :
    IStream.read ⟨file, pos, true⟩ n initial = (leBytes n value, ⟨file, pos + n, true⟩) := by
  have htake : (leBytes n value ++ rest).take n = leBytes n value := by
    rw [take_append_of_le_length (by simp), take_of_length_le (by simp)]
  simp [IStream.read, h, htake, drop_of_length_le hinitial]

section

variable (h : HasEntry codec file pos b)
include h

theorem HasEntry.length_le : pos + (codec.pack b).length + 8 ≤ file.length := by
  obtain ⟨rest, hrest⟩ := h.bytes
  have hlength := congrArg length hrest
  simp only [length_drop, length_append, length_leBytes] at hlength
  omega

theorem HasEntry.drop_pack :
    ∃ rest, file.drop (pos + (codec.pack b).length) = leBytes 8 pos ++ rest := by
  obtain ⟨rest, hrest⟩ := h.bytes
  exact ⟨rest, by rw [← drop_drop, hrest, drop_left]⟩

theorem HasEntry.take :
    file.take (pos + (codec.pack b).length + 8)
      = file.take pos ++ codec.pack b ++ leBytes 8 pos := by
  obtain ⟨rest, hrest⟩ := h.bytes
  rw [add_assoc, take_add, hrest]
  rw [take_append]
  simp [take_of_length_le]

end

variable (hcanonical : codec.Canonical) (hfits : file.length ≤ maxFileSize)

include hfits

theorem repairLoop_of_entry (h : HasEntry codec file pos b) :
    repairLoop codec truncateAtBlock file.length (fuel + 1) ⟨file, pos, true⟩ (file.take pos) pos
      = if blockNum32 b = truncateAtBlock then .ok (file.take (pos + (codec.pack b).length + 8))
        else repairLoop codec truncateAtBlock file.length fuel
          ⟨file, pos + (codec.pack b).length + 8, true⟩
          (file.take (pos + (codec.pack b).length + 8)) (pos + (codec.pack b).length + 8) := by
  have hlength := h.length_le
  have hmax : maxFileSize < 2 ^ 64 - 1 := by decide
  obtain ⟨rest, hrest⟩ := h.drop_pack
  have hposition : readPosition file.length ⟨file, pos + (codec.pack b).length, true⟩
      = (leBytes 8 pos, ⟨file, pos + (codec.pack b).length + 8, true⟩) := by
    rw [readPosition, if_pos, read_leBytes hrest (by simp)]
    simp only [IStream.tellg, if_true]
    omega
  have hvalue : leValue (leBytes 8 pos) = pos := leValue_leBytes_of_lt (by omega)
  have hcopy : (file.take (pos + (codec.pack b).length + 8)).length
      = pos + (codec.pack b).length + 8 := by
    rw [length_take]
    omega
  rw [repairLoop, if_pos (by omega), h.unpack]
  simp only [hposition, hvalue, ne_eq, not_true_eq_false, if_false, ← h.take, hcopy]

include hcanonical

theorem repairLoop_of_no_entry (h : ∀ b, ¬ HasEntry codec file pos b) :
    repairLoop codec truncateAtBlock file.length (fuel + 1) ⟨file, pos, true⟩ (file.take pos) pos
      = .ok (file.take pos) := by
  have hmax : maxFileSize < npos ∧ maxFileSize + 8 < 2 ^ 64 := by decide
  have hnpos : leValue (leBytes 8 npos) = npos := leValue_leBytes_of_lt (by decide)
  rw [repairLoop]
  split
  · split
    · rfl
    · next tmp s hunpack =>
      have hmismatch : pos ≠ leValue (readPosition file.length s).1 := by
        intro heq
        unfold readPosition at heq
        split at heq
        · next htell =>
          cases hgood : s.good with
          | false =>
            -- a failed stream reads nothing
            simp only [IStream.read, hgood, Bool.false_eq_true, if_false, nil_append,
              length_nil, drop_zero, hnpos] at heq
            omega
          | true =>
            obtain ⟨-, rfl, rest, hrest⟩ := hcanonical _ _ _ hunpack hgood
            have hlength := congrArg length hrest
            simp only [length_drop, length_append, IStream.tellg, if_true] at hlength htell
            have hrest' : file.drop (pos + (codec.pack tmp).length) = rest := by
              rw [← drop_drop, hrest, drop_left]
            have h8 : (rest.take 8).length = 8 := by
              rw [length_take]
              omega
            simp only [IStream.read, if_true, hrest', h8,
              drop_of_length_le (by simp : (leBytes 8 npos).length ≤ 8), append_nil] at heq
            refine h tmp ⟨hunpack, rest.drop 8, ?_⟩
            have hbytes := leBytes_leValue (rest.take 8)
            rw [h8] at hbytes
            rw [hrest, heq, hbytes, take_append_drop]
        · rw [hnpos] at heq
          omega
      simp only [hmismatch, ne_eq, not_false_eq_true, if_true]
  · rfl

/-! ## The whole file -/

theorem exists_kept_of_repairLoop (hpos : pos ≤ file.length) (truncateAtBlock : Nat)
    (hfuel : file.length < pos + fuel) :
    ∃ bs last, Entries codec file pos bs last ∧ Kept codec file truncateAtBlock bs last
      ∧ repairLoop codec truncateAtBlock file.length fuel ⟨file, pos, true⟩ (file.take pos) pos
        = .ok (file.take last) := by
  induction fuel generalizing pos with
  | zero => omega
  | succ fuel ih =>
    by_cases hentry : ∃ b, HasEntry codec file pos b
    · obtain ⟨b, hb⟩ := hentry
      have hlength := hb.length_le
      rw [repairLoop_of_entry hfits hb]
      by_cases hcut : blockNum32 b = truncateAtBlock
      · rw [if_pos hcut]
        exact ⟨[b], _, .cons hb (.nil _), .inl ⟨[], b, rfl, hcut, by simp⟩, rfl⟩
      · rw [if_neg hcut]
        obtain ⟨bs, last, hbs, hkept, hloop⟩ := ih hlength (by omega)
        refine ⟨b :: bs, last, .cons hb hbs, ?_, hloop⟩
        rcases hkept with ⟨before, c, rfl, hc, hbefore⟩ | ⟨hnone, hend⟩
        · exact .inl ⟨b :: before, c, rfl, hc, by simpa [hcut] using hbefore⟩
        · exact .inr ⟨by simpa [hcut] using hnone, hend⟩
    · rw [not_exists] at hentry
      exact ⟨[], pos, .nil pos, .inr ⟨by simp, hentry⟩,
        repairLoop_of_no_entry hcanonical hfits hentry⟩

omit hcanonical

theorem Entries.repairLoop {bs : List SignedBlock} {last : Nat}
    (h : Entries codec file pos bs last) (hlast : last = file.length)
    (hnone : ∀ b ∈ bs, blockNum32 b ≠ truncateAtBlock) (hfuel : file.length < pos + fuel) :
    BlockLog.repairLoop codec truncateAtBlock file.length fuel ⟨file, pos, true⟩ (file.take pos) pos
      = .ok file := by
  induction h generalizing fuel with
  | nil pos =>
    obtain _ | fuel := fuel
    · omega
    simp [BlockLog.repairLoop, hlast]
  | cons hb _ ih =>
    have hlength := hb.length_le
    obtain _ | fuel := fuel
    · omega
    rw [forall_mem_cons] at hnone
    rw [repairLoop_of_entry hfits hb, if_neg hnone.1]
    exact ih hlast hnone.2 (by omega)

omit hfits

theorem copyFirstBlockNum_of_drop (h : file.drop pos = firstBytes version ++ rest) :
    copyFirstBlockNum version ⟨file, pos, true⟩
      = .ok (firstBytes version, ⟨file, pos + (firstBytes version).length, true⟩) := by
  unfold copyFirstBlockNum firstBytes at *
  split_ifs at h ⊢
  · rw [read_leBytes h (by simp)]
    simp only [eosAssert_of (show leValue (leBytes 4 1) = 1 by decide), ok_bind, length_leBytes]
  · simp

theorem copyTotem_of_drop (h : file.drop pos = totemBytes version ++ rest) :
    copyTotem version ⟨file, pos, true⟩
      = .ok (totemBytes version, ⟨file, pos + (totemBytes version).length, true⟩) := by
  unfold copyTotem totemBytes at *
  split_ifs at h ⊢
  · rw [read_leBytes h (by simp)]
    simp only [eosAssert_of (show leValue (leBytes 8 npos) = npos by decide), ok_bind, length_leBytes,
      lt_irrefl, if_false]
  · simp

theorem copyHeader_of_isHeader {header : Bytes} {gs : γ} (h : IsHeader codec header version gs) :
    copyHeader codec ⟨header ++ rest, 0, true⟩
      = .ok (header, ⟨header ++ rest, header.length, true⟩) := by
  have hsupported := h.supported
  simp only [isSupportedVersion, minSupportedVersion, maxSupportedVersion] at hsupported
  have hvalue : leValue (leBytes 4 version) = version := leValue_leBytes_of_lt (by omega)
  have hgenesis := h.genesis (leBytes 4 version ++ firstBytes version) (totemBytes version ++ rest)
  have hfile : header ++ rest = leBytes 4 version ++ firstBytes version
      ++ (codec.packGenesis gs ++ (totemBytes version ++ rest)) := by
    rw [h.bytes]
    simp
  have hversion : (header ++ rest).drop 0 = leBytes 4 version ++ (firstBytes version
      ++ (codec.packGenesis gs ++ (totemBytes version ++ rest))) := by
    rw [hfile]
    simp
  have hfirst : (header ++ rest).drop 4 = firstBytes version
      ++ (codec.packGenesis gs ++ (totemBytes version ++ rest)) := by
    rw [hfile, append_assoc, drop_left' (by simp)]
  have htotem : (header ++ rest).drop ((leBytes 4 version ++ firstBytes version).length
      + (codec.packGenesis gs).length) = totemBytes version ++ rest := by
    rw [hfile, ← append_assoc, drop_left' (by simp [add_assoc])]
  rw [← hfile] at hgenesis
  rw [copyHeader, read_leBytes hversion (by simp)]
  dsimp only
  rw [hvalue, eosAssert_of (by omega), ok_bind, eosAssert_of h.supported, ok_bind,
    copyFirstBlockNum_of_drop hfirst, ok_bind]
  rw [show 0 + 4 + (firstBytes version).length = (leBytes 4 version ++ firstBytes version).length by
    simp, hgenesis, ok_bind]
  rw [copyTotem_of_drop htotem, ok_bind]
  rw [h.bytes]
  simp [add_assoc]

/-- **Repairing keeps the longest sound prefix.** The new log is the header and the entries that
follow it, up to the block at which the log is to be truncated or as many as there are. A log that
has nothing else is copied as it is. -/
theorem repairLog_keeps_longest (hcanonical : codec.Canonical) {header rest : Bytes} {version : Nat}
    {gs : γ} (hheader : IsHeader codec header version gs)
    (hfits : (header ++ rest).length ≤ maxFileSize) (truncateAtBlock : Nat) :
    (∃ bs last, Entries codec (header ++ rest) header.length bs last
        ∧ Kept codec (header ++ rest) truncateAtBlock bs last
        ∧ repairLog codec (header ++ rest) truncateAtBlock = .ok ((header ++ rest).take last))
      ∧ ∀ bs, Entries codec (header ++ rest) header.length bs (header ++ rest).length →
        (∀ b ∈ bs, blockNum32 b ≠ truncateAtBlock) →
        repairLog codec (header ++ rest) truncateAtBlock = .ok (header ++ rest) := by
  have hlength : header.length ≤ (header ++ rest).length := by simp
  have hfuel : (header ++ rest).length < header.length + ((header ++ rest).length + 1) := by omega
  have hrepair : repairLog codec (header ++ rest) truncateAtBlock
      = repairLoop codec truncateAtBlock (header ++ rest).length ((header ++ rest).length + 1)
        ⟨header ++ rest, header.length, true⟩ ((header ++ rest).take header.length)
        header.length := by
    rw [repairLog, copyHeader_of_isHeader hheader, take_left]
    rfl
  rw [hrepair]
  exact ⟨exists_kept_of_repairLoop hcanonical hfits hlength truncateAtBlock hfuel,
    fun bs hbs hnone => hbs.repairLoop hfits rfl hnone hfuel⟩

def byteCodec : StreamCodec Unit where
  pack b := [UInt8.ofNat (numFromId b.previous)]
  unpack s :=
    match s.file.drop s.pos with
    | byte :: _ =>
      .ok ({ (default : SignedBlockHeader) with previous := byte.toNat * 2 ^ 224, transactions := [] },
        { s with pos := s.pos + 1 })
    | [] => .error (.stdException "end of stream")
  packGenesis _ := [9]
  unpackGenesis s := .ok ((), { s with pos := s.pos + 1 })

theorem byteCodec_canonical : byteCodec.Canonical := by
  intro s b s' h hgood
  simp only [byteCodec] at h
  split at h
  · next byte rest hdrop =>
    cases h
    have hbyte : byteCodec.pack { (default : SignedBlockHeader) with
        previous := byte.toNat * 2 ^ 224, transactions := [] } = [byte] := by
      have hnum : numFromId (byte.toNat * 2 ^ 224) = byte.toNat := by
        unfold numFromId
        omega
      show [UInt8.ofNat (numFromId (byte.toNat * 2 ^ 224))] = [byte]
      rw [hnum, UInt8.ofNat_toNat]
    rw [hbyte]
    exact ⟨hgood, rfl, rest, hdrop⟩
  · cases h

/-- Two entries, and a third whose position is wrong. -/
def damagedTail : Bytes :=
  ([0] ++ leBytes 8 5) ++ ([1] ++ leBytes 8 14) ++ ([2] ++ leBytes 8 7)

theorem repairLog_keeps_two :
    (∃ bs last, Entries byteCodec ([1, 0, 0, 0, 9] ++ damagedTail) 5 bs last
        ∧ Kept byteCodec ([1, 0, 0, 0, 9] ++ damagedTail) 0 bs last
        ∧ repairLog byteCodec ([1, 0, 0, 0, 9] ++ damagedTail) 0
          = .ok (([1, 0, 0, 0, 9] ++ damagedTail).take last))
      ∧ repairLog byteCodec ([1, 0, 0, 0, 9] ++ damagedTail) 0
        = .ok (([1, 0, 0, 0, 9] ++ damagedTail).take 23) := by
  have hheader : IsHeader byteCodec [1, 0, 0, 0, 9] 1 () :=
    ⟨by decide, by decide, fun _ _ => rfl⟩
  exact ⟨(repairLog_keeps_longest byteCodec_canonical hheader (by decide) 0).1, by decide +kernel⟩

end PotatoNode.Chain.BlockLog
