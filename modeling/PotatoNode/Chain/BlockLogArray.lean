import PotatoNode.Chain.BlockLog

/-!
# The block log as an array of blocks

A log that has been reset and then only appended to and reopened holds its blocks as an array
would: each block is read back by its number, and the last one is the head. The positions of
the blocks depend on all earlier appends, so the two files are described by the appends that
wrote them (`Written`); that the answers are right is read off the description.
-/

namespace PotatoNode.Chain

open Lib BlockLog Cfile List Nat

/-! ## Reading what was written -/

theorem leValue_in_file {file before after : Bytes} {pos n value : Nat}
    (hfile : file = before ++ (leBytes n value ++ after)) (hpos : before.length = pos)
    (hvalue : value < 256 ^ n) :
    pos + n ≤ file.length ∧ leValue ((file.drop pos).take n) = value := by
  have htake : (file.drop pos).take n = leBytes n value := by
    rw [hfile, ← hpos, drop_left, take_append_of_le_length (by simp), take_of_length_le (by simp)]
  exact ⟨by simp [hfile, ← hpos], by rw [htake, leValue_leBytes_of_lt hvalue]⟩

namespace Cfile

variable {file file' data before after : Bytes} {pos n value : Nat}

theorem write_eq_ok :
    write file data = .ok file' ↔
      file.length + data.length ≤ maxFileSize ∧ file' = file ++ data := by
  unfold write
  split <;> simp [*, eq_comm]

theorem readNumber_of_eq (hfile : file = before ++ (leBytes n value ++ after))
    (hpos : before.length = pos) (hvalue : value < 256 ^ n) :
    readNumber file pos n = .ok value := by
  obtain ⟨hlen, hread⟩ := leValue_in_file hfile hpos hvalue
  rw [readNumber, if_pos hlen, hread]

theorem readLast_append (hvalue : value < 256 ^ 8) :
    readLast (before ++ leBytes 8 value) = .ok value := by
  have hlen : (before ++ leBytes 8 value).length = before.length + 8 := by simp
  rw [readLast, hlen]
  have hfile : before ++ leBytes 8 value = before ++ (leBytes 8 value ++ []) := by simp
  exact readNumber_of_eq hfile rfl hvalue

end Cfile

namespace BlockLog

variable {fc : Fc} {codec : BlockCodec} {header log index : Bytes} {bs : List SignedBlock}
  {b : SignedBlock}

def logHeader (context : Bytes) (firstBlockNum : Nat) : Bytes :=
  leBytes 4 maxSupportedVersion ++ (leBytes 4 firstBlockNum ++ (context ++ leBytes 8 npos))

theorem lt_length_logHeader (context : Bytes) (firstBlockNum : Nat) :
    8 < (logHeader context firstBlockNum).length := by
  simp only [logHeader, length_append, length_leBytes]
  omega

theorem fread_of_eq {file before after : Bytes} {pos n value : Nat} {message : String}
    (hfile : file = before ++ (leBytes n value ++ after)) (hpos : before.length = pos)
    (hvalue : value < 256 ^ n) : fread file pos n message = .ok value := by
  obtain ⟨hlen, hread⟩ := leValue_in_file hfile hpos hvalue
  rw [fread, eosAssert_of hlen, ok_bind, hread]

namespace ReverseIterator

variable {file before : Bytes} {it : ReverseIterator} {pos n value : Nat}

/-- The buffer is a part of the file that reaches past the current position. -/
structure Views (file : Bytes) (it : ReverseIterator) : Prop where
  buffer : it.buffer = (file.drop it.startOfBufferPosition).take it.buffer.length
  small : it.buffer.length ≤ bufLen
  fits : it.startOfBufferPosition + it.buffer.length ≤ file.length
  covers : it.currentPositionInFile + 8 ≤ it.startOfBufferPosition + it.buffer.length

theorem Views.inBuffer_eq (h : it.Views file) (hstart : it.startOfBufferPosition ≤ pos)
    (hend : pos + n ≤ it.startOfBufferPosition + it.buffer.length) :
    it.inBuffer (pos - it.startOfBufferPosition) n = .ok ((file.drop pos).take n) := by
  rw [inBuffer, if_pos (by omega), h.buffer, drop_take, take_take, drop_drop,
    Nat.add_sub_cancel' hstart, Nat.min_eq_left (by omega)]

theorem exists_updateBuffer (hpos : it.currentPositionInFile + 8 ≤ file.length)
    (hfits : file.length ≤ maxFileSize) :
    ∃ start buffer,
      it.updateBuffer file = .ok { it with startOfBufferPosition := start, buffer } ∧
      start ≤ it.currentPositionInFile ∧
      Views file { it with startOfBufferPosition := start, buffer } := by
  have hsmall : it.currentPositionInFile + 8 < 2 ^ 64 := by
    simp only [maxFileSize] at hfits
    omega
  have hnpos : it.currentPositionInFile ≠ npos := by
    simp only [npos]
    omega
  have hbuf : bufLen = 2 ^ 24 := rfl
  rw [updateBuffer, eosAssert_of hnpos, ok_bind, mod_eq_of_lt hsmall]
  dsimp only
  generalize hs : (if it.currentPositionInFile + 8 < bufLen then 0
    else it.currentPositionInFile + 8 - bufLen) = start
  have hstart : start = it.currentPositionInFile + 8 - bufLen := by
    rw [← hs]
    split <;> omega
  refine ⟨start, _, by rw [eosAssert_of hpos, ok_bind], by omega, ?_⟩
  constructor <;> simp only [length_take, length_drop, take_eq_take_iff] <;> omega

theorem exists_open {context rest : Bytes} {firstBlockNum : Nat} (hfirst : firstBlockNum < 2 ^ 32)
    (hheader : file = logHeader context firstBlockNum ++ rest)
    (hlast : file = before ++ leBytes 8 value) (hvalue : value < 256 ^ 8)
    (hfits : file.length ≤ maxFileSize) :
    ∃ it : ReverseIterator, it.Views file ∧ it.version = maxSupportedVersion ∧
      it.firstBlockNum = firstBlockNum ∧ it.blocksFound = 0 ∧ it.blocksExpected = 0 ∧
      it.currentPositionInFile = before.length ∧
      ReverseIterator.open file = if value = npos then .ok it else
        it.previousNum file value >>= fun bnum =>
          .ok (it.countTo ((leValue bnum.reverse + 1) % 2 ^ 32)) := by
  have hversion : ∀ message, fread file 0 4 message = .ok maxSupportedVersion := fun _ =>
    fread_of_eq (by rw [hheader, logHeader]; rfl) length_nil (by decide)
  have hnum : freadFirstBlockNum file maxSupportedVersion = .ok firstBlockNum := by
    exact fread_of_eq (by rw [hheader, logHeader, append_assoc, append_assoc])
      (length_leBytes 4 _) hfirst
  have hlen : file.length = before.length + 8 := by rw [hlast]; simp
  have hsub : u64Sub file.length 8 = before.length := by
    rw [u64Sub, if_pos (by omega), hlen, Nat.add_sub_cancel]
  let it : ReverseIterator :=
    { version := maxSupportedVersion, firstBlockNum, currentPositionInFile := before.length }
  have hcurrent : it.currentPositionInFile + 8 ≤ file.length := hlen.ge
  obtain ⟨start, buffer, hupdate, hstart, hviews⟩ := exists_updateBuffer hcurrent hfits
  have hread := hviews.inBuffer_eq hstart hviews.covers
  have hpos : leValue ((file.drop before.length).take 8) = value :=
    (leValue_in_file (by rw [hlast, append_nil]) rfl hvalue).2
  refine ⟨_, hviews, rfl, rfl, rfl, rfl, rfl, ?_⟩
  rw [ReverseIterator.open, hversion, ok_bind, eosAssert_of (by decide), ok_bind, hnum, ok_bind,
    eosAssert_of (by omega), ok_bind, hsub, hupdate, ok_bind, hread, ok_bind, hpos]

end ReverseIterator

theorem constructIndex_logHeader {context : Bytes} {firstBlockNum : Nat}
    (hfirst : firstBlockNum < 2 ^ 32)
    (hfits : (logHeader context firstBlockNum).length ≤ maxFileSize) :
    constructIndex (logHeader context firstBlockNum) = .ok [] := by
  have hlast : logHeader context firstBlockNum =
      (leBytes 4 maxSupportedVersion ++ leBytes 4 firstBlockNum ++ context) ++ leBytes 8 npos := by
    simp only [logHeader, append_assoc]
  obtain ⟨it, -, -, -, -, hexpected, -, hopen⟩ := ReverseIterator.exists_open hfirst
    (append_nil _).symm hlast (by decide) hfits
  rw [constructIndex, hopen, if_pos rfl, ok_bind, if_pos hexpected]

/-- The log file and the index file after blocks have been appended to a header. -/
inductive Written (codec : BlockCodec) (header : Bytes) :
    List SignedBlock → (log index : Bytes) → Prop where
  | nil : Written codec header [] header []
  | snoc {bs : List SignedBlock} {log index : Bytes} (b : SignedBlock)
      (rest : Written codec header bs log index) :
      Written codec header (bs ++ [b]) (log ++ codec.pack b ++ leBytes 8 log.length)
        (index ++ leBytes 8 log.length)

/-- What the files say of the block at an index: the position in the one is where the block
begins in the other. -/
structure Entry (codec : BlockCodec) (log index : Bytes) (i : Nat) (b : SignedBlock)
    (pos : Nat) : Prop where
  pos_lt : pos < log.length
  index_eq : ∃ before after, index = before ++ (leBytes 8 pos ++ after) ∧ before.length = 8 * i
  log_eq : ∃ rest, log.drop pos = codec.pack b ++ rest

theorem Entry.append {i pos : Nat} (h : Entry codec log index i b pos) (more moreIndex : Bytes) :
    Entry codec (log ++ more) (index ++ moreIndex) i b pos where
  pos_lt := by
    have := h.pos_lt
    simp
    omega
  index_eq := by
    obtain ⟨before, after, hindex, hlen⟩ := h.index_eq
    exact ⟨before, after ++ moreIndex, by simp [hindex], hlen⟩
  log_eq := by
    obtain ⟨rest, hrest⟩ := h.log_eq
    refine ⟨rest ++ more, ?_⟩
    rw [drop_append_of_le_length h.pos_lt.le, hrest, append_assoc]

section

variable (h : Written codec header bs log index)
include h

theorem Written.length_index : index.length = 8 * bs.length := by
  induction h with
  | nil => rfl
  | snoc b _ ih => simp [ih, Nat.mul_add]

theorem Written.exists_header : ∃ rest, log = header ++ rest := by
  induction h with
  | nil => exact ⟨[], by simp⟩
  | @snoc _ log _ b _ ih =>
    obtain ⟨rest, hrest⟩ := ih
    refine ⟨rest ++ (codec.pack b ++ leBytes 8 log.length), ?_⟩
    rw [append_assoc, ← append_assoc header, ← hrest]

theorem Written.exists_entry {i : Nat}
    (hb : bs[i]? = some b) : ∃ pos, Entry codec log index i b pos := by
  induction h with
  | nil => simp at hb
  | @snoc bs log index last rest ih =>
    by_cases hi : i < bs.length
    · rw [getElem?_append_left hi] at hb
      obtain ⟨pos, hpos⟩ := ih hb
      exact ⟨pos, by simpa using hpos.append _ _⟩
    · -- the entry that the last append has written
      have hlast : i = bs.length ∧ last = b := by
        rw [getElem?_append_right (by omega)] at hb
        have : i - bs.length = 0 := by
          by_contra hne
          simp [hne] at hb
        exact ⟨by omega, by simpa [this] using hb⟩
      obtain ⟨rfl, rfl⟩ := hlast
      refine ⟨log.length, ?_, ⟨index, [], by simp, rest.length_index⟩, ⟨leBytes 8 log.length, ?_⟩⟩
      · simp
      · rw [append_assoc, drop_left]

end

theorem Written.of_nil (h : Written codec header [] log index) : log = header ∧ index = [] := by
  generalize hbs : ([]) = bs at h
  cases h with
  | nil => exact ⟨rfl, rfl⟩
  | snoc b _ => simp at hbs

theorem Written.of_snoc (h : Written codec header (bs ++ [b]) log index) :
    ∃ log₀ index₀, log = log₀ ++ codec.pack b ++ leBytes 8 log₀.length ∧
      index = index₀ ++ leBytes 8 log₀.length := by
  generalize hbs : bs ++ [b] = all at h
  cases h with
  | nil => simp at hbs
  | @snoc bs' log₀ index₀ b' _ =>
    have hb : b = b' := (append_inj' hbs rfl).2 |> singleton_inj.1
    exact ⟨log₀, index₀, by rw [hb], rfl⟩

end BlockLog

/-! ## The state of the log -/

namespace BlockLogImpl

variable {fc : Fc} {codec : BlockCodec} {s s' : BlockLogImpl} {bs : List SignedBlock}
  {b : SignedBlock}

theorem append_eq_ok :
    s.append fc codec b = .ok s' ↔
      s.genesisWrittenToBlockLog = true ∧
      s.indexFile.length = 8 * u32Sub b.blockNum s.firstBlockNum ∧
      s.blockFile.length + (codec.pack b).length + 8 ≤ maxFileSize ∧
      s.indexFile.length + 8 ≤ maxFileSize ∧
      s' = { s with
        head := some b
        headId := b.id fc
        blockFile := s.blockFile ++ codec.pack b ++ leBytes 8 s.blockFile.length
        indexFile := s.indexFile ++ leBytes 8 s.blockFile.length } := by
  simp only [append, bind_eq_ok, eosAssert_eq_ok, write_eq_ok]
  constructor
  · rintro ⟨-, hgenesis, -, hindex, log, ⟨-, rfl⟩, log', ⟨hlog, rfl⟩, index, ⟨hindex', rfl⟩, h⟩
    simp at hlog hindex'
    exact ⟨hgenesis, hindex, hlog, hindex', (Except.ok.inj h).symm⟩
  · rintro ⟨hgenesis, hindex, hlog, hindex', rfl⟩
    exact ⟨(), hgenesis, (), hindex, _, ⟨by omega, rfl⟩, _, ⟨by simpa using hlog, rfl⟩, _,
      ⟨by simpa using hindex', rfl⟩, rfl⟩

/-- The log and its files hold the blocks. -/
structure Holds (fc : Fc) (codec : BlockCodec) (s : BlockLogImpl) (bs : List SignedBlock) :
    Prop where
  written : ∃ context, Written codec (logHeader context s.firstBlockNum) bs s.blockFile s.indexFile
  genesis : s.genesisWrittenToBlockLog = true
  version : s.version = maxSupportedVersion
  head : s.head = bs.getLast?
  headId : s.headId = (bs.getLast?.map (·.id fc)).getD 0
  fits : s.blockFile.length ≤ maxFileSize
  faithful : ∀ b ∈ bs, codec.Faithful b
  first_pos : 0 < s.firstBlockNum
  first_lt : s.firstBlockNum < 2 ^ 32
  number : ∀ i b, bs[i]? = some b → b.blockNum = s.firstBlockNum + i
  last_lt : s.firstBlockNum + bs.length ≤ 2 ^ 32

variable {context : Bytes} {firstBlockNum first pos : Nat}

theorem startLog_eq_ok (h : startLog context firstBlockNum = .ok s) :
    16 + context.length ≤ maxFileSize ∧
    s = { blockFile := leBytes 4 0 ++ (leBytes 4 firstBlockNum ++ (context ++ leBytes 8 npos))
          genesisWrittenToBlockLog := true
          firstBlockNum } := by
  simp only [startLog, bind_eq_ok, write_eq_ok] at h
  obtain ⟨_, ⟨-, rfl⟩, _, ⟨-, rfl⟩, _, ⟨-, rfl⟩, _, ⟨hfits, rfl⟩, h⟩ := h
  refine ⟨?_, ?_⟩
  · simp at hfits
    omega
  · simpa using (Except.ok.inj h).symm

theorem holds_startLog (hpos : 0 < firstBlockNum) (hlt : firstBlockNum < 2 ^ 32)
    (h : startLog context firstBlockNum = .ok s) : s.writeVersion.Holds fc codec [] := by
  obtain ⟨hfits, rfl⟩ := startLog_eq_ok h
  exact
    { written := ⟨context, by simpa [writeVersion, logHeader] using Written.nil⟩
      genesis := rfl
      version := rfl
      head := rfl
      headId := rfl
      fits := by
        simp [writeVersion]
        omega
      faithful := nofun
      first_pos := hpos
      first_lt := hlt
      number := nofun
      last_lt := hlt.le }

/-- **Step.** Appending the next block adds it to the blocks that the log holds. -/
theorem Holds.append (h : s.Holds fc codec bs) (hfaithful : codec.Faithful b)
    (hnum : b.blockNum = s.firstBlockNum + bs.length) (hlt : b.blockNum < 2 ^ 32)
    (happend : s.append fc codec b = .ok s') : s'.Holds fc codec (bs ++ [b]) := by
  obtain ⟨-, -, hfits, -, rfl⟩ := append_eq_ok.1 happend
  obtain ⟨context, hwritten⟩ := h.written
  exact
    { written := ⟨context, hwritten.snoc b⟩
      genesis := h.genesis
      version := h.version
      head := by simp
      headId := by simp
      fits := by simpa [add_assoc] using hfits
      faithful := by
        intro b' hb'
        rcases mem_append.1 hb' with hb' | hb'
        · exact h.faithful b' hb'
        · rwa [mem_singleton.1 hb']
      first_pos := h.first_pos
      first_lt := h.first_lt
      number := by
        intro i b' hb'
        by_cases hi : i < bs.length
        · exact h.number i b' (by rwa [getElem?_append_left hi] at hb')
        · have hi' : i = bs.length := by
            have := (List.getElem?_eq_some_iff.1 hb').1
            simp at this
            omega
          subst hi'
          simp at hb'
          rw [← hb', hnum]
      last_lt := by
        simp
        omega }

theorem Holds.append_ok (h : s.Holds fc codec bs)
    (hnum : b.blockNum = s.firstBlockNum + bs.length) (hlt : b.blockNum < 2 ^ 32)
    (hfits : s.blockFile.length + (codec.pack b).length + 8 ≤ maxFileSize) :
    ∃ s', s.append fc codec b = .ok s' := by
  obtain ⟨context, hwritten⟩ := h.written
  have hlen := hwritten.length_index
  refine ⟨_, append_eq_ok.2 ⟨h.genesis, ?_, hfits, ?_, rfl⟩⟩
  · simp [hlen, hnum, u32Sub]
  · simp only [maxFileSize]
    omega

theorem append_writeVersion (hlen : 4 ≤ s.blockFile.length)
    (happend : s.append fc codec b = .ok s') :
    s.writeVersion.append fc codec b = .ok s'.writeVersion := by
  have hlen' : s.writeVersion.blockFile.length = s.blockFile.length := by
    simp [writeVersion]
    omega
  obtain ⟨hgenesis, hnum, hfits, hindex, rfl⟩ := append_eq_ok.1 happend
  refine append_eq_ok.2 ⟨hgenesis, hnum, by rwa [hlen'], hindex, ?_⟩
  simp [writeVersion, drop_append_of_le_length hlen, Nat.add_sub_cancel' hlen]

theorem holds_reset_none (hpos : 0 < first) (hlt : first < 2 ^ 32)
    (h : reset fc codec context none first = .ok s) :
    s.Holds fc codec [] ∧ s.firstBlockNum = first := by
  simp only [reset, appendFirst, bind_eq_ok] at h
  obtain ⟨s₀, hstart, _, hfirst, hs⟩ := h
  cases hfirst
  cases hs
  have hholds : s₀.writeVersion.Holds fc codec [] := holds_startLog hpos hlt hstart
  obtain ⟨-, rfl⟩ := startLog_eq_ok hstart
  exact ⟨hholds, rfl⟩

theorem holds_resetChainId {chainId : Bytes} (hlt : firstBlockNum < 2 ^ 32)
    (h : resetChainId fc codec chainId firstBlockNum = .ok s) :
    s.Holds fc codec [] ∧ s.firstBlockNum = firstBlockNum := by
  simp only [resetChainId, bind_eq_ok, eosAssert_eq_ok] at h
  obtain ⟨-, hpos, h⟩ := h
  exact holds_reset_none (by omega) hlt h

theorem holds_reset_some (hpos : 0 < first) (hlt : first < 2 ^ 32) (hfaithful : codec.Faithful b)
    (h : reset fc codec context (some b) first = .ok s) :
    s.Holds fc codec [b] ∧ s.firstBlockNum = first := by
  simp only [reset, appendFirst, bind_eq_ok] at h
  obtain ⟨s₀, hstart, s₁, hfirst, hs⟩ := h
  cases hs
  have hholds : s₀.writeVersion.Holds fc codec [] := holds_startLog hpos hlt hstart
  obtain ⟨-, rfl⟩ := startLog_eq_ok hstart
  have hnum : b.blockNum = first := by
    have hindex := (append_eq_ok.1 hfirst).2.1
    simp only [u32Sub, length_nil] at hindex
    split at hindex <;> omega
  have hfirst' := append_writeVersion (by simp) hfirst
  refine ⟨hholds.append hfaithful hnum (hnum ▸ hlt) hfirst', ?_⟩
  rw [(append_eq_ok.1 hfirst').2.2.2.2]
  rfl

variable {log rest : Bytes}

theorem readBlock_of_eq (hb : codec.Faithful b)
    (hlog : log.drop pos = codec.pack b ++ rest) : readBlock codec log pos = .ok b := by
  rw [readBlock, hlog, hb.unpack]

theorem readBlockHeader_of_eq (hb : codec.Faithful b)
    (hlog : log.drop pos = codec.pack b ++ rest) :
    readBlockHeader codec log pos = .ok b.toBlockHeader := by
  rw [readBlockHeader, hlog, hb.unpackHeader]

theorem lt_npos_of_le (h : pos ≤ maxFileSize) : pos < npos ∧ pos < 256 ^ 8 := by
  simp only [maxFileSize, npos] at h ⊢
  omega

section

variable (h : s.Holds fc codec bs)
include h

theorem Holds.lt_length : 8 < s.blockFile.length := by
  obtain ⟨context, hwritten⟩ := h.written
  obtain ⟨rest, hrest⟩ := hwritten.exists_header
  rw [hrest, length_append]
  exact Nat.lt_add_right _ (lt_length_logHeader context s.firstBlockNum)

theorem Holds.reread :
    readHead codec s.blockFile = .ok s.head ∧
      checkIndex s.blockFile s.indexFile = .ok s.indexFile := by
  obtain ⟨context, hwritten⟩ := h.written
  have hlong : ¬ s.blockFile.length ≤ 8 := by
    have := h.lt_length
    omega
  rcases eq_nil_or_concat bs with rfl | ⟨older, b, rfl⟩
  · -- the totem is the last position
    obtain ⟨hlog, hindex⟩ := hwritten.of_nil
    have hlast : readLast s.blockFile = .ok npos := by
      simp only [hlog, logHeader, ← append_assoc]
      exact readLast_append (by decide)
    constructor
    · rw [readHead, if_neg hlong, hlast, ok_bind, h.head]
      rfl
    · rw [checkIndex, hindex, if_neg (by simp), hlog,
        constructIndex_logHeader h.first_lt (hlog ▸ h.fits)]
  · rw [concat_eq_append] at *
    obtain ⟨log, index, hlog, hindex⟩ := hwritten.of_snoc
    have hfits : log.length ≤ maxFileSize := by
      have := h.fits
      simp [hlog] at this
      omega
    obtain ⟨hnpos, hbytes⟩ := lt_npos_of_le hfits
    have hlast : readLast s.blockFile = .ok log.length := by
      rw [hlog, readLast_append hbytes]
    have hblock : readBlock codec s.blockFile log.length = .ok b :=
      readBlock_of_eq (h.faithful b (by simp)) (by rw [hlog, append_assoc, drop_left])
    constructor
    · rw [readHead, if_neg hlong, hlast, ok_bind, if_pos hnpos.ne, hblock, ok_bind, h.head]
      simp
    · have hlastIndex : readLast s.indexFile = .ok log.length := by
        rw [hindex, readLast_append hbytes]
      rw [checkIndex, if_pos (by simp [hindex]), hlast, ok_bind, hlastIndex, ok_bind,
        if_neg (lt_irrefl _), if_neg (lt_irrefl _)]

/-- **Reopening.** The log opened on its own files is the log that was closed. -/
theorem Holds.reopen_eq : s.reopen fc codec = .ok s := by
  obtain ⟨context, hwritten⟩ := h.written
  obtain ⟨rest, hrest⟩ := hwritten.exists_header
  have hversion : readNumber s.blockFile 0 4 = .ok maxSupportedVersion :=
    readNumber_of_eq (by rw [hrest, logHeader]; rfl) length_nil (by decide)
  have hfirst : readFirstBlockNum s.blockFile maxSupportedVersion = .ok s.firstBlockNum := by
    have hread : readNumber s.blockFile 4 4 = .ok s.firstBlockNum :=
      readNumber_of_eq (by rw [hrest, logHeader, append_assoc, append_assoc])
        (length_leBytes 4 _) h.first_lt
    rw [readFirstBlockNum, if_pos (by decide), hread, ok_bind, eosAssert_of h.first_pos, ok_bind]
  have hnonempty : s.blockFile.length ≠ 0 := by
    have := h.lt_length
    omega
  obtain ⟨hhead, hindex⟩ := h.reread
  rw [reopen, openLog, if_pos hnonempty, hversion, ok_bind, eosAssert_of (by decide), ok_bind,
    eosAssert_of (by decide), ok_bind, hfirst, ok_bind, hhead, ok_bind, hindex, ok_bind]
  have hheadId : (s.head.map (·.id fc)).getD 0 = s.headId := by rw [h.head, h.headId]
  rw [hheadId, ← h.version, ← h.genesis]

end

/-- A log that has been reset, appended to and reopened, with the number of its first block and
the blocks it was given. The blocks are consecutive, and the numbers `uint32_t`. -/
inductive Run (fc : Fc) (codec : BlockCodec) : Nat → BlockLogImpl → List SignedBlock → Prop where
  | resetGenesis {s : BlockLogImpl} (gs : Bytes) (b : SignedBlock) (faithful : codec.Faithful b)
      (result : resetGenesis fc codec gs (some b) = .ok s) : Run fc codec 1 s [b]
  | resetChainId {s : BlockLogImpl} (chainId : Bytes) (first : Nat) (first_lt : first < 2 ^ 32)
      (result : resetChainId fc codec chainId first = .ok s) : Run fc codec first s []
  | append {first : Nat} {s s' : BlockLogImpl} {bs : List SignedBlock} (b : SignedBlock)
      (before : Run fc codec first s bs) (faithful : codec.Faithful b)
      (consecutive : b.blockNum = first + bs.length) (num_lt : b.blockNum < 2 ^ 32)
      (result : s.append fc codec b = .ok s') : Run fc codec first s' (bs ++ [b])
  | reopen {first : Nat} {s s' : BlockLogImpl} {bs : List SignedBlock}
      (before : Run fc codec first s bs) (result : s.reopen fc codec = .ok s') :
      Run fc codec first s' bs

theorem Run.holds (h : Run fc codec first s bs) :
    s.Holds fc codec bs ∧ s.firstBlockNum = first := by
  induction h with
  | resetGenesis gs b faithful result =>
    exact holds_reset_some (by decide) (by decide) faithful result
  | resetChainId chainId first first_lt result => exact holds_resetChainId first_lt result
  | append b _ faithful consecutive num_lt result ih =>
    obtain ⟨hholds, rfl⟩ := ih
    refine ⟨hholds.append faithful consecutive num_lt result, ?_⟩
    rw [(append_eq_ok.1 result).2.2.2.2]
  | reopen _ result ih =>
    rw [ih.1.reopen_eq] at result
    cases result
    exact ih

/-! ## Answers -/

variable {i : Nat}

section

variable (h : s.Holds fc codec bs)
include h

section

variable (hb : bs[i]? = some b)
include hb

theorem Holds.getBlockPos_eq :
    ∃ pos, s.getBlockPos b.blockNum = .ok pos ∧ pos ≠ npos ∧
      ∃ rest, s.blockFile.drop pos = codec.pack b ++ rest := by
  obtain ⟨context, hwritten⟩ := h.written
  obtain ⟨pos, hentry⟩ := hwritten.exists_entry hb
  obtain ⟨before, after, hindex, hlen⟩ := hentry.index_eq
  have hnum := h.number i b hb
  have hi := (List.getElem?_eq_some_iff.1 hb).1
  -- the head is the last block, so no block has a higher number
  obtain ⟨last, hlast⟩ : ∃ last, bs.getLast? = some last :=
    ⟨bs.getLast (ne_nil_of_length_pos (by omega)), getLast?_eq_getLast_of_ne_nil _⟩
  have hlastNum : last.blockNum = s.firstBlockNum + (bs.length - 1) :=
    h.number _ last (by rw [← hlast, getLast?_eq_getElem?])
  have hcond : s.head.isSome ∧ b.blockNum ≤ numFromId s.headId ∧ s.firstBlockNum ≤ b.blockNum := by
    rw [h.head, h.headId, hlast]
    refine ⟨rfl, ?_, by omega⟩
    show b.blockNum ≤ numFromId (last.id fc)
    rw [numFromId_id]
    omega
  obtain ⟨hnpos, hbytes⟩ := lt_npos_of_le (hentry.pos_lt.le.trans h.fits)
  refine ⟨pos, ?_, hnpos.ne, hentry.log_eq⟩
  rw [getBlockPos, if_pos hcond]
  exact readNumber_of_eq hindex (by rw [hlen, hnum]; simp [u32Sub]) hbytes

theorem Holds.readBlockByNum_eq : s.readBlockByNum codec b.blockNum = .ok (some b) := by
  obtain ⟨pos, hpos, hne, rest, hrest⟩ := h.getBlockPos_eq hb
  have hread := readBlock_of_eq (h.faithful b (mem_of_getElem? hb)) hrest
  rw [readBlockByNum, hpos, ok_bind, if_pos hne, hread, ok_bind, eosAssert_of rfl, ok_bind]

theorem Holds.readBlockIdByNum_eq : s.readBlockIdByNum fc codec b.blockNum = .ok (b.id fc) := by
  obtain ⟨pos, hpos, hne, rest, hrest⟩ := h.getBlockPos_eq hb
  have hread := readBlockHeader_of_eq (h.faithful b (mem_of_getElem? hb)) hrest
  rw [readBlockIdByNum, hpos, ok_bind, if_pos hne, hread, ok_bind, eosAssert_of rfl, ok_bind]

end

theorem Holds.readBlockByNum_none {n : Nat}
    (hn : ∀ last ∈ s.head, n < s.firstBlockNum ∨ last.blockNum < n) :
    s.readBlockByNum codec n = .ok none := by
  have hcond : ¬ (s.head.isSome ∧ n ≤ numFromId s.headId ∧ s.firstBlockNum ≤ n) := by
    rintro ⟨hsome, hle, hfirst⟩
    obtain ⟨last, hlast⟩ := Option.isSome_iff_exists.1 hsome
    have hid : s.headId = last.id fc := by rw [h.headId, ← h.head, hlast]; rfl
    rw [hid, numFromId_id] at hle
    have := hn last hlast
    omega
  rw [readBlockByNum, getBlockPos, if_neg hcond, ok_bind, if_neg (by simp)]

end

/-- The log answers as the array of the blocks, numbered from `first` on, would. -/
structure IsArray (fc : Fc) (codec : BlockCodec) (first : Nat) (s : BlockLogImpl)
    (bs : List SignedBlock) : Prop where
  head : s.head = bs.getLast?
  read : ∀ last ∈ s.head, ∀ n, first ≤ n → n ≤ last.blockNum →
    ∃ b ∈ bs, b.blockNum = n ∧ (∀ b' ∈ bs, b'.blockNum = n → b' = b) ∧
      s.readBlockByNum codec n = .ok (some b) ∧ s.readBlockIdByNum fc codec n = .ok (b.id fc)
  outside : ∀ n, (∀ last ∈ s.head, n < first ∨ last.blockNum < n) →
    s.readBlockByNum codec n = .ok none
  /-- the log can be opened again -/
  reopens : ∃ s', s.reopen fc codec = .ok s'
  /-- and the next block appended -/
  appends : ∀ b : SignedBlock, b.blockNum = first + bs.length → b.blockNum < 2 ^ 32 →
    s.blockFile.length + (codec.pack b).length + 8 ≤ maxFileSize →
      ∃ s', s.append fc codec b = .ok s'

theorem Holds.eq_of_blockNum_eq (h : s.Holds fc codec bs) {b' : SignedBlock} (hb : b ∈ bs)
    (hb' : b' ∈ bs) (hnum : b'.blockNum = b.blockNum) : b' = b := by
  obtain ⟨i, hi⟩ := getElem?_of_mem hb
  obtain ⟨j, hj⟩ := getElem?_of_mem hb'
  have hij : j = i := by
    have := h.number i b hi
    have := h.number j b' hj
    omega
  rw [hij, hi] at hj
  exact (Option.some.inj hj).symm

/-- **The block log is an array.** Whatever was reset, appended and reopened, the log reads each
block back by its number, nothing outside them, and the last one as its head. -/
theorem isArray_of_run {first : Nat} (h : Run fc codec first s bs) :
    s.IsArray fc codec first bs := by
  obtain ⟨hholds, rfl⟩ := h.holds
  refine ⟨hholds.head, ?_, fun n hn => hholds.readBlockByNum_none hn, ⟨s, hholds.reopen_eq⟩,
    fun b hnum hlt hfits => hholds.append_ok hnum hlt hfits⟩
  intro last hlast n hfirst hle
  have hlastNum : last.blockNum = s.firstBlockNum + (bs.length - 1) :=
    hholds.number _ last (by rw [← getLast?_eq_getElem?, ← hholds.head, hlast])
  have hpos : 0 < bs.length := by
    rw [hholds.head] at hlast
    exact length_pos_of_mem (mem_of_getLast? hlast)
  -- the block numbered `n` stands at the distance of `n` from the first number
  obtain ⟨b, hb⟩ : ∃ b, bs[n - s.firstBlockNum]? = some b :=
    ⟨_, getElem?_eq_getElem (by omega)⟩
  have hnum : b.blockNum = n := by
    have := hholds.number _ b hb
    omega
  subst hnum
  have hmem := mem_of_getElem? hb
  exact ⟨b, hmem, rfl, fun b' hb' => hholds.eq_of_blockNum_eq hmem hb',
    hholds.readBlockByNum_eq hb, hholds.readBlockIdByNum_eq hb⟩

def blockAfter (num : Nat) : SignedBlock :=
  { (default : SignedBlockHeader) with previous := num * 2 ^ 224, transactions := [] }

def numberCodec : BlockCodec where
  pack b := [UInt8.ofNat (numFromId b.previous)]
  unpack bytes := bytes.head?.map fun byte => blockAfter byte.toNat
  unpackHeader bytes := bytes.head?.map fun byte => (blockAfter byte.toNat).toBlockHeader

def shortCall (s : BlockLogImpl) : Nat → Result BlockLogImpl
  | 0 => s.append Fc.sample numberCodec (blockAfter 6)
  | 1 => s.reopen Fc.sample numberCodec
  | _ => s.append Fc.sample numberCodec (blockAfter 7)

def shortLog : Nat → BlockLogImpl
  | 0 => (resetChainId Fc.sample numberCodec [0xca, 0xfe] 7).toOption.getD {}
  | n + 1 => ((shortLog n).shortCall n).toOption.getD {}

theorem run_shortLog : Run Fc.sample numberCodec 7 (shortLog 3) [blockAfter 6, blockAfter 7] := by
  have hfaithful : ∀ num : Nat, num = 6 ∨ num = 7 → numberCodec.Faithful (blockAfter num) := by
    rintro num (rfl | rfl) <;> exact ⟨fun _ => rfl, fun _ => rfl⟩
  have hreset : Run Fc.sample numberCodec 7 (shortLog 0) [] :=
    .resetChainId [0xca, 0xfe] 7 (by decide) (by decide +kernel)
  have happend : Run Fc.sample numberCodec 7 (shortLog 1) [blockAfter 6] :=
    hreset.append _ (hfaithful 6 (.inl rfl)) (by decide +kernel) (by decide +kernel)
      (by decide +kernel)
  have hreopen : Run Fc.sample numberCodec 7 (shortLog 2) [blockAfter 6] :=
    happend.reopen (by decide +kernel)
  exact hreopen.append _ (hfaithful 7 (.inr rfl)) (by decide +kernel)
    (by decide +kernel) (by decide +kernel)

/-- The log begun with block 7 is the array of its two blocks. -/
theorem isArray_shortLog :
    (shortLog 3).IsArray Fc.sample numberCodec 7 [blockAfter 6, blockAfter 7] :=
  isArray_of_run run_shortLog

end BlockLogImpl

end PotatoNode.Chain
