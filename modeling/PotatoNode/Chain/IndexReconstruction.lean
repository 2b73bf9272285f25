import PotatoNode.Chain.BlockLogArray

/-!
# Rebuilding the index of the block log (`block_log::construct_index`)

The positions are read backwards through a buffer of 16 MiB and written backwards through one of
4 MiB. The reader hands over the positions that the appends have left in the log
(`Written.exists_positions`). The writer counts down from the last entry of the index, whose number
it computes from a file size of 32 bits: with `2 ^ 29` blocks or more it begins at a wrong entry and
never completes.
-/

namespace PotatoNode.Chain

open Lib List Option Nat

/-- A packed block has the number of the block before it, the highest byte first, after the
timestamp, the producer and the count of confirmations. -/
structure BlockCodec.HasNumber (codec : BlockCodec) (b : SignedBlock) : Prop where
  length_le : BlockLog.blknumOffset + 4 ≤ (codec.pack b).length
  number : leValue (((codec.pack b).drop BlockLog.blknumOffset).take 4).reverse = numFromId b.previous

namespace BlockLog

/-! ## Reading -/

namespace ReverseIterator

variable {file : Bytes} {it : ReverseIterator} {value : Nat}

section

variable (h : it.Views file)
include h

/-- The number of the last block, in the buffer or before it. -/
theorem previousNum_eq {pos : Nat}
    (hend : it.currentPositionInFile + 8 = file.length)
    (hpos : pos + blknumOffset + 4 ≤ file.length) :
    it.previousNum file pos = .ok ((file.drop (pos + blknumOffset)).take 4) := by
  unfold previousNum
  split
  · have hcovers := h.covers
    have hsmall := h.small
    have hbuf : bufLen = 2 ^ 24 := rfl
    rw [Nat.mod_eq_of_lt (by omega), ← Nat.sub_add_comm ‹_›]
    exact h.inBuffer_eq (by omega) (by omega)
  · rw [eosAssert_of hpos, ok_bind]

theorem exists_toCurrent (hfits : file.length ≤ maxFileSize) :
    ∃ start buffer,
      it.toCurrent file = .ok { it with startOfBufferPosition := start, buffer } ∧
      start ≤ it.currentPositionInFile ∧
      Views file { it with startOfBufferPosition := start, buffer } := by
  unfold toCurrent
  split
  · exact exists_updateBuffer (h.covers.trans h.fits) hfits
  · exact ⟨_, _, rfl, by omega, h⟩

theorem exists_previous_npos (hversion : it.version = maxSupportedVersion)
    (hfits : file.length ≤ maxFileSize) (hall : it.blocksFound = it.blocksExpected)
    (hread : leValue ((file.drop it.currentPositionInFile).take 8) = npos) :
    ∃ it', it.previous file = .ok (npos, it') := by
  obtain ⟨start, buffer, htoCurrent, hstart, hviews⟩ := exists_toCurrent h hfits
  have hcurrent : it.currentPositionInFile ≠ npos := by
    have := h.covers.trans h.fits
    simp only [maxFileSize, npos] at *
    omega
  have hfound : (it.blocksFound + 1) % 2 ^ 32 ≠ it.blocksExpected := by omega
  rw [previous, eosAssert_of hcurrent, ok_bind, if_neg (by simp [hversion, maxSupportedVersion]),
    htoCurrent, ok_bind, hviews.inBuffer_eq hstart hviews.covers]
  simp only [hread, if_true, eosAssert_of hfound, ok_bind]
  exact ⟨_, rfl⟩

theorem exists_previous (hversion : it.version = maxSupportedVersion)
    (hfits : file.length ≤ maxFileSize) (hlow : 8 ≤ value)
    (hvalue : value ≤ it.currentPositionInFile)
    (hread : leValue ((file.drop it.currentPositionInFile).take 8) = value) :
    ∃ it', it.previous file = .ok (value, it') ∧ it'.Views file ∧
      it'.version = maxSupportedVersion ∧ it'.currentPositionInFile = value - 8 ∧
      it'.blocksFound = (it.blocksFound + 1) % 2 ^ 32 ∧
      it'.blocksExpected = it.blocksExpected := by
  obtain ⟨start, buffer, htoCurrent, hstart, hviews⟩ := exists_toCurrent h hfits
  have hcurrent : it.currentPositionInFile < npos := by
    have := h.covers.trans h.fits
    simp only [maxFileSize, npos] at *
    omega
  have hsub : u64Sub value 8 = value - 8 := if_pos hlow
  rw [previous, eosAssert_of hcurrent.ne, ok_bind,
    if_neg (by simp [hversion, maxSupportedVersion]), htoCurrent, ok_bind,
    hviews.inBuffer_eq hstart hviews.covers]
  simp only [hread, if_neg (hvalue.trans_lt hcurrent).ne, hsub,
    eosAssert_of (show value - 8 < it.currentPositionInFile by omega), ok_bind]
  refine ⟨_, rfl, { hviews with covers := ?_ }, hversion, rfl, rfl, rfl⟩
  have := hviews.covers
  simp only at this ⊢
  omega

end

end ReverseIterator

variable {codec : BlockCodec} {context : Bytes} {first : Nat} {bs : List SignedBlock}
  {log index file : Bytes}

/-- **Reading.** The positions that the appends have written come out of the log from the last
one on, wherever the buffer has to be filled again. -/
theorem Written.exists_positions (h : Written codec (logHeader context first) bs log index)
    (hfits : file.length ≤ maxFileSize) :
    ∃ ps : List Nat, ps.length = bs.length ∧ index = ps.flatMap (leBytes 8) ∧
      bs.length < log.length ∧
      ∀ rest it w fuel, file = log ++ rest → it.Views file → it.version = maxSupportedVersion →
        it.currentPositionInFile + 8 = log.length → it.blocksExpected < 2 ^ 32 →
        it.blocksFound + bs.length = it.blocksExpected → bs.length < fuel →
        writePositions file fuel it w = ps.reverse.foldlM IndexWriter.write w := by
  induction h with
  | nil =>
    refine ⟨[], rfl, rfl, zero_lt_of_lt (lt_length_logHeader context first), ?_⟩
    intro rest it w fuel hfile hviews hversion hcurrent _ hfound hfuel
    obtain ⟨fuel, rfl⟩ := exists_eq_succ_of_ne_zero hfuel.ne'
    have htotem : file = (leBytes 4 maxSupportedVersion ++ leBytes 4 first ++ context) ++
        (leBytes 8 npos ++ rest) := by simp [hfile, logHeader]
    have hpos : (leBytes 4 maxSupportedVersion ++ leBytes 4 first ++ context).length =
        it.currentPositionInFile := by
      simp [logHeader] at hcurrent ⊢
      omega
    have hread := (leValue_in_file htotem hpos (by decide)).2
    obtain ⟨it', hprevious⟩ :=
      ReverseIterator.exists_previous_npos hviews hversion hfits hfound hread
    rw [writePositions, hprevious, ok_bind]
    exact if_neg (not_not.2 rfl)
  | @snoc bs log index b hwritten ih =>
    obtain ⟨ps, hlength, hindex, hlong, hrest⟩ := ih
    refine ⟨ps ++ [log.length], by simp [hlength], by simp [hindex], by simp; omega, ?_⟩
    intro rest it w fuel hfile hviews hversion hcurrent hexpected hfound hfuel
    obtain ⟨fuel, rfl⟩ := Nat.exists_eq_succ_of_ne_zero (Nat.ne_zero_of_lt hfuel)
    have hpos : (log ++ codec.pack b).length = it.currentPositionInFile := by
      simp at hcurrent ⊢
      omega
    have hentry : file = (log ++ codec.pack b) ++ (leBytes 8 log.length ++ rest) := by simp [hfile]
    have hsmall : log.length ≤ maxFileSize := by
      simp [hfile] at hfits
      omega
    have hread := (leValue_in_file hentry hpos (BlockLogImpl.lt_npos_of_le hsmall).2).2
    have hlow : 8 ≤ log.length := by
      obtain ⟨tail, rfl⟩ := hwritten.exists_header
      have := lt_length_logHeader context first
      simp
      omega
    have hle : log.length ≤ it.currentPositionInFile := by
      simp at hpos
      omega
    obtain ⟨it', hprevious, hviews', hversion', hcurrent', hfound', hexpected'⟩ :=
      ReverseIterator.exists_previous hviews hversion hfits hlow hle hread
    simp only [length_append, length_singleton] at hfound hfuel
    rw [writePositions, hprevious, ok_bind]
    dsimp only
    rw [if_pos (BlockLogImpl.lt_npos_of_le hsmall).1.ne, reverse_append,
      reverse_singleton, singleton_append]
    congr 1
    funext w'
    exact hrest (codec.pack b ++ (leBytes 8 log.length ++ rest)) it' w' fuel
      (by simp [hfile]) hviews' hversion' (by omega) (by omega) (by omega) (by omega)

/-! ## Writing -/

theorem drop_writeAt (file : Bytes) (pos : Nat) (data : Bytes) :
    (Cfile.writeAt file pos data).drop pos = data ++ file.drop (pos + data.length) := by
  have hlen : (file.take pos ++ replicate (pos - file.length) 0).length = pos := by
    simp
    omega
  rw [Cfile.writeAt, append_assoc]
  exact drop_left' hlen

theorem take_flatMap_leBytes (l : List Nat) (n : Nat) :
    (l.flatMap (leBytes 8)).take (8 * n) = (l.take n).flatMap (leBytes 8) := by
  induction n generalizing l with
  | zero => simp
  | succ n ih =>
    cases l with
    | nil => simp
    | cons a l => simp [mul_succ, take_append, ih, take_of_length_le]

theorem length_flatMap_leBytes (l : List Nat) : (l.flatMap (leBytes 8)).length = 8 * l.length := by
  induction l with
  | nil => rfl
  | cons a l ih => simp [ih, Nat.mul_add, Nat.add_comm]

namespace IndexWriter

variable {w w' : IndexWriter} {ps : List Nat} {c : Nat}

/-- The number of the entries that the writer makes room for. -/
def slots (blocksExpected : Nat) : Nat :=
  if blocksExpected % 2 ^ 29 = 0 then 2 ^ 32 else blocksExpected % 2 ^ 29

theorem currentPosition_openFile (hfile : w.file = none) :
    w.openFile.currentPosition = slots w.blocksExpected - 1 := by
  have hend : u32Sub (fileLocationToBufferLocation
      (bufferLocationToFileLocation w.blocksExpected)) 1 + 1 = slots w.blocksExpected := by
    rw [bufferLocationToFileLocation, fileLocationToBufferLocation, slots, u32Sub]
    by_cases hfull : w.blocksExpected % 2 ^ 29 = 0
    · rw [if_pos hfull, if_neg (by omega)]
      omega
    · rw [if_neg hfull, if_pos (by omega)]
      omega
  simp only [openFile, hfile, isNone_none, if_true, updateBufferPosition]
  omega

theorem openFile_of_isSome (h : w.file.isSome) : w.openFile = w := by
  rw [openFile, if_neg (by rwa [Bool.not_eq_true, isNone_eq_false_iff])]

theorem isSome_openFile (w : IndexWriter) : w.openFile.file.isSome := by
  unfold openFile
  split
  · rfl
  · rwa [Bool.not_eq_true, isNone_eq_false_iff] at *

theorem currentPosition_shiftBuffer {shifted : Bool} (h : w.shiftBuffer = .ok (shifted, w')) :
    w'.currentPosition = w.currentPosition ∧ (w.file.isSome → w'.file.isSome) := by
  unfold shiftBuffer at h
  split at h
  · cases h
    exact ⟨rfl, id⟩
  · simp only [bind_eq_ok, eosAssert_eq_ok] at h
    obtain ⟨-, -, h⟩ := h
    cases h
    exact ⟨rfl, fun _ => rfl⟩

theorem currentPosition_write {pos : Nat} (h : w.write pos = .ok w') :
    w'.currentPosition = w.openFile.currentPosition - 1 ∧ w'.file.isSome := by
  simp only [write, prepareBuffer, bind_eq_ok] at h
  obtain ⟨w₁, ⟨⟨shifted, w₂⟩, hshift, hw⟩, h⟩ := h
  cases hw
  obtain ⟨hcurrent, hfile⟩ := currentPosition_shiftBuffer hshift
  split at h
  · cases h
    exact ⟨by rw [← hcurrent], hfile w.isSome_openFile⟩
  · cases h

theorem currentPosition_writes (h : ps.foldlM write w = .ok w') (hfile : w.file.isSome) :
    w'.currentPosition = w.currentPosition - ps.length := by
  induction ps generalizing w with
  | nil =>
    cases h
    simp
  | cons p ps ih =>
    rw [foldlM_cons, bind_eq_ok] at h
    obtain ⟨w₁, hwrite, h⟩ := h
    obtain ⟨hcurrent, hfile'⟩ := currentPosition_write hwrite
    rw [ih h hfile', hcurrent, openFile_of_isSome hfile, length_cons]
    omega

theorem length_eq_of_complete {positions : List Nat} {index : IndexWriter}
    (h : positions.foldlM write { blocksExpected := positions.length } = .ok w)
    (hcomplete : w.complete = .ok index) (hpos : 0 < positions.length)
    (hlt : positions.length < 2 ^ 32) : positions.length = slots positions.length := by
  cases positions with
  | nil => simp at hpos
  | cons p positions =>
    rw [foldlM_cons, bind_eq_ok] at h
    obtain ⟨w₁, hwrite, h⟩ := h
    obtain ⟨hcurrent, hfile⟩ := currentPosition_write hwrite
    rw [currentPosition_openFile rfl] at hcurrent
    have hlast := currentPosition_writes h hfile
    simp only [complete, bind_eq_ok, eosAssert_eq_ok] at hcomplete
    obtain ⟨⟨shifted, w₂⟩, hshift, -, -, -, hend, -⟩ := hcomplete
    rw [(currentPosition_shiftBuffer hshift).1] at hend
    simp only [length_cons] at *
    omega

/-- The writer with `c` entries left to write: the entries from there to the end of the buffer
stand in the buffer, the later ones in the file. -/
structure Window (ps : List Nat) (c start stop : Nat) (w : IndexWriter) : Prop where
  length : w.buffer.length = maxBufferLength
  current : w.currentPosition = c - 1
  start_eq : w.startOfBufferPosition = start
  stop_eq : w.endOfBufferPosition = stop
  start_le : start ≤ c
  le_stop : c ≤ stop
  start_lt : start < stop
  room : stop ≤ start + maxBufferLength
  stop_le : stop ≤ ps.length
  file : ∃ f, w.file = some f ∧ f.drop (8 * stop) = (ps.drop stop).flatMap (leBytes 8)
  buffer : (w.buffer.take (stop - start)).drop (c - start) = (ps.take stop).drop c

variable {start stop : Nat}

theorem window_updateBufferPosition (hlength : w.buffer.length = maxBufferLength)
    (hcurrent : w.currentPosition = c - 1) (hpos : 0 < c) (hc : c ≤ ps.length)
    (hfile : ∃ f, w.file = some f ∧ f.drop (8 * c) = (ps.drop c).flatMap (leBytes 8)) :
    Window ps c (c - maxBufferLength) c w.updateBufferPosition := by
  have hmax : maxBufferLength = 2 ^ 19 := rfl
  refine ⟨hlength, hcurrent, ?_, ?_, sub_le _ _, le_rfl, by omega, by omega, hc, hfile, ?_⟩
  · simp only [updateBufferPosition, hcurrent]
    split <;> omega
  · simp only [updateBufferPosition, hcurrent]
    omega
  · rw [drop_of_length_le (length_take_le _ _), drop_of_length_le (length_take_le _ _)]

theorem Window.shiftBuffer_eq (h : Window ps c start stop w) (hps : ps.length < 2 ^ 29)
    (hc : c = start) :
    ∃ f, w.shiftBuffer = .ok (true, { w with file := some f }.updateBufferPosition) ∧
      f.drop (8 * c) = (ps.drop c).flatMap (leBytes 8) := by
  subst hc
  have hlt := h.start_lt
  have hle := h.stop_le
  obtain ⟨f, hf, hlater⟩ := h.file
  have hlocation : bufferLocationToFileLocation w.startOfBufferPosition.toNat = 8 * c := by
    rw [h.start_eq, bufferLocationToFileLocation]
    omega
  have hsize : bufferLocationToFileLocation
      (w.endOfBufferPosition - w.startOfBufferPosition).toNat = 8 * (stop - c) := by
    rw [h.start_eq, h.stop_eq, bufferLocationToFileLocation]
    omega
  have hentries : w.buffer.take (stop - c) = (ps.take stop).drop c := by simpa using h.buffer
  have hlen : ((ps.take stop).drop c).length = stop - c := by simp [min_eq_left hle]
  have hall : (ps.take stop).drop c ++ ps.drop stop = ps.drop c := by
    rw [← drop_append_of_le_length (by simp; omega), take_append_drop]
  refine ⟨Cfile.writeAt f (8 * c) ((w.buffer.flatMap (leBytes 8)).take (8 * (stop - c))), ?_, ?_⟩
  · rw [shiftBuffer, if_neg (by rw [h.start_eq, h.current]; omega), hlocation, hsize, hf]
    dsimp only
    rw [eosAssert_of (by omega), ok_bind, getD_some]
  · rw [drop_writeAt, take_flatMap_leBytes, hentries, length_flatMap_leBytes, hlen,
      show 8 * c + 8 * (stop - c) = 8 * stop by omega, hlater, ← flatMap_append, hall]

theorem Window.exists_prepareBuffer (h : Window ps (c + 1) start stop w)
    (hps : ps.length < 2 ^ 29) :
    ∃ start stop w', w.prepareBuffer = .ok w' ∧ Window ps (c + 1) start stop w' ∧ start ≤ c := by
  obtain ⟨f, hf, -⟩ := h.file
  rw [prepareBuffer, openFile_of_isSome (by rw [hf]; rfl)]
  by_cases hstart : start ≤ c
  · refine ⟨start, stop, w, ?_, h, hstart⟩
    rw [shiftBuffer, if_pos (by rw [h.start_eq, h.current]; omega), ok_bind]
  · have hfull : c + 1 = start := by
      have := h.start_le
      omega
    have hmax : maxBufferLength = 2 ^ 19 := rfl
    obtain ⟨f, hshift, hlater⟩ := h.shiftBuffer_eq hps hfull
    refine ⟨c + 1 - maxBufferLength, c + 1, { w with file := some f }.updateBufferPosition,
      by rw [hshift, ok_bind], ?_, by omega⟩
    exact window_updateBufferPosition h.length h.current (succ_pos c)
      (h.le_stop.trans h.stop_le) ⟨f, rfl, hlater⟩

/-- **Step.** The next entry down is put in front of those in the buffer. -/
theorem Window.exists_write {w₀ : IndexWriter} (h : Window ps (c + 1) start stop w₀)
    (hps : ps.length < 2 ^ 29) (hc : c < ps.length) :
    ∃ start stop w', w₀.write ps[c] = .ok w' ∧ Window ps c start stop w' := by
  obtain ⟨start, stop, w, hprepare, h, hstart⟩ := h.exists_prepareBuffer hps
  have hstop := h.le_stop
  have hroom := h.room
  have hi : w.currentPosition - w.startOfBufferPosition = (c - start : Nat) := by
    rw [h.current, h.start_eq]
    omega
  have hlen : c - start < (w.buffer.take (stop - start)).length := by
    rw [length_take, h.length]
    omega
  have hwrite : w₀.write ps[c] = .ok
      { w with
        buffer := w.buffer.set (c - start) ps[c]
        currentPosition := w.currentPosition - 1 } := by
    rw [write, hprepare, ok_bind]
    rw [hi, if_pos (by omega), Int.toNat_natCast]
  refine ⟨start, stop, _, hwrite,
    { h with length := ?_, current := ?_, start_le := hstart, le_stop := by omega, buffer := ?_ }⟩
  · simpa using h.length
  · simp only [h.current]
    omega
  · have hrest := h.buffer
    have hnext : (ps.take stop).drop c = ps[c] :: (ps.take stop).drop (c + 1) := by
      rw [drop_eq_getElem_cons (by simp; omega), getElem_take]
    rw [show c + 1 - start = c - start + 1 by omega] at hrest
    rw [take_set, drop_set, if_neg (Nat.lt_irrefl _), Nat.sub_self,
      drop_eq_getElem_cons hlen, set_cons_zero, hrest, hnext]

/-- **Run.** -/
theorem Window.exists_writes (h : Window ps c start stop w) (hps : ps.length < 2 ^ 29) :
    ∃ start stop w', (ps.take c).reverse.foldlM write w = .ok w' ∧ Window ps 0 start stop w' := by
  induction c generalizing start stop w with
  | zero => exact ⟨start, stop, w, by simp; rfl, h⟩
  | succ c ih =>
    have hc : c < ps.length := h.le_stop.trans h.stop_le
    obtain ⟨start, stop, w₁, hwrite, h₁⟩ := h.exists_write hps hc
    obtain ⟨start, stop, w₂, hwrites, h₂⟩ := ih h₁
    refine ⟨start, stop, w₂, ?_, h₂⟩
    rw [take_succ_eq_append_getElem hc, reverse_append, reverse_singleton,
      singleton_append, foldlM_cons, hwrite, ok_bind, hwrites]

theorem exists_index (hpos : 0 < ps.length) (hps : ps.length < 2 ^ 29) :
    ∃ w index : IndexWriter, ps.reverse.foldlM write { blocksExpected := ps.length } = .ok w ∧
      w.complete = .ok index ∧ index.file = some (ps.flatMap (leBytes 8)) := by
  let w₀ : IndexWriter := { blocksExpected := ps.length }
  have hslots : slots ps.length = ps.length := by
    rw [slots, if_neg (by omega), mod_eq_of_lt hps]
  have hcurrent : w₀.openFile.currentPosition = (ps.length : Int) - 1 := by
    rw [currentPosition_openFile rfl, hslots]
  have hwindow : Window ps ps.length (ps.length - maxBufferLength) ps.length w₀.openFile :=
    window_updateBufferPosition (length_replicate ..) hcurrent hpos le_rfl ⟨[], rfl, by simp⟩
  obtain ⟨start, stop, w, hwrites, h⟩ := hwindow.exists_writes hps
  obtain ⟨f, hshift, hfile⟩ := h.shiftBuffer_eq hps (le_zero.1 h.start_le).symm
  have hdone : { w with file := some f }.updateBufferPosition.currentPosition = -1 := h.current
  refine ⟨w, { w with file := some f }.updateBufferPosition, ?_, ?_, ?_⟩
  · -- the first write opens the file
    rw [take_length] at hwrites
    cases hrev : ps.reverse with
    | nil => simp [reverse_eq_nil_iff.1 hrev] at hpos
    | cons p rest =>
      rw [hrev, foldlM_cons] at hwrites
      rw [foldlM_cons]
      exact hwrites
  · rw [complete, hshift, ok_bind]
    dsimp only
    rw [eosAssert_of rfl, ok_bind, eosAssert_of hdone, ok_bind]
  · simpa [updateBufferPosition] using hfile

end IndexWriter

end BlockLog

/-! ## The whole index -/

namespace BlockLogImpl

open BlockLog

variable {fc : Fc} {codec : BlockCodec} {s s' : BlockLogImpl} {bs : List SignedBlock}

/-- A log that has been reset and to which consecutive blocks have been appended. -/
inductive Appended (fc : Fc) (codec : BlockCodec) : BlockLogImpl → List SignedBlock → Prop where
  | reset {s : BlockLogImpl} (context : Bytes) (firstBlock : Option SignedBlock) (first : Nat)
      (first_pos : 0 < first) (first_lt : first < 2 ^ 32)
      (faithful : ∀ b ∈ firstBlock, codec.Faithful b)
      (result : reset fc codec context firstBlock first = .ok s) :
      Appended fc codec s firstBlock.toList
  | append {s s' : BlockLogImpl} {bs : List SignedBlock} (b : SignedBlock)
      (before : Appended fc codec s bs) (faithful : codec.Faithful b)
      (consecutive : b.blockNum = s.firstBlockNum + bs.length) (num_lt : b.blockNum < 2 ^ 32)
      (result : s.append fc codec b = .ok s') : Appended fc codec s' (bs ++ [b])

theorem Appended.holds (h : Appended fc codec s bs) : s.Holds fc codec bs := by
  induction h with
  | append b _ faithful consecutive num_lt result ih =>
    exact ih.append faithful consecutive num_lt result
  | reset context firstBlock first first_pos first_lt faithful result =>
    cases firstBlock with
    | none => exact (holds_reset_none first_pos first_lt result).1
    | some b => exact (holds_reset_some first_pos first_lt (faithful b rfl) result).1

section

variable (h : s.Holds fc codec bs) (hnumber : ∀ b ∈ bs, codec.HasNumber b)
include h hnumber

theorem Holds.constructIndex_eq
    (hbs : bs ≠ []) :
    ∃ ps : List Nat, ps.length = bs.length ∧ s.indexFile = ps.flatMap (leBytes 8) ∧
      constructIndex s.blockFile =
        ps.reverse.foldlM IndexWriter.write { blocksExpected := ps.length } >>= fun w =>
          w.complete >>= fun index => .ok (index.file.getD []) := by
  obtain ⟨context, hwritten⟩ := h.written
  obtain ⟨ps, hlength, hindex, hlong, hpositions⟩ := hwritten.exists_positions h.fits
  obtain ⟨rest, hheader⟩ := hwritten.exists_header
  obtain ⟨older, b, rfl⟩ := (eq_nil_or_concat bs).resolve_left hbs
  rw [concat_eq_append] at *
  obtain ⟨log, index, hlog, -⟩ := hwritten.of_snoc
  have hb := hnumber b (by simp)
  have hsmall : log.length ≤ maxFileSize := by
    have := h.fits
    simp [hlog] at this
    omega
  obtain ⟨hnpos, hbytes⟩ := lt_npos_of_le hsmall
  obtain ⟨it, hviews, hversion, hfirst, hfound, -, hcurrent, hopen⟩ :=
    ReverseIterator.exists_open h.first_lt hheader hlog hbytes h.fits
  have hend : it.currentPositionInFile + 8 = s.blockFile.length := by
    simp [hcurrent, hlog, add_assoc]
  have hread : it.previousNum s.blockFile log.length =
      .ok (((codec.pack b).drop blknumOffset).take 4) := by
    have hle := hb.length_le
    rw [ReverseIterator.previousNum_eq hviews hend (by simp [hlog]; omega), ← drop_drop, hlog,
      append_assoc, drop_left, drop_append_of_le_length (by omega),
      take_append_of_le_length (by simp; omega)]
  have hnum : b.blockNum = s.firstBlockNum + older.length := h.number _ b (by simp)
  have hlt := h.last_lt
  have hpos := h.first_pos
  simp only [length_append, length_singleton] at hlength hlt hlong hpositions
  have hlast : (leValue (((codec.pack b).drop blknumOffset).take 4).reverse + 1) % 2 ^ 32 =
      s.firstBlockNum + older.length := by
    rw [hb.number, ← hnum]
    exact mod_eq_of_lt (show b.blockNum < 2 ^ 32 by omega)
  have hexpected : (it.countTo (s.firstBlockNum + older.length)).blocksExpected =
      older.length + 1 := by
    simp only [ReverseIterator.countTo, hfirst, u32Sub, le_add_right, if_true,
      Nat.add_sub_cancel_left]
    omega
  refine ⟨ps, by simp [hlength], hindex, ?_⟩
  rw [constructIndex, hopen, if_neg hnpos.ne, hread, ok_bind, ok_bind, hlast, hexpected,
    if_neg (succ_ne_zero _), hlength]
  rw [hpositions [] (it.countTo _) _ _ (append_nil _).symm
    { hviews with } hversion hend (by omega) (by rw [hexpected]; exact hfound ▸ zero_add _)
    (by omega)]

theorem Holds.constructIndex_of_lt (hlt : bs.length < 2 ^ 29) :
    constructIndex s.blockFile = .ok s.indexFile := by
  by_cases hbs : bs = []
  · subst hbs
    obtain ⟨context, hwritten⟩ := h.written
    obtain ⟨hlog, hindex⟩ := hwritten.of_nil
    rw [hindex, hlog, constructIndex_logHeader h.first_lt (hlog ▸ h.fits)]
  · obtain ⟨ps, hlength, hindex, heq⟩ := h.constructIndex_eq hnumber hbs
    have hpos := length_pos_iff.2 hbs
    obtain ⟨w, index, hwrites, hcomplete, hfile⟩ :=
      IndexWriter.exists_index (by omega : 0 < ps.length) (by omega)
    rw [heq, hwrites, ok_bind, hcomplete, ok_bind, hfile, hindex, getD_some]

theorem Holds.constructIndex_ne_ok (hle : 2 ^ 29 ≤ bs.length) (index : Bytes) :
    constructIndex s.blockFile ≠ .ok index := by
  intro hindex
  have hbs : bs ≠ [] := ne_nil_of_length_pos (by omega)
  obtain ⟨ps, hlength, -, heq⟩ := h.constructIndex_eq hnumber hbs
  have hlt := h.last_lt
  have hpos := h.first_pos
  rw [heq] at hindex
  simp only [bind_eq_ok] at hindex
  obtain ⟨w, hwrites, index', hcomplete, -⟩ := hindex
  rw [← length_reverse] at hwrites
  have hslots := IndexWriter.length_eq_of_complete hwrites hcomplete
  rw [length_reverse, IndexWriter.slots] at hslots
  split at hslots <;> omega

end

/-- **Rebuilding the index.** After a reset and any number of appends, `construct_index` writes the
index that the appends have written if and only if there are fewer than `2 ^ 29` blocks. -/
theorem rebuilds_index_iff (h : Appended fc codec s bs) (hnumber : ∀ b ∈ bs, codec.HasNumber b) :
    constructIndex s.blockFile = .ok s.indexFile ↔ bs.length < 2 ^ 29 := by
  refine ⟨fun hindex => ?_, h.holds.constructIndex_of_lt hnumber⟩
  by_contra hlt
  exact h.holds.constructIndex_ne_ok hnumber (Nat.le_of_not_lt hlt) _ hindex

def paddedCodec : BlockCodec where
  pack b := List.replicate 14 0 ++ (leBytes 4 (numFromId b.previous)).reverse
  unpack bytes := some (blockAfter (leValue ((bytes.drop 14).take 4).reverse))
  unpackHeader bytes := some (blockAfter (leValue ((bytes.drop 14).take 4).reverse)).toBlockHeader

theorem paddedCodec_blockAfter {num : Nat} (h : num < 2 ^ 32) :
    paddedCodec.Faithful (blockAfter num) ∧ paddedCodec.HasNumber (blockAfter num) := by
  have hnum : numFromId (blockAfter num).previous = num := by
    simp [blockAfter, numFromId]
  have hread : ∀ rest,
      leValue (((paddedCodec.pack (blockAfter num) ++ rest).drop 14).take 4).reverse = num := by
    have hbytes : leValue (leBytes 4 num) = num := leValue_leBytes_of_lt h
    simp [paddedCodec, hnum, hbytes]
  refine ⟨⟨fun rest => ?_, fun rest => ?_⟩, ⟨?_, ?_⟩⟩
  · exact congrArg (fun n => some _) (hread rest)
  · exact congrArg (fun n => some (blockAfter n).toBlockHeader) (hread rest)
  · simp [paddedCodec, blknumOffset]
  · simpa [hnum, blknumOffset] using hread []

theorem exists_appended (n : Nat) (hn : n < 2 ^ 31) :
    ∃ s, Appended Fc.sample paddedCodec s ((range n).map blockAfter) ∧
      s.firstBlockNum = 1 ∧ s.blockFile.length = 16 + 26 * n := by
  induction n with
  | zero => exact ⟨_, .reset [] none 1 (by decide) (by decide) nofun rfl, rfl, rfl⟩
  | succ n ih =>
    obtain ⟨s, happended, hfirst, hlength⟩ := ih (by omega)
    have hnum : (blockAfter n).blockNum = n + 1 := by
      simp [blockAfter, BlockHeader.blockNum, numFromId]
    have hpack : (paddedCodec.pack (blockAfter n)).length = 18 := by simp [paddedCodec]
    have hconsecutive : (blockAfter n).blockNum =
        s.firstBlockNum + ((range n).map blockAfter).length := by
      simp [hnum, hfirst, add_comm]
    have hmax : maxFileSize = 2 ^ 63 - 1 := rfl
    obtain ⟨s', hs'⟩ := happended.holds.append_ok hconsecutive (by omega) (by rw [hpack]; omega)
    refine ⟨s', ?_, ?_, ?_⟩
    · rw [range_succ, map_append]
      exact happended.append _ (paddedCodec_blockAfter (by omega)).1 hconsecutive (by omega) hs'
    · rw [(append_eq_ok.1 hs').2.2.2.2, hfirst]
    · rw [(append_eq_ok.1 hs').2.2.2.2]
      simp [hlength, hpack]
      omega

theorem hasNumber_range {n : Nat} (hn : n < 2 ^ 31) :
    ∀ b ∈ (range n).map blockAfter, paddedCodec.HasNumber b := by
  intro b hb
  obtain ⟨num, hnum, rfl⟩ := mem_map.1 hb
  exact (paddedCodec_blockAfter (by rw [mem_range] at hnum; omega)).2

/-- A log of three blocks gets its index back. -/
theorem rebuilds_index_of_three_blocks :
    ∃ s bs, Appended Fc.sample paddedCodec s bs ∧ bs.length = 3 ∧
      constructIndex s.blockFile = .ok s.indexFile := by
  obtain ⟨s, happended, -⟩ := exists_appended 3 (by decide)
  exact ⟨s, _, happended, rfl,
    (rebuilds_index_iff happended (hasNumber_range (by decide))).2 (by decide)⟩

/-- A log of `2 ^ 29` blocks cannot be indexed again. -/
theorem index_of_many_blocks_not_rebuilt :
    ∃ s bs, Appended Fc.sample paddedCodec s bs ∧ bs.length = 2 ^ 29 ∧
      (∀ b ∈ bs, paddedCodec.HasNumber b) ∧ ∀ index, constructIndex s.blockFile ≠ .ok index := by
  have hn : 2 ^ 29 < 2 ^ 31 := by decide
  obtain ⟨s, happended, -⟩ := exists_appended (2 ^ 29) hn
  refine ⟨s, _, happended, by simp, hasNumber_range hn, ?_⟩
  exact happended.holds.constructIndex_ne_ok (hasNumber_range hn) (by simp)

end BlockLogImpl

end PotatoNode.Chain
