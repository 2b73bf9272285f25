import Mathlib.Algebra.Group.Int.Defs
import PotatoNode.Lib.Chains
import PotatoNode.Chain.BlockLogRepair

/-!
# Reading binary snapshots (`istream_snapshot_reader`)

A snapshot is a header and sections, each with its size, the number of its rows and its name; an end
marker follows. The reader goes from section to section by the sizes that it finds in the file. A
size is added to the position as a signed number, so the next section may lie before the last one,
or nowhere.

`validate` lets the stream throw; the searches for a section do not, and a stream that has failed
never gets to the end marker. So `validate` finishes unless it comes to a section twice
(`finishes_iff`), and a search finishes if and only if it comes to the section or to the end
marker.
-/

namespace PotatoNode.Chain.Snapshot

open Lib BlockLog List Option Nat

/-! ## The stream -/

def seekg (s : IStream) (pos : Int) : IStream :=
  if s.good then
    if pos < 0 then { s with good := false } else { s with pos := pos.toNat }
  else s

def tellg (s : IStream) : Int := if s.good then s.pos else -1

/-- `get`, -1 at the end of the file. -/
def get (s : IStream) : Int × IStream :=
  match if s.good then s.file[s.pos]? else none with
  | some c => (c.toNat, { s with pos := s.pos + 1 })
  | none => (-1, { s with good := false })

/-- A `uint64_t` that is zero where nothing is read. -/
def readUint64 (s : IStream) : Nat × IStream :=
  let (bytes, s) := s.read 8 (leBytes 8 0)
  (leValue bytes, s)

/-- `std::streamoff` of a `uint64_t`. -/
def streamoff (size : Nat) : Int := if size < 2 ^ 63 then size else size - 2 ^ 64

/-- A `char` as an `int`. -/
def charValue (c : UInt8) : Int := if c.toNat < 128 then c.toNat else c.toNat - 256

/-! ## The reader -/

def magicNumber : Nat := 0x30510550

def currentSnapshotVersion : Nat := 1

def headerSize : Nat := 8

/-- With `failbit` and `eofbit` in `exceptions()`. -/
def throwing {α : Type} (r : α × IStream) : Result (α × IStream) :=
  if r.2.good then .ok r
  else eosThrow .snapshotException "Binary snapshot validation threw IO exception (${what})"

def validateSection (s : IStream) : Result (Bool × IStream) := do
  let (sectionSize, s) ← throwing (readUint64 s)
  if sectionSize = npos then .ok (false, s)
  else throwing (true, seekg s (tellg s + streamoff sectionSize))

/-- The loop of `validate`. -/
def validateSections : (fuel : Nat) → (s : IStream) → Result Unit
  | 0, _ => .error .divergence
  | fuel + 1, s => do
    let (more, s) ← validateSection s
    if more then validateSections fuel s else .ok ()

def validate (fuel : Nat) (file : Bytes) : Result Unit := do
  let (actualTotem, s) ← throwing (IStream.read ⟨file, 0, true⟩ 4 [])
  eosAssert (leValue actualTotem = magicNumber) .snapshotException
    "Binary snapshot has unexpected magic number!"
  let (actualVersion, s) ← throwing (s.read 4 [])
  eosAssert (leValue actualVersion = currentSnapshotVersion) .snapshotException
    "Binary snapshot is an unsuppored version.  Expected : ${expected}, Got: ${actual}"
  validateSections fuel s

def matchName : (name : Bytes) → (s : IStream) → Bool × IStream
  | [], s => (true, s)
  | c :: name, s =>
    let (x, s) := get s
    if x ≠ charValue c then (false, s) else matchName name s

/-- The comparison with a name that ends with a NUL. -/
def matchSection (name : Bytes) (s : IStream) : Bool × IStream :=
  let (ok, s) := matchName name s
  if ok then
    let (x, s) := get s
    (x = 0, s)
  else (false, s)

/-- The loop of `has_section` and of `set_section`: the number of rows of the section, if there is
one of the name, with the stream behind its header. -/
def findSection (name : Bytes) :
    (fuel : Nat) → (s : IStream) → (nextSectionPos : Int) → Result (Option Nat × IStream)
  | 0, _, _ => .error .divergence
  | fuel + 1, s, nextSectionPos =>
    let (sectionSize, s) := readUint64 (seekg s nextSectionPos)
    if sectionSize = npos then .ok (none, s)
    else
      let nextSectionPos := tellg s + streamoff sectionSize
      let (rowCount, s) := readUint64 s
      let (found, s) := matchSection name s
      if found then .ok (some rowCount, s) else findSection name fuel s nextSectionPos

structure Reader where
  snapshot : IStream
  numRows : Nat := 0
  curRow : Nat := 0

namespace Reader

def hasSection (fuel : Nat) (r : Reader) (name : Bytes) : Result (Bool × Reader) := do
  let (found, s) ← findSection name fuel r.snapshot headerSize
  .ok (found.isSome, { r with snapshot := seekg s (tellg r.snapshot) })

def setSection (fuel : Nat) (r : Reader) (name : Bytes) : Result Reader := do
  let (found, s) ← findSection name fuel r.snapshot headerSize
  match found with
  | some rowCount => .ok { snapshot := s, numRows := rowCount, curRow := 0 }
  | none => eosThrow .snapshotException "Binary snapshot has no section named ${n}"

end Reader

/-! ## Reads inside the file and past its end -/

section Reads

variable {file name : Bytes} {p : Nat} {s : IStream}

theorem read_of_le {n : Nat} {initial : Bytes} (h : p + n ≤ file.length)
    (hinitial : initial.length ≤ n) :
    IStream.read ⟨file, p, true⟩ n initial = ((file.drop p).take n, ⟨file, p + n, true⟩) := by
  have hlength : ((file.drop p).take n).length = n := by
    rw [length_take, length_drop]
    omega
  simp only [IStream.read, if_true, hlength, drop_of_length_le hinitial, append_nil,
    beq_self_eq_true, Bool.and_self]

theorem read_of_lt {n : Nat} (h : file.length < p + n) (hn : 0 < n) (initial : Bytes) :
    (IStream.read ⟨file, p, true⟩ n initial).2.good = false := by
  have hlength : ((file.drop p).take n).length ≠ n := by
    rw [length_take, length_drop]
    omega
  simp only [IStream.read, if_true, Bool.true_and, beq_eq_false_iff_ne.2 hlength]

theorem readUint64_of_le (h : p + 8 ≤ file.length) :
    readUint64 ⟨file, p, true⟩ = (leValue ((file.drop p).take 8), ⟨file, p + 8, true⟩) := by
  rw [readUint64, read_of_le h (by simp)]

/-- A size that is not read whole has a zero in its highest byte, so it is no end marker. -/
theorem readUint64_of_short (h : s.good = true → s.file.length < s.pos + 8) :
    (readUint64 s).2.good = false ∧ (readUint64 s).1 ≠ npos := by
  obtain ⟨file, pos, good⟩ := s
  unfold readUint64 IStream.read
  dsimp only
  generalize hdata : (if good = true then take 8 _ else []) = data
  have hlength : data.length < 8 := by
    rw [← hdata]
    split
    · next hgood =>
      have hshort : file.length < pos + 8 := h hgood
      rw [length_take, length_drop]
      omega
    · decide
  refine ⟨by simp [hlength.ne], fun hvalue => ?_⟩
  have hbytes := leBytes_leValue (data ++ (leBytes 8 0).drop data.length)
  have hsize : (data ++ (leBytes 8 0).drop data.length).length = 8 := by
    rw [length_append, length_drop, length_leBytes]
    omega
  rw [hvalue, hsize] at hbytes
  have hlast := congrArg (·[7]?) hbytes
  rw [getElem?_append_right (by omega), getElem?_drop, Nat.add_sub_cancel' (by omega)] at hlast
  exact absurd hlast (by decide)

theorem seekg_of_good (h : s.good = true) (p : Nat) : seekg s p = ⟨s.file, p, true⟩ := by
  obtain ⟨file, pos, good⟩ := s
  subst h
  rfl

section

variable (h : s.good = false)
include h

theorem get_of_failed : get s = (-1, s) := by
  obtain ⟨file, pos, good⟩ := s
  subst h
  rfl

theorem matchName_of_failed : (matchName name s).2 = s := by
  induction name with
  | nil => rfl
  | cons c name ih =>
    rw [matchName, get_of_failed h]
    dsimp only
    split
    · rfl
    · exact ih

theorem matchSection_of_failed : matchSection name s = (false, s) := by
  unfold matchSection
  dsimp only
  rw [matchName_of_failed h, get_of_failed h]
  split <;> rfl

theorem findSection_of_failed (fuel : Nat) (pos : Int) :
    findSection name fuel s pos = .error .divergence := by
  induction fuel generalizing s pos with
  | zero => rfl
  | succ fuel ih =>
    have hseek : seekg s pos = s := if_neg (by simp [h])
    obtain ⟨hgood, hsize⟩ := readUint64_of_short (s := s) (by simp [h])
    obtain ⟨hgood', -⟩ := readUint64_of_short (s := (readUint64 s).2) (by simp [hgood])
    rw [findSection, hseek]
    dsimp only
    rw [if_neg hsize, matchSection_of_failed hgood']
    exact ih hgood' _

end

theorem get_file (s : IStream) : (get s).2.file = s.file := by
  unfold get
  split <;> rfl

theorem matchName_file (s : IStream) : (matchName name s).2.file = s.file := by
  induction name generalizing s with
  | nil => rfl
  | cons c name ih =>
    rw [matchName]
    dsimp only
    split
    · exact get_file s
    · rw [ih, get_file]

theorem matchSection_file (s : IStream) : (matchSection name s).2.file = s.file := by
  unfold matchSection
  dsimp only
  split
  · rw [get_file, matchName_file]
  · exact matchName_file s

end Reads

/-! ## The walk -/

def sizeAt (file : Bytes) (p : Nat) : Option Nat :=
  if p + 8 ≤ file.length then some (leValue ((file.drop p).take 8)) else none

/-- The place where the next section is looked for, if there is such a place. -/
def nextSection (file : Bytes) (p : Nat) : Option Nat :=
  (sizeAt file p).bind fun size =>
    if size ≠ npos ∧ 0 ≤ p + 8 + streamoff size then some (p + 8 + streamoff size).toNat else none

def compareName (file name : Bytes) (p : Nat) : Bool × IStream := matchSection name ⟨file, p + 16, true⟩

/-- A search passes a section whose header can be read, as far as the names are compared, and does
not have the name. -/
def passSection (file name : Bytes) (p : Nat) : Option Nat :=
  if p + 16 ≤ file.length ∧ (compareName file name p).1 = false ∧ (compareName file name p).2.good = true
  then nextSection file p else none

/-- A search ends at the end marker, or at a section of the name. -/
def StopsAt (file name : Bytes) (p : Nat) : Prop :=
  sizeAt file p = some npos ∨ p + 16 ≤ file.length ∧ (compareName file name p).1 = true

variable {file name : Bytes} {p : Nat}

theorem nextSection_eq_some {q : Nat} (h : nextSection file p = some q) :
    p + 8 ≤ file.length ∧ leValue ((file.drop p).take 8) ≠ npos
      ∧ (p + 8 + streamoff (leValue ((file.drop p).take 8)) : Int) = q := by
  unfold nextSection sizeAt at h
  by_cases hinside : p + 8 ≤ file.length
  · rw [if_pos hinside, bind_some] at h
    split_ifs at h with hnext
    cases h
    exact ⟨hinside, hnext.1, by omega⟩
  · rw [if_neg hinside] at h
    cases h

theorem nextSection_eq_none (h : nextSection file p = none) (hinside : p + 8 ≤ file.length)
    (hsize : leValue ((file.drop p).take 8) ≠ npos) :
    (p + 8 + streamoff (leValue ((file.drop p).take 8)) : Int) < 0 := by
  unfold nextSection sizeAt at h
  rw [if_pos hinside, bind_some] at h
  split_ifs at h with hnext
  exact Int.not_le.1 fun hle => hnext ⟨hsize, hle⟩

theorem validateSection_eq (h : p + 8 ≤ file.length) : validateSection ⟨file, p, true⟩
    = if leValue ((file.drop p).take 8) = npos then .ok (false, ⟨file, p + 8, true⟩)
      else throwing (true, seekg ⟨file, p + 8, true⟩
        (p + 8 + streamoff (leValue ((file.drop p).take 8)))) := by
  rw [validateSection, readUint64_of_le h, throwing, if_pos rfl]
  rfl

theorem validateSections_iff (p : Nat) :
    (∃ fuel, validateSections fuel ⟨file, p, true⟩ ≠ .error .divergence)
      ↔ ∃ n b, EndsIn (nextSection file) n p b := by
  refine (exists_fuel_iff (f := nextSection file)
    (fun fuel p => validateSections fuel ⟨file, p, true⟩) (fun _ => True) (fun _ => rfl) ?_ ?_ p).trans
    (by simp)
  · intro fuel p q hq
    obtain ⟨hinside, hsize, hnext⟩ := nextSection_eq_some hq
    rw [validateSections, validateSection_eq hinside, if_neg hsize, hnext]
    rfl
  · intro fuel p hp
    refine iff_of_true ?_ trivial
    rw [validateSections]
    by_cases hinside : p + 8 ≤ file.length
    · rw [validateSection_eq hinside]
      split
      · exact nofun
      · next hsize =>
        rw [seekg, if_pos (nextSection_eq_none hp hinside hsize)]
        exact nofun
    · have hshort := readUint64_of_short (s := ⟨file, p, true⟩) fun _ => not_le.1 hinside
      rw [validateSection, throwing, if_neg (by simp [hshort.1])]
      exact nofun

/-! ## Searches -/

theorem findSection_congr {s s' : IStream} {pos : Int} (h : seekg s pos = seekg s' pos)
    (fuel : Nat) : findSection name fuel s pos = findSection name fuel s' pos := by
  cases fuel with
  | zero => rfl
  | succ fuel => rw [findSection, findSection, h]

theorem findSection_of_negative {s : IStream} {pos : Int} (h : pos < 0) (fuel : Nat) :
    findSection name fuel s pos = .error .divergence := by
  cases hgood : s.good with
  | false => exact findSection_of_failed hgood fuel pos
  | true =>
    have hseek : seekg s pos = seekg { s with good := false } pos := by
      unfold seekg
      rw [hgood, if_pos h]
      rfl
    rw [findSection_congr hseek]
    exact findSection_of_failed rfl fuel pos

theorem findSection_succ (fuel : Nat) (h : p + 8 ≤ file.length) :
    findSection name (fuel + 1) ⟨file, p, true⟩ p
      = if leValue ((file.drop p).take 8) = npos then .ok (none, ⟨file, p + 8, true⟩)
        else
          let (rowCount, s) := readUint64 ⟨file, p + 8, true⟩
          let (found, s) := matchSection name s
          if found then .ok (some rowCount, s)
          else findSection name fuel s (p + 8 + streamoff (leValue ((file.drop p).take 8))) := by
  rw [findSection, seekg_of_good rfl, readUint64_of_le h]
  rfl

theorem findSection_of_le (fuel : Nat) (h : p + 16 ≤ file.length)
    (hsize : leValue ((file.drop p).take 8) ≠ npos) :
    findSection name (fuel + 1) ⟨file, p, true⟩ p
      = if (compareName file name p).1
        then .ok (some (leValue ((file.drop (p + 8)).take 8)), (compareName file name p).2)
        else findSection name fuel (compareName file name p).2
          (p + 8 + streamoff (leValue ((file.drop p).take 8))) := by
  rw [findSection_succ fuel (by omega), if_neg hsize, readUint64_of_le h]
  rfl

theorem findSection_of_short (fuel : Nat) (h : file.length < p + 16)
    (hsize : sizeAt file p ≠ some npos) :
    findSection name (fuel + 1) ⟨file, p, true⟩ p = .error .divergence := by
  by_cases hinside : p + 8 ≤ file.length
  · have hnot : leValue ((file.drop p).take 8) ≠ npos := fun heq =>
      hsize (by rw [sizeAt, if_pos hinside, heq])
    have hfailed := (readUint64_of_short (s := ⟨file, p + 8, true⟩) fun _ => h).1
    rw [findSection_succ fuel hinside, if_neg hnot]
    dsimp only
    rw [matchSection_of_failed hfailed]
    exact findSection_of_failed hfailed _ _
  · obtain ⟨hfailed, hnot⟩ := readUint64_of_short (s := ⟨file, p, true⟩) fun _ => not_le.1 hinside
    have hfailed' := (readUint64_of_short (s := (readUint64 ⟨file, p, true⟩).2) (by simp [hfailed])).1
    rw [findSection, seekg_of_good rfl]
    dsimp only
    rw [if_neg hnot, matchSection_of_failed hfailed']
    exact findSection_of_failed hfailed' _ _

theorem findSection_iff (p : Nat) :
    (∃ fuel, findSection name fuel ⟨file, p, true⟩ p ≠ .error .divergence)
      ↔ ∃ n b, EndsIn (passSection file name) n p b ∧ StopsAt file name b := by
  refine exists_fuel_iff (fun fuel (p : Nat) => findSection name fuel ⟨file, p, true⟩ p)
    _ (fun _ => rfl) ?_ ?_ p
  · intro fuel p q hq
    unfold passSection at hq
    split_ifs at hq with hpass
    obtain ⟨hrow, hother, hgood⟩ := hpass
    obtain ⟨-, hsize, hnext⟩ := nextSection_eq_some hq
    have hseek : seekg (compareName file name p).2 q = seekg ⟨file, q, true⟩ q := by
      rw [seekg_of_good hgood]
      exact congrArg (IStream.mk · q true) (matchSection_file _)
    rw [findSection_of_le fuel hrow hsize, hother, if_neg nofun, hnext, findSection_congr hseek]
  · intro fuel p hp
    by_cases hmarker : sizeAt file p = some npos
    · refine iff_of_true ?_ (.inl hmarker)
      unfold sizeAt at hmarker
      split_ifs at hmarker with hinside
      rw [findSection_succ fuel hinside, if_pos (some.inj hmarker)]
      exact nofun
    · by_cases hrow : p + 16 ≤ file.length
      · have hsize : leValue ((file.drop p).take 8) ≠ npos := fun heq =>
          hmarker (by rw [sizeAt, if_pos (by omega), heq])
        rw [findSection_of_le fuel hrow hsize]
        cases hfound : (compareName file name p).1 with
        | true => exact iff_of_true nofun (.inr ⟨hrow, hfound⟩)
        | false =>
          refine iff_of_false (not_not.2 ?_) (not_or.2 ⟨hmarker, by simp [hfound]⟩)
          cases hgood : (compareName file name p).2.good with
          | false => exact findSection_of_failed hgood _ _
          | true =>
            rw [passSection, if_pos ⟨hrow, hfound, hgood⟩] at hp
            exact findSection_of_negative (nextSection_eq_none hp (by omega) hsize) _
      · refine iff_of_false (not_not.2 ?_) (not_or.2 ⟨hmarker, fun h => hrow h.1⟩)
        exact findSection_of_short fuel (not_le.1 hrow) hmarker

/-! ## What finishes -/

def HasHeader (file : Bytes) : Prop :=
  headerSize ≤ file.length ∧ leValue (file.take 4) = magicNumber
    ∧ leValue ((file.drop 4).take 4) = currentSnapshotVersion

theorem throwing_of_failed {α : Type} {r : α × IStream} (h : r.2.good = false) :
    throwing r = eosThrow .snapshotException
      "Binary snapshot validation threw IO exception (${what})" :=
  if_neg (by simp [h])

theorem validate_of_hasHeader (h : HasHeader file) (fuel : Nat) :
    validate fuel file = validateSections fuel ⟨file, headerSize, true⟩ := by
  obtain ⟨hlength, hmagic, hversion⟩ := h
  have hlength : 8 ≤ file.length := hlength
  rw [validate, read_of_le (by omega) (zero_le 4), throwing, if_pos rfl, ok_bind]
  dsimp only
  rw [drop_zero, eosAssert_of hmagic, ok_bind, read_of_le (by omega) (zero_le 4), throwing,
    if_pos rfl, ok_bind]
  rw [eosAssert_of hversion]
  rfl

theorem validate_of_not_hasHeader (h : ¬ HasHeader file) (fuel : Nat) :
    validate fuel file ≠ .error .divergence := by
  have hthrow {cond : Prop} [Decidable cond] {message : String} {f : Unit → Result Unit}
      (hf : cond → f () ≠ .error .divergence) :
      (eosAssert cond .snapshotException message >>= f) ≠ .error .divergence := by
    by_cases hcond : cond
    · rw [eosAssert_of hcond]
      exact hf hcond
    · rw [eosAssert, if_neg hcond]
      exact nofun
  unfold validate
  by_cases hshort : file.length < 0 + 4
  · rw [throwing_of_failed (read_of_lt hshort (by decide) [])]
    exact nofun
  · rw [read_of_le (by omega) (zero_le 4), throwing, if_pos rfl]
    refine hthrow fun hmagic => ?_
    by_cases hshort' : file.length < 4 + 4
    · rw [throwing_of_failed (read_of_lt hshort' (by decide) [])]
      exact nofun
    · rw [read_of_le (by omega) (zero_le 4), throwing, if_pos rfl]
      exact hthrow fun hversion => absurd ⟨not_lt.1 hshort', hmagic, hversion⟩ h

theorem bind_ne_divergence {α β : Type} {x : Result α} {f : α → Result β}
    (hf : ∀ a, f a ≠ .error .divergence) :
    (x >>= f) ≠ .error .divergence ↔ x ≠ .error .divergence := by
  cases x with
  | ok a => exact iff_of_true (hf a) nofun
  | error e => exact not_congr ⟨fun h => by cases h; rfl, fun h => by cases h; rfl⟩

/-- **Reading finishes** if and only if the sizes lead somewhere: `validate` comes to no section a
second time, a search comes to the section or to the end marker. -/
theorem finishes_iff (file name : Bytes) :
    ((∃ fuel, validate fuel file ≠ .error .divergence) ↔ ¬ HasHeader file ∨
        ∀ c, Relation.ReflTransGen (fun p q => nextSection file p = some q) headerSize c →
          ¬ Relation.TransGen (fun p q => nextSection file p = some q) c c)
      ∧ ((∃ fuel, Reader.hasSection fuel ⟨⟨file, 0, true⟩, 0, 0⟩ name ≠ .error .divergence)
        ↔ ∃ n b, EndsIn (passSection file name) n headerSize b ∧ StopsAt file name b)
      ∧ ((∃ fuel, Reader.setSection fuel ⟨⟨file, 0, true⟩, 0, 0⟩ name ≠ .error .divergence)
        ↔ ∃ n b, EndsIn (passSection file name) n headerSize b ∧ StopsAt file name b) := by
  have hsearch := @findSection_iff file name headerSize
  have hstart (fuel : Nat) : findSection name fuel ⟨file, 0, true⟩ headerSize
      = findSection name fuel ⟨file, headerSize, true⟩ headerSize :=
    findSection_congr (by rw [seekg_of_good rfl, seekg_of_good rfl]) fuel
  refine ⟨?_, ?_, ?_⟩
  · by_cases hheader : HasHeader file
    · simp only [validate_of_hasHeader hheader, hheader, not_true, false_or]
      rw [validateSections_iff]
      refine exists_endsIn_iff (range file.length) (fun p hp => ?_) _
      obtain ⟨q, hq⟩ := isSome_iff_exists.1 hp
      have hinside := (nextSection_eq_some hq).1
      exact mem_range.2 (by omega)
    · exact iff_of_true ⟨0, validate_of_not_hasHeader hheader 0⟩ (.inl hheader)
  · rw [← hsearch]
    refine exists_congr fun fuel => (bind_ne_divergence fun r => ?_).trans (by rw [hstart])
    exact nofun
  · rw [← hsearch]
    refine exists_congr fun fuel => (bind_ne_divergence fun r => ?_).trans (by rw [hstart])
    obtain ⟨found, s⟩ := r
    cases found with
    | none | some rowCount => exact nofun

/-- A header, and a section whose size leads back to it. -/
def backwardSize : Bytes := leBytes 4 magicNumber ++ leBytes 4 1 ++ leBytes 8 (2 ^ 64 - 8)

theorem backwardSize_diverges (fuel : Nat) (name : Bytes) :
    validate fuel backwardSize = .error .divergence
      ∧ findSection name fuel ⟨backwardSize, 0, true⟩ headerSize = .error .divergence := by
  constructor
  · rw [validate_of_hasHeader ⟨by decide, by decide, by decide⟩]
    induction fuel with
    | zero => rfl
    | succ fuel ih =>
      exact ih
  · cases fuel with
    | zero => rfl
    | succ fuel =>
      exact findSection_of_short fuel (by decide) (by decide)

/-- No number of steps is enough, whatever the section. -/
theorem backwardSize_never_read :
    (¬ ∃ fuel, validate fuel backwardSize ≠ .error .divergence)
      ∧ (¬ ∃ fuel name, Reader.hasSection fuel ⟨⟨backwardSize, 0, true⟩, 0, 0⟩ name
        ≠ .error .divergence)
      ∧ ¬ ∃ fuel name, Reader.setSection fuel ⟨⟨backwardSize, 0, true⟩, 0, 0⟩ name
        ≠ .error .divergence := by
  refine ⟨?_, ?_, ?_⟩
  · rintro ⟨fuel, h⟩
    exact h (backwardSize_diverges fuel []).1
  · rintro ⟨fuel, name, h⟩
    rw [Reader.hasSection, (backwardSize_diverges fuel name).2] at h
    exact h rfl
  · rintro ⟨fuel, name, h⟩
    rw [Reader.setSection, (backwardSize_diverges fuel name).2] at h
    exact h rfl

end PotatoNode.Chain.Snapshot
