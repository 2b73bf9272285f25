import PotatoNode.Lib.BigEndian
import PotatoNode.Chain.Exceptions

/-!
# Fixed bytes (`fixed_bytes.hpp`)

A `fixed_bytes<Size>` keeps its bytes in units of 128 bits. The constructors shift smaller words into
the units, the first word highest, and the operators compare the units. A unit that the words do not
fill is shifted up at the end by one byte for each missing word, whatever the size of a word, and the
units after it keep what the memory held.
-/

namespace PotatoNode.Chain.FixedBytes

open Lib List

/-! ## The container -/

def numWords (size : Nat) : Nat := (size + 16 - 1) / 16

def paddedBytes (size : Nat) : Nat := numWords size * 16 - size

/-- The variables of `set_from_word_sequence`: the units before `itr`, the unit that is filled, and
the words it still takes. -/
structure WordLoop where
  data : List Nat
  tempWord : Nat
  subWordsLeft : Nat
deriving DecidableEq

def numSubWords (ws : Nat) : Nat := 16 / ws

/-- The loop of `set_from_word_sequence`. -/
def WordLoop.push (ws : Nat) (l : WordLoop) (w : Nat) : Result WordLoop :=
  if 1 < l.subWordsLeft then
    .ok ⟨l.data, (l.tempWord ||| w) <<< (8 * ws) % 2 ^ 128, l.subWordsLeft - 1⟩
  else do
    eosAssert (l.subWordsLeft = 1) .assertException "unexpected error in fixed_bytes constructor"
    .ok ⟨l.data ++ [l.tempWord ||| w], 0, numSubWords ws⟩

/-- The units that were written, after the loop. -/
def WordLoop.units (ws : Nat) (l : WordLoop) : List Nat :=
  if l.subWordsLeft = numSubWords ws then l.data
  else if 1 < l.subWordsLeft then
    l.data ++ [l.tempWord <<< (8 * (l.subWordsLeft - 1)) % 2 ^ 128]
  else l.data ++ [l.tempWord]

/-- `set_from_word_sequence`, where `data` is what the memory holds: zeros for
`make_from_word_sequence`, anything for the constructors from arrays. -/
def setFromWordSequence (ws : Nat) (words data : List Nat) : Result (List Nat) := do
  let l ← words.foldlM (WordLoop.push ws) ⟨[], 0, numSubWords ws⟩
  let units := l.units ws
  if data.length < units.length then .error .undefinedBehaviour
  else .ok (units ++ data.drop units.length)

def extractAsByteArray (size : Nat) : List Nat → List Nat
  | [] => []
  | [unit] => beBytes (16 - paddedBytes size) (unit >>> (8 * paddedBytes size))
  | unit :: data => beBytes 16 unit ++ extractAsByteArray size data

inductive Comparison where
  | eq | ne | lt | gt | le | ge

/-- The operators of arrays. -/
def Comparison.holds : Comparison → List Nat → List Nat → Prop
  | .eq, a, b => a = b
  | .ne, a, b => a ≠ b
  | .lt, a, b => a < b
  | .gt, a, b => b < a
  | .le, a, b => ¬ b < a
  | .ge, a, b => ¬ a < b

/-- What the types and the static assertions of the constructors ask for. -/
structure Accepted (ws size : Nat) (words data : List Nat) : Prop where
  dvd : ws ∣ 16
  smaller : ws < 16
  word : ∀ w ∈ words, w < 256 ^ ws
  fits : ws * words.length ≤ size
  length_data : data.length = numWords size

/-- The last shift is right: words are bytes, or one word is missing, or the words of the unit that
is not full are zero. -/
def Placed (ws : Nat) (words : List Nat) : Prop :=
  ws = 1 ∨ ws * words.length % 16 = 16 - ws ∨
    ∀ b ∈ (words.flatMap (beBytes ws)).drop (16 * (ws * words.length / 16)), b = 0

/-- The units that no word reaches are zero. -/
def Cleared (ws : Nat) (words data : List Nat) : Prop :=
  ∀ unit ∈ data.drop ((ws * words.length + 15) / 16), unit = 0

/-- The bytes that the words stand for. -/
def bigEndian (ws size : Nat) (words : List Nat) : List Nat :=
  words.flatMap (beBytes ws) ++ replicate (size - ws * words.length) 0

/-! ## Extraction -/

theorem extractAsByteArray_eq_take {size : Nat} {data : List Nat}
    (hdata : data.length = numWords size) :
    extractAsByteArray size data = (data.flatMap (beBytes 16)).take size := by
  have hpad : paddedBytes size < 16 ∧ size = 16 * data.length - paddedBytes size := by
    rw [hdata]
    unfold paddedBytes numWords
    omega
  obtain ⟨hpad, hsize⟩ := hpad
  conv => rhs; rw [hsize]
  clear hdata hsize
  induction data with
  | nil => exact take_nil.symm
  | cons unit data ih =>
    cases data with
    | nil =>
      have hsplit := beBytes_add (16 - paddedBytes size) (paddedBytes size) unit
      rw [Nat.sub_add_cancel hpad.le] at hsplit
      rw [extractAsByteArray, flatMap_cons, hsplit, flatMap_nil, append_nil, length_singleton,
        take_left' (by simp), Nat.shiftRight_eq_div_pow, Nat.pow_mul]
    | cons next data =>
      rw [extractAsByteArray, ih]
      · have hpos : 0 < (next :: data).length := Nat.succ_pos _
        generalize next :: data = rest at hpos
        have htail : 16 * (rest.length + 1) - paddedBytes size - 16
            = 16 * rest.length - paddedBytes size := by omega
        have hall : (beBytes 16 unit).length ≤ 16 * (rest.length + 1) - paddedBytes size := by
          rw [length_beBytes]
          omega
        rw [flatMap_cons, length_cons, take_append, length_beBytes, htail, take_of_length_le hall]
      · exact cons_ne_nil next data

/-! ## The loop -/

theorem push_value {ws y w : Nat} (hw : w < 256 ^ ws) : y * 256 ^ ws ||| w = y * 256 ^ ws + w := by
  have hpow : 256 ^ ws = 2 ^ (8 * ws) := (Nat.pow_mul 2 8 ws).symm
  rw [hpow] at hw ⊢
  rw [Nat.mul_comm, Nat.two_pow_add_eq_or_of_lt hw]

theorem shiftLeft_eq_mul (x k : Nat) : x <<< (8 * k) = x * 256 ^ k := by
  rw [Nat.shiftLeft_eq, Nat.pow_mul]

theorem mul_add_lt {a y b w : Nat} (hy : y < a) (hw : w < b) : y * b + w < a * b := by
  have h := Nat.mul_le_mul_right b hy
  rw [Nat.succ_mul] at h
  omega

/-- After the words `done`: `k` of them are in the unit that is filled, and make the number `y`. -/
structure Filled (ws : Nat) (done : List Nat) (l : WordLoop) (k y : Nat) : Prop where
  full : ws * numSubWords ws = 16
  left : l.subWordsLeft + k = numSubWords ws
  pos : 0 < l.subWordsLeft
  temp : l.tempWord = y * 256 ^ ws
  lt : y < 256 ^ (ws * k)
  bytes : done.flatMap (beBytes ws) = l.data.flatMap (beBytes 16) ++ beBytes (ws * k) y
  unit : ∀ u ∈ l.data, u < 256 ^ 16

variable {ws size k y w : Nat} {done words data : List Nat} {l : WordLoop}

theorem Filled.push (h : Filled ws done l k y) (hw : w < 256 ^ ws) :
    ∃ l' k' y', l.push ws w = .ok l' ∧ Filled ws (done ++ [w]) l' k' y' := by
  have hlt := mul_add_lt h.lt hw
  have hbytes := beBytes_mul_add (j := ws * k) (v := y) hw
  have hfull := h.full
  have hleft := h.left
  rw [← Nat.pow_add, ← Nat.mul_succ] at hlt
  rw [← Nat.mul_succ] at hbytes
  have hdone : (done ++ [w]).flatMap (beBytes ws) =
      l.data.flatMap (beBytes 16) ++ beBytes (ws * (k + 1)) (y * 256 ^ ws + w) := by
    rw [flatMap_append, h.bytes, hbytes, flatMap_singleton, append_assoc]
  unfold WordLoop.push
  rw [h.temp, push_value hw]
  split
  · have hle : ws * (k + 2) ≤ 16 := hfull ▸ Nat.mul_le_mul_left ws (by omega)
    have hfits := mul_add_lt hlt (bytes_pos ws)
    rw [← Nat.pow_add, ← Nat.mul_succ] at hfits
    refine ⟨_, k + 1, _, rfl, hfull, ?_, Nat.sub_pos_of_lt ‹_›, ?_, hlt, hdone, h.unit⟩
    · show l.subWordsLeft - 1 + (k + 1) = _
      omega
    · rw [shiftLeft_eq_mul]
      exact Nat.mod_eq_of_lt (hfits.trans_le (Nat.pow_le_pow_right (by omega) hle))
  · have hone : l.subWordsLeft = 1 := by have := h.pos; omega
    have hlast : ws * (k + 1) = 16 := by rw [← hfull, ← hleft, hone, Nat.add_comm]
    rw [hlast] at hdone hlt
    rw [eosAssert_of hone, ok_bind]
    refine ⟨_, 0, 0, rfl, hfull, rfl, hleft ▸ Nat.add_pos_left h.pos k, (Nat.zero_mul _).symm,
      bytes_pos _, ?_, ?_⟩
    · rw [hdone, flatMap_append, flatMap_singleton, Nat.mul_zero, beBytes, append_nil]
    · exact forall_mem_append.2 ⟨h.unit, forall_mem_singleton.2 hlt⟩

theorem exists_filled (h : Filled ws done l k y) (hwords : ∀ w ∈ words, w < 256 ^ ws) :
    ∃ l' k' y', words.foldlM (WordLoop.push ws) l = .ok l' ∧ Filled ws (done ++ words) l' k' y' := by
  induction words generalizing done l k y with
  | nil => exact ⟨l, k, y, rfl, by rwa [append_nil]⟩
  | cons w words ih =>
    obtain ⟨hw, hwords⟩ := forall_mem_cons.1 hwords
    obtain ⟨l', k', y', hpush, h'⟩ := h.push hw
    rw [foldlM_cons, hpush, ok_bind, append_cons]
    exact ih h' hwords

/-! ## The last unit -/

section

variable (h : Filled ws done l k y)
include h

theorem Filled.length : ws * done.length = 16 * l.data.length + ws * k ∧ ws * k + ws ≤ 16 := by
  constructor
  · simpa only [length_append, length_flatMap_beBytes, length_beBytes] using congrArg List.length h.bytes
  · rw [← h.full, ← h.left, ← Nat.mul_succ]
    exact Nat.mul_le_mul_left _ (by have := h.pos; omega)

/-- A unit that is not full holds its words shifted up by `s` bytes. -/
theorem Filled.units_cases :
    k = 0 ∧ l.units ws = l.data ∨ 0 < ws * k ∧ ∃ s ≤ 16 - ws * k,
      l.units ws = l.data ++ [y * 256 ^ s] ∧ (s = 16 - ws * k ↔ ws = 1 ∨ ws * k = 16 - ws) := by
  by_cases hk : k = 0
  · subst hk
    exact .inl ⟨rfl, if_pos h.left⟩
  have hfull := h.full
  obtain ⟨a, rfl⟩ := Nat.exists_eq_add_one.2 (Nat.pos_of_dvd_of_pos ⟨_, hfull.symm⟩ (Nat.succ_pos 15))
  obtain ⟨b, hb⟩ := Nat.exists_eq_add_one.2 h.pos
  rw [← h.left, hb, Nat.mul_add, Nat.succ_mul_succ] at hfull
  have hfits := mul_add_lt h.lt (bytes_pos (a + 1 + b))
  rw [← Nat.pow_add] at hfits
  refine .inr ⟨Nat.mul_pos (Nat.succ_pos a) (Nat.pos_of_ne_zero hk), a + 1 + b, by omega, ?_, ?_⟩
  · unfold WordLoop.units
    rw [if_neg (by have := h.left; omega), h.temp]
    split
    · rw [hb, Nat.add_sub_cancel, shiftLeft_eq_mul, Nat.mul_assoc, ← Nat.pow_add, Nat.mod_eq_of_lt]
      exact hfits.trans_le (Nat.pow_le_pow_right (n := 256) (by omega) (by omega : _ ≤ 16))
    · obtain rfl : b = 0 := by omega
      rfl
  · have hzero : a * b = 0 ↔ a = 0 ∨ b = 0 := Nat.mul_eq_zero
    omega

section

variable (hlt : ws * k < 16)
include hlt

theorem Filled.placed_iff : Placed ws done ↔ y = 0 ∨ ws = 1 ∨ ws * k = 16 - ws := by
  have hrest : (∀ b ∈ beBytes (ws * k) y, b = 0) ↔ y = 0 := by
    rw [← (beBytes_order h.lt (bytes_pos _)).2, beBytes_zero, eq_replicate_iff]
    exact (and_iff_right (length_beBytes _ _)).symm
  unfold Placed
  rw [h.length.1, Nat.mul_add_mod, Nat.mod_eq_of_lt hlt, Nat.mul_add_div (by omega),
    Nat.div_eq_of_lt hlt, Nat.add_zero, h.bytes, drop_left' (length_flatMap_beBytes _ _), hrest]
  tauto

theorem Filled.length_units : (l.units ws).length = (ws * done.length + 15) / 16 := by
  obtain ⟨rfl, hunits⟩ | ⟨hpos, s, -, hunits, -⟩ := h.units_cases
  · rw [hunits, h.length.1]
    omega
  · rw [hunits, h.length.1, length_append, length_singleton]
    omega

theorem Filled.placed_of_take {rest : List Nat}
    (htake : ((l.units ws).flatMap (beBytes 16) ++ rest).take (ws * done.length)
      = done.flatMap (beBytes ws)) : Placed ws done := by
  rw [h.placed_iff hlt]
  obtain ⟨rfl, -⟩ | ⟨hpos, s, hs, hunits, hright⟩ := h.units_cases
  · exact .inl (Nat.lt_one_iff.1 h.lt)
  obtain hs | hs := Nat.lt_or_eq_of_le hs
  · left
    -- the bytes of the unit where the words belong
    have hsplit := beBytes_add (ws * k) (16 - ws * k) (y * 256 ^ s)
    have hquot := Nat.mul_div_mul_right y (256 ^ (16 - ws * k - s)) (bytes_pos s)
    rw [← Nat.pow_add, Nat.sub_add_cancel hs.le] at hquot
    rw [Nat.add_sub_cancel' hlt.le, hquot] at hsplit
    rw [hunits, h.bytes, flatMap_append, flatMap_singleton, hsplit, h.length.1, append_assoc,
      append_assoc, take_append, take_of_length_le (by simp [Nat.mul_comm])] at htake
    have htake := append_cancel_left htake
    rw [take_left' (by simp [Nat.mul_comm])] at htake
    have heq := (beBytes_order ((Nat.div_le_self _ _).trans_lt h.lt) h.lt).2.1 htake
    by_contra hy
    have := Nat.div_lt_self (Nat.pos_of_ne_zero hy)
      (Nat.one_lt_pow (by omega : 16 - ws * k - s ≠ 0) (by omega : 1 < 256))
    omega
  · exact .inr (hright.1 hs)

theorem Filled.image (hplaced : Placed ws done) :
    (l.units ws).flatMap (beBytes 16) = done.flatMap (beBytes ws) ++
      replicate (16 * (l.units ws).length - ws * done.length) 0 ∧
    ∀ u ∈ l.units ws, u < 256 ^ 16 := by
  rw [h.placed_iff hlt] at hplaced
  rw [h.length.1, h.bytes]
  obtain ⟨rfl, hunits⟩ | ⟨hpos, s, hs, hunits, hright⟩ := h.units_cases
  · rw [hunits, Nat.mul_zero, beBytes, Nat.add_zero, Nat.sub_self, append_nil]
    exact ⟨(append_nil _).symm, h.unit⟩
  have hshift : y * 256 ^ s = y * 256 ^ (16 - ws * k) + 0 := by
    obtain rfl | hk := hplaced
    · rw [Nat.zero_mul, Nat.zero_mul]
    · rw [hright.2 hk]
      rfl
  have hcount : 16 * (l.data.length + 1) - (16 * l.data.length + ws * k) = 16 - ws * k := by omega
  have hbytes := beBytes_mul_add (j := ws * k) (v := y) (bytes_pos (16 - ws * k))
  have hvalue := mul_add_lt h.lt (bytes_pos (16 - ws * k))
  rw [Nat.add_sub_cancel' hlt.le, beBytes_zero] at hbytes
  rw [← Nat.pow_add, Nat.add_sub_cancel' hlt.le] at hvalue
  rw [hunits, flatMap_append, flatMap_singleton, hshift, hbytes, length_append, length_singleton,
    hcount, append_assoc]
  exact ⟨rfl, forall_mem_append.2 ⟨h.unit, forall_mem_singleton.2 hvalue⟩⟩

end

end

/-! ## Constructed values -/

theorem exists_setFromWordSequence (h : Accepted ws size words data) :
    ∃ l k y, Filled ws words l k y ∧ ws * k < 16 ∧ (l.units ws).length ≤ data.length ∧
      setFromWordSequence ws words data = .ok (l.units ws ++ data.drop (l.units ws).length) := by
  have hpos := Nat.pos_of_dvd_of_pos h.dvd (Nat.succ_pos 15)
  have hstart : Filled ws [] ⟨[], 0, numSubWords ws⟩ 0 0 :=
    ⟨Nat.mul_div_cancel' h.dvd, rfl, Nat.div_pos h.smaller.le hpos, (Nat.zero_mul _).symm,
      bytes_pos _, rfl, by simp⟩
  obtain ⟨l, k, y, hrun, hl⟩ := exists_filled hstart h.word
  have hlt : ws * k < 16 := by have := hl.length.2; omega
  have hle : (l.units ws).length ≤ data.length := by
    rw [hl.length_units hlt, h.length_data]
    exact Nat.div_le_div_right (Nat.add_le_add_right h.fits 15)
  refine ⟨l, k, y, hl, hlt, hle, ?_⟩
  rw [setFromWordSequence, hrun, ok_bind]
  exact if_neg (Nat.not_lt.2 hle)

/-- A value whose bytes are in their places. -/
structure Sound (ws size : Nat) (words data units : List Nat) : Prop
    extends Accepted ws size words data where
  placed : Placed ws words
  cleared : Cleared ws words data
  made : setFromWordSequence ws words data = .ok units

variable {ws' : Nat} {words' data' a b : List Nat}

theorem Sound.image (h : Sound ws size words data a) :
    a.length = numWords size ∧ (∀ u ∈ a, u < 256 ^ 16) ∧
      a.flatMap (beBytes 16) = bigEndian ws size words ++ replicate (paddedBytes size) 0 := by
  obtain ⟨l, k, y, hl, hlt, hle, hrun⟩ := exists_setFromWordSequence h.toAccepted
  obtain rfl := Except.ok.inj (hrun.symm.trans h.made)
  obtain ⟨himage, hunit⟩ := hl.image hlt h.placed
  have hfits := h.fits
  have hcleared := h.cleared
  have hlen := hl.length_units hlt
  rw [Cleared, ← hlen] at hcleared
  rw [eq_replicate_iff.2 ⟨rfl, hcleared⟩]
  refine ⟨?_, forall_mem_append.2 ⟨hunit, fun u hu => ?_⟩, ?_⟩
  · rw [length_append, length_replicate, length_drop, Nat.add_sub_cancel' hle, h.length_data]
  · exact eq_of_mem_replicate hu ▸ bytes_pos 16
  · rw [h.length_data, numWords] at hle
    rw [flatMap_append, himage, flatMap_beBytes_zero, bigEndian, append_assoc, append_assoc,
      replicate_append_replicate, replicate_append_replicate, length_drop, h.length_data, paddedBytes,
      numWords]
    congr 2
    omega

theorem Accepted.length_bigEndian (h : Accepted ws size words data) :
    (bigEndian ws size words).length = size := by
  rw [bigEndian, length_append, length_flatMap_beBytes, length_replicate, Nat.add_sub_cancel' h.fits]

theorem Sound.extractAsByteArray_eq (h : Sound ws size words data a) :
    extractAsByteArray size a = bigEndian ws size words := by
  obtain ⟨hlen, -, himage⟩ := h.image
  rw [extractAsByteArray_eq_take hlen, himage, take_left' h.length_bigEndian]

theorem Sound.order (ha : Sound ws size words data a) (hb : Sound ws' size words' data' b) :
    (a < b ↔ extractAsByteArray size a < extractAsByteArray size b) ∧
      (a = b ↔ extractAsByteArray size a = extractAsByteArray size b) := by
  obtain ⟨hlena, hunita, himagea⟩ := ha.image
  obtain ⟨hlenb, hunitb, himageb⟩ := hb.image
  have hlen := ha.length_bigEndian.trans hb.length_bigEndian.symm
  obtain ⟨hlt, heq⟩ := flatMap_beBytes_order (hlena.trans hlenb.symm) hunita hunitb
  rw [himagea, himageb, append_lt_append_iff hlen, or_iff_left fun h => List.lt_irrefl _ h.2] at hlt
  rw [himagea, himageb, append_eq_append_iff_of_length hlen, and_iff_left rfl] at heq
  rw [ha.extractAsByteArray_eq, hb.extractAsByteArray_eq]
  exact ⟨hlt.symm, heq.symm⟩

theorem Sound.compares (ha : Sound ws size words data a) (hb : Sound ws' size words' data' b)
    (op : Comparison) :
    op.holds a b ↔ op.holds (extractAsByteArray size a) (extractAsByteArray size b) := by
  obtain ⟨hlt, heq⟩ := ha.order hb
  obtain ⟨hgt, -⟩ := hb.order ha
  cases op with
  | eq => exact heq
  | ne => exact not_congr heq
  | lt => exact hlt
  | gt => exact hgt
  | le => exact not_congr hgt
  | ge => exact not_congr hlt

/-- The words come out as their bytes, the highest first, with zeros behind them; and the value
compares as these bytes do, with every value whose bytes are in their places. -/
structure IsBigEndian (ws size : Nat) (words units : List Nat) : Prop where
  extract : extractAsByteArray size units = bigEndian ws size words
  compare : ∀ {ws' words' data' b}, Sound ws' size words' data' b → ∀ op : Comparison,
    op.holds units b ↔ op.holds (extractAsByteArray size units) (extractAsByteArray size b)

/-- **A value is big-endian** exactly if the last shift is right and the units behind the words are
zero. Where they are not, the value differs from that of the same words in zeroed memory, and the
bytes may not show it. -/
theorem fixedBytes_bigEndian (h : Accepted ws size words data) :
    ∃ units, setFromWordSequence ws words data = .ok units ∧
      (IsBigEndian ws size words units ↔ Placed ws words ∧ Cleared ws words data) := by
  obtain ⟨l, k, y, hl, hlt, hle, hrun⟩ := exists_setFromWordSequence h
  refine ⟨_, hrun, fun hbig => ?_, fun hright => ?_⟩
  · have hplaced : Placed ws words := by
      have hlen : (l.units ws ++ data.drop (l.units ws).length).length = numWords size := by
        rw [length_append, length_drop, Nat.add_sub_cancel' hle, h.length_data]
      have htake := congrArg (take (ws * words.length)) hbig.extract
      rw [extractAsByteArray_eq_take hlen, flatMap_append, take_take, Nat.min_eq_left h.fits,
        bigEndian, take_left' (length_flatMap_beBytes _ _)] at htake
      exact hl.placed_of_take hlt htake
    -- the same words in zeroed memory
    have hzero : Accepted ws size words (replicate (numWords size) 0) :=
      { h with length_data := length_replicate }
    obtain ⟨l', k', y', hl', hlt', -, hrun'⟩ := exists_setFromWordSequence hzero
    have hsound : Sound ws size words _ _ :=
      ⟨hzero, hplaced, fun _ hu => eq_of_mem_replicate (mem_of_mem_drop hu), hrun'⟩
    have heq : _ = _ := (hbig.compare hsound .eq).2
      (hbig.extract.trans hsound.extractAsByteArray_eq.symm)
    have hdrop := congrArg (drop ((ws * words.length + 15) / 16)) heq
    rw [drop_left' (hl.length_units hlt), drop_left' (hl'.length_units hlt')] at hdrop
    refine ⟨hplaced, fun unit hunit => ?_⟩
    rw [← hl.length_units hlt, hdrop] at hunit
    exact eq_of_mem_replicate (mem_of_mem_drop hunit)
  · have hsound : Sound ws size words data _ := ⟨h, hright.1, hright.2, hrun⟩
    exact ⟨hsound.extractAsByteArray_eq, hsound.compares⟩

/-- Five words of four bytes in memory of two units: three words are missing in the second unit, so
the words must be zero there. -/
theorem bigEndian_of_five_words : ∃ units,
    setFromWordSequence 4 [1, 2, 3, 4, 0] [7, 9] = .ok units ∧
      IsBigEndian 4 20 [1, 2, 3, 4, 0] units := by
  have haccepted : Accepted 4 20 [1, 2, 3, 4, 0] [7, 9] :=
    ⟨by decide, by decide, by decide, by decide, by decide⟩
  obtain ⟨units, hmade, hbig⟩ := fixedBytes_bigEndian haccepted
  exact ⟨units, hmade, hbig.2 ⟨.inr (.inr (by decide)), by unfold Cleared; decide⟩⟩

/-- One word of four bytes in a value of sixteen lands six bytes lower. -/
theorem make_from_one_word : Accepted 4 16 [1] [0] ∧ setFromWordSequence 4 [1] [0] = .ok [2 ^ 48] ∧
    extractAsByteArray 16 [2 ^ 48] = [0, 0, 0, 0, 0, 0, 0, 0, 0, 1, 0, 0, 0, 0, 0, 0] ∧
    bigEndian 4 16 [1] = [0, 0, 0, 1, 0, 0, 0, 0, 0, 0, 0, 0, 0, 0, 0, 0] :=
  ⟨⟨by decide, by decide, by decide, by decide, by decide⟩, by decide +kernel, by decide +kernel,
    by decide +kernel⟩

end PotatoNode.Chain.FixedBytes
