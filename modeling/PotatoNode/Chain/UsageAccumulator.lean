import Mathlib.Algebra.Group.Nat.Defs
import PotatoNode.Chain.Exceptions

/-!
# Usage accumulators (`resource_limits_private.hpp`)

Usage is averaged over a window of time slots or blocks by an exponential moving average, in fixed
point with six decimals. All numbers are unsigned integers of the machine. `Arithmetic` says what
becomes of a result that does not fit: the machine wraps it; `trapping` stops instead, so that a
computation that returns in both modes has wrapped nothing.
-/

namespace PotatoNode.Chain

open Lib Nat Except

/-! ## Unsigned arithmetic -/

/-- What becomes of a result that does not fit. -/
inductive Arithmetic where
  | wrapping
  | trapping
deriving DecidableEq, Repr

def Arithmetic.fit (ar : Arithmetic) (bits n : Nat) : Result Nat :=
  if n < 2 ^ bits then .ok n
  else
    match ar with
    | wrapping => .ok (n % 2 ^ bits)
    | trapping => .error .abort

variable {ar : Arithmetic} {bits den : Nat}

theorem Arithmetic.fit_of_lt {n : Nat} (h : n < 2 ^ bits) : ar.fit bits n = .ok n := if_pos h

theorem Arithmetic.fit_wrapping (bits n : Nat) :
    Arithmetic.wrapping.fit bits n = .ok (n % 2 ^ bits) := by
  unfold fit
  split
  · next h => rw [mod_eq_of_lt h]
  · rfl

theorem Arithmetic.lt_of_fit {n k : Nat} (h : ar.fit bits n = .ok k) : k < 2 ^ bits := by
  unfold fit at h
  split at h
  · next hlt =>
    cases h
    exact hlt
  · cases ar with
    | wrapping =>
      cases h
      exact Nat.mod_lt n (Nat.two_pow_pos bits)
    | trapping => cases h

theorem Arithmetic.le_of_fit {n k : Nat} (h : ar.fit bits n = .ok k) : k ≤ n := by
  unfold fit at h
  split at h
  · cases h
    exact Nat.le_refl n
  · cases ar with
    | wrapping =>
      cases h
      exact mod_le n _
    | trapping => cases h

/-- `std::numeric_limits<uint64_t>::max()`. -/
def uint64Max : Nat := 2 ^ 64 - 1

def integerDivideCeil (num den : Nat) : Nat := num / den + if num % den > 0 then 1 else 0

section

variable (hden : 0 < den)
include hden

theorem integerDivideCeil_eq (num : Nat) : integerDivideCeil num den = (num + den - 1) / den := by
  unfold integerDivideCeil
  have hnum := div_add_mod num den
  have hlt := mod_lt num hden
  split
  · next hpos =>
    have heq : num + den - 1 = den * (num / den + 1) + (num % den - 1) := by
      rw [Nat.mul_add]
      omega
    rw [heq, mul_add_div hden, div_eq_of_lt (by omega : num % den - 1 < den)]
  · next hzero =>
    have heq : num + den - 1 = den * (num / den) + (den - 1) := by omega
    rw [heq, mul_add_div hden, div_eq_of_lt (by omega : den - 1 < den)]

theorem integerDivideCeil_le_iff {num c : Nat} : integerDivideCeil num den ≤ c ↔ num ≤ c * den := by
  rw [integerDivideCeil_eq hden, div_le_iff_le_mul_add_pred hden, mul_comm]
  omega

theorem le_integerDivideCeil_mul (num : Nat) : num ≤ integerDivideCeil num den * den :=
  (integerDivideCeil_le_iff hden).1 (Nat.le_refl _)

theorem integerDivideCeil_mul_lt (num : Nat) : integerDivideCeil num den * den < num + den := by
  rw [integerDivideCeil_eq hden]
  have hle := div_mul_le_self (num + den - 1) den
  omega

end

/-- `downgrade_cast<LesserIntType>`, to a type with the given greatest value. -/
def downgradeCast (max val : Nat) : Result Nat := do
  eosAssert (val ≤ max) .rateLimitingStateInconsistent
    ("Casting a higher bit integer value ${v} to a lower bit integer value which cannot contain "
      ++ "the value, valid range is [${min}, ${max}]")
  .ok val

/-- `ratio<uint64_t>`. -/
structure Ratio where
  numerator : Nat
  denominator : Nat
deriving DecidableEq, Repr

def Ratio.scale (r : Ratio) (ar : Arithmetic) (value : Nat) : Result Nat := do
  eosAssert (r.numerator = 0 ∨ value ≤ uint64Max / r.numerator) .rateLimitingStateInconsistent
    "Usage exceeds maximum value representable after extending for precision"
  let product ← ar.fit 64 (value * r.numerator)
  .ok (product / r.denominator)

theorem Ratio.scale_eq_ok {r : Ratio} {value k : Nat} (hpos : 0 < r.numerator) :
    r.scale ar value = .ok k
      ↔ value * r.numerator < 2 ^ 64 ∧ value * r.numerator / r.denominator = k := by
  have hfits : value ≤ uint64Max / r.numerator ↔ value * r.numerator < 2 ^ 64 := by
    rw [le_div_iff_mul_le hpos]
    exact Nat.le_sub_one_iff_lt (by decide)
  constructor
  · intro h
    obtain ⟨_, hle, product, hproduct, h⟩ := bind₂_eq_ok.1 h
    have hlt := hfits.1 ((eosAssert_eq_ok.1 hle).resolve_left (Nat.ne_of_gt hpos))
    rw [Arithmetic.fit_of_lt hlt] at hproduct
    cases hproduct
    exact ⟨hlt, ok.inj h⟩
  · rintro ⟨hlt, rfl⟩
    exact bind₂_eq_ok.2 ⟨(), eosAssert_of (.inr (hfits.2 hlt)), _, Arithmetic.fit_of_lt hlt, rfl⟩

/-! ## Accumulators -/

def rateLimitingPrecision : Nat := 1000 * 1000

/-- `exponential_moving_average_accumulator<>`. -/
structure UsageAccumulator where
  /-- the ordinal of the last period which has contributed to the average -/
  lastOrdinal : Nat := 0
  /-- the current average pre-multiplied by the precision -/
  valueEx : Nat := 0
  /-- the last periods average + the current periods contribution so far -/
  consumed : Nat := 0
deriving DecidableEq, Repr

namespace UsageAccumulator

variable (ar : Arithmetic) (acc : UsageAccumulator) (units ordinal windowSize : Nat)

def maxRawValue : Nat := uint64Max / rateLimitingPrecision

def average : Nat := integerDivideCeil acc.valueEx rateLimitingPrecision

/-- The decay up to a new ordinal, in `add`. -/
def advance : Result UsageAccumulator :=
  if acc.lastOrdinal = ordinal then .ok acc
  else do
    eosAssert (acc.lastOrdinal < ordinal) .resourceLimitException
      "new ordinal cannot be less than the previous ordinal"
    let valueEx ←
      if ordinal < acc.lastOrdinal + windowSize then
        -- clearly 0 < delta < window_size
        let delta := ordinal - acc.lastOrdinal
        Ratio.scale ⟨windowSize - delta, windowSize⟩ ar acc.valueEx
      else .ok 0
    .ok ⟨ordinal, valueEx, integerDivideCeil valueEx rateLimitingPrecision⟩

/-- `add`. The window must be positive. -/
def add : Result UsageAccumulator := do
  -- check for some numerical limits before doing any state mutations
  eosAssert (units ≤ maxRawValue) .rateLimitingStateInconsistent
    "Usage exceeds maximum value representable after extending for precision"
  eosAssert (units ≤ uint64Max - acc.consumed) .rateLimitingStateInconsistent
    "Overflow in tracked usage when adding usage!"
  let extended ← ar.fit 128 (units * rateLimitingPrecision)
  let valueExContrib ← downgradeCast uint64Max (integerDivideCeil extended windowSize)
  eosAssert (valueExContrib ≤ uint64Max - acc.valueEx) .rateLimitingStateInconsistent
    "Overflow in accumulated value when adding usage!"
  let acc ← acc.advance ar ordinal windowSize
  let consumed ← ar.fit 64 (acc.consumed + units)
  let valueEx ← ar.fit 64 (acc.valueEx + valueExContrib)
  .ok ⟨acc.lastOrdinal, valueEx, consumed⟩

/-! ## What a call does -/

/-- The average at an ordinal that is not earlier. -/
def decayed : Nat :=
  if acc.lastOrdinal = ordinal then acc.valueEx
  else if ordinal < acc.lastOrdinal + windowSize then
    acc.valueEx * (windowSize - (ordinal - acc.lastOrdinal)) / windowSize
  else 0

def contribution : Nat := integerDivideCeil (units * rateLimitingPrecision) windowSize

theorem decayed_le : acc.decayed ordinal windowSize ≤ acc.valueEx := by
  unfold decayed
  split
  · exact Nat.le_refl _
  split
  · refine Nat.div_le_of_le_mul ?_
    rw [Nat.mul_comm windowSize]
    exact mul_le_mul_left _ (sub_le _ _)
  · exact zero_le _

variable {ar acc units ordinal windowSize} {acc' : UsageAccumulator}

theorem advance_eq_ok :
    acc.advance ar ordinal windowSize = .ok acc'
      ↔ acc.lastOrdinal = ordinal ∧ acc = acc'
        ∨ acc.lastOrdinal < ordinal
          ∧ (ordinal < acc.lastOrdinal + windowSize →
            acc.valueEx * (windowSize - (ordinal - acc.lastOrdinal)) < 2 ^ 64)
          ∧ ⟨ordinal, acc.decayed ordinal windowSize,
            integerDivideCeil (acc.decayed ordinal windowSize) rateLimitingPrecision⟩ = acc' := by
  unfold advance decayed
  by_cases heq : acc.lastOrdinal = ordinal
  · simp only [heq, ↓reduceIte, Nat.lt_irrefl, true_and, false_and, or_false, ok.injEq]
  simp only [heq, ↓reduceIte, false_and, false_or]
  by_cases hrecent : ordinal < acc.lastOrdinal + windowSize
  · simp only [hrecent, ↓reduceIte, forall_const]
    rw [bind₂_eq_ok]
    have hpos : acc.lastOrdinal < ordinal → 0 < windowSize - (ordinal - acc.lastOrdinal) := by omega
    constructor
    · rintro ⟨_, hlt, valueEx, hscale, h⟩
      have hlt := eosAssert_eq_ok.1 hlt
      obtain ⟨hfits, rfl⟩ := (Ratio.scale_eq_ok (hpos hlt)).1 hscale
      exact ⟨hlt, hfits, ok.inj h⟩
    · rintro ⟨hlt, hfits, rfl⟩
      exact ⟨(), eosAssert_of hlt, _, (Ratio.scale_eq_ok (hpos hlt)).2 ⟨hfits, rfl⟩, rfl⟩
  · simp only [hrecent, ↓reduceIte, false_implies, true_and]
    rw [bind_eq_ok]
    constructor
    · rintro ⟨_, hlt, h⟩
      exact ⟨eosAssert_eq_ok.1 hlt, ok.inj h⟩
    · rintro ⟨hlt, rfl⟩
      exact ⟨(), eosAssert_of hlt, rfl⟩

theorem frame_advance (h : acc.advance ar ordinal windowSize = .ok acc') :
    acc'.lastOrdinal = ordinal ∧ acc'.valueEx = acc.decayed ordinal windowSize
      ∧ (acc'.consumed = acc.consumed ∨ acc'.consumed = acc'.average) := by
  rcases advance_eq_ok.1 h with ⟨hlast, rfl⟩ | ⟨-, -, rfl⟩
  · exact ⟨hlast, (if_pos hlast).symm, .inl rfl⟩
  · exact ⟨rfl, rfl, .inr rfl⟩

theorem add_eq_ok :
    acc.add ar units ordinal windowSize = .ok acc'
      ↔ units ≤ maxRawValue ∧ units ≤ uint64Max - acc.consumed
        ∧ contribution units windowSize ≤ uint64Max - acc.valueEx
        ∧ ∃ acc₁, acc.advance ar ordinal windowSize = .ok acc₁
          ∧ ar.fit 64 (acc₁.consumed + units) = .ok acc'.consumed
          ∧ ar.fit 64 (acc₁.valueEx + contribution units windowSize) = .ok acc'.valueEx
          ∧ acc₁.lastOrdinal = acc'.lastOrdinal := by
  have hextended (hraw : units ≤ maxRawValue) :
      ar.fit 128 (units * rateLimitingPrecision) = .ok _ :=
    Arithmetic.fit_of_lt (Nat.lt_of_le_of_lt (Nat.mul_le_mul_right _ hraw) (by decide))
  constructor
  · intro h
    obtain ⟨_, hraw, _, htracked, extended, hfit, h⟩ := bind₃_eq_ok.1 h
    obtain ⟨contrib, hcast, _, hroom, acc₁, hadvance, h⟩ := bind₃_eq_ok.1 h
    obtain ⟨consumed, hconsumed, valueEx, hvalue, h⟩ := bind₂_eq_ok.1 h
    cases h
    rw [hextended (eosAssert_eq_ok.1 hraw)] at hfit
    cases hfit
    obtain ⟨_, _, hcast⟩ := bind_eq_ok.1 hcast
    cases hcast
    exact ⟨eosAssert_eq_ok.1 hraw, eosAssert_eq_ok.1 htracked, eosAssert_eq_ok.1 hroom, acc₁,
      hadvance, hconsumed, hvalue, rfl⟩
  · rintro ⟨hraw, htracked, hroom, acc₁, hadvance, hconsumed, hvalue, hlast⟩
    have hcast := Nat.le_trans hroom (Nat.sub_le _ _)
    refine bind₃_eq_ok.2 ⟨(), eosAssert_of hraw, (), eosAssert_of htracked, _, hextended hraw, ?_⟩
    refine bind₃_eq_ok.2
      ⟨_, bind_eq_ok.2 ⟨(), eosAssert_of hcast, rfl⟩, (), eosAssert_of hroom, acc₁, hadvance, ?_⟩
    exact bind₂_eq_ok.2 ⟨_, hconsumed, _, hvalue, by rw [hlast]⟩

section

variable (h : acc.add ar units ordinal windowSize = .ok acc')
include h

theorem lastOrdinal_add : acc'.lastOrdinal = ordinal := by
  obtain ⟨-, -, -, acc₁, hadvance, -, -, hlast⟩ := add_eq_ok.1 h
  rw [← hlast, (frame_advance hadvance).1]

theorem valueEx_lt_of_add : acc'.valueEx < 2 ^ 64 := by
  obtain ⟨-, -, -, acc₁, -, -, hvalue, -⟩ := add_eq_ok.1 h
  exact Arithmetic.lt_of_fit hvalue

end

theorem valueEx_add (hlt : acc.valueEx < 2 ^ 64)
    (h : acc.add ar units ordinal windowSize = .ok acc') :
    acc'.valueEx = acc.decayed ordinal windowSize + contribution units windowSize := by
  obtain ⟨-, -, hroom, acc₁, hadvance, -, hvalue, -⟩ := add_eq_ok.1 h
  have hmax : uint64Max = 2 ^ 64 - 1 := rfl
  have hle := acc.decayed_le ordinal windowSize
  rw [(frame_advance hadvance).2.1, Arithmetic.fit_of_lt (by omega)] at hvalue
  exact (ok.inj hvalue).symm

theorem valueEx_add_same (hlast : acc.lastOrdinal = ordinal) (hlt : acc.valueEx < 2 ^ 64)
    (h : acc.add ar units ordinal windowSize = .ok acc') :
    acc'.valueEx = acc.valueEx + contribution units windowSize := by
  rw [valueEx_add hlt h, decayed, if_pos hlast]

/-- The average is at most that of the constant contribution `c`. -/
structure Bounded (acc : UsageAccumulator) (windowSize c : Nat) : Prop where
  valueEx : acc.valueEx ≤ windowSize * c
  consumed : acc.consumed < 2 ^ 63

variable {c : Nat}

/-- Over at least one period the average falls by one contribution. -/
theorem advance_of_bounded (hacc : acc.Bounded windowSize c)
    (hfits : (windowSize - 1) * (windowSize * c) < 2 ^ 64) (hordinal : acc.lastOrdinal < ordinal) :
    acc.decayed ordinal windowSize ≤ (windowSize - 1) * c
      ∧ ∀ ar, acc.advance ar ordinal windowSize = .ok ⟨ordinal, acc.decayed ordinal windowSize,
        integerDivideCeil (acc.decayed ordinal windowSize) rateLimitingPrecision⟩ := by
  have hproduct : acc.valueEx * (windowSize - (ordinal - acc.lastOrdinal))
      ≤ (windowSize - 1) * (windowSize * c) := by
    rw [mul_comm (windowSize - 1)]
    exact Nat.mul_le_mul hacc.valueEx (by omega)
  refine ⟨?_, fun ar => advance_eq_ok.2
    (.inr ⟨hordinal, fun _ => Nat.lt_of_le_of_lt hproduct hfits, rfl⟩)⟩
  rw [decayed, if_neg (Nat.ne_of_lt hordinal)]
  split
  · apply Nat.div_le_of_le_mul
    calc acc.valueEx * (windowSize - (ordinal - acc.lastOrdinal))
        ≤ (windowSize - 1) * (windowSize * c) := hproduct
      _ = windowSize * _ := Nat.mul_left_comm _ _ _
  · exact zero_le _

/-- **An average that cannot overflow.** What the blocks add is bounded, and so is the average; the
assertions hold, and no operation wraps. -/
theorem add_of_bounded (hacc : acc.Bounded windowSize c) (hwindow : 3 ≤ windowSize)
    (hfits : (windowSize - 1) * (windowSize * c) < 2 ^ 64) (hordinal : acc.lastOrdinal < ordinal)
    (hunits : units * rateLimitingPrecision ≤ c * windowSize) :
    ∃ acc', (∀ ar, acc.add ar units ordinal windowSize = .ok acc')
      ∧ acc'.Bounded windowSize c ∧ acc'.lastOrdinal = ordinal := by
  have hmax : uint64Max = 2 ^ 64 - 1 := rfl
  have hprecision : rateLimitingPrecision = 1000000 := rfl
  obtain ⟨hdecayed, hadvance⟩ := advance_of_bounded hacc hfits hordinal
  -- the average before and a contribution are less than two windows of contributions
  have htwice : 2 * (windowSize * c) < 2 ^ 64 :=
    Nat.lt_of_le_of_lt (Nat.mul_le_mul_right _ (by omega)) hfits
  have hlast : (windowSize - 1) * c + c = windowSize * c := by
    rw [← Nat.succ_mul, Nat.succ_eq_add_one, Nat.sub_add_cancel (by omega)]
  have hcontrib : contribution units windowSize ≤ c :=
    (integerDivideCeil_le_iff (by omega)).2 hunits
  have haverage : integerDivideCeil (acc.decayed ordinal windowSize) rateLimitingPrecision
      ≤ 2 ^ 45 := by
    rw [integerDivideCeil_le_iff (by decide)]
    omega
  have hunits' : units * 1000000 ≤ windowSize * c := by
    rw [mul_comm windowSize]
    exact hunits
  have hraw : units ≤ maxRawValue := by
    unfold maxRawValue
    rw [hprecision]
    omega
  have hconsumed := hacc.consumed
  have hvalue := hacc.valueEx
  refine ⟨⟨ordinal, acc.decayed ordinal windowSize + contribution units windowSize,
    integerDivideCeil (acc.decayed ordinal windowSize) rateLimitingPrecision + units⟩, fun ar => ?_,
    ⟨?_, ?_⟩, rfl⟩
  · refine add_eq_ok.2 ⟨hraw, by omega, by omega, _, hadvance ar, Arithmetic.fit_of_lt ?_,
      Arithmetic.fit_of_lt ?_, rfl⟩
    · show integerDivideCeil (acc.decayed ordinal windowSize) _ + units < _
      omega
    · show acc.decayed ordinal windowSize + contribution units windowSize < _
      omega
  · show acc.decayed ordinal windowSize + _ ≤ windowSize * c
    omega
  · show _ + units < 2 ^ 63
    omega

end UsageAccumulator

end PotatoNode.Chain
