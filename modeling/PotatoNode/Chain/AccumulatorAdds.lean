import Mathlib.Algebra.GroupWithZero.Nat
import PotatoNode.Lib.Runs
import PotatoNode.Chain.UsageAccumulator

/-!
# Additions to a usage accumulator (`resource_limits_private.hpp`)

`addInPlace` is `add` with the object as its state, so that what a throw leaves behind can be seen.
It throws before it has changed anything (`addInPlace_eq`), and a call that returns has wrapped
nothing (`add_trapping`).
-/

namespace PotatoNode.Chain

open Lib List Nat

namespace UsageAccumulator

/-! ## The object -/

section InPlace

variable (units ordinal windowSize : Nat)

def advanceInPlace : EStateM Failure UsageAccumulator Unit := do
  let lastOrdinal := (← get).lastOrdinal
  whenever (lastOrdinal ≠ ordinal) do
    compute fun _ => eosAssert (lastOrdinal < ordinal) .resourceLimitException
      "new ordinal cannot be less than the previous ordinal"
    let valueEx ← compute fun acc =>
      if ordinal < lastOrdinal + windowSize then
        let delta := ordinal - lastOrdinal
        Ratio.scale ⟨windowSize - delta, windowSize⟩ .wrapping acc.valueEx
      else .ok 0
    modify fun acc => { acc with valueEx }
    modify fun acc => { acc with lastOrdinal := ordinal }
    modify fun acc => { acc with consumed := acc.average }

/-- `add`, statement by statement. -/
def addInPlace : EStateM Failure UsageAccumulator Unit := do
  -- check for some numerical limits before doing any state mutations
  compute fun _ => eosAssert (units ≤ maxRawValue) .rateLimitingStateInconsistent
    "Usage exceeds maximum value representable after extending for precision"
  compute fun acc => eosAssert (units ≤ uint64Max - acc.consumed) .rateLimitingStateInconsistent
    "Overflow in tracked usage when adding usage!"
  let extended ← compute fun _ => Arithmetic.wrapping.fit 128 (units * rateLimitingPrecision)
  let valueExContrib ← compute fun _ =>
    downgradeCast uint64Max (integerDivideCeil extended windowSize)
  compute fun acc => eosAssert (valueExContrib ≤ uint64Max - acc.valueEx)
    .rateLimitingStateInconsistent "Overflow in accumulated value when adding usage!"
  advanceInPlace ordinal windowSize
  modify fun acc => { acc with consumed := (acc.consumed + units) % 2 ^ 64 }
  modify fun acc => { acc with valueEx := (acc.valueEx + valueExContrib) % 2 ^ 64 }

variable {units ordinal windowSize} {acc : UsageAccumulator}

theorem compute_bind_eq {S ε α : Type} {x : S → Except ε α} {f : α → EStateM ε S Unit}
    {g : α → Except ε S} {s : S} (h : ∀ a, f a s = attempt (fun _ => g a) s) :
    (compute x >>= f) s = attempt (fun _ => x s >>= g) s := by
  rw [bind_apply]
  cases hx : x s with
  | ok a =>
    simp only [compute, hx, ok_bind]
    exact h a
  | error e =>
    simp only [compute, hx]
    rfl

theorem advanceInPlace_eq :
    advanceInPlace ordinal windowSize acc
      = attempt (fun _ => acc.advance .wrapping ordinal windowSize) acc := by
  show whenever (acc.lastOrdinal ≠ ordinal) _ acc = _
  unfold whenever advance
  by_cases heq : acc.lastOrdinal = ordinal
  · simp only [heq, ne_eq, not_true_eq_false, ↓reduceIte]
    rfl
  · simp only [heq, ne_eq, not_false_eq_true, ↓reduceIte]
    refine compute_bind_eq fun _ => ?_
    by_cases hrecent : ordinal < acc.lastOrdinal + windowSize
    · simp only [if_pos hrecent]
      exact compute_bind_eq fun _ => rfl
    · simp only [if_neg hrecent]
      rfl

theorem addInPlace_eq :
    addInPlace units ordinal windowSize acc
      = attempt (fun _ => acc.add .wrapping units ordinal windowSize) acc := by
  refine compute_bind_eq fun _ => compute_bind_eq fun _ => compute_bind_eq fun _ =>
    compute_bind_eq fun _ => compute_bind_eq fun _ => ?_
  rw [bind_apply, advanceInPlace_eq]
  simp only [Arithmetic.fit_wrapping, ok_bind]
  cases acc.advance .wrapping ordinal windowSize <;> rfl

end InPlace

/-! ## Nothing wraps -/

structure Words (acc : UsageAccumulator) : Prop where
  valueEx : acc.valueEx < 2 ^ 64
  consumed : acc.consumed < 2 ^ 64

variable {acc acc' : UsageAccumulator} {units ordinal windowSize : Nat}

theorem words_of_add {ar : Arithmetic} (h : acc.add ar units ordinal windowSize = .ok acc') :
    acc'.Words := by
  obtain ⟨-, -, -, acc₁, -, hconsumed, hvalue, -⟩ := add_eq_ok.1 h
  exact ⟨Arithmetic.lt_of_fit hvalue, Arithmetic.lt_of_fit hconsumed⟩

theorem add_trapping (hacc : acc.Words)
    (h : acc.add .wrapping units ordinal windowSize = .ok acc') :
    acc.add .trapping units ordinal windowSize = .ok acc' := by
  have hmax : uint64Max = 2 ^ 64 - 1 := rfl
  have hvalue := valueEx_add hacc.valueEx h
  have hlt := valueEx_lt_of_add h
  obtain ⟨hraw, htracked, hroom, acc₁, hadvance, hfit, -, hlast⟩ := add_eq_ok.1 h
  obtain ⟨-, hvalue₁, hconsumed₁⟩ := frame_advance hadvance
  have hconsumed : acc₁.consumed + units < 2 ^ 64 := by
    have htotal := hacc.consumed
    have haverage : acc₁.average ≤ 2 ^ 45 := by
      rw [average, integerDivideCeil_le_iff (by decide)]
      exact Nat.le_trans (by omega : acc₁.valueEx ≤ 2 ^ 64) (by decide)
    have hunits : units ≤ 2 ^ 45 := Nat.le_trans hraw (by decide)
    omega
  rw [Arithmetic.fit_of_lt hconsumed] at hfit
  refine add_eq_ok.2 ⟨hraw, htracked, hroom, acc₁, advance_eq_ok.2 (advance_eq_ok.1 hadvance),
    ?_, ?_, hlast⟩
  · rw [Arithmetic.fit_of_lt hconsumed, hfit]
  · rw [hvalue₁, ← hvalue]
    exact Arithmetic.fit_of_lt hlt

/-! ## Adding in parts -/

theorem addInPlace_eq_ok :
    addInPlace units ordinal windowSize acc = .ok () acc'
      ↔ acc.add .wrapping units ordinal windowSize = .ok acc' := by
  rw [addInPlace_eq, attempt_eq_ok]

theorem valueEx_addInPlace (hacc : acc.Words)
    (h : addInPlace units ordinal windowSize acc = .ok () acc') :
    acc'.valueEx = acc.decayed ordinal windowSize + contribution units windowSize :=
  valueEx_add hacc.valueEx (addInPlace_eq_ok.1 h)

variable {parts : List Nat}

theorem forM_cons_eq_ok {f : Nat → EStateM Failure UsageAccumulator PUnit}
    (h : (units :: parts).forM f acc = .ok () acc') :
    ∃ acc₁, f units acc = .ok () acc₁ ∧ parts.forM f acc₁ = .ok () acc' := by
  have h : (f units >>= fun _ => parts.forM f) acc = .ok () acc' := h
  rw [bind_apply] at h
  split at h
  · next acc₁ hunits => exact ⟨acc₁, hunits, h⟩
  · cases h

theorem valueEx_forM (hacc : acc.Words) (hlast : acc.lastOrdinal = ordinal)
    (h : (parts.forM (addInPlace · ordinal windowSize)) acc = .ok () acc') :
    acc'.valueEx = acc.valueEx + (parts.map (contribution · windowSize)).sum := by
  induction parts generalizing acc with
  | nil =>
    cases h
    rfl
  | cons units parts ih =>
    obtain ⟨acc₁, hunits, h⟩ := forM_cons_eq_ok h
    rw [addInPlace_eq_ok] at hunits
    rw [ih (words_of_add hunits) (lastOrdinal_add hunits) h,
      valueEx_add_same hlast hacc.valueEx hunits, map_cons, sum_cons, add_assoc]

/-- Rounding up in parts loses less than one for each part. -/
theorem sum_contribution (hwindow : 0 < windowSize) (parts : List Nat) :
    parts.sum * rateLimitingPrecision
        ≤ (parts.map (contribution · windowSize)).sum * windowSize
      ∧ (parts.map (contribution · windowSize)).sum * windowSize + parts.length
        ≤ parts.sum * rateLimitingPrecision + parts.length * windowSize := by
  induction parts with
  | nil => simp
  | cons units parts ih =>
    have hle := le_integerDivideCeil_mul hwindow (units * rateLimitingPrecision)
    have hlt := integerDivideCeil_mul_lt hwindow (units * rateLimitingPrecision)
    simp only [sum_cons, map_cons, length_cons, Nat.add_mul, contribution] at ih ⊢
    omega

theorem contribution_parts (hwindow : 0 < windowSize) (hparts : parts ≠ []) :
    contribution parts.sum windowSize ≤ (parts.map (contribution · windowSize)).sum
      ∧ (parts.map (contribution · windowSize)).sum
        ≤ contribution parts.sum windowSize + (parts.length - 1) := by
  obtain ⟨hle, hlt⟩ := sum_contribution hwindow parts
  refine ⟨(integerDivideCeil_le_iff hwindow).2 hle, ?_⟩
  have hwhole := le_integerDivideCeil_mul hwindow (parts.sum * rateLimitingPrecision)
  have hpos := length_pos_iff.2 hparts
  have hmul : (parts.map (contribution · windowSize)).sum * windowSize
      < (contribution parts.sum windowSize + parts.length) * windowSize := by
    rw [Nat.add_mul]
    unfold contribution at *
    omega
  have hsum := Nat.lt_of_mul_lt_mul_right hmul
  omega

/-! ## Runs -/

structure AddCall where
  units : Nat
  ordinal : Nat
  windowSize : Nat

/-- The accumulators that calls with positive windows make of the new one. -/
abbrev FromZero : UsageAccumulator → Prop :=
  Reachable (fun acc (c : AddCall) => acc.add .wrapping c.units c.ordinal c.windowSize)
    (fun _ c => 0 < c.windowSize) (· = {})

theorem FromZero.words (h : FromZero acc) : acc.Words :=
  h.invariant (fun _ hs => hs ▸ ⟨by decide, by decide⟩) fun _ _ _ _ _ hstep => words_of_add hstep

/-- **Additions are atomic, monotone and exact.** A call throws and leaves the object as it was, or
it returns and has wrapped nothing. No units do not raise the average, and more units do not make it
smaller; in `k` parts they make it greater by at most `k - 1`. The average is zero after a whole
window without a call. -/
theorem addInPlace_of_fromZero (hacc : FromZero acc) (hwindow : 0 < windowSize) :
    ((∃ e, addInPlace units ordinal windowSize acc = .error e acc)
        ∨ ∃ acc', addInPlace units ordinal windowSize acc = .ok () acc'
          ∧ acc.add .trapping units ordinal windowSize = .ok acc')
      ∧ (∀ acc', addInPlace 0 ordinal windowSize acc = .ok () acc' → acc'.valueEx ≤ acc.valueEx)
      ∧ (∀ more acc₁ acc₂, units ≤ more → addInPlace units ordinal windowSize acc = .ok () acc₁ →
        addInPlace more ordinal windowSize acc = .ok () acc₂ → acc₁.valueEx ≤ acc₂.valueEx)
      ∧ (∀ (parts : List Nat) acc₁ acc₂, parts ≠ [] → parts.sum = units →
        addInPlace units ordinal windowSize acc = .ok () acc₁ →
        (parts.forM (addInPlace · ordinal windowSize)) acc = .ok () acc₂ →
        acc₁.valueEx ≤ acc₂.valueEx ∧ acc₂.valueEx ≤ acc₁.valueEx + (parts.length - 1))
      ∧ (acc.lastOrdinal + windowSize ≤ ordinal →
        ∃ acc', addInPlace 0 ordinal windowSize acc = .ok () acc' ∧ acc'.valueEx = 0) := by
  have hwords := hacc.words
  have hzero : contribution 0 windowSize = 0 := by
    unfold contribution integerDivideCeil
    simp
  refine ⟨?_, fun acc' h => ?_, fun more acc₁ acc₂ hle h₁ h₂ => ?_,
    fun parts acc₁ acc₂ hparts hsum h₁ h₂ => ?_, fun hlate => ?_⟩
  · cases hadd : acc.add .wrapping units ordinal windowSize with
    | error e => exact .inl ⟨e, by rw [addInPlace_eq, attempt_eq_error]; exact ⟨hadd, rfl⟩⟩
    | ok acc' => exact .inr ⟨acc', addInPlace_eq_ok.2 hadd, add_trapping hwords hadd⟩
  · rw [valueEx_addInPlace hwords h, hzero]
    exact acc.decayed_le ordinal windowSize
  · rw [valueEx_addInPlace hwords h₁, valueEx_addInPlace hwords h₂]
    refine Nat.add_le_add_left ((integerDivideCeil_le_iff hwindow).2 ?_) _
    exact Nat.le_trans (Nat.mul_le_mul_right _ hle) (le_integerDivideCeil_mul hwindow _)
  · cases parts with
    | nil => exact absurd rfl hparts
    | cons part rest =>
      obtain ⟨acc₃, hpart, hrest⟩ := forM_cons_eq_ok h₂
      have hbounds := contribution_parts hwindow hparts
      have hvalue := valueEx_addInPlace hwords hpart
      rw [addInPlace_eq_ok] at hpart
      rw [valueEx_forM (words_of_add hpart) (lastOrdinal_add hpart) hrest,
        valueEx_addInPlace hwords h₁, ← hsum]
      simp only [map_cons, sum_cons] at hbounds ⊢
      omega
  · have hdecayed : acc.decayed ordinal windowSize = 0 := by
      rw [decayed, if_neg (by omega), if_neg (by omega)]
    have hadvance : acc.advance .wrapping ordinal windowSize = .ok ⟨ordinal, 0, 0⟩ :=
      advance_eq_ok.2 (.inr ⟨by omega, fun h => by omega, by rw [hdecayed]; rfl⟩)
    refine ⟨⟨ordinal, 0, 0⟩, addInPlace_eq_ok.2 (add_eq_ok.2 ?_), rfl⟩
    rw [hzero]
    exact ⟨zero_le _, zero_le _, zero_le _, _, hadvance,
      Arithmetic.fit_of_lt (Nat.two_pow_pos 64), Arithmetic.fit_of_lt (Nat.two_pow_pos 64), rfl⟩

/-- A unit in a window of two, and its half one period later. -/
theorem addInPlace_of_fromZero_halved :
    ∃ acc, FromZero acc ∧ acc.valueEx = 250000
      ∧ ∃ acc', addInPlace 0 3 2 acc = .ok () acc' ∧ acc'.valueEx = 0 := by
  have hunit : FromZero ⟨0, 500000, 1⟩ :=
    .step (a := ⟨1, 0, 2⟩) (.start rfl) (by decide) (by decide +kernel)
  have hacc : FromZero ⟨1, 250000, 1⟩ :=
    .step (a := ⟨0, 1, 2⟩) hunit (by decide) (by decide +kernel)
  obtain ⟨-, -, -, -, hlate⟩ := @addInPlace_of_fromZero _ 0 3 2 hacc (by decide)
  exact ⟨_, hacc, rfl, hlate (by decide)⟩

/-- Calls without units put this off: two periods after the last unit, in a window of two, the
average is not zero. -/
theorem valueEx_after_idle_window :
    addInPlace 1 0 2 {} = .ok () ⟨0, 500000, 1⟩
      ∧ addInPlace 0 1 2 ⟨0, 500000, 1⟩ = .ok () ⟨1, 250000, 1⟩
      ∧ addInPlace 0 2 2 ⟨1, 250000, 1⟩ = .ok () ⟨2, 125000, 1⟩ := by
  simp only [addInPlace_eq, attempt_eq_ok]
  decide +kernel

end UsageAccumulator

end PotatoNode.Chain
