import Mathlib.Data.List.Perm.Subperm

/-!
# Chains of a partial function

A partial function followed from an element on, until it is not defined. If the chain ends, no
element on it returns to itself, so it has no more steps than the function has arguments.
-/

namespace PotatoNode.Lib

open List Nat

variable {α : Type} {f : α → Option α} {a b c : α} {n m : Nat}

/-- Following `f` from the first element ends after `n` steps at the last one. -/
inductive EndsIn (f : α → Option α) : (n : Nat) → α → α → Prop where
  | stop {a : α} (h : f a = none) : EndsIn f 0 a a
  | step {n : Nat} {a b c : α} (h : f a = some b) (rest : EndsIn f n b c) : EndsIn f (n + 1) a c

namespace EndsIn

section

variable (h : EndsIn f n a b)
include h

theorem apply_last : f b = none := by
  induction h with
  | stop h => exact h
  | step _ _ ih => exact ih

theorem reflTransGen : Relation.ReflTransGen (fun x y => f x = some y) a b := by
  induction h with
  | stop => exact .refl
  | step h _ ih => exact .head h ih

theorem steps_eq (h' : EndsIn f m a c) : n = m := by
  induction h generalizing m with
  | stop h =>
    cases h' with
    | stop => rfl
    | step hb => simp [h] at hb
  | step h _ ih =>
    cases h' with
    | stop hnone => simp [h] at hnone
    | step hb rest =>
      rw [h] at hb
      cases hb
      rw [ih rest]

theorem of_transGen (hc : Relation.TransGen (fun x y => f x = some y) a c) :
    ∃ m < n, EndsIn f m c b := by
  have hstep : ∀ {x y n}, EndsIn f n x b → f x = some y → ∃ m < n, EndsIn f m y b := by
    intro x y n hx hxy
    cases hx with
    | stop hnone => simp [hxy] at hnone
    | step hy rest =>
      rw [hxy] at hy
      cases hy
      exact ⟨_, lt_succ_self _, rest⟩
  induction hc with
  | single hac => exact hstep h hac
  | tail _ hcd ih =>
    obtain ⟨m, hm, hend⟩ := ih
    obtain ⟨k, hk, hend⟩ := hstep hend hcd
    exact ⟨k, Nat.lt_trans hk hm, hend⟩

theorem not_transGen_self : ¬ Relation.TransGen (fun x y => f x = some y) a a := by
  intro hcycle
  obtain ⟨m, hm, hend⟩ := h.of_transGen hcycle
  exact Nat.ne_of_gt hm (h.steps_eq hend)

/-- The elements that a chain passes are different arguments of the function. -/
theorem exists_nodup :
    ∃ l : List α, l.length = n ∧ l.Nodup ∧
      ∀ x ∈ l, (f x).isSome = true ∧ ∃ m ≤ n, EndsIn f m x b := by
  induction h with
  | stop => exact ⟨[], rfl, nodup_nil, nofun⟩
  | @step n a b c h rest ih =>
    obtain ⟨l, hlength, hnodup, hl⟩ := ih
    have hnot : a ∉ l := by
      intro ha
      obtain ⟨-, m, hm, hend⟩ := hl a ha
      have := hend.steps_eq (.step h rest)
      omega
    refine ⟨a :: l, by simp [hlength], nodup_cons.2 ⟨hnot, hnodup⟩, ?_⟩
    intro x hx
    rcases mem_cons.1 hx with rfl | hx
    · exact ⟨by simp [h], n + 1, Nat.le_refl _, .step h rest⟩
    · obtain ⟨hsome, m, hm, hend⟩ := hl x hx
      exact ⟨hsome, m, le_succ_of_le hm, hend⟩

theorem steps_le {args : List α} (hargs : ∀ x, (f x).isSome = true → x ∈ args) :
    n ≤ args.length := by
  obtain ⟨l, rfl, hnodup, hl⟩ := h.exists_nodup
  exact (subperm_of_subset hnodup fun x hx => hargs x (hl x hx).1).length_le

end

end EndsIn

/-- **Loops without a bound.** With the iterations that `f` says, a loop gets to its end on some
amount of fuel if and only if the chain ends where it `stops`. -/
theorem exists_fuel_iff {β : Type} (loop : Nat → α → β) {out : β} (stops : α → Prop)
    (hzero : ∀ a, loop 0 a = out)
    (hstep : ∀ fuel a b, f a = some b → loop (fuel + 1) a = loop fuel b)
    (hstop : ∀ fuel a, f a = none → (loop (fuel + 1) a ≠ out ↔ stops a)) (a : α) :
    (∃ fuel, loop fuel a ≠ out) ↔ ∃ n b, EndsIn f n a b ∧ stops b := by
  constructor
  · rintro ⟨fuel, h⟩
    induction fuel generalizing a with
    | zero => exact absurd (hzero a) h
    | succ fuel ih =>
      cases ha : f a with
      | none => exact ⟨0, a, .stop ha, (hstop fuel a ha).1 h⟩
      | some b =>
        rw [hstep fuel a b ha] at h
        obtain ⟨n, c, hend, hc⟩ := ih b h
        exact ⟨n + 1, c, .step ha hend, hc⟩
  · rintro ⟨n, b, hend, hb⟩
    induction hend with
    | stop ha => exact ⟨1, (hstop 0 _ ha).2 hb⟩
    | step ha _ ih =>
      obtain ⟨fuel, h⟩ := ih hb
      exact ⟨fuel + 1, by rwa [hstep _ _ _ ha]⟩

/-- A chain among finitely many arguments ends unless it comes to an element twice. -/
theorem exists_endsIn_iff (args : List α) (hargs : ∀ x, (f x).isSome = true → x ∈ args) (a : α) :
    (∃ n b, EndsIn f n a b) ↔ ∀ c, Relation.ReflTransGen (fun x y => f x = some y) a c →
      ¬ Relation.TransGen (fun x y => f x = some y) c c := by
  constructor
  · rintro ⟨n, b, h⟩ c hc
    rcases Relation.reflTransGen_iff_eq_or_transGen.1 hc with rfl | hc
    · exact h.not_transGen_self
    · obtain ⟨m, -, hend⟩ := h.of_transGen hc
      exact hend.not_transGen_self
  · intro h
    -- `l` has the arguments that were passed so far, `k` bounds the number of those to come
    have hloop : ∀ (k : Nat) (l : List α) (c : α), args.length < l.length + k →
        Relation.ReflTransGen (fun x y => f x = some y) a c → l.Nodup →
        (∀ x ∈ l, x ∈ args ∧ Relation.TransGen (fun x y => f x = some y) x c) →
        ∃ n b, EndsIn f n c b := by
      intro k
      induction k with
      | zero =>
        intro l c hk _ hnodup hl
        have hle := (subperm_of_subset hnodup fun x hx => (hl x hx).1).length_le
        omega
      | succ k ih =>
        intro l c hk hc hnodup hl
        cases hf : f c with
        | none => exact ⟨0, c, .stop hf⟩
        | some d =>
          obtain ⟨n, b, hend⟩ := ih (c :: l) d (by rw [length_cons]; omega) (hc.tail hf)
            (nodup_cons.2 ⟨fun hmem => h c hc (hl c hmem).2, hnodup⟩)
            (forall_mem_cons.2 ⟨⟨hargs c (by simp [hf]), .single hf⟩,
              fun x hx => ⟨(hl x hx).1, (hl x hx).2.tail hf⟩⟩)
          exact ⟨n + 1, b, .step hf hend⟩
    exact hloop (args.length + 1) [] a (by simp) .refl nodup_nil nofun

end PotatoNode.Lib
