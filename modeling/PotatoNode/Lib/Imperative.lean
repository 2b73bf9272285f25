import Mathlib.Data.List.Basic

/-!
# Statements with state and exceptions

`EStateM ε S` is a C++ statement over the state `S`: it returns or throws, and what it has
changed by then stays changed. `Ends x s Q E` says how `x` ends when it is run in state `s`: it
returns with `Q`, or throws with `E`. One rule for each way to build a statement turns `Ends` of
the whole into `Ends` of the parts; `ends_forM` is the invariant rule for a loop. `Meets` is the
same for a call that has no state of its own.
-/

namespace PotatoNode.Lib

open List

variable {ε S T L α β : Type}

/-! ## Calls that return or throw -/

section Except

variable {x : Except ε α} {f : α → Except ε β} {l : List α}

theorem ok_bind {a : α} : (Except.ok a >>= f) = f a := rfl

/-- What a successful sequence of two calls went through. -/
theorem bind_eq_ok {b : β} : (x >>= f) = .ok b ↔ ∃ a, x = .ok a ∧ f a = .ok b := by
  cases x with
  | error e | ok a => simp [bind, Except.bind]

theorem bind₂_eq_ok {γ : Type} {g : α → β → Except ε γ} {c : γ} :
    (x >>= fun a => f a >>= g a) = .ok c ↔ ∃ a, x = .ok a ∧ ∃ b, f a = .ok b ∧ g a b = .ok c := by
  simp only [bind_eq_ok]

theorem bind₃_eq_ok {γ δ : Type} {g : α → β → Except ε γ} {k : α → β → γ → Except ε δ} {d : δ} :
    (x >>= fun a => f a >>= fun b => g a b >>= k a b) = .ok d ↔
      ∃ a, x = .ok a ∧ ∃ b, f a = .ok b ∧ ∃ c, g a b = .ok c ∧ k a b c = .ok d := by
  simp only [bind_eq_ok]

/-- A loop whose iterations return collects what they return. -/
theorem exists_mapM_eq_ok (h : ∀ a ∈ l, ∃ b, f a = .ok b) :
    ∃ bs, l.mapM f = .ok bs ∧ ∀ b, b ∈ bs ↔ ∃ a ∈ l, f a = .ok b := by
  induction l with
  | nil => exact ⟨[], rfl, by simp⟩
  | cons a rest ih =>
    obtain ⟨b, hb⟩ := h a mem_cons_self
    obtain ⟨bs, hbs, hmem⟩ := ih fun a' ha' => h a' (mem_cons_of_mem _ ha')
    refine ⟨b :: bs, ?_, fun c => ?_⟩
    · rw [mapM_cons, hb, hbs]
      rfl
    · simp [hmem, hb, eq_comm]

theorem mapM_eq_ok {bs : List β} (h : l.mapM f = .ok bs) {a : α} (ha : a ∈ l) :
    ∃ b, f a = .ok b := by
  induction l generalizing bs with
  | nil => cases ha
  | cons a' rest ih =>
    rw [mapM_cons] at h
    obtain ⟨b, hb, h⟩ := bind_eq_ok.1 h
    obtain ⟨bs', hbs, -⟩ := bind_eq_ok.1 h
    rcases mem_cons.1 ha with rfl | ha
    · exact ⟨b, hb⟩
    · exact ih hbs ha

theorem forM_eq_ok {f : α → Except ε Unit} {u : Unit} :
    l.forM f = .ok u ↔ ∀ a ∈ l, f a = .ok () := by
  induction l with
  | nil => simp [pure, Except.pure]
  | cons a rest ih =>
    show (f a >>= fun _ => rest.forM f) = _ ↔ _
    rw [bind_eq_ok, forall_mem_cons, ← ih]
    exact ⟨fun ⟨_, ha, hrest⟩ => ⟨ha, hrest⟩, fun ⟨ha, hrest⟩ => ⟨_, ha, hrest⟩⟩

instance decidableForallOk {P : α → Prop} [∀ a, Decidable (P a)] :
    Decidable (∀ a, x = .ok a → P a) :=
  match x with
  | .ok a => decidable_of_iff (P a) ⟨fun h b hb => by injection hb with hb; exact hb ▸ h,
      fun h => h a rfl⟩
  | .error _ => isTrue fun a ha => by cases ha

instance decidableForallError {P : ε → Prop} [∀ e, Decidable (P e)] :
    Decidable (∀ e, x = .error e → P e) :=
  match x with
  | .ok _ => isTrue fun e he => by cases he
  | .error e => decidable_of_iff (P e) ⟨fun h e' he => by injection he with he; exact he ▸ h,
      fun h => h e rfl⟩

instance (priority := low) decidableEqError [DecidableEq ε] {e : ε} : Decidable (x = .error e) :=
  match x with
  | .ok _ => isFalse nofun
  | .error e' => decidable_of_iff (e' = e) ⟨congrArg _, fun h => by injection h⟩

instance decidableExistsOk : Decidable (∃ a, x = .ok a) :=
  match x with
  | .ok a => isTrue ⟨a, rfl⟩
  | .error _ => isFalse fun ⟨a, ha⟩ => by cases ha

/-- The call returns with `Q`, or throws with `E`. -/
def Meets (x : Except ε α) (Q : α → Prop) (E : ε → Prop) : Prop :=
  match x with
  | .ok a => Q a
  | .error e => E e

variable {Q Q' : α → Prop} {E E' : ε → Prop} {a : α}

theorem Meets.of_ok (h : Meets x Q E) (hx : x = .ok a) : Q a := by
  rwa [hx] at h

theorem Meets.of_error {e : ε} (h : Meets x Q E) (hx : x = .error e) : E e := by
  rwa [hx] at h

theorem meets_of_eq_ok (hx : x = .ok a) (h : Q a) : Meets x Q E := by
  rw [hx]
  exact h

theorem Meets.mono (h : Meets x Q E) (hQ : ∀ a, Q a → Q' a) (hE : ∀ e, E e → E' e) :
    Meets x Q' E' := by
  cases x with
  | ok a => exact hQ a h
  | error e => exact hE e h

theorem meets_bind {Q : β → Prop} : Meets (x >>= f) Q E ↔ Meets x (fun a => Meets (f a) Q E) E := by
  cases x with
  | ok a | error e => exact Iff.rfl

theorem meets_ok_iff : Meets x Q (fun _ => True) ↔ ∀ a, x = .ok a → Q a := by
  cases x with
  | ok a | error e => simp [Meets]

variable {f : S → α → Except ε S}

theorem meets_foldlM {I : List α → S → Prop}
    (hstep : ∀ a rest s, I (a :: rest) s → Meets (f s a) (I rest) E) :
    ∀ (l : List α) (s : S), I l s → Meets (l.foldlM f s) (I []) E
  | [], _, h => h
  | a :: rest, s, h => by
    rw [foldlM_cons, meets_bind]
    exact (hstep a rest s h).mono (fun t ht => meets_foldlM hstep rest t ht) fun _ he => he

theorem foldlM_invariant {I : S → Prop} {s t : S}
    (h : l.foldlM f s = .ok t) (hstep : ∀ s a t, I s → f s a = .ok t → I t) (hs : I s) : I t := by
  have hloop : Meets (l.foldlM f s) I fun _ => True := meets_foldlM (I := fun _ => I)
    (fun a _ s hs => meets_ok_iff.2 fun t => hstep s a t hs) l s hs
  exact hloop.of_ok h

end Except

/-! ## Statements -/

/-- Run in `s`, the statement returns with `Q` or throws with `E`. -/
def Ends (x : EStateM ε S α) (s : S) (Q : α → S → Prop) (E : ε → S → Prop) : Prop :=
  match x s with
  | .ok a t => Q a t
  | .error e t => E e t

/-- A change that throws before it has changed anything. -/
def attempt (f : S → Except ε S) : EStateM ε S Unit := fun s =>
  match f s with
  | .ok t => .ok () t
  | .error e => .error e s

/-- A computation that reads the state and may throw. -/
def compute (f : S → Except ε α) : EStateM ε S α := fun s =>
  match f s with
  | .ok a => .ok a s
  | .error e => .error e s

def whenever (cond : Prop) [Decidable cond] (x : EStateM ε S Unit) : EStateM ε S Unit :=
  if cond then x else pure ()

def zoom (get : S → T) (set : S → T → S) (x : EStateM ε T α) : EStateM ε S α := fun s =>
  match x (get s) with
  | .ok a t => .ok a (set s t)
  | .error e t => .error e (set s t)

/-- A statement with a local variable, which starts as `l`. -/
def withLocal (l : L) (x : EStateM ε (S × L) α) : EStateM ε S α := fun s =>
  match x (s, l) with
  | .ok a t => .ok a t.1
  | .error e t => .error e t.1

/-- A statement that does not touch the local variable. -/
def outer (x : EStateM ε S α) : EStateM ε (S × L) α := zoom Prod.fst (fun p s => (s, p.2)) x

/-- A scope with a local object whose destructor changes the state. The statement says by its flag
whether it has released the object: then `released` happens, and otherwise `dropped`, as it does when
an exception leaves the scope. -/
def scope (released dropped : S → S) (x : EStateM ε S (Bool × α)) : EStateM ε S α := fun s =>
  match x s with
  | .ok (true, a) t => .ok a (released t)
  | .ok (false, a) t => .ok a (dropped t)
  | .error e t => .error e (dropped t)

section Rules

variable {x : EStateM ε S α} {s t : S} {a : α} {e : ε} {Q Q' : α → S → Prop} {E E' : ε → S → Prop}

theorem Ends.of_ok (h : Ends x s Q E) (hx : x s = .ok a t) : Q a t := by
  unfold Ends at h
  rwa [hx] at h

theorem Ends.of_error (h : Ends x s Q E) (hx : x s = .error e t) : E e t := by
  unfold Ends at h
  rwa [hx] at h

theorem ends_of_cases (hok : ∀ a t, x s = .ok a t → Q a t)
    (herror : ∀ e t, x s = .error e t → E e t) : Ends x s Q E := by
  unfold Ends
  cases hx : x s with
  | ok a t => exact hok a t hx
  | error e t => exact herror e t hx

theorem Ends.mono (h : Ends x s Q E) (hQ : ∀ a t, Q a t → Q' a t) (hE : ∀ e t, E e t → E' e t) :
    Ends x s Q' E' :=
  ends_of_cases (fun a t hx => hQ a t (h.of_ok hx)) fun e t hx => hE e t (h.of_error hx)

theorem Ends.iff {P : S → Prop} {C : Prop} (h : Ends x s (fun _ t => P t ↔ C) fun _ t => P t ↔ C) :
    (Ends x s (fun _ t => P t) fun _ t => P t) ↔ C := by
  unfold Ends at h ⊢
  cases hx : x s with
  | ok a t | error e t => rwa [hx] at h

instance decidableEnds [∀ a t, Decidable (Q a t)] [∀ e t, Decidable (E e t)] :
    Decidable (Ends x s Q E) :=
  match hx : x s with
  | .ok a t => decidable_of_iff (Q a t) (by unfold Ends; rw [hx])
  | .error e t => decidable_of_iff (E e t) (by unfold Ends; rw [hx])

variable {f : α → EStateM ε S β}

theorem bind_apply :
    (x >>= f) s = match x s with
      | .ok a t => f a t
      | .error e t => .error e t := by
  show EStateM.bind x f s = _
  unfold EStateM.bind
  cases x s <;> rfl

theorem pure_apply : (pure a : EStateM ε S α) s = .ok a s := rfl

theorem ends_pure : Ends (pure a) s Q E ↔ Q a s := Iff.rfl

theorem ends_bind {Q : β → S → Prop} :
    Ends (x >>= f) s Q E ↔ Ends x s (fun a t => Ends (f a) t Q E) E := by
  show (match EStateM.bind x f s with | .ok a t => Q a t | .error e t => E e t) ↔ _
  unfold Ends EStateM.bind
  cases x s with
  | ok a t | error e t => exact Iff.rfl

theorem ends_tryCatch {h : ε → EStateM ε S α} :
    Ends (tryCatch x h) s Q E ↔ Ends x s Q fun e t => Ends (h e) t Q E := by
  show (match EStateM.tryCatch x h s with | .ok a t => Q a t | .error e t => E e t) ↔ _
  unfold Ends EStateM.tryCatch
  cases x s with
  | ok a t | error e t => exact Iff.rfl

theorem ends_whenever {cond : Prop} [Decidable cond] {x : EStateM ε S Unit}
    {Q : Unit → S → Prop} :
    Ends (whenever cond x) s Q E ↔ if cond then Ends x s Q E else Q () s := by
  unfold whenever
  by_cases hcond : cond
  · rw [if_pos hcond, if_pos hcond]
  · rw [if_neg hcond, if_neg hcond]
    exact Iff.rfl

theorem ends_get {Q : S → S → Prop} : Ends get s Q E ↔ Q s s := Iff.rfl

theorem ends_zoom {y : EStateM ε T α} {get : S → T} {set : S → T → S} :
    Ends (zoom get set y) s Q E
      ↔ Ends y (get s) (fun a t => Q a (set s t)) fun e t => E e (set s t) := by
  unfold Ends zoom
  cases y (get s) with
  | ok a t | error e t => exact Iff.rfl

theorem ends_withLocal {y : EStateM ε (S × L) α} {l : L} :
    Ends (withLocal l y) s Q E ↔ Ends y (s, l) (fun a t => Q a t.1) fun e t => E e t.1 := by
  unfold Ends withLocal
  cases y (s, l) with
  | ok a t | error e t => exact Iff.rfl

variable {f : S → S}

theorem ends_modify {Q : PUnit → S → Prop} : Ends (modify f) s Q E ↔ Q () (f s) := Iff.rfl

theorem ends_modifyThe {Q : PUnit → S → Prop} : Ends (modifyThe S f) s Q E ↔ Q () (f s) := Iff.rfl

theorem ends_getThe {Q : S → S → Prop} : Ends (getThe S) s Q E ↔ Q s s := Iff.rfl

variable {f : S → Except ε S}

theorem attempt_eq_ok {u : Unit} : attempt f s = .ok u t ↔ f s = .ok t := by
  unfold attempt
  cases f s with
  | ok t' => simp
  | error e => simp

theorem attempt_eq_error : attempt f s = .error e t ↔ f s = .error e ∧ t = s := by
  unfold attempt
  cases f s with
  | ok t' => simp
  | error e => simp [eq_comm]

theorem ends_attempt {Q : Unit → S → Prop} :
    Ends (attempt f) s Q E ↔ match f s with
      | .ok t => Q () t
      | .error e => E e s := by
  unfold Ends attempt
  cases f s with
  | ok t | error e => exact Iff.rfl

theorem ends_compute {f : S → Except ε α} :
    Ends (compute f) s Q E ↔ match f s with
      | .ok a => Q a s
      | .error e => E e s := by
  unfold Ends compute
  cases f s with
  | ok a | error e => exact Iff.rfl

theorem ends_forM {f : α → EStateM ε S PUnit} {I : List α → S → Prop} :
    ∀ (rest done : List α) (s : S),
      (∀ done a s, a ∈ rest → I done s → Ends (f a) s (fun _ t => I (done ++ [a]) t) E) →
      I done s → Ends (rest.forM f) s (fun _ t => I (done ++ rest) t) E
  | [], done, s, _, h => by
    rw [append_nil]
    exact h
  | a :: rest, done, s, hstep, h => by
    show Ends (f a >>= fun _ => rest.forM f) s _ E
    rw [ends_bind]
    refine (hstep done a s mem_cons_self h).mono ?_ fun _ _ he => he
    intro _ t ht
    have hrest := ends_forM rest (done ++ [a]) t
      (fun done x s hx => hstep done x s (mem_cons_of_mem _ hx)) ht
    rwa [append_assoc] at hrest

end Rules

/-! ## What a statement leaves alone -/

/-- When the statement returns, `f` of the state is as it was. -/
def Leaves (f : S → L) (x : EStateM ε S α) : Prop :=
  ∀ s, Ends x s (fun _ t => f t = f s) fun _ _ => True

section Leaves

variable {f : S → L} {x : EStateM ε S α}

theorem leaves_bind {y : α → EStateM ε S β} (hx : Leaves f x) (hy : ∀ a, Leaves f (y a)) :
    Leaves f (x >>= y) := by
  intro s
  rw [ends_bind]
  refine (hx s).mono (fun a t ht => ?_) fun _ _ _ => trivial
  exact (hy a t).mono (fun b u hu => hu.trans ht) fun _ _ _ => trivial

theorem leaves_pure {a : α} : Leaves f (pure a : EStateM ε S α) := fun _ => rfl

theorem leaves_throw {e : ε} : Leaves f (throw e : EStateM ε S α) := fun _ => trivial

theorem leaves_getThe : Leaves f (getThe S : EStateM ε S S) := fun _ => rfl

theorem leaves_modifyThe {g : S → S} (hg : ∀ s, f (g s) = f s) :
    Leaves f (modifyThe S g : EStateM ε S PUnit) := hg

theorem leaves_whenever {cond : Prop} [Decidable cond] {x : EStateM ε S Unit} (hx : Leaves f x) :
    Leaves f (whenever cond x) := by
  intro s
  rw [ends_whenever]
  by_cases hcond : cond
  · rw [if_pos hcond]
    exact hx s
  · rw [if_neg hcond]

theorem leaves_attempt {g : S → Except ε S} (hg : ∀ s t, g s = .ok t → f t = f s) :
    Leaves f (attempt g) := by
  intro s
  rw [ends_attempt]
  cases h : g s with
  | ok t => exact hg s t h
  | error e => trivial

theorem leaves_compute {g : S → Except ε α} : Leaves f (compute g) := by
  intro s
  rw [ends_compute]
  cases g s <;> trivial

theorem leaves_outer {f : S → T} (hx : Leaves f x) : Leaves (fun p : S × L => f p.1) (outer x) := by
  intro p
  show Ends (zoom _ _ x) p _ _
  rw [ends_zoom]
  exact hx p.1

end Leaves

end PotatoNode.Lib
