import PotatoNode.Chain.LogIrreversible

/-!
# The block log and the root of the fork database

`log_irreversible` starts with the assertion that the root of the fork database is the last block
of the log. Whether that holds again when it is left depends on where an exception is thrown:
`root_id` moves between `db.commit` and `blog.append`, and only the handler for `fc::exception`
advances the root.
-/

namespace PotatoNode.Chain

open Lib Option

variable {σ : Type}

namespace ForkDatabase

variable {d : ForkDatabase} {id : BlockId}

/-- The block `id` can become the root: it is validated, and the head is on top of it. -/
def CanAdvance (d : ForkDatabase) (id : BlockId) : Prop :=
  (∃ b ∈ d.index, b.id = id ∧ b.validated = true) ∧ d.index.Below id d.head.id

variable {b : BlockState}

theorem TreeInv.below_root (h : d.TreeInv) (hb : d.InTree b) : d.index.Below d.root.id b.id := by
  obtain ⟨l, hbranch, -⟩ := h.fetchBranch_spec hb 0
  exact hbranch.bottom_below

variable {d' : ForkDatabase}

theorem canAdvance_of_advanceRoot (h : d.TreeInv) (hadv : advanceRoot id d = .ok () d') :
    d.CanAdvance id ∧ d'.root.id = id := by
  have htree := h.advanceRoot hadv
  obtain ⟨newRoot, ids, d₁, hnew, hid, hv, -, hdone, rfl⟩ := advanceRoot_eq_ok h hadv
  refine ⟨⟨⟨newRoot, hnew, hid, hv⟩, ?_⟩, hid⟩
  -- the head is on top of the new root afterwards, and no block has been added
  have hbelow := htree.below_root (htree.head_mem.imp_right And.left)
  have hhead : d₁.head = d.head := hdone.head
  rw [hhead, hid] at hbelow
  exact hbelow.mono fun b hb => (hdone.sub b hb).1

theorem root_of_advanceRoot_error {e : Failure} (hadv : advanceRoot id d = .error e d') :
    d'.root = d.root := by
  have hends : Ends (advanceRoot id) d (fun _ _ => True) fun _ d' => d'.root = d.root := by
    unfold advanceRoot
    rw [ends_bind, ends_compute]
    split
    · rw [ends_bind, ends_modify, ends_bind]
      refine (ends_forM (I := fun _ t => t.root = d.root) _ [] _ ?_ rfl).mono
        (fun _ _ _ => trivial) fun _ _ h => h
      intro _ blockId t _ ht
      rw [ends_attempt]
      split
      · next t' ht' => exact (Pruned.of_remove ht').1.root.trans ht
      · exact ht
    · rfl
  exact hends.of_error hadv

/-- **`advance_root`** moves the root if it can, and throws otherwise. -/
theorem TreeInv.ends_advanceRoot (h : d.TreeInv) :
    Ends (ForkDatabase.advanceRoot id) d (fun _ t => d.CanAdvance id ∧ t.root.id = id)
      fun _ t => ¬ d.CanAdvance id ∧ t.root = d.root := by
  refine ends_of_cases (fun _ t hok => canAdvance_of_advanceRoot h hok) fun e t herror => ?_
  refine ⟨fun ⟨⟨b, hb, hid, hv⟩, hbelow⟩ => ?_, root_of_advanceRoot_error herror⟩
  subst hid
  obtain ⟨d', hok⟩ := h.advanceRoot_returns hb hv hbelow
  rw [hok] at herror
  cases herror

theorem root_of_markValid (h : d.markValid b = .ok d') : d'.root = d.root := by
  rcases markValid_eq_ok h with ⟨-, rfl⟩ | ⟨-, _, _, _, rfl⟩
  · rfl
  · rfl

end ForkDatabase

namespace Controller

def Agrees (c : Controller σ) : Prop := ∃ h, c.blog.head = some h ∧ c.forkDb.root.id = h.id

/-! ## How the loop ends -/

/-- The part of an iteration before `root_id` moves. -/
def prepareBlock (env : Env σ) (b : BlockState) : ControllerM σ Unit := do
  let c ← get
  whenever (c.readMode = .irreversible) (do
    applyBlock env b .complete
    modify fun c => { c with head := b }
    onForkDb (attempt fun d => d.markValid b)
    modify fun c => { c with head := b.setValidated true })
  emit (env.irreversibleBlock b)
  fallible (env.commitDb b)

/-- `db.commit` and `blog.append` are done. -/
def afterLog (c : Controller σ) (b : BlockState) : Controller σ :=
  { c with db := c.db.commit b.blockNum, blog := { c.blog with head := some b } }

/-- The steps of an iteration. -/
inductive LogStep where
  /-- applying the block, the signal `irreversible_block`, `db.commit` -/
  | prepare
  /-- `blog.append`, until the head of the log is set -/
  | append
  /-- flushing the log, removing the reversible blocks -/
  | removeReversible

/-- The block whose iteration throws, the step and what it throws. -/
structure LoopExit where
  block : BlockState
  step : LogStep
  thrown : Failure

/-- Where the loop stops: the fork database, the last block that is completely logged, if there
is one, and the exception. -/
structure LoopEnd where
  forkDb : ForkDatabase
  last : Option BlockState
  exit : Option LoopExit

def loopEnd (env : Env σ) : Controller σ → Option BlockState → List BlockState → LoopEnd
  | c, last, [] => ⟨c.forkDb, last, none⟩
  | c, last, b :: rest =>
    match prepareBlock env b c with
    | .error e c' => ⟨c'.forkDb, last, some ⟨b, .prepare, e⟩⟩
    | .ok _ c' =>
      match env.append b with
      | some e => ⟨c'.forkDb, last, some ⟨b, .append, e⟩⟩
      | none =>
        match env.removeReversible b with
        | some e => ⟨c'.forkDb, last, some ⟨b, .removeReversible, e⟩⟩
        | none => loopEnd env (c'.afterLog b) (some b) rest

/-- The ends of the loop after which the root is the last block of the log: the root is advanced
after an `fc::exception` only, and to the block that throws in `append` as well. -/
def LoopEnd.Harmless : LoopEnd → Prop
  | ⟨d, last, none⟩ => ∀ b ∈ last, d.CanAdvance b.id
  | ⟨d, last, some ⟨_, .prepare, e⟩⟩ => ∀ b ∈ last, e.isFcException = true ∧ d.CanAdvance b.id
  | ⟨d, last, some ⟨b, .append, e⟩⟩ => last = none ∧ ¬ (e.isFcException = true ∧ d.CanAdvance b.id)
  | ⟨d, _, some ⟨b, .removeReversible, e⟩⟩ => e.isFcException = true ∧ d.CanAdvance b.id

/-! ## What an iteration leaves alone -/

def SameLog (c t : Controller σ) : Prop := t.forkDb = c.forkDb ∧ t.blog = c.blog

/-- The statement does not touch fork database and block log, however it ends. -/
def KeepsLog {α : Type} (x : ControllerM σ α) : Prop :=
  ∀ c, Ends x c (fun _ t => c.SameLog t) fun _ t => c.SameLog t

section Keeps

variable {α β : Type} {env : Env σ} {x : ControllerM σ α}

theorem SameLog.trans {c t u : Controller σ} (h : c.SameLog t) (h' : t.SameLog u) : c.SameLog u :=
  ⟨h'.1.trans h.1, h'.2.trans h.2⟩

theorem KeepsLog.bind {f : α → ControllerM σ β} (hx : KeepsLog x) (hf : ∀ a, KeepsLog (f a)) :
    KeepsLog (x >>= f) := by
  intro c
  rw [ends_bind]
  refine (hx c).mono (fun a t ht => ?_) fun _ _ ht => ht
  exact (hf a t).mono (fun _ _ hu => ht.trans hu) fun _ _ hu => ht.trans hu

theorem KeepsLog.tryCatch {h : Failure → ControllerM σ α} (hx : KeepsLog x)
    (hh : ∀ e, KeepsLog (h e)) : KeepsLog (tryCatch x h) := by
  intro c
  rw [ends_tryCatch]
  refine (hx c).mono (fun _ _ ht => ht) fun e t ht => ?_
  exact (hh e t).mono (fun _ _ hu => ht.trans hu) fun _ _ hu => ht.trans hu

theorem keepsLog_get : KeepsLog (get : ControllerM σ (Controller σ)) := fun _ => ⟨rfl, rfl⟩

theorem keepsLog_throw {e : Failure} : KeepsLog (throw e : ControllerM σ α) := fun _ => ⟨rfl, rfl⟩

theorem keepsLog_pure {a : α} : KeepsLog (pure a : ControllerM σ α) := fun _ => ⟨rfl, rfl⟩

theorem keepsLog_modify {f : Controller σ → Controller σ}
    (h : ∀ c : Controller σ, c.SameLog (f c)) : KeepsLog (modify f : ControllerM σ Unit) := h

theorem keepsLog_fallible (outcome : Option Failure) :
    KeepsLog (fallible outcome : ControllerM σ Unit) := by
  intro c
  cases outcome with
  | none | some e => exact ⟨rfl, rfl⟩

variable {cond : Prop}

theorem keepsLog_require [Decidable cond] {type : ExceptionType} {message : String} :
    KeepsLog (require cond type message : ControllerM σ Unit) := by
  intro c
  rw [ends_require]
  split
  · exact ⟨rfl, rfl⟩
  · exact ⟨rfl, rfl⟩

theorem keepsLog_onState (y : EStateM Failure σ Unit) : KeepsLog (onState y) := by
  intro c
  unfold onState
  rw [ends_zoom]
  exact ends_of_cases (fun _ _ _ => ⟨rfl, rfl⟩) fun _ _ _ => ⟨rfl, rfl⟩

theorem KeepsLog.whenever [Decidable cond] {y : ControllerM σ Unit}
    (h : KeepsLog y) : KeepsLog (whenever cond y) := by
  intro c
  rw [ends_whenever]
  split
  · exact h c
  · exact ⟨rfl, rfl⟩

theorem keepsLog_resetPending : KeepsLog (resetPending : ControllerM σ Unit) := by
  apply keepsLog_modify
  intro c
  unfold cleared
  cases c.pending with
  | none | some _ => exact ⟨rfl, rfl⟩

theorem keepsLog_startBlock (b : BlockState) (s : BlockStatus) : KeepsLog (startBlock env b s) := by
  refine keepsLog_get.bind fun c => keepsLog_require.bind fun _ => ?_
  refine (keepsLog_fallible _).bind fun _ => keepsLog_require.bind fun _ => ?_
  refine KeepsLog.bind (keepsLog_modify ?_) fun _ => (keepsLog_onState _).tryCatch fun _ => ?_
  · exact fun _ => ⟨rfl, rfl⟩
  · exact keepsLog_resetPending.bind fun _ => keepsLog_throw

theorem keepsLog_commitBlockWith : KeepsLog (commitBlockWith env (pure ()) false) := by
  refine KeepsLog.bind (KeepsLog.tryCatch (keepsLog_get.bind fun c => ?_) fun e =>
    keepsLog_resetPending.bind fun _ => keepsLog_throw) fun _ => keepsLog_modify fun _ => ⟨rfl, rfl⟩
  split
  · -- the block is not added to the fork database
    have hskip : KeepsLog (Lib.whenever (false = true) (addCommitted env ‹_›)) :=
      fun _ => ⟨rfl, rfl⟩
    exact hskip.bind fun _ => (keepsLog_fallible _).whenever.bind fun _ =>
      (keepsLog_fallible _).bind fun _ => keepsLog_pure.whenever
  · exact keepsLog_throw

/-- **`apply_block`** leaves fork database and block log alone. -/
theorem keepsLog_applyBlock (b : BlockState) (s : BlockStatus) : KeepsLog (applyBlock env b s) := by
  refine KeepsLog.tryCatch ?_ fun e => keepsLog_resetPending.whenever.bind fun _ => keepsLog_throw
  cases b.block with
  | none => exact keepsLog_throw
  | some _ =>
    refine (keepsLog_startBlock b s).bind fun _ => (keepsLog_onState _).bind fun _ => ?_
    refine KeepsLog.bind (keepsLog_modify ?_) fun _ => keepsLog_commitBlockWith
    exact fun _ => ⟨rfl, rfl⟩

end Keeps

section Agreement

variable {env : Env σ} {c : Controller σ} {b : BlockState} {rootId : BlockId}

def SameRoot (c t : Controller σ) : Prop :=
  t.forkDb.TreeInv ∧ t.forkDb.root = c.forkDb.root ∧ t.blog = c.blog

theorem ends_prepareBlock (env : Env σ) (b : BlockState) (h : c.forkDb.TreeInv) :
    Ends (prepareBlock env b) c (fun _ t => c.SameRoot t) fun _ t => c.SameRoot t := by
  have hsame : ∀ t, c.SameLog t → c.SameRoot t := fun t ht =>
    ⟨ht.1 ▸ h, congrArg _ ht.1, ht.2⟩
  have hmark : Ends (whenever (c.readMode = .irreversible) (do
      applyBlock env b .complete
      modify fun c => { c with head := b }
      onForkDb (attempt fun d => d.markValid b)
      modify fun c => { c with head := b.setValidated true })) c
      (fun _ t => c.SameRoot t) fun _ t => c.SameRoot t := by
    rw [ends_whenever]
    split
    · rw [ends_bind]
      refine (keepsLog_applyBlock b .complete c).mono (fun _ t ht => ?_) fun _ t ht => hsame t ht
      unfold onForkDb
      rw [ends_bind, ends_modify, ends_bind, ends_zoom, ends_attempt]
      split
      · next d' hd' =>
        rw [ht.1] at hd'
        exact ⟨h.markValid hd', ForkDatabase.root_of_markValid hd', ht.2⟩
      · exact hsame _ ht
    · exact ⟨h, rfl, rfl⟩
  unfold prepareBlock
  rw [ends_bind, ends_get, ends_bind]
  refine hmark.mono (fun _ t ht => ?_) fun _ _ ht => ht
  have hrest := ((keepsLog_fallible (emitted (env.irreversibleBlock b))).bind fun _ =>
    keepsLog_fallible (env.commitDb b)) t
  have hlast : ∀ u, t.SameLog u → c.SameRoot u := fun u hu =>
    ⟨hu.1 ▸ ht.1, hu.1 ▸ ht.2.1, hu.2.trans ht.2.2⟩
  exact hrest.mono (fun _ u hu => hlast u hu) fun _ u hu => hlast u hu

theorem ends_logBlock_iff {Q : Unit → Controller σ × BlockId → Prop}
    {E : Failure → Controller σ × BlockId → Prop} :
    Ends (logBlock env b) (c, rootId) Q E ↔ Ends (prepareBlock env b) c
      (fun _ t => match env.append b with
        | some e => E e ({ t with db := t.db.commit b.blockNum }, b.id)
        | none => match env.removeReversible b with
          | some e => E e (t.afterLog b, b.id)
          | none => Q () (t.afterLog b, b.id))
      fun e t => E e (t, rootId) := by
  unfold logBlock prepareBlock outer emit
  simp only [ends_bind, ends_get]
  rw [ends_whenever, ends_whenever]
  split
  on_goal 1 => rw [ends_zoom]
  all_goals
    cases emitted (env.irreversibleBlock b) with
    | some e => exact Iff.rfl
    | none =>
      cases env.commitDb b with
      | some e => exact Iff.rfl
      | none =>
        cases env.append b with
        | some e => exact Iff.rfl
        | none =>
          cases env.removeReversible b with
          | some e | none => exact Iff.rfl

/-- The state of the loop. `n` is the number of the block that `root_id` names. -/
structure InLoop (c : Controller σ) (last : Option BlockState) (n : Nat)
    (t : Controller σ × BlockId) : Prop where
  tree : t.1.forkDb.TreeInv
  root : t.1.forkDb.root = c.forkDb.root
  log : ∃ h, t.1.blog.head = some h ∧ h.id = t.2
  num : numFromId t.2 = n
  le : c.forkDb.root.blockNum ≤ n
  last : match last with
    | none => t.2 = c.forkDb.root.id
    | some b => t.2 = b.id ∧ c.forkDb.root.blockNum < n

theorem InLoop.start (h : c.forkDb.TreeInv) (hagrees : c.Agrees) :
    InLoop c none c.forkDb.root.blockNum (c, c.forkDb.root.id) where
  tree := h
  root := rfl
  log := hagrees.imp fun _ hh => ⟨hh.1, hh.2.symm⟩
  num := c.forkDb.root.numbered.1
  le := Nat.le_refl _
  last := rfl

variable {last : Option BlockState} {n : Nat} {t : Controller σ × BlockId}

theorem InLoop.prepare {c₁ t : Controller σ} {last : Option BlockState} {n : Nat}
    (h : InLoop c last n (c₁, rootId)) (ht : c₁.SameRoot t) : InLoop c last n (t, rootId) where
  tree := ht.1
  root := ht.2.1.trans h.root
  log := by
    rw [ht.2.2]
    exact h.log
  num := h.num
  le := h.le
  last := h.last

theorem InLoop.afterLog {t : Controller σ} (h : InLoop c last n (t, rootId))
    (hb : b.blockNum = n + 1) : InLoop c (some b) (n + 1) (t.afterLog b, b.id) where
  tree := h.tree
  root := h.root
  log := ⟨b, rfl, rfl⟩
  num := b.numbered.1.trans hb
  le := Nat.le_succ_of_le h.le
  last := ⟨rfl, Nat.lt_succ_of_le h.le⟩

def Thrown (c : Controller σ) (last : Option BlockState) (b : BlockState) :
    LogStep → Controller σ × BlockId → Prop
  | .prepare, t => ∃ n, InLoop c last n t
  | .append, t => t.2 = b.id ∧ ∃ n rootId, b.blockNum = n + 1 ∧ InLoop c last n (t.1, rootId)
  | .removeReversible, t => ∃ n, InLoop c (some b) n t

theorem ends_logLoop : ∀ (blocks : List BlockState) (c₁ : Controller σ) (rootId : BlockId)
    (last : Option BlockState) (n : Nat), NumberedAfter n blocks → InLoop c last n (c₁, rootId) →
    Ends (blocks.forM (logBlock env)) (c₁, rootId)
      (fun _ t => ∃ last' n', loopEnd env c₁ last blocks = ⟨t.1.forkDb, last', none⟩
        ∧ InLoop c last' n' t)
      fun e t => ∃ last' b step, loopEnd env c₁ last blocks = ⟨t.1.forkDb, last', some ⟨b, step, e⟩⟩
        ∧ Thrown c last' b step t
  | [], c₁, rootId, last, n, _, h => ⟨last, n, rfl, h⟩
  | b :: rest, c₁, rootId, last, n, hasc, h => by
    show Ends (logBlock env b >>= fun _ => rest.forM (logBlock env)) (c₁, rootId) _ _
    rw [ends_bind, ends_logBlock_iff]
    have hprep := ends_prepareBlock env b h.tree
    refine ends_of_cases (fun _ t hok => ?_) fun e t herror => ?_
    · have ht := h.prepare (hprep.of_ok hok)
      cases happend : env.append b with
      | some e =>
        refine ⟨last, b, .append, ?_, rfl, n, rootId, hasc.1, ht.tree, ht.root, ht.log, ht.num,
          ht.le, ht.last⟩
        simp only [loopEnd, hok, happend]
      | none =>
        have hnext := ht.afterLog hasc.1
        cases hremove : env.removeReversible b with
        | some e =>
          refine ⟨last, b, .removeReversible, ?_, n + 1, hnext⟩
          simp only [loopEnd, hok, happend, hremove]
          rfl
        | none =>
          have hloop : loopEnd env c₁ last (b :: rest)
              = loopEnd env (t.afterLog b) (some b) rest := by
            simp only [loopEnd, hok, happend, hremove]
          simp only [hloop]
          exact ends_logLoop rest _ _ _ _ hasc.2 hnext
    · refine ⟨last, b, .prepare, ?_, n, h.prepare (hprep.of_error herror)⟩
      simp only [loopEnd, herror]

theorem InLoop.agrees_iff (h : InLoop c last n t) : t.1.Agrees ↔ last = none := by
  obtain ⟨lh, hlog, hid⟩ := h.log
  have hagrees : t.1.Agrees ↔ c.forkDb.root.id = t.2 := by
    unfold Agrees
    rw [hlog, h.root, ← hid]
    simp only [some.injEq, exists_eq_left']
  rw [hagrees]
  cases last with
  | none => exact ⟨fun _ => rfl, fun _ => h.last.symm⟩
  | some b =>
    refine ⟨fun hroot => ?_, nofun⟩
    have hnum := h.num
    rw [← hroot, c.forkDb.root.numbered.1] at hnum
    have hlt := h.last.2
    omega

theorem ends_advanceTo (h : t.1.forkDb.TreeInv) :
    Ends advanceTo t
      (fun _ u => (t.2 = t.1.forkDb.root.id ∨ t.1.forkDb.CanAdvance t.2)
        ∧ u.1.forkDb.root.id = t.2 ∧ u.1.blog = t.1.blog)
      fun _ u => ¬ t.1.forkDb.CanAdvance t.2
        ∧ u.1.forkDb.root = t.1.forkDb.root ∧ u.1.blog = t.1.blog := by
  obtain ⟨c, rootId⟩ := t
  unfold advanceTo outer onForkDb
  show Ends (whenever (rootId ≠ c.forkDb.root.id) _) _ _ _
  rw [ends_whenever]
  split
  · rw [ends_zoom, ends_zoom]
    exact h.ends_advanceRoot.mono (fun _ _ hd => ⟨.inr hd.1, hd.2, rfl⟩) fun _ _ hd =>
      ⟨hd.1, hd.2, rfl⟩
  · next hroot =>
    have hroot := not_not.1 hroot
    exact ⟨.inl hroot, hroot.symm, rfl⟩

theorem InLoop.ends_advanceTo (h : InLoop c last n t) : Ends advanceTo t
      (fun _ u => u.1.Agrees ↔ ∀ b ∈ last, t.1.forkDb.CanAdvance b.id)
      fun _ u => u.1.Agrees ↔ ∀ b ∈ last, t.1.forkDb.CanAdvance b.id := by
  obtain ⟨lh, hlog, hid⟩ := h.log
  refine (Controller.ends_advanceTo h.tree).mono ?_ ?_
  · intro _ u ⟨hcan, hroot, hblog⟩
    refine iff_of_true ⟨lh, by rw [hblog, hlog], by rw [hroot, hid]⟩ fun b hb => ?_
    subst hb
    obtain ⟨hb, hlt⟩ := h.last
    rw [← hb]
    refine hcan.resolve_left fun hsame => ?_
    -- the number of a logged block is larger than that of the root
    have hnum := h.num
    rw [hsame, h.root, c.forkDb.root.numbered.1] at hnum
    omega
  · intro _ u ⟨hcannot, hroot, hblog⟩
    have hagrees : u.1.Agrees ↔ t.1.Agrees := by unfold Agrees; rw [hroot, hblog]
    rw [hagrees, h.agrees_iff]
    cases hlast : last with
    | none => simp
    | some b =>
      subst hlast
      rw [h.last.1] at hcannot
      simpa using hcannot

theorem InLoop.ends_advanceTo_append (h : InLoop c last n (t.1, rootId)) (hid : t.2 = b.id)
    (hnum : b.blockNum = n + 1) :
    Ends advanceTo t
      (fun _ u => u.1.Agrees ↔ last = none ∧ ¬ t.1.forkDb.CanAdvance b.id)
      fun _ u => u.1.Agrees ↔ last = none ∧ ¬ t.1.forkDb.CanAdvance b.id := by
  obtain ⟨lh, hlog, hlogId⟩ := h.log
  have hlogNum : numFromId lh.id = n := hlogId ▸ h.num
  have htree : t.1.forkDb.TreeInv := h.tree
  refine (Controller.ends_advanceTo htree).mono ?_ ?_
  · intro _ u ⟨hcan, hroot, hblog⟩
    rw [hid] at hcan hroot
    have hne : b.id ≠ t.1.forkDb.root.id := by
      have hroot : t.1.forkDb.root = c.forkDb.root := h.root
      have hle := h.le
      intro heq
      have := b.numbered.1
      rw [heq, hroot, c.forkDb.root.numbered.1] at this
      omega
    refine iff_of_false ?_ fun hcannot => hcannot.2 (hcan.resolve_left hne)
    rintro ⟨x, hx, hxid⟩
    rw [hblog, hlog] at hx
    injection hx with hx
    have := b.numbered.1
    rw [← hroot, hxid, ← hx] at this
    omega
  · intro _ u ⟨hcannot, hroot, hblog⟩
    rw [hid] at hcannot
    have hagrees : u.1.Agrees ↔ t.1.Agrees := by unfold Agrees; rw [hroot, hblog]
    rw [hagrees, h.agrees_iff]
    exact ⟨fun hlast => ⟨hlast, hcannot⟩, And.left⟩

theorem Thrown.ends_handler {step : LogStep} {e : Failure} (h : Thrown c last b step t) :
    Ends (do
        whenever (e.isFcException = true) advanceTo
        throw e : EStateM Failure (Controller σ × BlockId) Unit) t (fun _ _ => False)
      fun _ u => u.1.Agrees ↔ (⟨t.1.forkDb, last, some ⟨b, step, e⟩⟩ : LoopEnd).Harmless := by
  rw [ends_bind, ends_whenever]
  -- without an `fc::exception` the root does not move
  cases step with
  | prepare =>
    obtain ⟨n, h⟩ := h
    split
    · next hfc =>
      simp only [LoopEnd.Harmless, hfc, true_and]
      exact h.ends_advanceTo
    · next hfc =>
      show t.1.Agrees ↔ _
      rw [h.agrees_iff]
      cases last with
      | none => simp [LoopEnd.Harmless]
      | some x => simp [LoopEnd.Harmless, hfc]
  | append =>
    obtain ⟨hid, n, rootId, hnum, h⟩ := h
    split
    · next hfc =>
      simp only [LoopEnd.Harmless, hfc, true_and]
      exact h.ends_advanceTo_append hid hnum
    · next hfc =>
      have hagrees := h.agrees_iff
      show t.1.Agrees ↔ _
      rw [hagrees]
      simp [LoopEnd.Harmless, hfc]
  | removeReversible =>
    obtain ⟨n, h⟩ := h
    split
    · next hfc =>
      have hend := h.ends_advanceTo
      simp only [mem_def, some.injEq, forall_eq'] at hend
      simp only [LoopEnd.Harmless, hfc, true_and]
      exact hend
    · next hfc =>
      show t.1.Agrees ↔ _
      rw [h.agrees_iff]
      simp [LoopEnd.Harmless, hfc]

theorem Agrees.blocksToLog_spec (h : c.forkDb.TreeInv) (hagrees : c.Agrees) :
    ∃ blocks, c.blocksToLog = .ok blocks ∧ NumberedAfter c.forkDb.root.blockNum blocks := by
  obtain ⟨lh, hlog, hroot⟩ := hagrees
  have hcheck : c.checkLog = .ok () := by
    unfold checkLog
    rw [hlog]
    exact eosAssert_of hroot
  have hhead : c.forkDb.InTree
      (if c.readMode = .irreversible then c.forkDb.pendingHead else c.forkDb.head) := by
    have hin := h.head_mem.imp_right And.left
    split
    · rcases c.forkDb.pendingHead_cases with heq | ⟨hmem, -⟩
      · rw [heq]
        exact hin
      · exact .inr hmem
    · exact hin
  unfold blocksToLog
  rw [hcheck]
  generalize (if c.readMode = .irreversible then c.forkDb.pendingHead else c.forkDb.head) = top
    at hhead
  simp only
  split
  · exact ⟨[], rfl, trivial⟩
  · obtain ⟨l, hbranch, hfetch⟩ := h.fetchBranch_spec hhead top.dposIrreversibleBlocknum
    refine ⟨(l.filter (·.blockNum ≤ top.dposIrreversibleBlocknum)).reverse, ?_, ?_⟩
    · rw [hfetch]
      rfl
    · rw [← List.filter_reverse]
      exact hbranch.ascending.filter _

/-- How `log_irreversible` ends, started when log and root agree. -/
def logEnd (env : Env σ) (c : Controller σ) : LoopEnd :=
  match c.blocksToLog with
  | .ok blocks => loopEnd env c none blocks
  | .error _ => ⟨c.forkDb, none, none⟩

/-- **The block log and the root.** However `log_irreversible` is left, the root of the fork
database is the last block of the log again if and only if the loop has ended harmlessly. -/
theorem agrees_logIrreversible_iff (h : c.forkDb.TreeInv) (hagrees : c.Agrees) :
    Ends (logIrreversible env) c (fun _ t => t.Agrees) (fun _ t => t.Agrees)
      ↔ (logEnd env c).Harmless := by
  obtain ⟨blocks, hblocks, hasc⟩ := hagrees.blocksToLog_spec h
  have hend : logEnd env c = loopEnd env c none blocks := by
    unfold logEnd
    rw [hblocks]
  rw [hend]
  apply Ends.iff
  unfold logIrreversible
  rw [ends_bind, ends_compute, hblocks]
  show Ends (get >>= fun c => withLocal c.forkDb.root.id _) c _ _
  rw [ends_bind, ends_get, ends_withLocal, ends_bind, ends_tryCatch]
  refine (ends_logLoop blocks c _ none _ hasc (InLoop.start h hagrees)).mono ?_ ?_
  · intro _ t ⟨last, n, hloop, ht⟩
    rw [hloop]
    exact ht.ends_advanceTo
  · intro e t ⟨last, b, step, hloop, ht⟩
    rw [hloop]
    exact ht.ends_handler.mono (fun _ _ hfalse => hfalse.elim) fun _ _ hu => hu

end Agreement

/-! ## Sample calls -/

instance (c : Controller σ) : Decidable c.Agrees :=
  decidable_of_iff (c.blog.head.any fun h => decide (c.forkDb.root.id = h.id)) (by
    unfold Agrees
    cases c.blog.head with
    | none => simp
    | some h => simp)

def twoBlocks : List ForkCall :=
  let a := BlockState.genesis.child 1 0
  let b := a.child 1 2
  [.add a false, .markValid a, .add b false, .markValid b]

def failingLog : Env (List BlockId) :=
  { recordingEnv 0 with
    append := fun _ => some (.exception ⟨.blockLogAppendFail,
      "Append to index file occuring at wrong position."⟩) }

/-- An irreversible block that cannot be appended to the log becomes the root all the same. -/
theorem append_takes_log_and_root_apart : ∃ d, ForkRun d ∧ (recorded d []).Agrees
    ∧ ¬ Ends (logIrreversible failingLog) (recorded d []) (fun _ t => t.Agrees)
      fun _ t => t.Agrees := by
  obtain ⟨d, run, hd⟩ := exists_forkRun_of_runForkCalls BlockState.genesis twoBlocks
    (P := fun d => decide ((recorded d []).Agrees ∧ ¬ Ends (logIrreversible failingLog)
      (recorded d []) (fun _ t => t.Agrees) fun _ t => t.Agrees))
    (by decide +kernel)
  exact ⟨d, run, of_decide_eq_true hd⟩

/-- The same block is logged when the log can be written. -/
theorem agrees_after_twoBlocks : ∃ d, ForkRun d ∧ (logEnd (recordingEnv 0) (recorded d [])).last
      = some ((BlockState.genesis.child 1 0).setValidated true)
    ∧ Ends (logIrreversible (recordingEnv 0)) (recorded d []) (fun _ t => t.Agrees)
      fun _ t => t.Agrees := by
  let a := (BlockState.genesis.child 1 0).setValidated true
  obtain ⟨d, run, hd⟩ := exists_forkRun_of_runForkCalls BlockState.genesis twoBlocks
    (P := fun d =>
      let ends := logEnd (recordingEnv 0) (recorded d [])
      decide ((recorded d []).Agrees ∧ ends.exit.isNone ∧ ends.last = some a
        ∧ a ∈ ends.forkDb.index ∧ ends.forkDb.head.id ∈ ends.forkDb.index.successors a.id))
    (by decide +kernel)
  obtain ⟨hagrees, hexit, hlast, hmem, hhead⟩ := of_decide_eq_true hd
  have htree := ForkDatabase.treeInv_of_forkRun run
  refine ⟨d, run, hlast, (agrees_logIrreversible_iff htree hagrees).2 ?_⟩
  generalize logEnd _ _ = ends at hexit hlast hmem hhead
  obtain ⟨d', last, exit⟩ := ends
  rw [isNone_iff_eq_none] at hexit
  subst hexit hlast
  intro b hb
  rw [mem_def, some.injEq] at hb
  rw [← hb]
  exact ⟨⟨a, hmem, rfl, rfl⟩, .single hhead⟩

end Controller

end PotatoNode.Chain
