import PotatoNode.Chain.Controller
import PotatoNode.Chain.ForkBranch

/-!
# Applying and popping blocks

What `apply_block` and `pop_block` do to a controller whose revision is on par with its head.
`Env.outcome` says in one place what applying a block comes to: the next chain state, or the first
exception on the way. `apply_block` pushes the next state on the undo stack (`ends_applyBlock`);
an `fc::exception` leaves the controller as it was, any other exception leaves the pending block
behind. Popping a whole branch goes back along the undo stack (`ends_popBlocks`).
-/

namespace PotatoNode.Chain

open Lib List

variable {σ : Type}

/-- What applying the block `b` to the chain state `x` comes to. -/
def Env.outcome (env : Env σ) (b : BlockState) (s : BlockStatus) (x : σ) : Except Failure σ :=
  if b.block.isNone then .error .undefinedBehaviour
  else match Controller.emitted (env.blockStart b) with
  | some e => .error e
  | none =>
    match env.onBlock b s x with
    | .error e _ => .error e
    | .ok _ y =>
      match env.execute b s y with
      | .error e _ => .error e
      | .ok _ z =>
        match env.createReversible b with
        | some e => .error e
        | none =>
          match Controller.emitted (env.acceptedBlock b) with
          | some e => .error e
          | none => .ok z

namespace Controller

section Apply

variable {env : Env σ} {b : BlockState} {s : BlockStatus} {c : Controller σ}

@[simp] theorem cleared_head (c : Controller σ) : c.cleared.head = c.head := by
  unfold cleared
  cases c.pending with
  | none => rfl
  | some _ => rfl

@[simp] theorem cleared_forkDb (c : Controller σ) : c.cleared.forkDb = c.forkDb := by
  unfold cleared
  cases c.pending with
  | none => rfl
  | some _ => rfl

theorem cleared_of_none (h : c.pending = none) : c.cleared = c := by
  unfold cleared
  rw [h]

theorem cleared_session (h : c.pending = none) (x : σ) (stage : BlockStage) :
    cleared { c with db := c.db.startUndoSession.write x, pending := some stage } = c := by
  show { c with db := (c.db.startUndoSession.write x).undo, pending := none } = c
  rw [Versioned.undo_write_startUndoSession, ← h]

def applied (c : Controller σ) (x : σ) : Controller σ :=
  { c with db := c.db.startUndoSession.write x }

theorem ends_startBlock (hpending : c.pending = none) (hrev : c.db.revision = c.head.blockNum) :
    Ends (startBlock env b s) c
      (fun _ t => emitted (env.blockStart b) = none ∧ ∃ y, env.onBlock b s c.db.current = .ok () y
        ∧ t = { c with db := c.db.startUndoSession.write y, pending := some .building })
      fun e t => t = c ∧ (emitted (env.blockStart b) = some e
        ∨ (emitted (env.blockStart b) = none ∧ ∃ y, env.onBlock b s c.db.current = .error e y)) := by
  unfold startBlock emit
  rw [ends_bind, ends_get, ends_bind, ends_require, if_pos (by rw [hpending]; rfl), ends_bind,
    ends_fallible]
  cases hemit : emitted _ with
  | some e => exact ⟨rfl, .inl rfl⟩
  | none =>
    rw [ends_bind, ends_require, if_pos hrev, ends_bind, ends_modify, ends_tryCatch]
    unfold onState
    rw [ends_zoom]
    apply ends_of_cases
    · intro _ y hy
      exact ⟨rfl, y, hy, rfl⟩
    · intro e y hy
      refine ⟨cleared_session hpending y .building, .inr ⟨rfl, y, hy⟩⟩

theorem ends_commitApplied {x : σ} (hpending : c.pending = none)
    (hmode : c.readMode ≠ .irreversible) :
    Ends (commitBlockWith env (pure ()) false)
      { c with db := c.db.startUndoSession.write x, pending := some (.completed b) }
      (fun _ t => env.createReversible b = none ∧ emitted (env.acceptedBlock b) = none
        ∧ t = c.applied x)
      fun e t => t = c ∧ (env.createReversible b = some e
        ∨ (env.createReversible b = none ∧ emitted (env.acceptedBlock b) = some e)) := by
  unfold commitBlockWith emit abortBlock resetPending
  rw [ends_bind, ends_tryCatch, ends_bind, ends_get]
  rw [ends_bind, ends_whenever, ends_bind, ends_whenever, if_pos hmode]
  have hclear := cleared_session hpending x (.completed b)
  cases hcreate : env.createReversible b with
  | some e => exact ⟨hclear, .inl rfl⟩
  | none =>
    cases hemit : emitted _ with
    | some e => exact ⟨hclear, .inr ⟨rfl, rfl⟩⟩
    | none =>
      refine ⟨rfl, rfl, ?_⟩
      unfold applied
      rw [← hpending]

/-- **`apply_block`.** It returns with the next state pushed on the undo stack, or throws what
stopped the block. Then an `fc::exception` has left no trace; other exceptions leave the pending
block, unless `start_block` threw them. -/
theorem ends_applyBlock (hpending : c.pending = none) (hrev : c.db.revision = c.head.blockNum)
    (hmode : c.readMode ≠ .irreversible) :
    Ends (applyBlock env b s) c
      (fun _ t => ∃ x, env.outcome b s c.db.current = .ok x ∧ t = c.applied x)
      fun e t => env.outcome b s c.db.current = .error e ∧ t.cleared = c
        ∧ (e.isFcException = true → t = c) := by
  have hsame := cleared_of_none hpending
  unfold applyBlock
  -- the handler: a state that clears to `c` is cleared
  have hhandler : ∀ (e : Failure) (t : Controller σ), env.outcome b s c.db.current = .error e →
      t.cleared = c → Ends (do
        whenever (e.isFcException = true) abortBlock
        throw e : ControllerM σ Unit) t (fun _ t => ∃ x, env.outcome b s c.db.current = .ok x ∧ t = c.applied x)
        fun e t => env.outcome b s c.db.current = .error e ∧ t.cleared = c
          ∧ (e.isFcException = true → t = c) := by
    intro e t hout ht
    rw [ends_bind, ends_whenever]
    split
    · exact ⟨hout, by rw [ht, hsame], fun _ => ht⟩
    · next hfc => exact ⟨hout, ht, fun h => absurd h hfc⟩
  rw [ends_tryCatch]
  cases hb : b.block with
  | none =>
    have hout : env.outcome b s c.db.current = .error .undefinedBehaviour := by
      simp [Env.outcome, hb]
    exact hhandler _ c hout hsame
  | some block =>
    rw [ends_bind]
    refine (ends_startBlock hpending hrev).mono ?_ ?_
    · rintro _ t ⟨hstart, y, hy, rfl⟩
      rw [ends_bind]
      unfold onState
      rw [ends_zoom]
      apply ends_of_cases
      · intro _ z hexec
        have hz : env.execute b s y = .ok () z := hexec
        refine (ends_commitApplied (c := c) (x := z) hpending hmode).mono ?_ ?_
        · intro _ t ⟨hcreate, hemit, ht⟩
          exact ⟨z, by simp [Env.outcome, hb, hstart, hy, hz, hcreate, hemit], ht⟩
        · intro e t ⟨ht, hthrown⟩
          rw [ht]
          apply hhandler e c _ hsame
          rcases hthrown with hcreate | ⟨hcreate, hemit⟩
          · simp [Env.outcome, hb, hstart, hy, hz, hcreate]
          · simp [Env.outcome, hb, hstart, hy, hz, hcreate, hemit]
      · intro e z hexec
        have hz : env.execute b s y = .error e z := hexec
        exact hhandler e _ (by simp [Env.outcome, hb, hstart, hy, hz])
          (cleared_session hpending z .building)
    · intro e t ⟨ht, hthrown⟩
      rw [ht]
      apply hhandler e c _ hsame
      rcases hthrown with hemit | ⟨hemit, y, hy⟩
      · simp [Env.outcome, hb, hemit]
      · simp [Env.outcome, hb, hemit, hy]

end Apply

section Pop

variable {c : Controller σ} {a p : BlockState} {l : List BlockState}

theorem prevOfHead_eq (htree : c.forkDb.TreeInv)
    (hparent : c.forkDb.getBlockHeader c.head.prev = some p) : c.prevOfHead = .ok p := by
  unfold ForkDatabase.getBlockHeader at hparent
  unfold prevOfHead
  by_cases hroot : c.forkDb.root.id = c.head.prev
  · -- the root is not in the container
    rw [if_pos hroot] at hparent
    injection hparent with hp
    have hnone : c.forkDb.getBlock c.head.prev = none :=
      Table.find?_eq_none_iff.2 fun b hb hid => htree.root_notMem b hb (hid.trans hroot.symm)
    rw [hnone]
    unfold eosAssert
    rw [if_pos hroot, ← hp]
    rfl
  · rw [if_neg hroot] at hparent
    rw [hparent]

theorem ends_popBlock (htree : c.forkDb.TreeInv)
    (hparent : c.forkDb.getBlockHeader c.head.prev = some p) (hblock : c.head.block.isSome) :
    Ends popBlock c (fun _ t => t = { c with head := p, db := c.db.undo }) fun _ _ => False := by
  unfold popBlock
  rw [ends_bind, ends_get, ends_bind, ends_compute, prevOfHead_eq htree hparent]
  show Ends _ c _ _
  rw [ends_bind, ends_require, if_pos fun _ => hblock]
  rfl

theorem ends_popBlocks {α : Type} {d : ForkDatabase} (hbranch : d.Branch a l p)
    (htree : d.TreeInv) (hblocks : ∀ b ∈ d.index, b.block.isSome) :
    ∀ (xs : List α) (c : Controller σ), xs.length = l.length → c.forkDb = d → c.head = a →
      Ends (xs.forM fun _ => popBlock) c
        (fun _ t => t = { c with head := p, db := Versioned.undo^[l.length] c.db })
        fun _ _ => False := by
  induction hbranch with
  | refl a =>
    intro xs c hlen hd ha
    rw [eq_nil_of_length_eq_zero hlen]
    show c = { c with head := a, db := c.db }
    rw [← ha]
  | @step a q p l mem parent _ ih =>
    intro xs c hlen hd ha
    cases xs with
    | nil => cases hlen
    | cons x xs =>
      show Ends (popBlock >>= fun _ => xs.forM fun _ => popBlock) c _ _
      rw [ends_bind]
      subst hd ha
      refine (ends_popBlock htree parent (hblocks _ mem)).mono ?_ fun _ _ h => h
      intro _ t ht
      subst ht
      exact ih xs _ (Nat.succ.inj hlen) rfl rfl

end Pop

/-! ## Applying a list of blocks -/

end Controller

/-- What applying the blocks one after the other comes to: the chain state with a session for each
block, or the first block that throws. -/
def Env.applyAll (env : Env σ) (status : BlockState → BlockStatus) :
    Versioned σ → List BlockState → Except (BlockState × Failure) (Versioned σ)
  | v, [] => .ok v
  | v, b :: rest =>
    match env.outcome b (status b) v.current with
    | .ok x => env.applyAll status (v.startUndoSession.write x) rest
    | .error e => .error (b, e)

section ApplyAll

variable {env : Env σ} {status : BlockState → BlockStatus} {v w : Versioned σ} {l : List BlockState}

theorem Env.applyAll_append {m : List BlockState} (h : env.applyAll status v l = .ok w) :
    env.applyAll status v (l ++ m) = env.applyAll status w m := by
  induction l generalizing v with
  | nil =>
    injection h with h
    rw [h]
    rfl
  | cons b l ih =>
    unfold Env.applyAll at h
    rw [cons_append, Env.applyAll]
    split at h
    · next x hx => exact ih h
    · cases h

theorem Env.undo_applyAll (h : env.applyAll status v l = .ok w) :
    Versioned.undo^[l.length] w = v ∧ w.revision = v.revision + l.length
      ∧ w.saved.length = v.saved.length + l.length := by
  induction l generalizing v with
  | nil =>
    injection h with h
    exact ⟨h.symm, by rw [h]; simp, by rw [h]; rfl⟩
  | cons b l ih =>
    unfold Env.applyAll at h
    split at h
    · next x hx =>
      obtain ⟨hundo, hrev, hlen⟩ := ih h
      have hrev : w.revision = v.revision + 1 + l.length := hrev
      have hlen : w.saved.length = v.saved.length + 1 + l.length := hlen
      rw [length_cons, Function.iterate_succ_apply', hundo]
      exact ⟨v.undo_write_startUndoSession x, by rw [hrev]; push_cast; omega, by omega⟩
    · cases h

theorem Env.outcome_of_applyAll {b : BlockState} {e : Failure}
    (h : env.applyAll status v l = .error (b, e)) : ∃ x, env.outcome b (status b) x = .error e := by
  induction l generalizing v with
  | nil => cases h
  | cons a l ih =>
    unfold Env.applyAll at h
    split at h
    · exact ih h
    · next e' hout =>
      injection h with h
      injection h with hb he
      subst hb he
      exact ⟨_, hout⟩

end ApplyAll

/-- The blocks have the numbers after `n`. -/
def NumberedAfter : Nat → List BlockState → Prop
  | _, [] => True
  | n, b :: rest => b.blockNum = n + 1 ∧ NumberedAfter (n + 1) rest

theorem NumberedAfter.concat {b : BlockState} : ∀ {n : Nat} {l : List BlockState}, NumberedAfter n l →
    b.blockNum = n + l.length + 1 → NumberedAfter n (l ++ [b])
  | n, [], _, hb => ⟨hb, trivial⟩
  | n, a :: l, h, hb => ⟨h.1, h.2.concat (by rw [hb, length_cons]; omega)⟩

theorem NumberedAfter.lt_of_mem : ∀ {n : Nat} {l : List BlockState}, NumberedAfter n l →
    ∀ a ∈ l, n < a.blockNum
  | n, b :: l, h, a, ha => by
    rcases mem_cons.1 ha with rfl | ha
    · have := h.1
      omega
    · have := h.2.lt_of_mem a ha
      omega

theorem NumberedAfter.split {b : BlockState} {later : List BlockState} :
    ∀ {n : Nat} {prior : List BlockState}, NumberedAfter n (prior ++ b :: later) →
      (∀ a ∈ prior, a.blockNum < b.blockNum) ∧ ∀ a ∈ later, b.blockNum < a.blockNum
  | n, [], h => ⟨fun a ha => (by cases ha), fun a ha => h.1 ▸ h.2.lt_of_mem a ha⟩
  | n, x :: prior, h => by
    obtain ⟨hprior, hlater⟩ := h.2.split
    refine ⟨fun a ha => ?_, hlater⟩
    rcases mem_cons.1 ha with rfl | ha
    · have := h.2.lt_of_mem b (by simp)
      have := h.1
      omega
    · exact hprior a ha

theorem NumberedAfter.filter (k : Nat) : ∀ {n : Nat} {l : List BlockState}, NumberedAfter n l →
    NumberedAfter n (l.filter (·.blockNum ≤ k))
  | _, [], _ => trivial
  | n, b :: l, h => by
    rw [filter_cons]
    split
    · exact ⟨h.1, h.2.filter k⟩
    · next hlarge =>
      have hnil : l.filter (·.blockNum ≤ k) = [] := by
        rw [filter_eq_nil_iff]
        intro a ha
        have := h.2.lt_of_mem a ha
        have := h.1
        simp only [decide_eq_true_eq] at hlarge ⊢
        omega
      rw [hnil]
      trivial

theorem ForkDatabase.Branch.ascending {d : ForkDatabase} {a c : BlockState} {l : List BlockState}
    (h : d.Branch a l c) : NumberedAfter c.blockNum l.reverse := by
  induction h with
  | refl => trivial
  | @step a p c l mem parent rest ih =>
    rw [reverse_cons]
    apply ih.concat
    have hnum := (Branch.step mem parent rest).blockNum.1
    rw [length_reverse, hnum, length_cons]
    omega

namespace Controller

variable {env : Env σ}

theorem ends_reapply : ∀ (blocks : List BlockState) (c : Controller σ), c.pending = none →
    c.db.revision = c.head.blockNum → c.readMode ≠ .irreversible →
    NumberedAfter c.head.blockNum blocks →
    Ends (blocks.forM (reapply env)) c
      (fun _ t => ∃ v, env.applyAll (fun _ => .validated) c.db blocks = .ok v
        ∧ t = { c with head := blocks.getLastD c.head, db := v })
      fun e t => ∃ b, env.applyAll (fun _ => .validated) c.db blocks = .error (b, e)
        ∧ t.head.blockNum < c.head.blockNum + blocks.length
  | [], c, _, _, _, _ => ⟨c.db, rfl, rfl⟩
  | b :: rest, c, hpending, hrev, hmode, hnum => by
    show Ends (reapply env b >>= fun _ => rest.forM (reapply env)) c _ _
    unfold reapply
    rw [ends_bind, ends_bind]
    refine (ends_applyBlock hpending hrev hmode).mono ?_ ?_
    · intro _ t ⟨x, hx, ht⟩
      subst ht
      rw [ends_modify]
      have hrev' : (c.applied x).db.revision = b.blockNum := by
        show c.db.revision + 1 = b.blockNum
        rw [hrev, hnum.1]
        rfl
      have happly : env.applyAll (fun _ => .validated) c.db (b :: rest)
          = env.applyAll (fun _ => .validated) (c.applied x).db rest := by
        rw [Env.applyAll, hx]
        rfl
      rw [happly]
      refine (ends_reapply rest { c.applied x with head := b } hpending hrev' hmode
        (hnum.1 ▸ hnum.2)).mono ?_ ?_
      · intro _ t ⟨v, hv, ht⟩
        refine ⟨v, hv, ?_⟩
        rw [ht]
        cases rest with
        | nil => rfl
        | cons _ _ => rfl
      · intro e t ⟨b', hb', ht⟩
        refine ⟨b', hb', ?_⟩
        have ht : t.head.blockNum < b.blockNum + rest.length := ht
        rw [length_cons]
        have := hnum.1
        omega
    · intro e t ⟨he, hclear, _⟩
      refine ⟨b, by simp only [Env.applyAll, he], ?_⟩
      have hhead : t.head = c.head := by rw [← cleared_head, hclear]
      rw [hhead, length_cons]
      omega

end Controller

end PotatoNode.Chain
