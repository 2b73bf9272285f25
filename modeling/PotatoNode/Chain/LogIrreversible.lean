import PotatoNode.Chain.ApplyBlock

/-!
# `log_irreversible`

Outside of irreversible mode `log_irreversible` moves the blocks of the head's branch up to the
last irreversible one to the block log, commits the chain state up to them, and advances the root
of the fork database. It changes neither head, nor what the chain state is.
-/

namespace PotatoNode.Chain

open Lib List

variable {σ : Type}

/-- What the logging of the block throws first. -/
def Env.logFailure (env : Env σ) (b : BlockState) : Option Failure :=
  (Controller.emitted (env.irreversibleBlock b)).or
    ((env.commitDb b).or ((env.append b).or (env.removeReversible b)))

namespace Controller

/-- The head is the head of the fork database, all blocks of its branch are validated, and the
chain state is that of the head and can be taken back to the root. -/
structure Grounded (c : Controller σ) : Prop where
  tree : c.forkDb.TreeInv
  head : c.head = c.forkDb.head
  revision : c.db.revision = c.head.blockNum
  undoable : c.head.blockNum ≤ c.forkDb.root.blockNum + c.db.saved.length
  blocks : ∀ b ∈ c.forkDb.index, b.block.isSome
  chain : ∀ b ∈ c.forkDb.index, c.forkDb.index.Below b.id c.head.id → b.validated = true
  readMode : c.readMode ≠ .irreversible

theorem Grounded.inTree {c : Controller σ} (h : c.Grounded) : c.forkDb.InTree c.head := by
  rw [h.head]
  exact h.tree.head_mem.imp_right And.left

section Log

variable {env : Env σ} {c : Controller σ} {b : BlockState} {rootId : BlockId} {n : Nat}

theorem ends_logBlock (hmode : c.readMode ≠ .irreversible) :
    Ends (logBlock env b) (c, rootId)
      (fun _ t => env.logFailure b = none ∧ ∃ blog, t = ({ c with db := c.db.commit b.blockNum, blog }, b.id))
      fun e t => env.logFailure b = some e
        ∧ (t = (c, rootId) ∨ ∃ blog, t = ({ c with db := c.db.commit b.blockNum, blog }, b.id)) := by
  unfold logBlock emit Env.logFailure
  rw [ends_bind, ends_get]
  rw [ends_bind, ends_whenever, if_neg hmode, ends_bind, ends_fallible]
  cases emitted _ with
  | some e => exact ⟨rfl, .inl rfl⟩
  | none =>
    rw [ends_bind, ends_fallible]
    cases env.commitDb b with
    | some e => exact ⟨rfl, .inl rfl⟩
    | none =>
      cases env.append b with
      | some e => exact ⟨rfl, .inr ⟨c.blog, rfl⟩⟩
      | none =>
        cases env.removeReversible b with
        | some e => exact ⟨rfl, .inr ⟨_, rfl⟩⟩
        | none => exact ⟨rfl, _, rfl⟩

/-- The loop has come to the block number `n`: only the undo stack and the block log have
changed. -/
structure Logged (c : Controller σ) (n : Nat) (t : Controller σ × BlockId) : Prop where
  same : ∃ saved blog, t.1 = { c with db := { c.db with saved }, blog }
  rootNum : numFromId t.2 = n
  undoable : c.head.blockNum ≤ n + t.1.db.saved.length
  rootId : t.2 = c.forkDb.root.id
    ∨ ∃ b ∈ c.forkDb.index, b.id = t.2 ∧ c.forkDb.index.Below b.id c.head.id

theorem Logged.commit {c' : Controller σ} (h : Logged c n (c', rootId))
    (hrev : c.db.revision = c.head.blockNum) (hb : b ∈ c.forkDb.index)
    (hbelow : c.forkDb.index.Below b.id c.head.id) (hnum : b.blockNum = n + 1) (blog : BlockLog) :
    Logged c (n + 1) ({ c' with db := c'.db.commit b.blockNum, blog }, b.id) := by
  obtain ⟨saved, blog', hsame⟩ := h.same
  have hsame : c' = { c with db := { c.db with saved }, blog := blog' } := hsame
  have hundo : c.head.blockNum ≤ n + c'.db.saved.length := h.undoable
  rw [hsame] at hundo ⊢
  refine ⟨⟨_, blog, rfl⟩, by rw [b.numbered.1, hnum], ?_, .inr ⟨b, hb, rfl, hbelow⟩⟩
  show c.head.blockNum ≤ n + 1 + (saved.take (c.db.revision - b.blockNum).toNat).length
  have hundo : c.head.blockNum ≤ n + saved.length := hundo
  rw [length_take]
  omega

theorem ends_logBlocks (hmode : c.readMode ≠ .irreversible)
    (hrev : c.db.revision = c.head.blockNum) :
    ∀ (blocks : List BlockState) (n : Nat) (t : Controller σ × BlockId), NumberedAfter n blocks →
      (∀ b ∈ blocks, b ∈ c.forkDb.index ∧ c.forkDb.index.Below b.id c.head.id) → Logged c n t →
      Ends (blocks.forM (logBlock env)) t (fun _ u => ∃ m, Logged c m u)
        fun e u => (∃ b, env.logFailure b = some e) ∧ ∃ m, Logged c m u
  | [], n, t, _, _, h => ⟨n, h⟩
  | b :: rest, n, (c', rootId), hasc, hmem, h => by
    show Ends (logBlock env b >>= fun _ => rest.forM (logBlock env)) (c', rootId) _ _
    obtain ⟨hb, hbelow⟩ := hmem b mem_cons_self
    have hmode' : c'.readMode ≠ .irreversible := by
      obtain ⟨saved, blog, hsame⟩ := h.same
      have hsame : c' = { c with db := { c.db with saved }, blog } := hsame
      rw [hsame]
      exact hmode
    rw [ends_bind]
    refine (ends_logBlock hmode').mono ?_ ?_
    · intro _ u ⟨_, blog, hu⟩
      rw [hu]
      exact ends_logBlocks hmode hrev rest (n + 1) _ hasc.2
        (fun x hx => hmem x (mem_cons_of_mem _ hx)) (h.commit hrev hb hbelow hasc.1 blog)
    · intro e u ⟨hfail, hu⟩
      refine ⟨⟨b, hfail⟩, ?_⟩
      rcases hu with hu | ⟨blog, hu⟩
      · exact ⟨n, hu ▸ h⟩
      · exact ⟨n + 1, hu ▸ h.commit hrev hb hbelow hasc.1 blog⟩

/-- What `log_irreversible` keeps. -/
structure Kept (c t : Controller σ) : Prop where
  grounded : t.Grounded
  head : t.head = c.head
  pending : t.pending = c.pending
  current : t.db.current = c.db.current

theorem Logged.ends_advanceTo {t : Controller σ × BlockId} (h : c.Grounded) (ht : Logged c n t) :
    Ends advanceTo t (fun _ u => Kept c u.1) fun _ _ => False := by
  obtain ⟨c', rootId⟩ := t
  obtain ⟨saved, blog, hsame⟩ := ht.same
  have hnum : numFromId rootId = n := ht.rootNum
  have hundo : c.head.blockNum ≤ n + c'.db.saved.length := ht.undoable
  subst hsame
  unfold advanceTo outer onForkDb
  show Ends (whenever (rootId ≠ c.forkDb.root.id) _) _ _ _
  rw [ends_whenever]
  by_cases hroot : rootId = c.forkDb.root.id
  · rw [if_neg (not_not.2 hroot)]
    have hundo : c.head.blockNum ≤ c.forkDb.root.blockNum + saved.length := by
      rw [← c.forkDb.root.numbered.1, ← hroot, hnum]
      exact hundo
    exact ⟨⟨h.tree, h.head, h.revision, hundo, h.blocks, h.chain, h.readMode⟩, rfl, rfl, rfl⟩
  · rw [if_pos hroot, ends_zoom, ends_zoom]
    obtain ⟨b, hb, hid, hbelow⟩ := ht.rootId.resolve_left hroot
    have hid : b.id = rootId := hid
    have hhead : c.forkDb.index.Below b.id c.forkDb.head.id := h.head ▸ hbelow
    obtain ⟨d', hok⟩ := h.tree.advanceRoot_returns hb (h.chain b hb hbelow) hhead
    obtain ⟨newRoot, ids, d₁, hnew, hnewId, -, -, hadv, hd'⟩ :=
      ForkDatabase.advanceRoot_eq_ok h.tree hok
    have hnewb : newRoot = b := Table.eq_of_mem_of_key_eq hnew hb hnewId
    have hsub : ∀ x ∈ d'.index, x ∈ c.forkDb.index := by
      intro x hx
      rw [hd'] at hx
      exact (hadv.sub x hx).1
    have hforkHead : d'.head = c.forkDb.head := by rw [hd']; exact hadv.head
    have hrootNum : d'.root.blockNum = n := by
      rw [hd', ← hnum, ← hid, b.numbered.1, ← hnewb]
    rw [← hid]
    unfold Ends
    simp only [hok]
    refine ⟨⟨h.tree.advanceRoot hok, h.head.trans hforkHead.symm, h.revision, ?_, ?_, ?_,
      h.readMode⟩, rfl, rfl, rfl⟩
    · show c.head.blockNum ≤ d'.root.blockNum + saved.length
      rw [hrootNum]
      exact hundo
    · exact fun x hx => h.blocks x (hsub x hx)
    · exact fun x hx hx' => h.chain x (hsub x hx) (hx'.mono hsub)

theorem checkLog_congr {t : Controller σ} (hblog : t.blog = c.blog)
    (hroot : t.forkDb.root = c.forkDb.root) : t.checkLog = c.checkLog := by
  unfold checkLog logLibNum
  rw [hblog, hroot]

section

variable (h : c.Grounded)
include h

theorem Grounded.logged : Logged c c.forkDb.root.blockNum (c, c.forkDb.root.id) where
  same := ⟨c.db.saved, c.blog, rfl⟩
  rootNum := c.forkDb.root.numbered.1
  undoable := h.undoable
  rootId := .inl rfl

theorem Grounded.kept : Kept c c := ⟨h, rfl, rfl, rfl⟩

theorem Grounded.blocksToLog_spec :
    (∃ e, c.checkLog = .error e ∧ c.blocksToLog = .error e)
    ∨ ∃ blocks, c.blocksToLog = .ok blocks ∧ NumberedAfter c.forkDb.root.blockNum blocks
      ∧ ∀ b ∈ blocks, b ∈ c.forkDb.index ∧ c.forkDb.index.Below b.id c.head.id := by
  unfold blocksToLog
  cases hcheck : c.checkLog with
  | error e => exact .inl ⟨e, rfl, rfl⟩
  | ok _ =>
    right
    rw [if_neg h.readMode, ← h.head]
    show ∃ blocks, (if c.head.dposIrreversibleBlocknum ≤ c.logLibNum then .ok [] else do
      let branch ← c.forkDb.fetchBranch c.head.id c.head.dposIrreversibleBlocknum
      .ok branch.reverse : Result (List BlockState)) = .ok blocks ∧ _
    split
    · exact ⟨[], rfl, trivial, fun b hb => by cases hb⟩
    · obtain ⟨l, hbranch, hfetch⟩ :=
        h.tree.fetchBranch_spec h.inTree c.head.dposIrreversibleBlocknum
      refine ⟨(l.filter (·.blockNum ≤ c.head.dposIrreversibleBlocknum)).reverse, ?_, ?_, ?_⟩
      · rw [hfetch]
        rfl
      · rw [← filter_reverse]
        exact hbranch.ascending.filter _
      · intro b hb
        have hb : b ∈ l := (mem_filter.1 (mem_reverse.1 hb)).1
        exact ⟨hbranch.mem_index b hb, hbranch.below_of_mem b hb⟩

/-- **`log_irreversible`** keeps a grounded controller grounded, if nothing but `fc::exception`s
is thrown. It throws when the block log does not fit or when a block cannot be logged. -/
theorem ends_logIrreversible
    (hfc : ∀ b e, env.logFailure b = some e → e.isFcException = true) :
    Ends (logIrreversible env) c (fun _ t => Kept c t)
      fun e t => Kept c t ∧ (c.checkLog = .error e ∨ ∃ b, env.logFailure b = some e) := by
  unfold logIrreversible
  rw [ends_bind, ends_compute]
  rcases h.blocksToLog_spec with ⟨e, hcheck, herror⟩ | ⟨blocks, hok, hasc, hmem⟩
  · rw [herror]
    exact ⟨h.kept, .inl hcheck⟩
  · rw [hok]
    show Ends (get >>= fun c => withLocal c.forkDb.root.id _) c _ _
    rw [ends_bind, ends_get, ends_withLocal, ends_bind, ends_tryCatch]
    refine (ends_logBlocks h.readMode h.revision blocks _ _ hasc hmem h.logged).mono ?_ ?_
    · intro _ u ⟨m, hu⟩
      exact (hu.ends_advanceTo h).mono (fun _ _ hkept => hkept) fun _ _ hfalse => hfalse.elim
    · intro e u ⟨⟨b, hfail⟩, m, hu⟩
      rw [ends_bind, ends_whenever, if_pos (hfc b e hfail)]
      exact (hu.ends_advanceTo h).mono (fun _ _ hkept => ⟨hkept, .inr ⟨b, hfail⟩⟩)
        fun _ _ hfalse => hfalse.elim

end

end Log

end Controller

end PotatoNode.Chain
