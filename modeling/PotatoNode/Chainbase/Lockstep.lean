import PotatoNode.Chainbase.Database
import PotatoNode.Chainbase.UndoSession
import PotatoNode.Lib.Runs

/-!
# The indices of a database move in lockstep
-/

namespace PotatoNode.Chainbase

open Lib List Function

namespace GenericIndex

variable {V : Type} [ValueType V]

/-! ## What an index spans -/

/-- The integers from `r` down, `n` of them. -/
def countdown (r : Int) : Nat → List Int
  | 0 => []
  | n + 1 => r :: countdown (r - 1) n

theorem length_countdown (r : Int) : ∀ n, (countdown r n).length = n
  | 0 => rfl
  | n + 1 => congrArg (· + 1) (length_countdown (r - 1) n)

theorem le_of_mem_countdown {x : Int} : ∀ {n : Nat} {r : Int}, x ∈ countdown r n → x ≤ r
  | n + 1, r, h => by
    rcases mem_cons.1 h with rfl | h
    · exact Int.le_refl _
    · have := le_of_mem_countdown h
      omega

theorem getLast?_countdown (r : Int) : ∀ n, (countdown r (n + 1)).getLast? = some (r - n)
  | 0 => by simp [countdown]
  | n + 1 => by
    rw [countdown, countdown, getLast?_cons_cons, ← countdown, getLast?_countdown (r - 1) n]
    congr 1
    omega

/-- The stack has a record for each revision after `start`, up to the current one. -/
structure Spans (g : GenericIndex V) (start depth : Nat) : Prop where
  revision : g.revision = start + depth
  records : g.stack.map (·.revision) = countdown (start + depth) depth
  fits : (start + depth : Int) ≤ maxRevision

namespace Spans

variable {g g' : GenericIndex V} {start depth : Nat}

theorem length (h : g.Spans start depth) : g.stack.length = depth := by
  rw [← length_countdown _ depth, ← h.records, length_map]

theorem range (h : g.Spans start depth) :
    g.undoStackRevisionRange = ((start : Int), (start : Int) + depth) := by
  have hlast := congrArg getLast? h.records
  have hhead := congrArg head? h.records
  have hrevision := h.revision
  unfold undoStackRevisionRange
  cases depth with
  | zero =>
    have hnil := length_eq_zero_iff.1 h.length
    rw [hnil]
    simp [hrevision]
  | succ n =>
    rw [getLast?_countdown, getLast?_map] at hlast
    rw [head?_map] at hhead
    obtain ⟨front, hfront, hfrontRev⟩ := Option.map_eq_some_iff.1 hlast
    obtain ⟨back, hback, hbackRev⟩ := Option.map_eq_some_iff.1
      (show _ = some ((start : Int) + (n + 1 : Nat)) from hhead)
    rw [hfront, hback]
    simp only [hfrontRev, hbackRev]
    congr 1
    omega

theorem new : (GenericIndex.new : GenericIndex V).Spans 0 0 where
  revision := rfl
  records := rfl
  fits := by decide

section

variable (h : g.Spans start depth)
include h

theorem openSession (hok : g.openSession = .ok g') : g'.Spans start (depth + 1) := by
  unfold GenericIndex.openSession at hok
  split at hok
  · cases hok
  · next hmax =>
    cases hok
    have hrevision := h.revision
    have hfits := h.fits
    refine ⟨?_, ?_, ?_⟩
    · show g.revision + 1 = _
      omega
    · show (g.revision + 1) :: g.stack.map (·.revision) = _
      have hnext : ((start : Int) + (depth + 1 : Nat)) = g.revision + 1 := by omega
      have hprev : g.revision + 1 - 1 = (start : Int) + depth := by omega
      rw [h.records, hnext, countdown, hprev]
    · omega

theorem exists_openSession (hmax : (start + depth : Int) < maxRevision) :
    ∃ g', g.openSession = .ok g' := by
  have hrevision := h.revision
  exact ⟨_, if_neg (by omega)⟩

theorem pop {state : UndoState V} {rest : List (UndoState V)}
    (hstack : g.stack = state :: rest) {stack : List (UndoState V)}
    (hrest : stack.map (·.revision) = rest.map (·.revision)) {nextId : Int} {indices : Indices V} :
    (⟨stack, g.revision - 1, nextId, indices⟩ : GenericIndex V).Spans start (depth - 1) := by
  have hrecords := h.records
  have hrevision := h.revision
  have hfits := h.fits
  cases depth with
  | zero =>
    rw [hstack] at hrecords
    cases hrecords
  | succ n =>
    rw [hstack] at hrecords
    injection hrecords with _ hrecords
    refine ⟨?_, ?_, ?_⟩
    · show g.revision - 1 = _
      omega
    · show stack.map (·.revision) = _
      rw [hrest, hrecords]
      congr 1
      omega
    · omega

theorem undo (hok : g.undo = .ok g') : g'.Spans start (depth - 1) := by
  unfold GenericIndex.undo at hok
  split at hok
  · next hstack =>
    cases hok
    have hdepth : depth = 0 := by rw [← h.length, hstack]; rfl
    subst hdepth
    exact h
  · next head rest hstack =>
    obtain ⟨_, _, _, _, _, _, hok⟩ := bind₃_eq_ok.1 hok
    cases hok
    exact h.pop hstack rfl

end

theorem undoAllLoop : ∀ {fuel depth : Nat} {g : GenericIndex V}, g.Spans start depth →
    depth ≤ fuel → GenericIndex.undoAllLoop fuel g = .ok g' → g'.Spans start 0
  | 0, depth, g, h, hfuel, hok => by
    cases hok
    rwa [Nat.le_zero.1 hfuel] at h
  | fuel + 1, depth, g, h, hfuel, hok => by
    unfold GenericIndex.undoAllLoop at hok
    split at hok
    · next hempty =>
      cases hok
      have hdepth : depth = 0 := by
        rw [← h.length, isEmpty_iff.1 hempty]
        rfl
      rwa [hdepth] at h
    · obtain ⟨g₁, hundo, hok⟩ := bind_eq_ok.1 hok
      exact (h.undo hundo).undoAllLoop (by omega) hok

theorem undoAll (h : g.Spans start depth) (hok : g.undoAll = .ok g') : g'.Spans start 0 :=
  h.undoAllLoop h.length.ge hok

end Spans

/-! The loops of `squash` keep the number of the record. -/

variable {items : List V} {prev prev' : UndoState V}

theorem revision_squashOld
    (h : squashOld items prev = .ok prev') : prev'.revision = prev.revision := by
  fun_induction squashOld items prev <;> simp_all

theorem revision_squashNew (ids : List Int) (prev : UndoState V) :
    (squashNew ids prev).revision = prev.revision := by
  fun_induction squashNew ids prev <;> simp_all

theorem revision_squashRemoved
    (h : squashRemoved items prev = .ok prev') : prev'.revision = prev.revision := by
  fun_induction squashRemoved items prev <;> simp_all

namespace Spans

variable {g g' : GenericIndex V} {start depth : Nat}

/-- The records that `commit` leaves are those after the revision. -/
theorem map_rdropWhile (revision : Int) : ∀ {n : Nat} {r : Int} {stack : List (UndoState V)},
    stack.map (·.revision) = countdown r n →
    (stack.rdropWhile (·.revision ≤ revision)).map (·.revision)
      = countdown r (min n (r - revision).toNat)
  | 0, r, stack, h => by
    obtain rfl := map_eq_nil_iff.1 h
    simp [countdown]
  | n + 1, r, stack, h => by
    match stack, h with
    | head :: rest, h =>
      have hall : ∀ u ∈ head :: rest, u.revision ≤ r := by
        intro u hu
        exact le_of_mem_countdown (h ▸ mem_map_of_mem hu)
      rw [countdown, map_cons] at h
      injection h with hhead hrest
      by_cases hle : r ≤ revision
      · have hnil : (head :: rest).rdropWhile (·.revision ≤ revision) = [] := by
          refine rdropWhile_eq_nil_iff.2 fun u hu => ?_
          simpa using (hall u hu).trans hle
        rw [hnil, show min (n + 1) (r - revision).toNat = 0 by omega]
        rfl
      · have hkeep : ¬ head.revision ≤ revision := by omega
        rw [rdropWhile_cons_of_not (by simpa using hkeep), map_cons,
          map_rdropWhile revision hrest, hhead,
          show min (n + 1) (r - revision).toNat = min n (r - 1 - revision).toNat + 1 by omega]
        rfl

theorem setRevision {revision : Nat} (hok : g.setRevision revision = .ok g') :
    g'.Spans revision 0 := by
  unfold GenericIndex.setRevision at hok
  split at hok
  · cases hok
  · next hempty =>
    split at hok
    · cases hok
    · next hmax =>
      cases hok
      have hnil := length_eq_zero_iff.1 (not_not.1 hempty)
      refine ⟨by simp, ?_, by simpa using hmax⟩
      rw [hnil]
      rfl

theorem openUpTo (stop : Nat) : ∀ {fuel depth : Nat} {g : GenericIndex V}, g.Spans start depth →
    start + depth + fuel = stop → GenericIndex.openUpTo stop fuel g = .ok g' →
    g'.Spans start (stop - start)
  | 0, depth, g, h, hstop, hok => by
    cases hok
    rwa [show stop - start = depth by omega]
  | fuel + 1, depth, g, h, hstop, hok => by
    have hrevision := h.revision
    unfold GenericIndex.openUpTo at hok
    rw [if_pos (by omega)] at hok
    obtain ⟨g₁, hopen, hok⟩ := bind_eq_ok.1 hok
    exact openUpTo stop (h.openSession hopen) (by omega) hok

section

variable (h : g.Spans start depth)
include h

theorem squash (hok : g.squash = .ok g') : g'.Spans start (depth - 1) := by
  unfold GenericIndex.squash at hok
  split at hok
  · next hstack =>
    cases hok
    have hdepth : depth = 0 := by rw [← h.length, hstack]; rfl
    subst hdepth
    exact h
  · next state hstack =>
    cases hok
    exact h.pop hstack rfl
  · next state prevState rest hstack =>
    obtain ⟨prev, hold, prev', hremoved, hok⟩ := bind₂_eq_ok.1 hok
    cases hok
    refine h.pop hstack ?_
    rw [map_cons, map_cons, revision_squashRemoved hremoved, revision_squashNew,
      revision_squashOld hold]

theorem commit (revision : Int) :
    (g.commit revision).Spans (start + depth - min depth (start + depth - revision).toNat)
      (min depth (start + depth - revision).toNat) := by
  have hrevision := h.revision
  have hfits := h.fits
  have hsame : ((start + depth - min depth (start + depth - revision).toNat : Nat) : Int)
      + (min depth (start + depth - revision).toNat : Nat) = start + depth := by omega
  refine ⟨?_, ?_, ?_⟩
  · rw [hsame]
    exact hrevision
  · rw [hsame]
    exact map_rdropWhile revision h.records
  · rw [hsame]
    exact hfits

theorem record {f : UndoState V → UndoState V}
    (hf : ∀ head : UndoState V, head.SameStart (f head)) {indices : Indices V} {nextId : Int} :
    ({ g.record f with indices, nextId } : GenericIndex V).Spans start depth := by
  have hrecords : (g.record f).stack.map (·.revision) = g.stack.map (·.revision)
      ∧ (g.record f).revision = g.revision := by
    unfold GenericIndex.record
    split
    · exact ⟨rfl, rfl⟩
    · next head rest hstack =>
      rw [hstack, map_cons, (hf head).2]
      exact ⟨rfl, rfl⟩
  exact ⟨hrecords.2.trans h.revision, hrecords.1.trans h.records, h.fits⟩

theorem operation {op : Operation V} (hok : op.run g = .ok g') : g'.Spans start depth := by
  cases op with
  | emplace constructor =>
    obtain ⟨indices, -, rfl⟩ := emplace_eq_ok hok
    exact h.record fun head => head.sameStart_onCreate _
  | modify id m =>
    obtain ⟨obj, indices, -, -, rfl⟩ := modify_eq_ok hok
    exact h.record fun head => head.sameStart_onModify obj
  | remove id =>
    obtain ⟨obj, -, rfl⟩ := remove_eq_ok hok
    exact h.record fun head => head.sameStart_onRemove obj

end

end Spans

end GenericIndex

/-! ## No exceptions -/

/-- The call throws nothing that anybody could catch. -/
def Silent {α : Type} (x : Result α) : Prop := ∀ e, x = .error e → e.isException = false

section Silence

variable {α β W : Type} [ValueType W] {g : GenericIndex W}

@[simp] theorem silent_ok (a : α) : Silent (.ok a) := nofun

@[simp] theorem silent_error {e : Failure} :
    Silent (.error e : Result α) ↔ e.isException = false := by
  refine ⟨fun h => h e rfl, fun he e' h => ?_⟩
  injection h with h
  exact h ▸ he

theorem Silent.bind {x : Result α} {f : α → Result β} (hx : Silent x) (hf : ∀ a, Silent (f a)) :
    Silent (x >>= f) := by
  cases x with
  | ok a => exact hf a
  | error e => exact silent_error.2 (silent_error.1 hx)

/-! Each loop ends with its result or at an error that is not an exception. -/

@[simp] theorem silent_eraseNew (ids : List Int) (t : Indices W) :
    Silent (GenericIndex.eraseNew ids t) := by
  fun_induction GenericIndex.eraseNew ids t <;> simp_all [Failure.isException]

variable (items : List W)

@[simp] theorem silent_restoreOld (t : Indices W) : Silent (GenericIndex.restoreOld items t) := by
  fun_induction GenericIndex.restoreOld items t <;> simp_all [Failure.isException]

@[simp] theorem silent_reinsert (t : Indices W) : Silent (GenericIndex.reinsert items t) := by
  fun_induction GenericIndex.reinsert items t <;> simp_all [Failure.isException]

@[simp] theorem silent_squashOld (prev : UndoState W) :
    Silent (GenericIndex.squashOld items prev) := by
  fun_induction GenericIndex.squashOld items prev <;> simp_all [Failure.isException]

@[simp] theorem silent_squashRemoved (prev : UndoState W) :
    Silent (GenericIndex.squashRemoved items prev) := by
  fun_induction GenericIndex.squashRemoved items prev <;> simp_all [Failure.isException]

theorem silent_undo (g : GenericIndex W) : Silent g.undo := by
  unfold GenericIndex.undo
  split
  · exact silent_ok _
  · exact (silent_eraseNew _ _).bind fun _ => (silent_restoreOld _ _).bind fun _ =>
      (silent_reinsert _ _).bind fun _ => silent_ok _

theorem silent_undoAllLoop (fuel : Nat) (g : GenericIndex W) :
    Silent (GenericIndex.undoAllLoop fuel g) := by
  induction fuel generalizing g with
  | zero => exact silent_ok _
  | succ fuel ih =>
    unfold GenericIndex.undoAllLoop
    split
    · exact silent_ok _
    · exact (silent_undo g).bind ih

theorem silent_squash (g : GenericIndex W) : Silent g.squash := by
  unfold GenericIndex.squash
  split
  · exact silent_ok _
  · exact silent_ok _
  · exact (silent_squashOld _ _).bind fun _ => (silent_squashRemoved _ _).bind fun _ => silent_ok _

theorem silent_openSession (g : GenericIndex W) : Silent g.openSession := by
  unfold GenericIndex.openSession
  split <;> simp [Failure.isException]

end Silence

/-! ## The indices stay together -/

namespace Database

section Frames

variable {T : Type} [DecidableEq T] {V : T → Type} [∀ t, ValueType (V t)] {db db' : Database V}

def SpanAll (db : Database V) (ts : List T) (start depth : Nat) : Prop :=
  ∀ t ∈ ts, ∃ g, db.file t = some g ∧ g.Spans start depth

/-- Only the indices `ts` have changed. -/
structure SameBut (db : Database V) (ts : List T) (db' : Database V) : Prop where
  file : ∀ t, t ∉ ts → db'.file t = db.file t
  indexList : db'.indexList = db.indexList
  readOnly : db'.readOnly = db.readOnly
  sessions : db'.sessions = db.sessions

theorem ends_onIndex {t : T} {f : GenericIndex (V t) → Result (GenericIndex (V t))}
    {g : GenericIndex (V t)} (hg : db.file t = some g) :
    Ends (onIndex t f) db
      (fun _ db' => ∃ g', f g = .ok g' ∧ db' = { db with file := update db.file t (some g') })
      fun e db' => f g = .error e ∧ db' = db := by
  unfold onIndex
  rw [ends_attempt]
  cases hf : f g with
  | ok g' =>
    simp only [hg, hf]
    exact ⟨g', rfl, rfl⟩
  | error e =>
    simp only [hg, hf]
    exact ⟨trivial, trivial⟩

/-- **The same call of some indices** that span the same revisions: afterwards they do so again. -/
theorem ends_onIndices {f : ∀ t, GenericIndex (V t) → Result (GenericIndex (V t))}
    {start depth start' depth' : Nat}
    (hf : ∀ t g g', GenericIndex.Spans g start depth → f t g = .ok g' → g'.Spans start' depth') :
    ∀ (ts : List T) (db : Database V), ts.Nodup → db.SpanAll ts start depth →
      Ends (onIndices ts f) db (fun _ db' => db'.SpanAll ts start' depth' ∧ db.SameBut ts db')
        fun e _ => ∃ t g, g.Spans start depth ∧ f t g = .error e
  | [], db, _, _ => ⟨fun t ht => (not_mem_nil ht).elim, fun _ _ => rfl, rfl, rfl, rfl⟩
  | t :: ts, db, hnodup, hspan => by
    obtain ⟨g, hg, hgspan⟩ := hspan t mem_cons_self
    obtain ⟨hnot, hnodup⟩ := nodup_cons.1 hnodup
    show Ends (onIndex t (f t) >>= fun _ => onIndices ts f) db _ _
    rw [ends_bind]
    refine (ends_onIndex hg).mono ?_ fun e _ he => ⟨t, g, hgspan, he.1⟩
    rintro _ _ ⟨g', hok, rfl⟩
    have hrest : ({ db with file := update db.file t (some g') } : Database V).SpanAll ts
        start depth := by
      intro s hs
      have hne : s ≠ t := fun heq => hnot (heq ▸ hs)
      obtain ⟨gs, hgs, hgsspan⟩ := hspan s (mem_cons_of_mem _ hs)
      exact ⟨gs, (update_of_ne hne _ _).trans hgs, hgsspan⟩
    refine (ends_onIndices hf ts _ hnodup hrest).mono ?_ fun _ _ he => he
    rintro _ db' ⟨hspan', hsame⟩
    refine ⟨fun s hs => ?_, fun s hs => ?_, hsame.indexList, hsame.readOnly, hsame.sessions⟩
    · rcases mem_cons.1 hs with rfl | hs
      · exact ⟨g', (hsame.file s hnot).trans (update_self _ _ _), hf s g g' hgspan hok⟩
      · exact hspan' s hs
    · rw [mem_cons, not_or] at hs
      exact (hsame.file s hs.2).trans (update_of_ne hs.1 _ _)

end Frames

/-- The invariant: registered indices span the same revisions, and so do the sub-sessions of an open
session object. An index that is not registered spans some revisions. -/
structure Aligned {T : Type} {V : T → Type} [∀ t, ValueType (V t)] (db : Database V) : Prop where
  nodup : db.indexList.Nodup
  sound : ∀ t g, db.file t = some g → ∃ start depth, g.Spans start depth
  together : ∃ start depth, ∀ t ∈ db.indexList, ∃ g, db.file t = some g ∧ g.Spans start depth
  sessions : ∀ subSessions ∈ db.sessions, subSessions = [] ∨ subSessions = db.indexList

section Invariant

variable {T : Type} {V : T → Type} [∀ t, ValueType (V t)] {db : Database V}

theorem Aligned.withSessions (h : db.Aligned) {sessions : List (List T)}
    (hsessions : ∀ subSessions ∈ sessions, subSessions = [] ∨ subSessions = db.indexList) :
    Aligned { db with sessions } :=
  ⟨h.nodup, h.sound, h.together, hsessions⟩

theorem Aligned.register {t : T} (h : db.Aligned) (ht : t ∉ db.indexList) (hsessions : db.sessions = [])
    {g : GenericIndex (V t)} (hg : db.file t = some g) {start depth : Nat}
    (hspan : g.Spans start depth)
    (hothers : ∀ s ∈ db.indexList, ∃ g, db.file s = some g ∧ g.Spans start depth) :
    Aligned { db with indexList := db.indexList ++ [t] } where
  nodup := nodup_append.2 ⟨h.nodup, by simp, by
    intro s hs u hu heq
    rw [mem_singleton.1 hu] at heq
    exact ht (heq ▸ hs)⟩
  sound := h.sound
  together := by
    refine ⟨start, depth, fun s hs => ?_⟩
    rcases mem_append.1 hs with hs | hs
    · exact hothers s hs
    · rw [mem_singleton.1 hs]
      exact ⟨g, hg, hspan⟩
  sessions := by
    rw [hsessions]
    exact nofun

/-- All registered indices have the same revision and the same range of undo records, and the
records of each are numbered one by one down from its revision. -/
structure Lockstep (db : Database V) : Prop where
  revision : ∀ s ∈ db.indexList, ∀ t ∈ db.indexList, ∀ g, db.file s = some g →
    ∀ g', db.file t = some g' → g.revision = g'.revision
  range : ∀ s ∈ db.indexList, ∀ t ∈ db.indexList, ∀ g, db.file s = some g →
    ∀ g', db.file t = some g' → g.undoStackRevisionRange = g'.undoStackRevisionRange
  consecutive : ∀ t ∈ db.indexList, ∃ g, db.file t = some g
    ∧ g.stack.map (·.revision) = GenericIndex.countdown g.revision g.stack.length

theorem Aligned.lockstep (h : db.Aligned) : db.Lockstep := by
  obtain ⟨start, depth, hspan⟩ := h.together
  have hspans : ∀ t ∈ db.indexList, ∀ g, db.file t = some g → g.Spans start depth := by
    intro t ht g hg
    obtain ⟨g', hg', hg'span⟩ := hspan t ht
    rw [hg] at hg'
    injection hg' with hg'
    exact hg' ▸ hg'span
  refine ⟨fun s hs t ht g hg g' hg' => ?_, fun s hs t ht g hg g' hg' => ?_, fun t ht => ?_⟩
  · rw [(hspans s hs g hg).revision, (hspans t ht g' hg').revision]
  · rw [(hspans s hs g hg).range, (hspans t ht g' hg').range]
  · obtain ⟨g, hg, hgspan⟩ := hspan t ht
    refine ⟨g, hg, ?_⟩
    rw [hgspan.length, hgspan.revision]
    exact hgspan.records

/-- A call that throws nothing and keeps indices together. -/
structure Moves (f : ∀ t, GenericIndex (V t) → Result (GenericIndex (V t))) : Prop where
  silent : ∀ t g, Silent (f t g)
  spans : ∀ start depth, ∃ start' depth', ∀ t g g', GenericIndex.Spans g start depth →
    f t g = .ok g' → g'.Spans start' depth'

theorem moves_undo : Moves fun t (g : GenericIndex (V t)) => g.undo :=
  ⟨fun _ g => silent_undo g, fun start depth =>
    ⟨start, depth - 1, fun _ _ _ hg hok => hg.undo hok⟩⟩

theorem moves_squash : Moves fun t (g : GenericIndex (V t)) => g.squash :=
  ⟨fun _ g => silent_squash g, fun start depth =>
    ⟨start, depth - 1, fun _ _ _ hg hok => hg.squash hok⟩⟩

end Invariant

section Invariant

variable {T : Type} [DecidableEq T] {V : T → Type} [∀ t, ValueType (V t)] {db db' : Database V}

theorem Aligned.of_sameBut (h : db.Aligned) {start depth : Nat}
    (hspan : db'.SpanAll db.indexList start depth) (hsame : db.SameBut db.indexList db') :
    db'.Aligned where
  nodup := by
    rw [hsame.indexList]
    exact h.nodup
  sound t g hg := by
    by_cases ht : t ∈ db.indexList
    · obtain ⟨g', hg', hspans⟩ := hspan t ht
      rw [hg] at hg'
      injection hg' with hg'
      exact ⟨start, depth, hg' ▸ hspans⟩
    · rw [hsame.file t ht] at hg
      exact h.sound t g hg
  together := by
    rw [hsame.indexList]
    exact ⟨start, depth, hspan⟩
  sessions := by
    rw [hsame.sessions, hsame.indexList]
    exact h.sessions

variable {f : ∀ t, GenericIndex (V t) → Result (GenericIndex (V t))}

section

variable (h : db.Aligned)
include h

/-- The same call of all registered indices. -/
theorem Aligned.ends_onIndices (hf : Moves f) :
    Ends (onIndices db.indexList f) db
      (fun _ db' => db'.Aligned ∧ db'.sessions = db.sessions ∧ db'.indexList = db.indexList)
      fun e _ => e.isException = false := by
  obtain ⟨start, depth, hspan⟩ := h.together
  obtain ⟨start', depth', hspans⟩ := hf.spans start depth
  refine (Database.ends_onIndices hspans _ db h.nodup hspan).mono ?_ ?_
  · rintro _ db' ⟨hspan', hsame⟩
    exact ⟨h.of_sameBut hspan' hsame, hsame.sessions, hsame.indexList⟩
  · rintro e _ ⟨t, g, -, herror⟩
    exact hf.silent t g e herror

theorem Aligned.ends_setRevision (revision : Nat) :
    Ends (setRevision revision) db (fun _ db' => db'.Aligned) fun _ db' => db' = db := by
  obtain ⟨start, depth, hspan⟩ := h.together
  show Ends (onIndices db.indexList fun _ g => g.setRevision revision) db _ _
  by_cases hfits : depth = 0 ∧ (revision : Int) ≤ maxRevision
  · have hset : ∀ (t : T) (g g' : GenericIndex (V t)), g.Spans start depth →
        g.setRevision revision = .ok g' → g'.Spans revision 0 :=
      fun t g g' _ hok => GenericIndex.Spans.setRevision hok
    refine (Database.ends_onIndices hset _ db h.nodup hspan).mono ?_ ?_
    · rintro _ db' ⟨hspan', hsame⟩
      exact h.of_sameBut hspan' hsame
    · rintro e _ ⟨t, g, hg, herror⟩
      have hlength := hg.length
      rw [GenericIndex.setRevision, if_neg (by omega), if_neg (by omega)] at herror
      cases herror
  · cases hlist : db.indexList with
    | nil => exact h
    | cons t ts =>
      obtain ⟨g, hg, hgspan⟩ := hspan t (hlist ▸ mem_cons_self)
      show Ends (onIndex t _ >>= fun _ => _) db _ _
      rw [ends_bind]
      refine (ends_onIndex hg).mono ?_ fun _ _ he => he.2
      rintro _ _ ⟨g', hok, -⟩
      -- the first index cannot take the revision
      have hlength := hgspan.length
      have hok : g.setRevision revision = .ok g' := hok
      unfold GenericIndex.setRevision at hok
      split at hok
      · cases hok
      · split at hok
        · cases hok
        · next hdepth hmax => exact absurd ⟨by omega, by omega⟩ hfits

theorem Aligned.ends_startUndoSession (enabled : Bool) :
    Ends (startUndoSession enabled) db (fun _ db' => db'.Aligned)
      fun e _ => e.isException = false := by
  show Ends (onIndices (if enabled then db.indexList else []) _ >>= fun _ => _) db _ _
  cases enabled with
  | false =>
    -- a session object without sub-sessions
    refine h.withSessions fun subSessions hmem => ?_
    rcases mem_cons.1 hmem with hnew | hold
    · exact .inl hnew
    · exact h.sessions _ hold
  | true =>
    rw [ends_bind]
    refine (h.ends_onIndices ⟨fun _ g => silent_openSession g, fun start depth =>
      ⟨start, depth + 1, fun t g g' hg hok => hg.openSession hok⟩⟩).mono ?_ fun _ _ he => he
    rintro _ db' ⟨hdb', hsessions, hlist⟩
    refine hdb'.withSessions fun subSessions hmem => ?_
    rcases mem_cons.1 hmem with hnew | hold
    · exact .inr (hnew.trans hlist.symm)
    · exact hdb'.sessions _ hold

theorem Aligned.ends_closeSession (k : Nat) (hf : Moves f) :
    Ends (closeSession k f) db (fun _ db' => db'.Aligned) fun e _ => e.isException = false := by
  unfold closeSession
  rw [ends_bind, ends_get]
  cases hsession : db.sessions[k]? with
  | none => exact rfl
  | some subSessions =>
    have herase : ∀ {db' : Database V}, db'.Aligned →
        Aligned { db' with sessions := db'.sessions.eraseIdx k } := fun hdb' =>
      hdb'.withSessions fun s hs => hdb'.sessions s (mem_of_mem_eraseIdx hs)
    rcases h.sessions _ (mem_of_getElem? hsession) with rfl | rfl
    · exact herase h
    · rw [ends_bind]
      exact (h.ends_onIndices hf).mono (fun _ _ hdb' => herase hdb'.1) fun _ _ he => he

theorem Aligned.update {t : T} {g' : GenericIndex (V t)}
    (hsound : ∃ start depth, g'.Spans start depth)
    (hkeep : t ∈ db.indexList → ∀ g start depth, db.file t = some g → g.Spans start depth →
      g'.Spans start depth) :
    Aligned { db with file := update db.file t (some g') } := by
  have hself := update_self t (some g') db.file
  have hother := fun s (hs : s ≠ t) => update_of_ne hs (some g') db.file
  refine ⟨h.nodup, fun s gs hgs => ?_, ?_, h.sessions⟩
  · by_cases hs : s = t
    · subst hs
      have hgs := hself.symm.trans hgs
      injection hgs with hgs
      exact hgs ▸ hsound
    · exact h.sound s gs ((hother s hs).symm.trans hgs)
  · obtain ⟨start, depth, hspan⟩ := h.together
    refine ⟨start, depth, fun s hs => ?_⟩
    obtain ⟨gs, hgs, hgspan⟩ := hspan s hs
    by_cases hst : s = t
    · subst hst
      exact ⟨g', hself, hkeep hs gs start depth hgs hgspan⟩
    · exact ⟨gs, (hother s hst).trans hgs, hgspan⟩

theorem Aligned.ends_operation (t : T) (op : Operation (V t)) :
    Ends (onIndex t op.run) db (fun _ db' => db'.Aligned) fun _ db' => db' = db := by
  cases hg : db.file t with
  | none =>
    unfold onIndex
    rw [ends_attempt, hg]
  | some g =>
    refine (ends_onIndex hg).mono ?_ fun _ _ he => he.2
    rintro _ _ ⟨g', hok, rfl⟩
    obtain ⟨start, depth, hspan⟩ := h.sound t g hg
    refine h.update ⟨start, depth, hspan.operation hok⟩ fun _ g₁ start depth hg₁ hspan₁ => ?_
    rw [hg] at hg₁
    injection hg₁ with hg₁
    exact (hg₁ ▸ hspan₁).operation hok

end

section AddIndex

variable [IndexTypes T] {t : T}

theorem Aligned.ends_findOrConstruct (h : db.Aligned) (ht : t ∉ db.indexList) :
    Ends (findOrConstruct t) db
      (fun _ db' => db'.Aligned ∧ (∃ g, db'.file t = some g) ∧ db'.indexList = db.indexList
        ∧ db'.sessions = db.sessions)
      fun _ db' => db' = db := by
  unfold findOrConstruct
  rw [ends_attempt]
  cases hfile : db.file t with
  | some g => exact ⟨h, ⟨g, hfile⟩, rfl, rfl⟩
  | none =>
    by_cases hmode : db.readOnly = true
    · simp only [if_pos hmode]
    · simp only [if_neg hmode]
      exact ⟨h.update ⟨0, 0, .new⟩ fun hmem => absurd hmem ht, ⟨_, update_self t _ _⟩,
        trivial, trivial⟩

/-- **The added index gets the revisions of the others**, or `add_index` throws. -/
theorem spans_of_alignWith {firstTimeAdding readOnly : Bool} {name : String} {W : Type}
    [ValueType W] {g g' : GenericIndex W} {start depth : Nat}
    (hg : ∃ start depth, g.Spans start depth) (hfits : (start + depth : Int) ≤ maxRevision)
    (hok : alignWith firstTimeAdding readOnly name ((start : Int), (start : Int) + depth) g
      = .ok g') : g'.Spans start depth := by
  unfold alignWith at hok
  simp only at hok
  split at hok
  · next hrange =>
    cases hok
    obtain ⟨start₁, depth₁, hspan⟩ := hg
    rw [hspan.range, Prod.mk.injEq] at hrange
    have hstart : start₁ = start := by omega
    have hdepth : depth₁ = depth := by omega
    rwa [hstart, hdepth] at hspan
  · split at hok
    · cases hok
    · split at hok
      · cases hok
      · obtain ⟨g₁, hset, hok⟩ := bind_eq_ok.1 hok
        have hcast : toUInt64 start = start := by
          unfold toUInt64 maxRevision at *
          omega
        rw [hcast] at hset
        have hspan := GenericIndex.Spans.setRevision hset
        have hrevision := hspan.revision
        have hup := GenericIndex.Spans.openUpTo _ hspan (by omega) hok
        rwa [show start + depth - start = depth by omega] at hup

/-- **`add_index`**, while no session object is open. -/
theorem Aligned.ends_addIndex (h : db.Aligned) (hsessions : db.sessions = []) :
    Ends (addIndex t) db (fun _ db' => db'.Aligned) fun _ db' => db'.Aligned := by
  unfold addIndex
  rw [ends_bind, ends_get]
  split
  · exact h
  · next hid =>
    have ht : t ∉ db.indexList := fun hmem => hid (any_eq_true.2 ⟨t, hmem, by simp⟩)
    rw [ends_bind]
    refine (h.ends_findOrConstruct ht).mono ?_ fun _ db' hdb' => hdb' ▸ h
    rintro _ db₁ ⟨h₁, ⟨g, hg⟩, hlist, hsessions₁⟩
    rw [← hlist] at ht
    rw [hsessions] at hsessions₁
    obtain ⟨start, depth, hothers⟩ := h₁.together
    have hgspan := h₁.sound t g hg
    rw [ends_bind]
    unfold alignIndex
    rw [ends_bind, ends_get]
    unfold expectedRange
    cases hfront : db₁.indexList with
    | nil =>
      obtain ⟨start, depth, hspan⟩ := hgspan
      refine h₁.register ht hsessions₁ hg hspan ?_
      rw [hfront]
      exact nofun
    | cons front rest =>
      obtain ⟨f, hf, hfspan⟩ := hothers front (hfront ▸ mem_cons_self)
      simp only [hf, Option.map_some, hfspan.range]
      refine (ends_onIndex hg).mono ?_ fun _ db' hdb' => hdb'.2 ▸ h₁
      rintro _ _ ⟨g', hok, rfl⟩
      have hspan := spans_of_alignWith hgspan hfspan.fits hok
      refine Aligned.register (h₁.update ⟨start, depth, hspan⟩ fun hmem => absurd hmem ht) ht
        hsessions₁ (update_self t _ _) hspan fun s hs => ?_
      have hne : s ≠ t := by
        rintro rfl
        exact ht hs
      obtain ⟨gs, hgs, hgsspan⟩ := hothers s hs
      exact ⟨gs, (update_of_ne hne _ _).trans hgs, hgsspan⟩

end AddIndex

/-! ## Whole runs -/

def Closed (db : Database V) : DatabaseCall V → Prop
  | .addIndex _ => db.sessions = []
  | .reopen _ => db.sessions = []
  | _ => True

/-- There is a revision left for another session. -/
def HasRoom (db : Database V) : Prop :=
  ∀ t ∈ db.indexList, ∀ g, db.file t = some g → g.revision < maxRevision

theorem Aligned.exists_startUndoSession (h : db.Aligned) (hroom : db.HasRoom) (enabled : Bool) :
    ∃ db', startUndoSession enabled db = .ok () db' := by
  suffices hreturns : Ends _ db (fun _ _ => True) fun _ _ => False by
    cases hrun : startUndoSession enabled db with
    | ok _ db' => exact ⟨db', rfl⟩
    | error e db' => exact (hreturns.of_error hrun).elim
  show Ends (onIndices (if enabled then db.indexList else []) _ >>= fun _ => _) db _ _
  cases enabled with
  | false => exact trivial
  | true =>
    obtain ⟨start, depth, hspan⟩ := h.together
    rw [ends_bind]
    cases hlist : db.indexList with
    | nil => exact trivial
    | cons t ts =>
      obtain ⟨g, hg, hgspan⟩ := hspan t (hlist ▸ mem_cons_self)
      have hmax : (start + depth : Int) < maxRevision := by
        have := hroom t (hlist ▸ mem_cons_self) g hg
        rwa [hgspan.revision] at this
      rw [← hlist]
      have hopen : ∀ (t : T) (g g' : GenericIndex (V t)), g.Spans start depth →
          g.openSession = .ok g' → g'.Spans start (depth + 1) :=
        fun t g g' hg hok => hg.openSession hok
      refine (Database.ends_onIndices hopen _ db h.nodup hspan).mono (fun _ _ _ => trivial) ?_
      rintro e _ ⟨t, g, hg, herror⟩
      obtain ⟨g', hok⟩ := hg.exists_openSession hmax
      rw [hok] at herror
      cases herror

variable [IndexTypes T]

def create (V : T → Type) [∀ t, ValueType (V t)] (readOnly : Bool) : Database V :=
  ⟨fun _ => none, [], readOnly, []⟩

/-- The states of a database: any number of calls from an empty file, that return or throw. -/
abbrev Run : Database V → Prop :=
  Reachable Database.step Closed fun db => ∃ readOnly, db = create V readOnly

/-- **One call.** -/
theorem Aligned.ends_call (h : db.Aligned) {call : DatabaseCall V} (hclosed : db.Closed call) :
    Ends call.run db (fun _ db' => db'.Aligned)
      fun e db' => db'.Aligned ∨ e.isException = false := by
  have hsilent : ∀ {x : DatabaseM V Unit}, Ends x db (fun _ db' => db'.Aligned)
      (fun e _ => e.isException = false) → Ends x db (fun _ db' => db'.Aligned)
        fun e db' => db'.Aligned ∨ e.isException = false :=
    fun hx => hx.mono (fun _ _ hdb' => hdb') fun _ _ he => .inr he
  have hall : ∀ {f : ∀ t, GenericIndex (V t) → Result (GenericIndex (V t))}, Moves f →
      Ends (onAll f) db (fun _ db' => db'.Aligned) fun e db' => db'.Aligned ∨ e.isException = false :=
    fun hf => hsilent ((h.ends_onIndices hf).mono (fun _ _ hdb' => hdb'.1) fun _ _ he => he)
  cases call with
  | addIndex t => exact (h.ends_addIndex hclosed).mono (fun _ _ hdb' => hdb') fun _ _ hdb' => .inl hdb'
  | startUndoSession enabled => exact hsilent (h.ends_startUndoSession enabled)
  | pushSession k =>
    refine hsilent (h.ends_closeSession k ⟨fun _ g => silent_ok g, fun start depth =>
      ⟨start, depth, fun t g g' hg hok => ?_⟩⟩)
    cases hok
    exact hg
  | squashSession k => exact hsilent (h.ends_closeSession k moves_squash)
  | undoSession k => exact hsilent (h.ends_closeSession k moves_undo)
  | undo => exact hall moves_undo
  | squash => exact hall moves_squash
  | commit revision =>
    exact hall ⟨fun _ g => silent_ok _, fun start depth =>
      ⟨_, _, fun t g g' hg hok => Except.ok.inj hok ▸ hg.commit revision⟩⟩
  | undoAll =>
    exact hall ⟨fun _ g => silent_undoAllLoop _ g, fun start depth =>
      ⟨start, 0, fun t g g' hg hok => hg.undoAll hok⟩⟩
  | setRevision revision =>
    exact (h.ends_setRevision revision).mono (fun _ _ hdb' => hdb') fun _ db' hdb' => .inl (hdb' ▸ h)
  | operation t op =>
    exact (h.ends_operation t op).mono (fun _ _ hdb' => hdb') fun _ db' hdb' => .inl (hdb' ▸ h)
  | reopen readOnly =>
    have hsessions : db.sessions = [] := hclosed
    refine ⟨nodup_nil, h.sound, ⟨0, 0, nofun⟩, ?_⟩
    rw [hsessions]
    exact nofun

theorem aligned_of_run (run : Run db) : db.Aligned := by
  refine run.invariant ?_ ?_
  · rintro _ ⟨readOnly, rfl⟩
    exact ⟨nodup_nil, nofun, ⟨0, 0, nofun⟩, nofun⟩
  · intro db call db' h hclosed hstep
    have hends := h.ends_call hclosed
    unfold Database.step at hstep
    split at hstep
    · next hrun =>
      cases hstep
      exact hends.of_ok hrun
    · next e db₁ hrun =>
      split at hstep
      · next he =>
        cases hstep
        rcases hends.of_error hrun with h' | hno
        · exact h'
        · rw [he] at hno
          cases hno
      · cases hstep

/-- **All indices move in lockstep** in every state of every run; and a session can be started in
each of them, unless the revision is the largest one. -/
theorem lockstep_of_run (run : Run db) :
    db.Lockstep ∧ (db.HasRoom → ∀ enabled, ∃ db', startUndoSession enabled db = .ok () db') :=
  have h := aligned_of_run run
  ⟨h.lockstep, h.exists_startUndoSession⟩

end Invariant

section Samples

instance {T : Type} {V : T → Type} [∀ t, ValueType (V t)] (db : Database V)
    (call : DatabaseCall V) : Decidable (db.Closed call) :=
  match call with
  | .addIndex _ | .reopen _ => decidable_of_iff (db.sessions.isEmpty = true) List.isEmpty_iff
  | .startUndoSession _ | .pushSession _ | .squashSession _ | .undoSession _ | .undo | .squash
  | .commit _ | .undoAll | .setRevision _ | .operation _ _ => isTrue trivial

instance : IndexTypes Bool where
  typeId t := t.toNat
  typeName t := if t then "second" else "first"

abbrev Rows (_ : Bool) : Type := Row

def revision? (db : Database Rows) (t : Bool) : Option Int := (db.file t).map (·.revision)

def lateIndex : List (DatabaseCall Rows) :=
  [.addIndex false, .setRevision 4, .startUndoSession true, .pushSession 0,
    .operation false (.emplace fun id => ⟨id, 1, 1⟩), .startUndoSession true, .pushSession 0,
    .startUndoSession true, .undoSession 0, .commit 5, .addIndex true]

theorem lockstep_after_lateIndex : ∃ db : Database Rows, Run db
    ∧ db.indexList = [false, true] ∧ db.revision? true = some 6 ∧ db.Lockstep := by
  have hstart : Run (create Rows false) := .start ⟨false, rfl⟩
  obtain ⟨db, run, hq⟩ := hstart.replay
    (q := fun db => db.indexList = [false, true] ∧ db.revision? true = some 6)
    (show (replay _ _ _ lateIndex).any _ = true by decide +kernel)
  obtain ⟨hlist, hrevision⟩ := of_decide_eq_true hq
  exact ⟨db, run, hlist, hrevision, (lockstep_of_run run).1⟩

end Samples

end Database

end PotatoNode.Chainbase
