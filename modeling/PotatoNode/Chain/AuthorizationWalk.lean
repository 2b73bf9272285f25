import PotatoNode.Chain.AuthorityChecker

/-!
# Walks through a permission graph (`authority_checker.hpp`)

A walk does what an evaluation does, with the verdicts on the permissions known beforehand: it
comes to the same entries, counts those whose permissions have the verdict satisfied, and leaves
out a permission that it comes to at the depth limit or inside the permission's own evaluation. It
ends early where the entries of a permission do not bear out its verdict. An evaluation follows
every walk that does not (`satisfied_follows`).

The keys of a walk are those it comes to in permissions that are satisfied. In a walk `upward`, a
satisfied permission is first come to inside a satisfied one, so that no mark is taken back.
-/

namespace PotatoNode.Chain

open Lib List

/-! ## Marks -/

namespace AuthorityChecker

variable (c : AuthorityChecker)

def usedKeys (marks : List Bool) : FlatSet PublicKey :=
  .ofList (((c.providedKeys.entries.zip marks).filter Prod.snd).map Prod.fst)

def allKeysUsed (marks : List Bool) : Bool := marks.all id

def Marks (marks : List Bool) (k : PublicKey) : Prop :=
  k ∈ c.providedKeys ∧ marks[c.providedKeys.entries.idxOf k]? = some true

variable {c} {marks : List Bool} {j k : PublicKey}

theorem nodup_providedKeys : c.providedKeys.entries.Nodup := c.providedKeys.sorted.imp ne_of_lt

theorem mem_usedKeys : k ∈ c.usedKeys marks ↔ c.Marks marks k := by
  rw [usedKeys, FlatSet.mem_ofList, mem_map]
  constructor
  · rintro ⟨⟨_, b⟩, hmem, rfl⟩
    obtain ⟨hzip, rfl : b = true⟩ := mem_filter.1 hmem
    obtain ⟨i, hi⟩ := mem_iff_getElem?.1 hzip
    obtain ⟨hkey, hmark⟩ := getElem?_zip_eq_some.1 hi
    obtain ⟨hlt, rfl⟩ := List.getElem?_eq_some_iff.1 hkey
    refine ⟨getElem_mem hlt, ?_⟩
    rw [nodup_providedKeys.idxOf_getElem]
    exact hmark
  · rintro ⟨hk, hmark⟩
    have hzip : (c.providedKeys.entries.zip marks)[c.providedKeys.entries.idxOf k]?
        = some (k, true) :=
      getElem?_zip_eq_some.2 ⟨getElem?_idxOf hk, hmark⟩
    exact ⟨(k, true), mem_filter.2 ⟨mem_of_getElem? hzip, rfl⟩, rfl⟩

theorem marks_set (hlength : marks.length = c.providedKeys.size) (hk : k ∈ c.providedKeys) :
    c.Marks (marks.set (c.providedKeys.entries.idxOf k) true) j ↔ j = k ∨ c.Marks marks j := by
  have hlt : c.providedKeys.entries.idxOf k < marks.length := hlength ▸ idxOf_lt_length_of_mem hk
  unfold Marks
  by_cases hjk : j = k
  · subst hjk
    simp [hk, hlt]
  · have hne : c.providedKeys.entries.idxOf k ≠ c.providedKeys.entries.idxOf j := fun h =>
      hjk ((idxOf_inj hk).1 h).symm
    rw [getElem?_set_ne hne]
    exact (or_iff_right hjk).symm

theorem length_unusedMarks : c.unusedMarks.length = c.providedKeys.size := length_replicate

theorem not_marks_unusedMarks : ¬ c.Marks c.unusedMarks k := by
  rintro ⟨-, hmark⟩
  have hmem := mem_of_getElem? hmark
  simp [unusedMarks] at hmem

theorem allKeysUsed_iff (hlength : marks.length = c.providedKeys.size) :
    allKeysUsed marks = true ↔ ∀ k ∈ c.providedKeys, c.Marks marks k := by
  unfold allKeysUsed
  rw [all_eq_true]
  constructor
  · intro h k hk
    have hlt : c.providedKeys.entries.idxOf k < marks.length := hlength ▸ idxOf_lt_length_of_mem hk
    refine ⟨hk, ?_⟩
    rw [getElem?_eq_getElem hlt]
    exact congrArg some (h _ (getElem_mem hlt))
  · intro h b hb
    obtain ⟨i, hi, rfl⟩ := getElem_of_mem hb
    have hi' : i < c.providedKeys.entries.length := hi.trans_eq hlength
    have hmark := (h _ (getElem_mem hi')).2
    rw [nodup_providedKeys.idxOf_getElem, getElem?_eq_getElem hi] at hmark
    exact Option.some.inj hmark

end AuthorityChecker

/-! ## Walks -/

/-- What a walk leaves behind: the cache, and the keys that it needs. -/
structure Trail where
  cachedPermissions : PermissionCache
  keys : List PublicKey

def Trail.enter (w : Trail) (p : PermissionLevel) (status : PermissionCacheStatus) : Trail :=
  { w with cachedPermissions := w.cachedPermissions.set p status }

namespace AuthorityChecker

section Walk

variable (c : AuthorityChecker) (verdict : PermissionLevel → Bool) (upward : Bool)

/-- The walk one level deeper; `none` where the depth limit is reached. -/
abbrev WalkDeeper := Option (PermissionLevel → Authority → Trail → Option Trail)

def verdictStatus (p : PermissionLevel) : PermissionCacheStatus :=
  if verdict p = true then .permissionSatisfied else .permissionUnsatisfied

/-- Whether the permission counts, come to inside one whose verdict is `inside`. -/
def walkPermission (deeper : WalkDeeper) (inside : Bool) (p : PermissionLevel) (w : Trail) :
    Option (Bool × Trail) :=
  match permissionStatusInCache w.cachedPermissions p with
  | some status => some (status = .permissionSatisfied, w)
  | none =>
    match deeper, c.permissionToAuthority.authorityOf p with
    | some walk, some a =>
      if upward = true ∧ verdict p = true ∧ inside = false then none
      else (walk p a (w.enter p .beingEvaluated)).map fun w' =>
        (verdict p, w'.enter p (verdictStatus verdict p))
    | _, _ => some (false, w)

def walkEntry (deeper : WalkDeeper) (inside : Bool) : MetaPermission → Trail →
    Option (Bool × Trail)
  | .node p _, w => c.walkPermission verdict upward deeper inside p w
  | .leaf (.key k) _, w =>
    some (if k ∈ c.providedKeys then (true, { w with keys := k :: w.keys }) else (false, w))
  | .leaf (.wait s) _, w => some (c.waited s, w)

/-- Whether the entries that count reach the threshold. -/
def walkEntries (entry : MetaPermission → Trail → Option (Bool × Trail)) (threshold : Nat) :
    List MetaPermission → (total : Nat) → Trail → Option (Bool × Trail)
  | [], _, w => some (false, w)
  | m :: ms, total, w => do
    let r ← entry m w
    let total := if r.1 = true then total + m.weight else total
    if threshold ≤ total then some (true, r.2) else walkEntries entry threshold ms total r.2

/-- The walk through the authority of a permission. -/
def walkAuthority (deeper : WalkDeeper) (p : PermissionLevel) (a : Authority) (w : Trail) :
    Option Trail := do
  let r ← walkEntries (c.walkEntry verdict upward deeper (verdict p)) a.threshold a.metaPermissions
    0 w
  if r.1 = verdict p then some (if r.1 = true then r.2 else { r.2 with keys := w.keys }) else none

def walkWithin : Nat → PermissionLevel → Authority → Trail → Option Trail
  | 0 => c.walkAuthority verdict upward none
  | n + 1 => c.walkAuthority verdict upward (some (walkWithin n))

def walkDeeper : Nat → WalkDeeper
  | 0 => none
  | n + 1 => some (c.walkWithin verdict upward n)

/-- The walk from a permission on. -/
def walk (p : PermissionLevel) : Option (Bool × Trail) :=
  c.walkPermission verdict upward (c.walkDeeper verdict upward c.recursionDepthLimit) true p
    ⟨c.initializePermissionCache, []⟩

end Walk

/-! ## Evaluations follow walks -/

variable {c : AuthorityChecker} {verdict : PermissionLevel → Bool} {upward inside b : Bool}
  {marked : PublicKey → Prop} {s : Evaluation} {t : Tally} {w w' : Trail} {deeper : Recurse}
  {walkDeeper : WalkDeeper} {p : PermissionLevel} {m : MetaPermission} {weight : Nat}

variable (c marked) in
/-- The evaluation has the cache of the walk, and has marked the keys of the walk besides those
that were marked before. -/
structure Follows (s : Evaluation) (w : Trail) : Prop where
  cache : s.cachedPermissions = w.cachedPermissions
  length : s.usedKeys.length = c.providedKeys.size
  marks : ∀ k, c.Marks s.usedKeys k ↔ marked k ∨ k ∈ w.keys

theorem Follows.enter (h : c.Follows marked s w) (status : PermissionCacheStatus) :
    c.Follows marked (s.enter p status) (w.enter p status) :=
  ⟨congrArg (FlatMap.set · p status) h.cache, h.length, h.marks⟩

variable (c verdict marked) in
def FollowsCall (satisfied : Authority → Evaluation → Bool × Evaluation)
    (walk : PermissionLevel → Authority → Trail → Option Trail) : Prop :=
  ∀ p a s w w', a.WellFormed → c.Follows marked s w → walk p a w = some w' →
    (satisfied a s).1 = verdict p ∧ c.Follows marked (satisfied a s).2 w'

variable (c marked) in
/-- The visit of an entry leads to what the walk leaves behind, and adds the weight if the entry
counts. -/
structure FollowsVisit (counts : Bool) (weight : Nat) (t t' : Tally) (w : Trail) : Prop where
  state : c.Follows marked t'.state w
  total : t'.totalWeight
    = if counts = true then (t.totalWeight + weight) % 2 ^ 32 else t.totalWeight

section

variable (hrec : Option.Rel (c.FollowsCall verdict marked) deeper walkDeeper)
  (h : c.Follows marked t.state w)
include hrec h

theorem visitPermission_follows
    (hwalk : c.walkPermission verdict upward walkDeeper inside p w = some (b, w')) :
    c.FollowsVisit marked b weight t (c.visitPermission deeper p weight t) w' := by
  unfold visitPermission
  unfold walkPermission at hwalk
  rw [h.cache]
  cases hstatus : permissionStatusInCache w.cachedPermissions p with
  | some status =>
    rw [hstatus] at hwalk
    cases hwalk
    cases status with
    | beingEvaluated | permissionUnsatisfied | permissionSatisfied => exact ⟨h, rfl⟩
  | none =>
    rw [hstatus] at hwalk
    cases hrec with
    | none =>
      cases hwalk
      exact ⟨h, rfl⟩
    | @some f walk hcall =>
      cases ha : c.permissionToAuthority.authorityOf p with
      | none =>
        rw [ha] at hwalk
        cases hwalk
        exact ⟨h, rfl⟩
      | some a =>
        rw [ha] at hwalk
        dsimp only at hwalk ⊢
        split_ifs at hwalk
        obtain ⟨w₁, hw₁, heq⟩ := Option.map_eq_some_iff.1 hwalk
        cases heq
        obtain ⟨hverdict, hfollows⟩ := hcall p a _ _ _ (c.permissionToAuthority.wellFormed p a ha)
          (h.enter .beingEvaluated) hw₁
        generalize f a (t.state.enter p .beingEvaluated) = r at hverdict hfollows ⊢
        obtain ⟨found, s⟩ := r
        dsimp only at hverdict
        subst hverdict
        unfold verdictStatus
        cases hfound : verdict p with
        | true | false => exact ⟨hfollows.enter _, rfl⟩

theorem visit_follows
    (hwalk : c.walkEntry verdict upward walkDeeper inside m w = some (b, w')) :
    c.FollowsVisit marked b m.weight t (c.visit deeper m t) w' := by
  cases m with
  | node p weight => exact visitPermission_follows hrec h hwalk
  | leaf f weight =>
    cases f with
    | wait sec =>
      cases hwalk
      unfold visit visitWait
      by_cases hwaited : c.waited sec
      · simp only [if_pos hwaited, decide_eq_true hwaited]
        exact ⟨h, rfl⟩
      · simp only [if_neg hwaited, decide_eq_false hwaited]
        exact ⟨h, rfl⟩
    | key k =>
      unfold visit visitKey
      by_cases hk : k ∈ c.providedKeys
      · simp only [walkEntry, if_pos hk] at hwalk ⊢
        cases hwalk
        refine ⟨⟨h.cache, length_set.trans h.length, fun j => ?_⟩, rfl⟩
        rw [marks_set h.length hk, h.marks j, mem_cons]
        exact or_left_comm
      · simp only [walkEntry, if_neg hk] at hwalk ⊢
        cases hwalk
        exact ⟨h, rfl⟩

theorem tally_follows {entries : List MetaPermission} {threshold : Nat}
    (hfits : t.totalWeight + (entries.map Premise.weight).sum < 2 ^ 32)
    (hwalk : walkEntries (c.walkEntry verdict upward walkDeeper inside) threshold entries
      t.totalWeight w = some (b, w')) :
    ∃ s, tally (c.visit deeper) threshold entries t = (b, s) ∧ c.Follows marked s w' := by
  induction entries generalizing t w with
  | nil =>
    cases hwalk
    exact ⟨_, rfl, h⟩
  | cons m entries ih =>
    rw [map_cons, sum_cons] at hfits
    obtain ⟨r, hr, hwalk⟩ := Option.bind_eq_some_iff.1 hwalk
    obtain ⟨hstate, htotal⟩ := visit_follows hrec h hr
    have htotal : (c.visit deeper m t).totalWeight
        = if r.1 = true then t.totalWeight + m.weight else t.totalWeight := by
      rw [htotal, Nat.mod_eq_of_lt (by omega)]
    dsimp only at hwalk
    rw [← htotal] at hwalk
    rw [tally]
    split_ifs at hwalk ⊢ with hreached
    · cases hwalk
      exact ⟨_, rfl, hstate⟩
    · refine ih hstate ?_ hwalk
      rw [htotal]
      split_ifs <;> omega

end

theorem satisfiedBy_follows (hrec : Option.Rel (c.FollowsCall verdict marked) deeper walkDeeper) :
    c.FollowsCall verdict marked (c.satisfiedBy deeper)
      (c.walkAuthority verdict upward walkDeeper) := by
  intro p a s w w' hwf h hwalk
  obtain ⟨⟨reached, w₁⟩, hentries, hwalk⟩ := Option.bind_eq_some_iff.1 hwalk
  obtain ⟨s', htally, hs'⟩ := tally_follows (t := ⟨0, s⟩) hrec h
    (by rw [Nat.zero_add]; exact hwf.sum_weights_lt) hentries
  unfold satisfiedBy
  rw [htally]
  split_ifs at hwalk with hverdict hreached
  · cases hwalk
    dsimp only at hverdict hreached
    rw [← hverdict, hreached]
    exact ⟨rfl, hs'⟩
  · cases hwalk
    dsimp only at hverdict hreached
    rw [← hverdict, eq_false_of_ne_true hreached]
    -- the marks are taken back, and so are the keys
    exact ⟨rfl, hs'.cache, h.length, h.marks⟩

theorem satisfiedWithin_follows (n : Nat) :
    c.FollowsCall verdict marked (c.satisfiedWithin n) (c.walkWithin verdict upward n) := by
  induction n with
  | zero => exact satisfiedBy_follows .none
  | succ n ih => exact satisfiedBy_follows (.some ih)

/-- **An evaluation follows the walk**: it finds the verdict, and marks the keys of the walk. -/
theorem satisfied_follows {marks : List Bool} (hlength : marks.length = c.providedKeys.size)
    (hwalk : c.walk verdict upward p = some (b, w)) :
    (c.satisfied p marks).1 = b ∧ (c.satisfied p marks).2.length = c.providedKeys.size
      ∧ ∀ k, c.Marks (c.satisfied p marks).2 k ↔ c.Marks marks k ∨ k ∈ w.keys := by
  have hrec : Option.Rel (c.FollowsCall verdict (c.Marks marks)) (c.recurse c.recursionDepthLimit)
      (c.walkDeeper verdict upward c.recursionDepthLimit) := by
    cases c.recursionDepthLimit with
    | zero => exact .none
    | succ n => exact .some (satisfiedWithin_follows n)
  have hstart : c.Follows (c.Marks marks) (c.start marks).state ⟨c.initializePermissionCache, []⟩ :=
    ⟨rfl, hlength, fun k => by simp [start]⟩
  have hvisit : c.FollowsVisit (c.Marks marks) b 1 (c.start marks) _ w :=
    visitPermission_follows hrec hstart hwalk
  obtain ⟨hstate, htotal⟩ := hvisit
  refine ⟨?_, hstate.length, hstate.marks⟩
  unfold satisfied
  dsimp only
  rw [htotal]
  cases b with
  | true | false => rfl

end AuthorityChecker

end PotatoNode.Chain
