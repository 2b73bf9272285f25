import PotatoNode.Chain.Authority

/-!
# The authority checker (`authority_checker.hpp`)

`authority_checker` decides whether provided keys, provided permissions and a delay satisfy a
permission. It visits the entries of an authority from the heaviest down and stops when their
weights reach the threshold; an entry that names another permission is evaluated in the same way,
one level deeper, up to `recursion_depth_limit`.

One cache serves the whole evaluation. It starts with the provided permissions as satisfied; a
permission is entered as `being_evaluated`, which cuts cycles, and keeps the verdict it then gets,
at whatever depth that was. The keys found on the way are marked as used, and the marks made since
an authority was entered are taken back when it is not satisfied.

`satisfied_sound`: a permission is found satisfied only if there is a finite derivation of it.
-/

namespace PotatoNode.Chain

open Lib List FlatMap

/-! ## The checker -/

inductive PermissionCacheStatus where
  | beingEvaluated
  | permissionUnsatisfied
  | permissionSatisfied
deriving DecidableEq, Repr

abbrev PermissionCache := FlatMap PermissionLevel PermissionCacheStatus

/-- What an `authority_checker` is made with; delays are in microseconds. -/
structure AuthorityChecker where
  permissionToAuthority : PermissionGraph
  recursionDepthLimit : Nat
  providedKeys : FlatSet PublicKey
  providedPermissions : FlatSet PermissionLevel
  providedDelay : Int

/-- What changes during an evaluation: the cache and the marks `_used_keys`. -/
structure Evaluation where
  cachedPermissions : PermissionCache
  usedKeys : List Bool

def Evaluation.enter (s : Evaluation) (p : PermissionLevel) (status : PermissionCacheStatus) :
    Evaluation :=
  { s with cachedPermissions := s.cachedPermissions.set p status }

/-- A `weight_tally_visitor` with the evaluation it works on. -/
structure Tally where
  totalWeight : Nat
  state : Evaluation

def Tally.add (t : Tally) (weight : Nat) : Tally :=
  { t with totalWeight := (t.totalWeight + weight) % 2 ^ 32 }

def permissionStatusInCache (permissions : PermissionCache) (level : PermissionLevel) :
    Option PermissionCacheStatus :=
  (permissions.get? level).or (permissions.get? level.wildcard)

namespace AuthorityChecker

variable (c : AuthorityChecker)

def waited (waitSec : Nat) : Prop := (waitSec : Int) * 1000000 ≤ c.providedDelay

instance (waitSec : Nat) : Decidable (c.waited waitSec) := inferInstanceAs (Decidable (_ ≤ _))

def visitWait (waitSec weight : Nat) (t : Tally) : Tally :=
  if c.waited waitSec then t.add weight else t

def visitKey (key : PublicKey) (weight : Nat) (t : Tally) : Tally :=
  if key ∈ c.providedKeys then
    { t.add weight with state :=
      { t.state with usedKeys := t.state.usedKeys.set (c.providedKeys.entries.idxOf key) true } }
  else t

/-- The call of `satisfied` one level deeper; `none` where the depth limit is reached. -/
abbrev Recurse := Option (Authority → Evaluation → Bool × Evaluation)

def visitPermission (deeper : Recurse) (p : PermissionLevel) (weight : Nat) (t : Tally) : Tally :=
  match permissionStatusInCache t.state.cachedPermissions p with
  | some .permissionSatisfied => t.add weight
  | some _ => t
  | none =>
    match deeper, c.permissionToAuthority.authorityOf p with
    | some satisfied, some auth =>
      match satisfied auth (t.state.enter p .beingEvaluated) with
      | (true, s) => { t.add weight with state := s.enter p .permissionSatisfied }
      | (false, s) => { t with state := s.enter p .permissionUnsatisfied }
    -- at the depth limit, or the permission does not exist: continue without it
    | _, _ => t

def visit (deeper : Recurse) : MetaPermission → Tally → Tally
  | .node p weight => c.visitPermission deeper p weight
  | .leaf (.key k) weight => c.visitKey k weight
  | .leaf (.wait s) weight => c.visitWait s weight

end AuthorityChecker

/-- The loop over the `meta_permission_map`: stop when the tally reaches the threshold. -/
def tally (visit : MetaPermission → Tally → Tally) (threshold : Nat) :
    List MetaPermission → Tally → Bool × Evaluation
  | [], t => (false, t.state)
  | m :: ms, t =>
    if threshold ≤ (visit m t).totalWeight then (true, (visit m t).state)
    else tally visit threshold ms (visit m t)

namespace AuthorityChecker

variable (c : AuthorityChecker)

/-- The body of the private `satisfied( authority, cached_permissions, depth )`. -/
def satisfiedBy (deeper : Recurse) (a : Authority) (s : Evaluation) : Bool × Evaluation :=
  match tally (c.visit deeper) a.threshold a.metaPermissions ⟨0, s⟩ with
  | (true, s') => (true, s')
  -- `KeyReverter`
  | (false, s') => (false, { s' with usedKeys := s.usedKeys })

/-- `satisfied( authority, cached_permissions, depth )`, where `recursion_depth_limit` is `n`
levels below `depth`. -/
def satisfiedWithin : Nat → Authority → Evaluation → Bool × Evaluation
  | 0 => c.satisfiedBy none
  | n + 1 => c.satisfiedBy (some (satisfiedWithin n))

/-- What a visitor can call when the depth limit is `n` levels below. -/
def recurse : Nat → Recurse
  | 0 => none
  | n + 1 => some (c.satisfiedWithin n)

def initializePermissionCache : PermissionCache :=
  c.providedPermissions.entries.foldl (fun cache p => cache.set p .permissionSatisfied)
    FlatMap.empty

/-- The evaluation and the visitor with which `satisfied` starts. -/
def start (usedKeys : List Bool) : Tally := ⟨0, ⟨c.initializePermissionCache, usedKeys⟩⟩

/-- `satisfied( permission )` of a checker whose marks are `usedKeys`: the verdict and the marks
afterwards. -/
def satisfied (p : PermissionLevel) (usedKeys : List Bool) : Bool × List Bool :=
  let t := c.visitPermission (c.recurse c.recursionDepthLimit) p 1 (c.start usedKeys)
  (0 < t.totalWeight, t.state.usedKeys)

def satisfiedAuthority (a : Authority) (usedKeys : List Bool) : Bool × List Bool :=
  let (r, s) := c.satisfiedWithin c.recursionDepthLimit a (c.start usedKeys).state
  (r, s.usedKeys)

def unusedMarks : List Bool := List.replicate c.providedKeys.size false

/-! ## Derivations -/

def Given (p : PermissionLevel) : Prop :=
  p ∈ c.providedPermissions ∨ p.wildcard ∈ c.providedPermissions

def Available : Factor → Prop
  | .key k => k ∈ c.providedKeys
  | .wait s => c.waited s

abbrev Grants : PermissionLevel → Prop :=
  Derives c.permissionToAuthority.rules c.Available c.Given

/-- There is a finite derivation for the entries of the authority. -/
abbrev GrantsAuthority (a : Authority) : Prop :=
  a.rule.Granted c.permissionToAuthority.rules c.Available c.Given

abbrev GrantsEntry : MetaPermission → Prop :=
  Premise.Granted c.permissionToAuthority.rules c.Available c.Given

variable {c} {p : PermissionLevel} {a : Authority}

theorem rules_eq_some {r : ThresholdRule PermissionLevel Factor} :
    c.permissionToAuthority.rules p = some r ↔
      ∃ a, c.permissionToAuthority.authorityOf p = some a ∧ a.rule = r :=
  Option.map_eq_some_iff

theorem grantsAuthority_iff :
    c.GrantsAuthority a ↔ a.threshold ≤ heldWeight c.GrantsEntry a.metaPermissions :=
  ThresholdRule.granted_iff

theorem grants_iff_grantsAuthority (hp : ¬ c.Given p)
    (ha : c.permissionToAuthority.authorityOf p = some a) :
    c.Grants p ↔ c.GrantsAuthority a := by
  rw [Grants, derives_iff]
  constructor
  · rintro (h | ⟨r, hr, hgranted⟩)
    · exact absurd h hp
    · obtain ⟨b, hb, rfl⟩ := rules_eq_some.1 hr
      rw [ha] at hb
      cases hb
      exact hgranted
  · intro h
    exact .inr ⟨a.rule, rules_eq_some.2 ⟨a, ha, rfl⟩, h⟩

theorem not_grants_of_none (hp : ¬ c.Given p)
    (ha : c.permissionToAuthority.authorityOf p = none) : ¬ c.Grants p := by
  rw [Grants, derives_iff]
  rintro (h | ⟨r, hr, -⟩)
  · exact hp h
  · obtain ⟨b, hb, -⟩ := rules_eq_some.1 hr
    rw [ha] at hb
    cases hb

/-! ## The cache

A permission enters the cache when its authority has been found and it is not provided; so the
wildcard of an actor, which has no authority, stands there only if it is provided, and the second
lookup of `permission_status_in_cache` says no more than whether the permission is provided. -/

variable (c) in
/-- The cache holds the provided permissions, and besides them only permissions that had to be
evaluated; what it calls satisfied has a derivation. -/
structure Sound (cache : PermissionCache) : Prop where
  provided : ∀ p ∈ c.providedPermissions, cache.get? p = some .permissionSatisfied
  entered : ∀ p status, cache.get? p = some status → p ∈ c.providedPermissions ∨
    ¬ c.Given p ∧ ∃ a, c.permissionToAuthority.authorityOf p = some a
  satisfied : ∀ p, cache.get? p = some .permissionSatisfied → c.Grants p

namespace Sound

variable {cache : PermissionCache} {status : PermissionCacheStatus}

theorem status_of_given (h : c.Sound cache) (hp : c.Given p) :
    permissionStatusInCache cache p = some .permissionSatisfied := by
  unfold permissionStatusInCache
  rcases hp with hp | hp
  · rw [h.provided p hp, Option.some_or]
  · -- an entry of its own would be one of the provided permissions as well
    cases hget : cache.get? p with
    | none => rw [Option.none_or, h.provided _ hp]
    | some status =>
      rcases h.entered p status hget with hprovided | ⟨hnot, -⟩
      · rw [Option.some_or, ← hget, h.provided p hprovided]
      · exact absurd (.inr hp) hnot

theorem status_of_not_given (h : c.Sound cache) (hp : ¬ c.Given p) :
    permissionStatusInCache cache p = cache.get? p := by
  unfold permissionStatusInCache
  cases hwild : cache.get? p.wildcard with
  | none => rw [Option.or_none]
  | some status =>
    rcases h.entered _ status hwild with hprovided | ⟨-, a, ha⟩
    · exact absurd (.inr hprovided) hp
    · rw [c.permissionToAuthority.named p.wildcard (.inr rfl)] at ha
      cases ha

theorem set (h : c.Sound cache) (hp : ¬ c.Given p)
    (ha : c.permissionToAuthority.authorityOf p = some a)
    (hstatus : status = .permissionSatisfied → c.Grants p) : c.Sound (cache.set p status) where
  provided q hq := by
    rw [get?_set, if_neg, h.provided q hq]
    rintro rfl
    exact hp (.inl hq)
  entered q st hget := by
    rw [get?_set] at hget
    split at hget
    · next hqp => exact .inr ⟨hqp ▸ hp, a, hqp ▸ ha⟩
    · exact h.entered q st hget
  satisfied q hget := by
    rw [get?_set] at hget
    split at hget
    · next hqp => exact hqp ▸ hstatus (Option.some.inj hget)
    · exact h.satisfied q hget

end Sound

theorem get?_initializePermissionCache (c : AuthorityChecker) (p : PermissionLevel) :
    c.initializePermissionCache.get? p
      = if p ∈ c.providedPermissions then some .permissionSatisfied else none := by
  unfold initializePermissionCache
  rw [← foldr_reverse]
  have hmem : p ∈ c.providedPermissions ↔ p ∈ c.providedPermissions.entries.reverse :=
    mem_reverse.symm
  simp only [hmem]
  induction c.providedPermissions.entries.reverse with
  | nil => simp
  | cons q l ih =>
    rw [foldr_cons, get?_set, ih]
    by_cases hqp : p = q
    · simp [hqp]
    · simp [hqp]

theorem sound_initializePermissionCache (c : AuthorityChecker) :
    c.Sound c.initializePermissionCache where
  provided p hp := by rw [get?_initializePermissionCache, if_pos hp]
  entered p status hget := by
    rw [get?_initializePermissionCache] at hget
    split at hget
    · next hp => exact .inl hp
    · cases hget
  satisfied p hget := by
    rw [get?_initializePermissionCache] at hget
    split at hget
    · next hp => exact .given (.inl hp)
    · cases hget

end AuthorityChecker

theorem tally_invariant (visit : MetaPermission → Tally → Tally) {threshold : Nat}
    {entries : List MetaPermission} {I : List MetaPermission → Tally → Prop}
    (step : ∀ before m after t, entries = before ++ m :: after → t.totalWeight < threshold →
      I before t → I (before ++ [m]) (visit m t)) :
    ∀ after before t, entries = before ++ after → t.totalWeight < threshold → I before t →
      (∃ before' after' t', entries = before' ++ after' ∧ I before' t' ∧
        threshold ≤ t'.totalWeight ∧ tally visit threshold after t = (true, t'.state)) ∨
      (∃ t', I entries t' ∧ t'.totalWeight < threshold ∧
        tally visit threshold after t = (false, t'.state)) := by
  intro after
  induction after with
  | nil =>
    intro before t hentries hlt hinv
    rw [append_nil] at hentries
    exact .inr ⟨t, hentries ▸ hinv, hlt, rfl⟩
  | cons m after ih =>
    intro before t hentries hlt hinv
    have hinv' := step before m after t hentries hlt hinv
    have hentries' : entries = before ++ [m] ++ after := by rw [hentries, append_cons]
    unfold tally
    by_cases hle : threshold ≤ (visit m t).totalWeight
    · rw [if_pos hle]
      exact .inl ⟨before ++ [m], after, visit m t, hentries', hinv', hle, rfl⟩
    · rw [if_neg hle]
      exact ih _ _ hentries' (not_le.1 hle) hinv'

/-! ## Soundness -/

namespace AuthorityChecker

variable {c : AuthorityChecker} {deeper : Recurse} {t : Tally} {p : PermissionLevel}
  {a : Authority} {m : MetaPermission} {weight : Nat}

variable (c) in
def SoundCall (satisfied : Authority → Evaluation → Bool × Evaluation) : Prop :=
  ∀ a s, a.WellFormed → c.Sound s.cachedPermissions →
    c.Sound (satisfied a s).2.cachedPermissions ∧
      ((satisfied a s).1 = true → c.GrantsAuthority a)

def CountsFor (granted : Prop) (weight : Nat) (t t' : Tally) : Prop :=
  t'.totalWeight = t.totalWeight ∨ granted ∧ t'.totalWeight = (t.totalWeight + weight) % 2 ^ 32

/-- What a visit of a permission can do. -/
inductive Visited (c : AuthorityChecker) (deeper : Recurse) (p : PermissionLevel) (weight : Nat)
    (t : Tally) : Tally → Prop where
  | satisfied :
      permissionStatusInCache t.state.cachedPermissions p = some .permissionSatisfied →
      Visited c deeper p weight t (t.add weight)
  | unsatisfied {status : PermissionCacheStatus} :
      permissionStatusInCache t.state.cachedPermissions p = some status →
      status ≠ .permissionSatisfied → Visited c deeper p weight t t
  | skipped :
      permissionStatusInCache t.state.cachedPermissions p = none →
      deeper = none ∨ c.permissionToAuthority.authorityOf p = none →
      Visited c deeper p weight t t
  | found {f : Authority → Evaluation → Bool × Evaluation} {a : Authority} {s : Evaluation} :
      permissionStatusInCache t.state.cachedPermissions p = none → deeper = some f →
      c.permissionToAuthority.authorityOf p = some a →
      f a (t.state.enter p .beingEvaluated) = (true, s) →
      Visited c deeper p weight t { t.add weight with state := s.enter p .permissionSatisfied }
  | failed {f : Authority → Evaluation → Bool × Evaluation} {a : Authority} {s : Evaluation} :
      permissionStatusInCache t.state.cachedPermissions p = none → deeper = some f →
      c.permissionToAuthority.authorityOf p = some a →
      f a (t.state.enter p .beingEvaluated) = (false, s) →
      Visited c deeper p weight t { t with state := s.enter p .permissionUnsatisfied }

theorem visited (c : AuthorityChecker) (deeper : Recurse) (p : PermissionLevel) (weight : Nat)
    (t : Tally) : Visited c deeper p weight t (c.visitPermission deeper p weight t) := by
  unfold visitPermission
  split
  · next hstatus => exact .satisfied hstatus
  · next status hne hstatus => exact .unsatisfied hstatus hne
  · next hstatus =>
    cases deeper with
    | none => exact .skipped hstatus (.inl rfl)
    | some f =>
      cases ha : c.permissionToAuthority.authorityOf p with
      | none => exact .skipped hstatus (.inr ha)
      | some a =>
        simp only
        split
        · next s hf => exact .found hstatus rfl ha hf
        · next s hf => exact .failed hstatus rfl ha hf

section

variable (hrec : ∀ f ∈ deeper, c.SoundCall f)
include hrec

section

variable (h : c.Sound t.state.cachedPermissions)
include h

theorem visitPermission_sound :
    c.Sound (c.visitPermission deeper p weight t).state.cachedPermissions ∧
      CountsFor (c.Grants p) weight t (c.visitPermission deeper p weight t) := by
  have hp_of_none (hstatus : permissionStatusInCache t.state.cachedPermissions p = none) :
      ¬ c.Given p := fun hp => by
    rw [h.status_of_given hp] at hstatus
    cases hstatus
  have hvisited := visited c deeper p weight t
  generalize c.visitPermission deeper p weight t = t' at hvisited ⊢
  cases hvisited with
  | satisfied hstatus =>
    refine ⟨h, .inr ⟨?_, rfl⟩⟩
    by_cases hp : c.Given p
    · exact .given hp
    · rw [h.status_of_not_given hp] at hstatus
      exact h.satisfied p hstatus
  | unsatisfied | skipped => exact ⟨h, .inl rfl⟩
  | @found f a s hstatus hf ha hcall =>
    have hp := hp_of_none hstatus
    obtain ⟨hsound, hgrants⟩ := hrec f hf a (t.state.enter p .beingEvaluated)
      (c.permissionToAuthority.wellFormed p a ha) (h.set hp ha nofun)
    rw [hcall] at hsound hgrants
    have hgranted := (grants_iff_grantsAuthority hp ha).2 (hgrants rfl)
    exact ⟨hsound.set hp ha fun _ => hgranted, .inr ⟨hgranted, rfl⟩⟩
  | @failed f a s hstatus hf ha hcall =>
    have hp := hp_of_none hstatus
    obtain ⟨hsound, -⟩ := hrec f hf a (t.state.enter p .beingEvaluated)
      (c.permissionToAuthority.wellFormed p a ha) (h.set hp ha nofun)
    rw [hcall] at hsound
    exact ⟨hsound.set hp ha nofun, .inl rfl⟩

theorem visit_sound :
    c.Sound (c.visit deeper m t).state.cachedPermissions ∧
      CountsFor (c.GrantsEntry m) m.weight t (c.visit deeper m t) := by
  cases m with
  | node p w => exact visitPermission_sound hrec h
  | leaf f w =>
    cases f with
    | key k =>
      simp only [visit, visitKey]
      split
      · next hk => exact ⟨h, .inr ⟨hk, rfl⟩⟩
      · exact ⟨h, .inl rfl⟩
    | wait s =>
      simp only [visit, visitWait]
      split
      · next hs => exact ⟨h, .inr ⟨hs, rfl⟩⟩
      · exact ⟨h, .inl rfl⟩

end

theorem satisfiedBy_sound : c.SoundCall (c.satisfiedBy deeper) := by
  intro a s hwf hs
  unfold satisfiedBy
  -- what has been counted so far is granted
  refine (tally_invariant (c.visit deeper) (I := fun before t =>
    c.Sound t.state.cachedPermissions ∧ t.totalWeight ≤ heldWeight c.GrantsEntry before)
    ?_ _ [] ⟨0, s⟩ (nil_append a.metaPermissions).symm hwf.threshold_pos ⟨hs, le_rfl⟩).elim ?_ ?_
  · rintro before m after t hentries - ⟨hsound, hle⟩
    obtain ⟨hsound', hcount⟩ := visit_sound (m := m) hrec hsound
    refine ⟨hsound', ?_⟩
    rw [heldWeight_append]
    rcases hcount with heq | ⟨hm, heq⟩
    · omega
    · rw [heq, heldWeight_cons_of_holds hm]
      omega
  · rintro ⟨before, after, t, hentries, ⟨hsound, hle⟩, hthreshold, htally⟩
    rw [htally]
    refine ⟨hsound, fun _ => grantsAuthority_iff.2 ?_⟩
    rw [hentries, heldWeight_append]
    omega
  · rintro ⟨t, ⟨hsound, -⟩, -, htally⟩
    rw [htally]
    exact ⟨hsound, nofun⟩

end

theorem satisfiedWithin_sound (n : Nat) : c.SoundCall (c.satisfiedWithin n) := by
  induction n with
  | zero => exact satisfiedBy_sound nofun
  | succ n ih =>
    refine satisfiedBy_sound fun f hf => ?_
    cases hf
    exact ih

theorem recurse_sound (n : Nat) : ∀ f ∈ c.recurse n, c.SoundCall f := by
  cases n with
  | zero => exact nofun
  | succ n =>
    intro f hf
    cases hf
    exact satisfiedWithin_sound n

theorem grants_of_satisfied {usedKeys : List Bool} (h : (c.satisfied p usedKeys).1 = true) :
    c.Grants p := by
  have hcount : CountsFor (c.Grants p) 1 (c.start usedKeys)
      (c.visitPermission (c.recurse c.recursionDepthLimit) p 1 (c.start usedKeys)) :=
    (visitPermission_sound (recurse_sound _) (sound_initializePermissionCache c)).2
  rcases hcount with heq | ⟨hp, -⟩
  · have hzero : (c.start usedKeys).totalWeight = 0 := rfl
    simp [satisfied, heq, hzero] at h
  · exact hp

/-- **The checker is sound.** If it finds a permission or an authority satisfied, a finite
derivation grants it: the granted entries of each authority in it weigh at least the threshold, its
keys are provided, its waits are over, and its leaves are provided permissions. -/
theorem satisfied_sound (c : AuthorityChecker) (usedKeys : List Bool) :
    (∀ p, (c.satisfied p usedKeys).1 = true → c.Grants p) ∧
      (∀ a : Authority, a.WellFormed → (c.satisfiedAuthority a usedKeys).1 = true →
        c.GrantsAuthority a) := by
  refine ⟨fun p h => grants_of_satisfied h, fun a hwf h => ?_⟩
  exact (satisfiedWithin_sound c.recursionDepthLimit a (c.start usedKeys).state hwf
    (sound_initializePermissionCache c)).2 h

/-- Two accounts: the first is controlled by the second or by two keys, the second by a key. -/
def chainAuthorities : List (PermissionLevel × Authority) :=
  [(⟨1, 1⟩, ⟨2, [⟨7, 1⟩, ⟨8, 1⟩], [⟨⟨2, 1⟩, 2⟩], []⟩), (⟨2, 1⟩, ⟨1, [⟨9, 1⟩], [], []⟩)]

def chainChecker (keys : List PublicKey) : AuthorityChecker :=
  ⟨.ofList chainAuthorities (by decide), 6, .ofList keys, .ofList [], 0⟩

theorem satisfied_sound_chain :
    (chainChecker [9]).Grants ⟨1, 1⟩ ∧
      (chainChecker [9]).GrantsAuthority ⟨1, [], [⟨⟨1, 1⟩, 1⟩], []⟩ :=
  ⟨(satisfied_sound _ [false]).1 ⟨1, 1⟩ (by decide +kernel),
    (satisfied_sound _ [false]).2 _ (by decide) (by decide +kernel)⟩

/-! ## Validated authorities -/

variable (c) in
/-- Everything that the authority asks for is provided. -/
structure Provides (a : Authority) : Prop where
  keys : ∀ e ∈ a.keys, e.key ∈ c.providedKeys
  accounts : ∀ e ∈ a.accounts, e.permission ∈ c.providedPermissions
  waits : ∀ e ∈ a.waits, c.waited e.waitSec

theorem Provides.visit (h : c.Provides a) (hm : m ∈ a.metaPermissions)
    (hcache : t.state.cachedPermissions = c.initializePermissionCache) :
    (c.visit deeper m t).state.cachedPermissions = c.initializePermissionCache
      ∧ (c.visit deeper m t).totalWeight = (t.totalWeight + m.weight) % 2 ^ 32 := by
  rw [a.metaPermissions_perm.mem_iff, Authority.emplaced, mem_append, mem_append,
    mem_map, mem_map, mem_map] at hm
  rcases hm with (⟨e, he, rfl⟩ | ⟨e, he, rfl⟩) | ⟨e, he, rfl⟩
  · have hstatus : permissionStatusInCache t.state.cachedPermissions e.permission
        = some .permissionSatisfied := by
      rw [hcache]
      exact (sound_initializePermissionCache c).status_of_given (.inl (h.accounts e he))
    simp only [AuthorityChecker.visit, visitPermission, hstatus]
    exact ⟨hcache, rfl⟩
  · simp only [AuthorityChecker.visit, visitKey, if_pos (h.keys e he)]
    exact ⟨hcache, rfl⟩
  · simp only [AuthorityChecker.visit, visitWait, if_pos (h.waits e he)]
    exact ⟨hcache, rfl⟩

theorem satisfiedBy_of_provides (hwf : a.WellFormed) (hthreshold : a.threshold ≤ a.weights.sum)
    (h : c.Provides a) {s : Evaluation}
    (hcache : s.cachedPermissions = c.initializePermissionCache) :
    (c.satisfiedBy deeper a s).1 = true := by
  have hsum := hwf.sum_weights_lt
  unfold satisfiedBy
  -- no visit leaves the first level, and each one counts
  refine (tally_invariant (c.visit deeper) (I := fun before t =>
    t.state.cachedPermissions = c.initializePermissionCache ∧
      t.totalWeight = (before.map Premise.weight).sum)
    ?_ _ [] ⟨0, s⟩ (nil_append a.metaPermissions).symm hwf.threshold_pos ⟨hcache, rfl⟩).elim ?_ ?_
  · rintro before m after t hentries - ⟨hcache, htotal⟩
    have hm : m ∈ a.metaPermissions := by simp [hentries]
    refine ⟨(h.visit hm hcache).1, ?_⟩
    rw [hentries] at hsum
    simp only [map_append, map_cons, sum_append, sum_cons] at hsum
    rw [(h.visit hm hcache).2, htotal, Nat.mod_eq_of_lt (by omega)]
    simp
  · rintro ⟨_, _, _, -, -, -, htally⟩
    rw [htally]
  · rintro ⟨t, ⟨-, htotal⟩, hlt, -⟩
    rw [Authority.weights_perm.sum_eq] at htotal
    omega

end AuthorityChecker

theorem foldl_total_le (l : List Nat) (n : Nat) :
    l.foldl (fun total w => (total + w) % 2 ^ 32) n ≤ n + l.sum := by
  induction l generalizing n with
  | nil => exact le_rfl
  | cons w l ih =>
    have hrest := ih ((n + w) % 2 ^ 32)
    rw [foldl_cons, sum_cons]
    omega

/-- **A validated authority can be satisfied.** The tally of any of its entries fits in 32 bits, and
a checker that is provided with everything the authority asks for finds it satisfied, whatever its
depth limit. -/
theorem Authority.satisfied_of_validate {a : Authority} (hweights : ∀ w ∈ a.weights, w < 2 ^ 16)
    (hvalid : a.validate = true) :
    (∀ l : List Nat, l.Subperm a.weights → l.sum < 2 ^ 32) ∧
      ∀ (c : AuthorityChecker) (usedKeys : List Bool),
        (∀ e ∈ a.keys, e.key ∈ c.providedKeys) →
        (∀ e ∈ a.accounts, e.permission ∈ c.providedPermissions) →
        (∀ e ∈ a.waits, (e.waitSec : Int) * 1000000 ≤ c.providedDelay) →
        (c.satisfiedAuthority a usedKeys).1 = true := by
  have hwf := WellFormed.of_validate hweights hvalid
  constructor
  · rintro l ⟨l', hperm, hsub⟩
    have hsum := hwf.sum_weights_lt
    rw [weights_perm.sum_eq] at hsum
    rw [← hperm.sum_eq]
    exact lt_of_le_of_lt (hsub.sum_le_sum fun _ _ => Nat.zero_le _) hsum
  · intro c usedKeys hkeys haccounts hwaits
    have hthreshold : a.threshold ≤ a.weights.sum := by
      have hle := foldl_total_le a.weights 0
      simp only [validate, Bool.and_eq_true, decide_eq_true_eq] at hvalid
      omega
    have h : c.Provides a := ⟨hkeys, haccounts, hwaits⟩
    unfold AuthorityChecker.satisfiedAuthority
    cases c.recursionDepthLimit with
    | zero | succ n => exact AuthorityChecker.satisfiedBy_of_provides hwf hthreshold h rfl

/-- A key, a permission and a wait, which weigh one each. -/
theorem Authority.satisfied_of_validate_one_each :
    (AuthorityChecker.satisfiedAuthority
      ⟨.ofList [] (by decide), 0, .ofList [7], .ofList [⟨2, 1⟩], 5000000⟩
      ⟨3, [⟨7, 1⟩], [⟨⟨2, 1⟩, 1⟩], [⟨5, 1⟩]⟩ [false]).1 = true :=
  (satisfied_of_validate (by decide) (by decide)).2 _ _ (by decide) (by decide) (by decide)

end PotatoNode.Chain
