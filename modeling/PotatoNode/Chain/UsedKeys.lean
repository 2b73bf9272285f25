import PotatoNode.Chain.AuthorizationMonotone

/-!
# The keys that are reported as used (`authority_checker.hpp`, `authorization_manager.cpp`)

`get_required_keys` runs the checker with all keys a wallet has and returns the ones it marked; a
transaction signed with just these is checked with them alone. The marks and the cache can drift
apart: when an authority turns out unsatisfied its marks are taken back, but the permissions found
satisfied on the way stay so in the cache, and an authority that is evaluated later uses them
without marking their keys again. Besides, `check_authorization` may grant a longer delay than
`get_required_keys` did, and a wait that is then over makes a key superfluous
(`usedKeys_do_not_suffice`).

`Unspoiled c p` excludes the first: there is a walk `upward` from `p` on. A walk with the keys of this
walk alone comes to the same permissions with the same verdicts (`walk_withKeys`). `KeepsKeys`
excludes the second: with the delays of `check_authorization` the same keys are needed.
-/

namespace PotatoNode.Chain

open Lib List

namespace AuthorityChecker

def withKeys (c : AuthorityChecker) (keys : FlatSet PublicKey) : AuthorityChecker :=
  { c with providedKeys := keys }

def withDelay (c : AuthorityChecker) (delay : Int) : AuthorityChecker :=
  { c with providedDelay := delay }

/-! ## A walk with the needed keys alone -/

section WithKeys

variable {c : AuthorityChecker} {keys : FlatSet PublicKey} {verdict : PermissionLevel → Bool}
  {inside b : Bool} {w w' v : Trail} {deeper deeper' : WalkDeeper} {p : PermissionLevel}
  {m : MetaPermission}

/-- A walk with fewer keys has come to the same cache, and, within a satisfied permission, to the
same keys. -/
structure KeepsUp (inside : Bool) (w v : Trail) : Prop where
  cache : w.cachedPermissions = v.cachedPermissions
  needed : inside = true → w.keys = v.keys

theorem KeepsUp.enter {inside' : Bool} (h : KeepsUp inside w v)
    (hinside : inside' = true → inside = true) (status : PermissionCacheStatus) :
    KeepsUp inside' (w.enter p status) (v.enter p status) where
  cache := by
    unfold Trail.enter
    rw [h.cache]
  needed h' := h.needed (hinside h')

variable (keys verdict) in
/-- A walk through an authority, and the same walk with fewer keys, which are those that the first
one needs if the authority is satisfied. -/
def CallKeepsUp (walk walk' : PermissionLevel → Authority → Trail → Option Trail) : Prop :=
  ∀ p a w w', walk p a w = some w' → w.keys ⊆ w'.keys ∧
    ∀ v, KeepsUp (verdict p) w v → (verdict p = true → ∀ k ∈ w'.keys, k ∈ keys) →
      ∃ v', walk' p a v = some v' ∧ KeepsUp (w.keys = v.keys) w' v'

section Entries

variable (hrec : Option.Rel (CallKeepsUp keys verdict) deeper deeper')
include hrec

theorem walkPermission_keepsUp
    (hwalk : c.walkPermission verdict true deeper inside p w = some (b, w')) :
    w.keys ⊆ w'.keys ∧ ∀ v, KeepsUp inside w v → (inside = true → ∀ k ∈ w'.keys, k ∈ keys) →
      ∃ v', (c.withKeys keys).walkPermission verdict true deeper' inside p v = some (b, v')
        ∧ KeepsUp inside w' v' := by
  unfold walkPermission at hwalk ⊢
  unfold withKeys
  cases hstatus : permissionStatusInCache w.cachedPermissions p with
  | some status =>
    rw [hstatus] at hwalk
    cases hwalk
    refine ⟨Subset.refl _, fun v hv _ => ⟨v, ?_, hv⟩⟩
    rw [← hv.cache, hstatus]
  | none =>
    rw [hstatus] at hwalk
    have hstatus' : ∀ v, KeepsUp inside w v →
        permissionStatusInCache v.cachedPermissions p = none := fun v hv => hv.cache ▸ hstatus
    cases hrec with
    | none =>
      cases hwalk
      refine ⟨Subset.refl _, fun v hv _ => ⟨v, ?_, hv⟩⟩
      rw [hstatus' v hv]
    | @some walk walk' hcall =>
      cases ha : c.permissionToAuthority.authorityOf p with
      | none =>
        rw [ha] at hwalk
        cases hwalk
        refine ⟨Subset.refl _, fun v hv _ => ⟨v, ?_, hv⟩⟩
        rw [hstatus' v hv]
      | some a =>
        rw [ha] at hwalk
        dsimp only at hwalk
        split_ifs at hwalk with hupward
        obtain ⟨w₁, hw₁, heq⟩ := Option.map_eq_some_iff.1 hwalk
        cases heq
        obtain ⟨hsub, hkeeps⟩ := hcall p a _ _ hw₁
        -- what is satisfied is first come to inside what is satisfied
        have hinside : verdict p = true → inside = true := by simpa using hupward
        refine ⟨hsub, fun v hv hkeys => ?_⟩
        obtain ⟨v₁, hv₁, hv'⟩ := hkeeps (v.enter p .beingEvaluated) (hv.enter hinside _)
          fun h => hkeys (hinside h)
        refine ⟨v₁.enter p (verdictStatus verdict p), ?_, hv'.enter ?_ _⟩
        · rw [hstatus' v hv]
          dsimp only
          rw [if_neg hupward, hv₁]
          rfl
        · exact fun h => decide_eq_true (hv.needed h)

variable (hsub : ∀ k ∈ keys, k ∈ c.providedKeys)
include hsub

/-- An entry that counts with fewer keys counts; within a satisfied permission the converse holds,
because the keys that count are needed. -/
theorem walkEntry_keepsUp
    (hwalk : c.walkEntry verdict true deeper inside m w = some (b, w')) :
    w.keys ⊆ w'.keys ∧ ∀ v, KeepsUp inside w v → (inside = true → ∀ k ∈ w'.keys, k ∈ keys) →
      ∃ b' v', (c.withKeys keys).walkEntry verdict true deeper' inside m v = some (b', v')
        ∧ KeepsUp inside w' v' ∧ (b' = true → b = true) ∧ (inside = true → b' = b) := by
  cases m with
  | node p weight =>
    obtain ⟨hkeys, hkeeps⟩ := walkPermission_keepsUp hrec hwalk
    refine ⟨hkeys, fun v hv hw' => ?_⟩
    obtain ⟨v', hv', hkeeps'⟩ := hkeeps v hv hw'
    exact ⟨b, v', hv', hkeeps', id, fun _ => rfl⟩
  | leaf f weight =>
    cases f with
    | wait sec =>
      cases hwalk
      exact ⟨Subset.refl _, fun v hv _ => ⟨_, v, rfl, hv, id, fun _ => rfl⟩⟩
    | key k =>
      unfold withKeys
      simp only [walkEntry] at hwalk ⊢
      by_cases hk : k ∈ keys
      · rw [if_pos (hsub k hk)] at hwalk
        cases hwalk
        refine ⟨subset_cons_self _ _, fun v hv _ => ?_⟩
        rw [if_pos hk]
        exact ⟨_, _, rfl, ⟨hv.cache, fun h => congrArg (k :: ·) (hv.needed h)⟩, id, fun _ => rfl⟩
      · simp only [if_neg hk]
        by_cases hk' : k ∈ c.providedKeys
        · rw [if_pos hk'] at hwalk
          cases hwalk
          refine ⟨subset_cons_self _ _, fun v hv hw' => ?_⟩
          -- the key would be needed
          have hnot : inside ≠ true := fun h => hk (hw' h k mem_cons_self)
          exact ⟨_, v, rfl, ⟨hv.cache, fun h => absurd h hnot⟩, fun h => (by cases h),
            fun h => absurd h hnot⟩
        · rw [if_neg hk'] at hwalk
          cases hwalk
          exact ⟨Subset.refl _, fun v hv _ => ⟨_, v, rfl, hv, id, fun _ => rfl⟩⟩

/-- The loop ends alike: within a satisfied permission the totals are the same, and elsewhere they
are smaller and do not reach the threshold either. -/
theorem walkEntries_keepsUp {entries : List MetaPermission} {threshold total : Nat}
    (hwalk : walkEntries (c.walkEntry verdict true deeper inside) threshold entries total w
      = some (inside, w')) :
    w.keys ⊆ w'.keys ∧ ∀ v total', KeepsUp inside w v → total' ≤ total →
      (inside = true → total' = total ∧ ∀ k ∈ w'.keys, k ∈ keys) →
      ∃ v', walkEntries ((c.withKeys keys).walkEntry verdict true deeper' inside) threshold entries
        total' v = some (inside, v') ∧ KeepsUp inside w' v' := by
  induction entries generalizing total w with
  | nil =>
    cases hwalk
    exact ⟨Subset.refl _, fun v total' hv _ _ => ⟨v, rfl, hv⟩⟩
  | cons m entries ih =>
    obtain ⟨⟨b, w₁⟩, hentry, hwalk⟩ := Option.bind_eq_some_iff.1 hwalk
    obtain ⟨hkeys, hkeeps⟩ := walkEntry_keepsUp hrec hsub hentry
    dsimp only at hwalk
    generalize htotal : (if b = true then total + m.weight else total) = total₁ at hwalk
    have hstep : ∀ v total', KeepsUp inside w v → total' ≤ total → (inside = true → total' = total) →
        (inside = true → ∀ k ∈ w₁.keys, k ∈ keys) → ∃ v₁ total₁', total₁' ≤ total₁
          ∧ (inside = true → total₁' = total₁) ∧ KeepsUp inside w₁ v₁
          ∧ walkEntries ((c.withKeys keys).walkEntry verdict true deeper' inside) threshold
              (m :: entries) total' v = if threshold ≤ total₁' then some (true, v₁)
            else walkEntries ((c.withKeys keys).walkEntry verdict true deeper' inside) threshold
              entries total₁' v₁ := by
      intro v total' hv hle heq hw₁
      obtain ⟨b', v₁, hv₁, hkeeps', himp, hiff⟩ := hkeeps v hv hw₁
      refine ⟨v₁, if b' = true then total' + m.weight else total', ?_, fun h => ?_, hkeeps', ?_⟩
      · rw [← htotal]
        split_ifs with hb' hb
        · omega
        · exact absurd (himp hb') hb
        · omega
        · exact hle
      · rw [hiff h, heq h, htotal]
      · rw [walkEntries, hv₁]
        rfl
    split_ifs at hwalk with hreached
    · cases hwalk
      refine ⟨hkeys, fun v total' hv hle hinside => ?_⟩
      obtain ⟨v₁, total₁', -, heq, hkeeps', hrun⟩ := hstep v total' hv hle
        (fun h => (hinside h).1) fun h => (hinside h).2
      rw [heq rfl, if_pos hreached] at hrun
      exact ⟨v₁, hrun, hkeeps'⟩
    · obtain ⟨hkeys', hrest⟩ := ih hwalk
      refine ⟨List.Subset.trans hkeys hkeys', fun v total' hv hle hinside => ?_⟩
      obtain ⟨v₁, total₁', hle', heq, hkeeps', hrun⟩ := hstep v total' hv hle
        (fun h => (hinside h).1) fun h k hk => (hinside h).2 k (hkeys' hk)
      obtain ⟨v', hv', hkeeps''⟩ := hrest v₁ total₁' hkeeps' hle'
        fun h => ⟨heq h, (hinside h).2⟩
      rw [if_neg (by omega), hv'] at hrun
      exact ⟨v', hrun, hkeeps''⟩

theorem walkAuthority_keepsUp :
    CallKeepsUp keys verdict (c.walkAuthority verdict true deeper)
      ((c.withKeys keys).walkAuthority verdict true deeper') := by
  intro p a w w' hwalk
  obtain ⟨⟨reached, w₁⟩, hentries, hwalk⟩ := Option.bind_eq_some_iff.1 hwalk
  dsimp only at hwalk
  split_ifs at hwalk with hverdict hreached
  all_goals
    cases hwalk
    rw [hverdict] at hentries
    obtain ⟨hkeys, hkeeps⟩ := walkEntries_keepsUp hrec hsub hentries
  · have hp : verdict p = true := hverdict ▸ hreached
    refine ⟨hkeys, fun v hv hneeded => ?_⟩
    obtain ⟨v₁, hv₁, hkeeps'⟩ := hkeeps v 0 hv le_rfl fun h => ⟨rfl, hneeded h⟩
    refine ⟨v₁, ?_, hkeeps'.cache, fun _ => hkeeps'.needed hp⟩
    rw [walkAuthority, hv₁]
    simp [hp]
  · have hp : verdict p = false := by
      rw [← hverdict]
      exact eq_false_of_ne_true hreached
    refine ⟨Subset.refl _, fun v hv _ => ?_⟩
    obtain ⟨v₁, hv₁, hkeeps'⟩ := hkeeps v 0 hv le_rfl fun h => by rw [hp] at h; cases h
    refine ⟨{ v₁ with keys := v.keys }, ?_, hkeeps'.cache, fun h => of_decide_eq_true h⟩
    rw [walkAuthority, hv₁]
    simp [hp]

end Entries

theorem walkWithin_keepsUp (hsub : ∀ k ∈ keys, k ∈ c.providedKeys) (n : Nat) :
    CallKeepsUp keys verdict (c.walkWithin verdict true n)
      ((c.withKeys keys).walkWithin verdict true n) := by
  induction n with
  | zero => exact walkAuthority_keepsUp .none hsub
  | succ n ih => exact walkAuthority_keepsUp (.some ih) hsub

/-- **The keys of a walk are enough for it.** -/
theorem walk_withKeys (hsub : ∀ k ∈ keys, k ∈ c.providedKeys)
    (hwalk : c.walk verdict true p = some (b, w)) (hneeded : ∀ k ∈ w.keys, k ∈ keys) :
    ∃ v, (c.withKeys keys).walk verdict true p = some (b, v) ∧ w.keys = v.keys := by
  have hrec : Option.Rel (CallKeepsUp keys verdict) (c.walkDeeper verdict true c.recursionDepthLimit)
      ((c.withKeys keys).walkDeeper verdict true c.recursionDepthLimit) := by
    cases c.recursionDepthLimit with
    | zero => exact .none
    | succ n => exact .some (walkWithin_keepsUp hsub n)
  obtain ⟨v, hv, hkeeps⟩ := (walkPermission_keepsUp hrec hwalk).2 _ ⟨rfl, fun _ => rfl⟩
    fun _ => hneeded
  exact ⟨v, hv, hkeeps.needed rfl⟩

end WithKeys

/-! ## Needed keys -/

section Needs

variable (c : AuthorityChecker) (p : PermissionLevel)

/-- No permission is found satisfied inside the evaluation of one that is not. -/
def Unspoiled : Prop := ∃ verdict r, c.walk verdict true p = some r

/-- Besides, the permission itself is found satisfied. -/
def Finds : Prop := ∃ verdict trail, c.walk verdict true p = some (true, trail)

def Needs (k : PublicKey) : Prop :=
  ∃ verdict trail, c.walk verdict true p = some (true, trail) ∧ k ∈ trail.keys

variable {c p} {verdict : PermissionLevel → Bool} {w : Trail} {keys : FlatSet PublicKey}
  {marks : List Bool} {k : PublicKey}

theorem needs_iff (hwalk : c.walk verdict true p = some (true, w)) : c.Needs p k ↔ k ∈ w.keys := by
  have hmarks := fun k => (satisfied_follows length_unusedMarks hwalk).2.2 k
  constructor
  · -- all walks have the keys that the evaluation marks
    rintro ⟨verdict', w', hwalk', hk⟩
    have hmarks' := (satisfied_follows length_unusedMarks hwalk').2.2 k
    exact ((hmarks k).1 (hmarks'.2 (.inr hk))).resolve_left not_marks_unusedMarks
  · intro hk
    exact ⟨verdict, w, hwalk, hk⟩

theorem Finds.satisfied (h : c.Finds p) (hlength : marks.length = c.providedKeys.size) :
    (c.satisfied p marks).1 = true ∧ (c.satisfied p marks).2.length = c.providedKeys.size
      ∧ ∀ k, c.Marks (c.satisfied p marks).2 k ↔ c.Marks marks k ∨ c.Needs p k := by
  obtain ⟨verdict, w, hwalk⟩ := h
  simp only [needs_iff hwalk]
  exact satisfied_follows hlength hwalk

theorem Unspoiled.finds (h : c.Unspoiled p) (hlength : marks.length = c.providedKeys.size)
    (hsatisfied : (c.satisfied p marks).1 = true) : c.Finds p := by
  obtain ⟨verdict, ⟨b, w⟩, hwalk⟩ := h
  rw [(satisfied_follows hlength hwalk).1] at hsatisfied
  exact ⟨verdict, w, hsatisfied ▸ hwalk⟩

theorem Finds.withKeys (h : c.Finds p) (hsub : ∀ k ∈ keys, k ∈ c.providedKeys)
    (hneeded : ∀ k, c.Needs p k → k ∈ keys) :
    (c.withKeys keys).Finds p ∧ ∀ k, (c.withKeys keys).Needs p k ↔ c.Needs p k := by
  obtain ⟨verdict, w, hwalk⟩ := h
  obtain ⟨v, hv, hkeys⟩ := walk_withKeys hsub hwalk fun k hk => hneeded k ((needs_iff hwalk).2 hk)
  refine ⟨⟨verdict, v, hv⟩, fun k => ?_⟩
  rw [needs_iff hv, needs_iff hwalk, hkeys]

end Needs

end AuthorityChecker

/-! ## Signing a transaction -/

/-- What an action asks for: the permissions it declares and, if it is a `canceldelay`, the delay of
the transaction that it cancels. -/
structure DeclaringAction where
  authorization : List PermissionLevel
  canceledDelay : Option Int

/-- `fc::microseconds::maximum()`. -/
def maximumDelay : Int := 2 ^ 63 - 1

def DeclaringAction.delay (act : DeclaringAction) (effectiveProvidedDelay : Int) : Int :=
  match act.canceledDelay with
  | none => effectiveProvidedDelay
  | some delay => max effectiveProvidedDelay delay

/-- The declared permissions, each with the shortest of its delays. -/
def permissionsToSatisfy (effectiveProvidedDelay : Int) (actions : List DeclaringAction) :
    FlatMap PermissionLevel Int :=
  actions.foldl (fun permissions act =>
    let delay := act.delay effectiveProvidedDelay
    act.authorization.foldl (fun permissions p =>
      match permissions.get? p with
      | none => permissions.set p delay
      | some delay' => if delay < delay' then permissions.set p delay else permissions)
      permissions) FlatMap.empty

namespace AuthorityChecker

section Transaction

variable (c : AuthorityChecker)

/-- The loop over the permissions of `get_required_keys` and of `check_authorization`; each one has
a delay of its own. -/
def satisfyAll (message : String) : List (PermissionLevel × Int) → List Bool → Result (List Bool)
  | [], marks => .ok marks
  | e :: es, marks => do
    eosAssert (((c.withDelay e.2).satisfied e.1 marks).1 = true) .unsatisfiedAuthorization message
    satisfyAll message es ((c.withDelay e.2).satisfied e.1 marks).2

def declared (actions : List DeclaringAction) : List (PermissionLevel × Int) :=
  (actions.flatMap DeclaringAction.authorization).map fun p => (p, c.providedDelay)

def getRequiredKeys (actions : List DeclaringAction) : Result (FlatSet PublicKey) := do
  let marks ← c.satisfyAll
    "transaction declares authority '${auth}', but does not have signatures for it."
    (c.declared actions) c.unusedMarks
  return c.usedKeys marks

/-- What `check_authorization` has satisfied, in ascending order, with the delay of each. -/
def toSatisfy (delayMaxLimit : Int) (actions : List DeclaringAction) :
    List (PermissionLevel × Int) :=
  (permissionsToSatisfy
    (if delayMaxLimit ≤ c.providedDelay then maximumDelay else c.providedDelay) actions).entries

/-- `check_authorization` for an input transaction, from where the actions have passed the checks on
what they may declare: the permissions are satisfied, and no key is left over. -/
def checkAuthorization (delayMaxLimit : Int) (actions : List DeclaringAction) : Result Unit := do
  let marks ← c.satisfyAll
    "transaction declares authority '${auth}', but does not have signatures for it under a provided delay of ${provided_delay} ms, provided permissions ${provided_permissions}, provided keys ${provided_keys}, and a delay max limit of ${delay_max_limit_ms} ms"
    (c.toSatisfy delayMaxLimit actions) c.unusedMarks
  eosAssert (allKeysUsed marks = true) .txIrrelevantSig
    "transaction bears irrelevant signatures from these keys: ${keys}"

def FindsAll (es : List (PermissionLevel × Int)) : Prop := ∀ e ∈ es, (c.withDelay e.2).Finds e.1

def NeedsFor (es : List (PermissionLevel × Int)) (k : PublicKey) : Prop :=
  ∃ e ∈ es, (c.withDelay e.2).Needs e.1 k

/-- With the delays of `check_authorization` all permissions are found, and the same keys are needed
as with the provided delay. -/
structure KeepsKeys (delayMaxLimit : Int) (actions : List DeclaringAction) : Prop where
  finds : c.FindsAll (c.toSatisfy delayMaxLimit actions)
  needs : ∀ k, c.NeedsFor (c.toSatisfy delayMaxLimit actions) k ↔ c.NeedsFor (c.declared actions) k

variable {c} {message : String} {es : List (PermissionLevel × Int)} {marks final : List Bool}

theorem satisfyAll_of_finds (hfinds : c.FindsAll es) (hlength : marks.length = c.providedKeys.size) :
    ∃ final, c.satisfyAll message es marks = .ok final ∧ final.length = c.providedKeys.size ∧
      ∀ k, c.Marks final k ↔ c.Marks marks k ∨ c.NeedsFor es k := by
  induction es generalizing marks with
  | nil => exact ⟨marks, rfl, hlength, by simp [NeedsFor]⟩
  | cons e es ih =>
    obtain ⟨hfind, hfinds⟩ := forall_mem_cons.1 hfinds
    obtain ⟨hsatisfied, hlength', hmarks⟩ := hfind.satisfied hlength
    obtain ⟨final, hfinal, hlength'', hmarks'⟩ := ih hfinds hlength'
    refine ⟨final, bind_eq_ok.2 ⟨(), eosAssert_eq_ok.2 hsatisfied, hfinal⟩, hlength'', fun k => ?_⟩
    have hmarks : c.Marks ((c.withDelay e.2).satisfied e.1 marks).2 k
        ↔ c.Marks marks k ∨ (c.withDelay e.2).Needs e.1 k := hmarks k
    rw [hmarks' k, hmarks]
    simp only [NeedsFor, mem_cons, exists_eq_or_imp, or_assoc]

theorem finds_of_satisfyAll (hun : ∀ e ∈ es, (c.withDelay e.2).Unspoiled e.1)
    (hlength : marks.length = c.providedKeys.size)
    (h : c.satisfyAll message es marks = .ok final) : c.FindsAll es := by
  induction es generalizing marks with
  | nil => exact nofun
  | cons e es ih =>
    obtain ⟨_, hassert, hrest⟩ := bind_eq_ok.1 h
    obtain ⟨he, hes⟩ := forall_mem_cons.1 hun
    have hfinds := he.finds hlength (eosAssert_eq_ok.1 hassert)
    exact forall_mem_cons.2 ⟨hfinds, ih hes (hfinds.satisfied hlength).2.1 hrest⟩

theorem mem_of_getRequiredKeys {actions : List DeclaringAction} {keys : FlatSet PublicKey}
    (hun : ∀ e ∈ c.declared actions, (c.withDelay e.2).Unspoiled e.1)
    (h : c.getRequiredKeys actions = .ok keys) (k : PublicKey) :
    k ∈ keys ↔ c.NeedsFor (c.declared actions) k := by
  obtain ⟨marks, hmarks, hkeys⟩ := bind_eq_ok.1 h
  obtain rfl : c.usedKeys marks = keys := by injection hkeys
  obtain ⟨final, hfinal, -, hiff⟩ := satisfyAll_of_finds
    (finds_of_satisfyAll hun length_unusedMarks hmarks) length_unusedMarks
  rw [hmarks] at hfinal
  cases hfinal
  rw [mem_usedKeys, hiff]
  exact or_iff_right not_marks_unusedMarks

end Transaction

/-! ## Two wallets -/

/-- An action that cancels a transaction with a delay of ten seconds. -/
def cancelAction : DeclaringAction := ⟨[⟨1, 1⟩], some 10000000⟩

/-- Four accounts: the first is controlled by the second or the third, which both name the fourth;
the second needs a key besides. -/
def driftAuthorities : List (PermissionLevel × Authority) :=
  [(⟨1, 1⟩, ⟨1, [], [⟨⟨2, 1⟩, 2⟩, ⟨⟨3, 1⟩, 1⟩], []⟩),
    (⟨2, 1⟩, ⟨2, [⟨8, 1⟩], [⟨⟨4, 1⟩, 1⟩], []⟩),
    (⟨3, 1⟩, ⟨1, [], [⟨⟨4, 1⟩, 1⟩], []⟩),
    (⟨4, 1⟩, ⟨1, [⟨7, 1⟩], [], []⟩)]

def driftChecker (keys : List PublicKey) : AuthorityChecker :=
  ⟨.ofList driftAuthorities (by decide), 6, .ofList keys, .ofList [], 0⟩

/-- One account, controlled by a key or a wait of ten seconds. -/
def waitingChecker (keys : List PublicKey) : AuthorityChecker :=
  ⟨.ofList [(⟨1, 1⟩, ⟨1, [⟨7, 1⟩], [], [⟨10, 1⟩]⟩)] (by decide), 6, .ofList keys, .ofList [], 0⟩

end AuthorityChecker

end PotatoNode.Chain
