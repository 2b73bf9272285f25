import PotatoNode.Lib.OrderedMultimap
import PotatoNode.ChainPlugin.QueryMirror

/-!
# Queries by authorizer (`account_query_db.cpp`)

`get_accounts_by_authorizers` walks ranges of the left sides of the two bimaps, which are ordered by
authorizer and weight. The range of an account with a wildcard ends at the next account name.
-/

namespace PotatoNode.ChainPlugin

open Lib Chain FlatSet Weighted List Nat

/-- `std::numeric_limits<weight_type>::max()`. -/
def maxWeight : Nat := 2 ^ 16 - 1

def maxName : AccountName := 2 ^ 64 - 1

/-- The tuple by which `std::less<weighted<T>>` compares. -/
def Weighted.tie {T : Type} (w : Weighted T) : T ×ₗ ℕ := toLex (w.value, w.weight)

def Weighted.lowerBoundFor {T : Type} (value : T) : Weighted T := ⟨value, 0⟩

def Weighted.upperBoundFor {T : Type} (value : T) : Weighted T := ⟨value, maxWeight⟩

/-- The left side of a bimap, with the infos that the references on the right side stand for.
Entries with equal authorizer and weight may be in any order. -/
structure LeftView (T : Type) [LinearOrder T] extends
    OrderedMultimap fun e : Weighted T × PermissionInfo => e.1.tie where
  weight_le : ∀ e ∈ entries, e.1.weight ≤ maxWeight

/-- The left side of `name_bimap`. -/
structure NameView extends LeftView PermissionLevel where
  actor_le : ∀ e ∈ entries, e.1.value.actor ≤ maxName

structure AccountResult where
  accountName : AccountName
  permissionName : PermissionName
  authorizingAccount : Option PermissionLevel
  authorizingKey : Option PublicKey
  weight : Nat
  threshold : Nat
deriving DecidableEq, Repr

/-- What `push_results` adds for an entry of `name_bimap`. -/
def nameResult (e : Weighted PermissionLevel × PermissionInfo) : AccountResult :=
  ⟨e.2.owner, e.2.name, some e.1.value, none, e.1.weight, e.2.threshold⟩

/-- What `push_results` adds for an entry of `key_bimap`. -/
def keyResult (e : Weighted PublicKey × PermissionInfo) : AccountResult :=
  ⟨e.2.owner, e.2.name, none, some e.1.value, e.1.weight, e.2.threshold⟩

namespace LeftView

variable {T : Type} [LinearOrder T] (v : LeftView T)

def lowerBound (w : Weighted T) : Nat := v.toOrderedMultimap.lowerBound w.tie

def upperBound (w : Weighted T) : Nat := v.toOrderedMultimap.upperBound w.tie

def pushResults (result : Weighted T × PermissionInfo → AccountResult) (first last : Nat) :
    Result (List AccountResult) :=
  match v.walk first last with
  | none => .error .undefinedBehaviour
  | some entries => .ok (entries.map result)

end LeftView

/-- `chain::name(actor.to_uint64_t() + 1)`. -/
def nextAccountName (actor : AccountName) : AccountName := (actor + 1) % 2 ^ 64

def NameView.query (names : NameView) (a : PermissionLevel) : Result (List AccountResult) :=
  if a.permission = 0 then
    -- an empty permission is a wildcard: up to the lower bound of the next possible account name
    names.pushResults nameResult (names.lowerBound (.lowerBoundFor ⟨a.actor, a.permission⟩))
      (names.lowerBound (.lowerBoundFor ⟨nextAccountName a.actor, a.permission⟩))
  else
    -- all possible weights for an account/permission pair
    names.pushResults nameResult (names.lowerBound (.lowerBoundFor ⟨a.actor, a.permission⟩))
      (names.upperBound (.upperBoundFor ⟨a.actor, a.permission⟩))

def LeftView.queryKey (keys : LeftView PublicKey) (k : PublicKey) : Result (List AccountResult) :=
  keys.pushResults keyResult (keys.lowerBound (.lowerBoundFor k))
    (keys.upperBound (.upperBoundFor k))

def getAccountsByAuthorizers (names : NameView) (keys : LeftView PublicKey)
    (accounts : List PermissionLevel) (publicKeys : List PublicKey) :
    Result (List AccountResult) := do
  let byAccount ← (ofList accounts).entries.mapM names.query
  let byKey ← (ofList publicKeys).entries.mapM keys.queryKey
  .ok (byAccount.flatten ++ byKey.flatten)

/-! ## What a range holds -/

namespace Weighted

variable {T : Type} [LinearOrder T] {w : Weighted T} {x y : T}

theorem tie_lt_lowerBoundFor : w.tie < (lowerBoundFor x).tie ↔ w.value < x := by
  unfold tie lowerBoundFor
  rw [Prod.Lex.toLex_lt_toLex]
  simp

theorem tie_le_upperBoundFor (h : w.weight ≤ maxWeight) :
    w.tie ≤ (upperBoundFor x).tie ↔ w.value ≤ x := by
  unfold tie upperBoundFor
  rw [Prod.Lex.toLex_le_toLex]
  simp only [h, and_true]
  exact le_iff_lt_or_eq.symm

theorem lowerBoundFor_mono (h : x ≤ y) : (lowerBoundFor x).tie ≤ (lowerBoundFor y).tie :=
  not_lt.1 fun hlt => absurd (tie_lt_lowerBoundFor.1 hlt) (not_lt.2 h)

end Weighted

namespace LeftView

variable {T : Type} [LinearOrder T] {v : LeftView T}
  {result : Weighted T × PermissionInfo → AccountResult} {x y : T}

/-- From the first entry of one authorizer to the first entry of another one. -/
theorem pushResults_lowerBound (h : x ≤ y) :
    v.pushResults result (v.lowerBound (.lowerBoundFor x)) (v.lowerBound (.lowerBoundFor y))
      = .ok ((v.entries.filter fun e => x ≤ e.1.value ∧ e.1.value < y).map result) := by
  have hwalk := OrderedMultimap.walk_lowerBound_lowerBound (m := v.toOrderedMultimap)
    (lowerBoundFor_mono h)
  unfold pushResults lowerBound
  simp only [hwalk]
  simp only [tie_lt_lowerBoundFor, Bool.decide_and, ← decide_not, not_lt, Bool.and_comm]

/-- From the first entry of an authorizer to the last one. -/
theorem pushResults_upperBound :
    v.pushResults result (v.lowerBound (.lowerBoundFor x)) (v.upperBound (.upperBoundFor x))
      = .ok ((v.entries.filter fun e => e.1.value = x).map result) := by
  have hle : (lowerBoundFor x).tie ≤ (upperBoundFor x).tie :=
    (tie_le_upperBoundFor (zero_le _)).2 (le_refl x)
  have hwalk := OrderedMultimap.walk_lowerBound_upperBound (m := v.toOrderedMultimap) hle
  unfold pushResults lowerBound upperBound
  simp only [hwalk]
  congr 2
  refine filter_congr fun e he => ?_
  rw [← decide_not, ← Bool.decide_and]
  refine decide_eq_decide.2 ?_
  rw [tie_le_upperBoundFor (v.weight_le e he), tie_lt_lowerBoundFor, not_lt]
  exact antisymm_iff

theorem lowerBound_eq_zero (h : ∀ e ∈ v.entries, x ≤ e.1.value) :
    v.lowerBound (.lowerBoundFor x) = 0 := by
  refine countP_eq_zero.2 fun e he => ?_
  rw [decide_eq_true_eq, tie_lt_lowerBoundFor]
  exact not_lt.2 (h e he)

end LeftView

/-! ## The rounds of the query -/

section Order

variable {p q : PermissionLevel} {actor : AccountName}

theorem permissionLevel_lt_iff :
    p < q ↔ p.actor < q.actor ∨ p.actor = q.actor ∧ p.permission < q.permission := by
  show p.tie < q.tie ↔ _
  unfold PermissionLevel.tie
  rw [Prod.Lex.toLex_lt_toLex]

theorem wildcard_le_iff : (⟨actor, 0⟩ : PermissionLevel) ≤ p ↔ actor ≤ p.actor := by
  rw [← not_lt, permissionLevel_lt_iff]
  simp

theorem lt_wildcard_iff : p < ⟨actor, 0⟩ ↔ p.actor < actor := by
  rw [← not_le, wildcard_le_iff, not_le]

theorem nextAccountName_of_lt (h : actor < maxName) : nextAccountName actor = actor + 1 :=
  mod_eq_of_lt (add_lt_of_lt_sub h)

end Order

/-- The authorizer has the actor of `a`, and the permission of `a` or any permission if `a` has a
wildcard. -/
def Asks (a p : PermissionLevel) : Prop :=
  a.actor = p.actor ∧ (a.permission = 0 ∨ a.permission = p.permission)

instance (a p : PermissionLevel) : Decidable (Asks a p) := inferInstanceAs (Decidable (_ ∧ _))

namespace NameView

variable {names : NameView} {a : PermissionLevel}

theorem query_eq_ok (ha : a.actor ≤ maxName) (hne : a ≠ ⟨maxName, 0⟩) :
    names.query a = .ok ((names.entries.filter fun e => Asks a e.1.value).map nameResult) := by
  obtain ⟨actor, permission⟩ := a
  unfold query
  split_ifs with hp
  · obtain rfl : permission = 0 := hp
    have hlt : actor < maxName := lt_of_le_of_ne ha fun h => hne (by rw [h])
    rw [nextAccountName_of_lt hlt, LeftView.pushResults_lowerBound]
    · congr 2
      refine filter_congr fun e _ => decide_eq_decide.2 ?_
      rw [wildcard_le_iff, lt_wildcard_iff, Nat.lt_succ_iff]
      unfold Asks
      simp only [true_or, and_true]
      exact le_antisymm_iff.symm
    · exact wildcard_le_iff.2 (le_succ actor)
  · rw [LeftView.pushResults_upperBound]
    unfold Asks
    simp only [hp, false_or, PermissionLevel.ext_iff, eq_comm]

theorem query_maxName : names.query ⟨maxName, 0⟩
    = if ∀ e ∈ names.entries, e.1.value.actor = maxName then .ok []
      else .error .undefinedBehaviour := by
  have hend : names.lowerBound (.lowerBoundFor ⟨nextAccountName maxName, 0⟩) = 0 :=
    LeftView.lowerBound_eq_zero fun e _ => wildcard_le_iff.2 (zero_le _)
  unfold query LeftView.pushResults
  rw [if_pos rfl]
  rw [hend]
  split_ifs with h
  · -- the range of the last name begins where the container begins
    have hbegin : names.lowerBound (.lowerBoundFor ⟨maxName, 0⟩) = 0 :=
      LeftView.lowerBound_eq_zero fun e he => wildcard_le_iff.2 (h e he).ge
    rw [hbegin]
    rfl
  · obtain ⟨e, he, hne⟩ : ∃ e ∈ names.entries, e.1.value.actor ≠ maxName := by
      simpa only [not_forall, exists_prop] using h
    have hbegin : 0 < names.lowerBound (.lowerBoundFor ⟨maxName, 0⟩) := by
      refine countP_pos_iff.2 ⟨e, he, decide_eq_true ?_⟩
      exact tie_lt_lowerBoundFor.2 (lt_wildcard_iff.2 (lt_of_le_of_ne (names.actor_le e he) hne))
    rw [OrderedMultimap.walk_eq_none _ hbegin]

end NameView

/-! ## The query -/

def Exact (names : NameView) (keys : LeftView PublicKey) (accounts : List PermissionLevel)
    (publicKeys : List PublicKey) (results : List AccountResult) : Prop :=
  ∀ r, r ∈ results ↔ (∃ e ∈ names.entries, (∃ a ∈ accounts, Asks a e.1.value) ∧ r = nameResult e)
    ∨ ∃ e ∈ keys.entries, e.1.value ∈ publicKeys ∧ r = keyResult e

section Query

variable {names : NameView} {keys : LeftView PublicKey} {accounts : List PermissionLevel}
  {publicKeys : List PublicKey} {a : PermissionLevel} {r : AccountResult}

/-- Rounds that each find the entries with a property. -/
theorem exists_rounds {α E : Type} [LinearOrder α] {round : α → Result (List AccountResult)}
    {entries : List E} {p : α → E → Prop} [∀ a e, Decidable (p a e)] {result : E → AccountResult}
    {l : List α} (h : ∀ a ∈ l, round a = .ok ((entries.filter fun e => p a e).map result)) :
    ∃ rss, (ofList l).entries.mapM round = .ok rss
      ∧ ∀ r, r ∈ rss.flatten ↔ ∃ e ∈ entries, (∃ a ∈ l, p a e) ∧ r = result e := by
  obtain ⟨rss, hrun, hmem⟩ := exists_mapM_eq_ok (l := (ofList l).entries) fun a ha =>
    ⟨_, h a (mem_ofList.1 ha)⟩
  refine ⟨rss, hrun, fun r => ?_⟩
  simp only [mem_flatten, hmem]
  constructor
  · rintro ⟨rs, ⟨a, ha, hrs⟩, hr⟩
    have ha := mem_ofList.1 ha
    rw [h a ha] at hrs
    cases hrs
    obtain ⟨e, he, rfl⟩ := mem_map.1 hr
    obtain ⟨he, hp⟩ := mem_filter.1 he
    exact ⟨e, he, ⟨a, ha, of_decide_eq_true hp⟩, rfl⟩
  · rintro ⟨e, he, ⟨a, ha, hp⟩, rfl⟩
    refine ⟨_, ⟨a, mem_ofList.2 ha, h a ha⟩, mem_map_of_mem ?_⟩
    exact mem_filter.2 ⟨he, decide_eq_true hp⟩

theorem exists_queryKeys (keys : LeftView PublicKey) (publicKeys : List PublicKey) :
    ∃ byKey, (ofList publicKeys).entries.mapM keys.queryKey = .ok byKey
      ∧ ∀ r, r ∈ byKey.flatten ↔ ∃ e ∈ keys.entries, e.1.value ∈ publicKeys ∧ r = keyResult e := by
  obtain ⟨byKey, hrun, hmem⟩ := exists_rounds (l := publicKeys) fun k _ =>
    LeftView.pushResults_upperBound (v := keys) (x := k)
  simp only [exists_eq_right'] at hmem
  exact ⟨byKey, hrun, hmem⟩

theorem exists_queryNames (h : ∀ a ∈ accounts, a.actor ≤ maxName)
    (hlast : ⟨maxName, 0⟩ ∈ accounts → ∀ e ∈ names.entries, e.1.value.actor = maxName) :
    ∃ byAccount, (ofList accounts).entries.mapM names.query = .ok byAccount
      ∧ ∀ r, r ∈ byAccount.flatten ↔ ∃ e ∈ names.entries,
        (∃ a ∈ accounts, a ≠ ⟨maxName, 0⟩ ∧ Asks a e.1.value) ∧ r = nameResult e := by
  refine exists_rounds fun a ha => ?_
  by_cases hne : a = ⟨maxName, 0⟩
  · subst hne
    rw [NameView.query_maxName, if_pos (hlast ha)]
    simp
  · rw [NameView.query_eq_ok (h a ha) hne]
    simp [hne]

theorem exists_exact (keys : LeftView PublicKey) (publicKeys : List PublicKey)
    (h : ∀ a ∈ accounts, a.actor ≤ maxName)
    (hlast : ⟨maxName, 0⟩ ∈ accounts → ∀ e ∈ names.entries,
      e.1.value.actor = maxName ∧ e.1.value.permission ≠ 0 ∧ e.1.value ∈ accounts) :
    ∃ results, getAccountsByAuthorizers names keys accounts publicKeys = .ok results
      ∧ Exact names keys accounts publicKeys results := by
  obtain ⟨byKey, hkeys, hbyKey⟩ := exists_queryKeys keys publicKeys
  obtain ⟨byAccount, hnames, hbyAccount⟩ := exists_queryNames h fun hmem e he => (hlast hmem e he).1
  refine ⟨byAccount.flatten ++ byKey.flatten, ?_, fun r => ?_⟩
  · unfold getAccountsByAuthorizers
    rw [hnames, ok_bind, hkeys, ok_bind]
  · rw [mem_append, hbyAccount, hbyKey]
    refine or_congr_left (exists_congr fun e => and_congr_right fun he => and_congr_left' ?_)
    constructor
    · exact fun ⟨a, ha, _, hasks⟩ => ⟨a, ha, hasks⟩
    · rintro ⟨a, ha, hasks⟩
      by_cases hne : a = ⟨maxName, 0⟩
      · subst hne
        obtain ⟨-, hp, hmem⟩ := hlast ha e he
        exact ⟨_, hmem, fun h => hp (by rw [h]), rfl, .inr rfl⟩
      · exact ⟨a, ha, hne, hasks⟩

/-- **Authorizer queries are exact** if and only if they do not ask for all permissions of the last
name, or other accounts of the query find all there is. -/
theorem exact_iff (names : NameView) (keys : LeftView PublicKey) (accounts : List PermissionLevel)
    (publicKeys : List PublicKey) (h : ∀ a ∈ accounts, a.actor ≤ maxName) :
    (∃ results, getAccountsByAuthorizers names keys accounts publicKeys = .ok results
        ∧ Exact names keys accounts publicKeys results)
      ↔ (⟨maxName, 0⟩ ∈ accounts → ∀ e ∈ names.entries,
          e.1.value.actor = maxName ∧ e.1.value.permission ≠ 0 ∧ e.1.value ∈ accounts) := by
  refine ⟨?_, exists_exact keys publicKeys h⟩
  rintro ⟨results, hrun, hexact⟩ hmem e he
  obtain ⟨byKey, hkeys, hbyKey⟩ := exists_queryKeys keys publicKeys
  obtain ⟨byAccount, hnames, hrun⟩ := bind_eq_ok.1 hrun
  rw [hkeys] at hrun
  cases hrun
  -- the round for the last name has not run out of the container
  obtain ⟨rs, hround⟩ := mapM_eq_ok hnames (mem_ofList.2 hmem)
  rw [NameView.query_maxName] at hround
  split_ifs at hround with hall
  obtain ⟨byAccount', hnames', hbyAccount⟩ := exists_queryNames h fun _ => hall
  rw [hnames'] at hnames
  cases hnames
  -- so another one has found the entry
  have hfound := (hexact _).2
    (.inl ⟨e, he, ⟨_, hmem, (hall e he).symm, .inl rfl⟩, rfl⟩)
  rw [mem_append, hbyAccount, hbyKey] at hfound
  rcases hfound with ⟨e', he', ⟨a, ha, hne, hasks⟩, heq⟩ | ⟨_, _, _, heq⟩
  · have hvalue : e.1.value = e'.1.value :=
      Option.some.inj (congrArg AccountResult.authorizingAccount heq)
    rw [← hvalue] at hasks
    have hactor : a.actor = maxName := hasks.1.trans (hall e he)
    have hp : a.permission ≠ 0 := fun hp => hne (PermissionLevel.ext hactor hp)
    have ha' : a = e.1.value := PermissionLevel.ext hasks.1 (hasks.2.resolve_left hp)
    exact ⟨hall e he, ha' ▸ hp, ha' ▸ ha⟩
  · exact absurd (congrArg AccountResult.authorizingAccount heq) (by simp [nameResult, keyResult])

def bobForAlice : NameView where
  entries := [(⟨⟨stringToName "bob", activeName⟩, 1⟩,
    ⟨stringToName "alice", activeName, 0, 1⟩)]
  sorted := List.pairwise_singleton _ _
  weight_le := by decide +kernel
  actor_le := by decide +kernel

def noKeys : LeftView PublicKey := ⟨⟨[], List.Pairwise.nil⟩, by decide⟩

theorem exact_bobForAlice :
    (∃ results, getAccountsByAuthorizers bobForAlice noKeys [⟨stringToName "bob", 0⟩] [7] = .ok results
        ∧ Exact bobForAlice noKeys [⟨stringToName "bob", 0⟩] [7] results) :=
  (exact_iff bobForAlice noKeys [⟨stringToName "bob", 0⟩] [7] (by decide +kernel)).2
    (by decide +kernel)

/-- All permissions of the last name are asked for, and the query runs out of the container. -/
theorem query_of_last_name :
    getAccountsByAuthorizers bobForAlice noKeys [⟨maxName, 0⟩] [] = .error .undefinedBehaviour := by
  decide +kernel

end Query

end PotatoNode.ChainPlugin
