import PotatoNode.ChainPlugin.AccountQueryDb

/-!
# When the account query database mirrors the chain

`commit_block` is given the permission index after a block and the traces of the block. From a map
that mirrors an earlier state `last` of the index it makes one that mirrors the state `now` exactly
when the changes from the one to the other leave the right marks (`Followed`): what has changed is
named by the actions of the block, or was last updated at the time of the block or later, and the
latter is not updated in the block once more.
-/

namespace PotatoNode.ChainPlugin

open Lib Chain List Function Table
open Chainbase (GenericIndex)

def Stale (t : Nat) (o : Option PermissionObject) : Prop := ∃ p, o = some p ∧ t ≤ p.lastUpdated

instance (t : Nat) (o : Option PermissionObject) : Decidable (Stale t o) :=
  match o with
  | none => isFalse fun ⟨_, h, _⟩ => nomatch h
  | some p => decidable_of_iff (t ≤ p.lastUpdated)
    ⟨fun h => ⟨p, rfl, h⟩, fun ⟨_, h, hle⟩ => Option.some_inj.1 h ▸ hle⟩

namespace QueryMap

variable {m m' : QueryMap} {last now : PermissionLevel → Option PermissionObject} {t : Nat}
  {k : PermissionLevel}

/-! ## What a map knows of the permissions it mirrors -/

theorem Mirrors.info (h : m.Mirrors last) (k : PermissionLevel) :
    m.permissionInfoIndex.find? k = (last k).map infoOf := by
  have hinfo := congrArg Entry.info (h k)
  cases hk : last k with
  | none | some p => rwa [hk] at hinfo

theorem Mirrors.mem_of_some (h : m.Mirrors last) {p : PermissionObject} (hp : last k = some p) :
    infoOf p ∈ m.permissionInfoIndex := by
  have hinfo := h.info k
  rw [hp] at hinfo
  exact (find?_eq_some_iff.1 hinfo).1

variable {pi : PermissionInfo} {touched : Touched}

section

variable (h : m.Mirrors last)
include h

theorem Mirrors.exists_of_mem (hpi : pi ∈ m.permissionInfoIndex) :
    ∃ p, last pi.level = some p ∧ infoOf p = pi := by
  have hinfo := h.info pi.level
  rw [find?_of_mem hpi] at hinfo
  exact Option.map_eq_some_iff.1 hinfo.symm

theorem Mirrors.newest_eq_none (hnewest : m.newest = none) : ¬ Stale t (last k) := by
  rintro ⟨p, hp, -⟩
  have hempty : m.permissionInfoIndex.entries = [] := argmax_eq_none.1 hnewest
  have hmem : infoOf p ∈ m.permissionInfoIndex.entries := h.mem_of_some hp
  rw [hempty] at hmem
  cases hmem

theorem Mirrors.newest_eq_some (hnewest : m.newest = some pi) :
    (∃ p, last pi.level = some p ∧ infoOf p = pi)
      ∧ ∀ k p, last k = some p → p.lastUpdated ≤ pi.lastUpdated := by
  refine ⟨h.exists_of_mem (argmax_mem hnewest), fun k p hp => ?_⟩
  exact le_of_mem_argmax (h.mem_of_some hp) hnewest

theorem Mirrors.isRollbackRequired_iff : m.isRollbackRequired t = true ↔ ∃ k, Stale t (last k) := by
  unfold isRollbackRequired
  cases hnewest : m.newest with
  | none => simpa using fun k => h.newest_eq_none hnewest
  | some pi =>
    obtain ⟨⟨p, hp, hinfo⟩, hle⟩ := h.newest_eq_some hnewest
    rw [decide_eq_true_iff]
    constructor
    · intro ht
      exact ⟨pi.level, p, hp, by rw [← hinfo] at ht; exact ht⟩
    · rintro ⟨k, q, hq, ht⟩
      exact ht.trans (hle k q hq)

end

/-! ## The loop of `rollback_to_before` -/

/-- The permissions that the loop has yet to look up. -/
def staleLevels (t : Nat) (m : QueryMap) : Finset PermissionLevel :=
  ((m.permissionInfoIndex.entries.filter (t ≤ ·.lastUpdated)).map PermissionInfo.level).toFinset

theorem mem_staleLevels_iff :
    k ∈ staleLevels t m ↔ ∃ pi, m.permissionInfoIndex.find? k = some pi ∧ t ≤ pi.lastUpdated := by
  simp only [staleLevels, mem_toFinset, mem_map, mem_filter, decide_eq_true_iff]
  constructor
  · rintro ⟨pi, ⟨hpi, ht⟩, rfl⟩
    exact ⟨pi, find?_of_mem hpi, ht⟩
  · rintro ⟨pi, hfind, ht⟩
    obtain ⟨hpi, hlevel⟩ := find?_eq_some_iff.1 hfind
    exact ⟨pi, ⟨hpi, ht⟩, hlevel⟩

section Loop

variable (permissions : GenericIndex PermissionObject)

/-- A round of the loop, for the info `pi`. -/
def renew (pi : PermissionInfo) (m : QueryMap) : QueryMap :=
  match lookup permissions pi.level with
  | none => m.drop pi.level
  | some po => m.refresh pi po

/-- The info that a round leaves for `pi`: that of the permission in the chain. -/
def renewed (pi : PermissionInfo) : Option PermissionInfo :=
  (lookup permissions pi.level).map fun po =>
    { pi with lastUpdated := po.lastUpdated, threshold := po.auth.threshold }

theorem find?_renew (m : QueryMap) (k : PermissionLevel) :
    (renew permissions pi m).permissionInfoIndex.find? k
      = if k = pi.level then renewed permissions pi else m.permissionInfoIndex.find? k := by
  unfold renew renewed
  cases lookup permissions pi.level with
  | none =>
    show (m.permissionInfoIndex.erase pi.level).find? k = _
    rw [find?_erase]
    congr
  | some po =>
    show (m.permissionInfoIndex.insert
      { pi with lastUpdated := po.lastUpdated, threshold := po.auth.threshold }).find? k = _
    rw [find?_insert]
    by_cases hk : k = pi.level
    · rw [if_pos hk]
      exact if_pos hk
    · rw [if_neg hk]
      exact if_neg hk

/-- The loop ends, or goes on with a round for an info that is not older than the time. -/
theorem rollback_round (t fuel : Nat) (m : QueryMap) :
    ((∀ pi ∈ m.permissionInfoIndex, pi.lastUpdated < t)
        ∧ rollback permissions t (fuel + 1) m = .ok m)
      ∨ ∃ pi ∈ m.permissionInfoIndex, t ≤ pi.lastUpdated
        ∧ rollback permissions t (fuel + 1) m = rollback permissions t fuel (renew permissions pi m) := by
  rw [rollback]
  cases hnewest : m.newest with
  | none =>
    have hempty : m.permissionInfoIndex.entries = [] := argmax_eq_none.1 hnewest
    refine .inl ⟨fun pi hpi => ?_, rfl⟩
    rw [mem_def, hempty] at hpi
    cases hpi
  | some pi =>
    by_cases ht : pi.lastUpdated < t
    · refine .inl ⟨fun pi' hpi' => ?_, if_pos ht⟩
      exact Nat.lt_of_le_of_lt (le_of_mem_argmax hpi' hnewest) ht
    · refine .inr ⟨pi, argmax_mem hnewest, not_lt.1 ht, ?_⟩
      simp only [if_neg ht, renew]
      cases lookup permissions pi.level with
      | none | some po => rfl

variable {permissions}

theorem staleLevels_renew (hsettled : ¬ Stale t (lookup permissions pi.level)) :
    staleLevels t (renew permissions pi m) = (staleLevels t m).erase pi.level := by
  ext k
  rw [Finset.mem_erase, mem_staleLevels_iff, mem_staleLevels_iff, find?_renew]
  by_cases hk : k = pi.level
  · rw [if_pos hk]
    refine iff_of_false ?_ fun hne => hne.1 hk
    rintro ⟨pi', hpi', ht⟩
    obtain ⟨po, hpo, rfl⟩ := Option.map_eq_some_iff.1 hpi'
    exact hsettled ⟨po, hpo, ht⟩
  · rw [if_neg hk]
    exact ⟨fun hstale => ⟨hk, hstale⟩, fun hstale => hstale.2⟩

/-- The loop ends if the permissions that it looks up are settled, and keeps what its rounds keep. -/
theorem rollback_returns {P : QueryMap → Prop} (hround : ∀ m, P m →
      ∀ pi ∈ m.permissionInfoIndex, t ≤ pi.lastUpdated → P (renew permissions pi m)) :
    ∀ (fuel : Nat) {m : QueryMap}, P m → (staleLevels t m).card < fuel →
      (∀ k ∈ staleLevels t m, ¬ Stale t (lookup permissions k)) →
      ∃ m', rollback permissions t fuel m = .ok m' ∧ P m'
        ∧ ∀ pi ∈ m'.permissionInfoIndex, pi.lastUpdated < t := by
  intro fuel
  induction fuel with
  | zero =>
    intro m _ hlt
    exact absurd hlt (Nat.not_lt_zero _)
  | succ fuel ih =>
    intro m hm hlt hsettled
    rcases rollback_round permissions t fuel m with ⟨hdone, hrun⟩ | ⟨pi, hpi, ht, hrun⟩
    · exact ⟨m, hrun, hm, hdone⟩
    · -- one stale permission less
      have hmem : pi.level ∈ staleLevels t m := mem_staleLevels_iff.2 ⟨pi, find?_of_mem hpi, ht⟩
      have hless := staleLevels_renew (m := m) (hsettled _ hmem)
      rw [hrun]
      refine ih (hround m hm pi hpi ht) ?_ fun k hk => ?_
      · rw [hless]
        have := Finset.card_erase_lt_of_mem hmem
        omega
      · rw [hless] at hk
        exact hsettled k (Finset.mem_of_mem_erase hk)

theorem rollback_not_settled (hk : Stale t (lookup permissions k)) :
    ∀ (fuel : Nat) {m : QueryMap}, k ∈ staleLevels t m →
      rollback permissions t fuel m = .error .divergence := by
  intro fuel
  induction fuel with
  | zero =>
    intro m _
    rfl
  | succ fuel ih =>
    intro m hmem
    obtain ⟨pi', hfind', ht'⟩ := mem_staleLevels_iff.1 hmem
    rcases rollback_round permissions t fuel m with ⟨hdone, -⟩ | ⟨pi, -, -, hrun⟩
    · exact absurd (hdone pi' (find?_eq_some_iff.1 hfind').1) (not_lt.2 ht')
    · rw [hrun]
      apply ih
      rw [mem_staleLevels_iff, find?_renew]
      by_cases hlevel : k = pi.level
      · obtain ⟨po, hpo, ht⟩ := hk
        rw [if_pos hlevel, renewed, ← hlevel, hpo]
        exact ⟨_, rfl, ht⟩
      · rw [if_neg hlevel]
        exact ⟨pi', hfind', ht'⟩

end Loop

/-- What `rollback_to_before` leaves. -/
def rolledBack (t : Nat) (last now : PermissionLevel → Option PermissionObject)
    (k : PermissionLevel) : Option PermissionObject :=
  if Stale t (last k) then now k else last k

theorem rolledBack_update (hk : Stale t (last k)) :
    rolledBack t (Function.update last k (now k)) now = rolledBack t last now := by
  funext j
  unfold rolledBack
  by_cases hj : j = k
  · subst hj
    rw [update_self, if_pos hk, ite_self]
  · rw [update_of_ne hj]

variable {permissions : GenericIndex PermissionObject}

section

variable (h : m.Mirrors last)
include h

theorem Mirrors.mem_staleLevels : k ∈ staleLevels t m ↔ Stale t (last k) := by
  rw [mem_staleLevels_iff, h.info k]
  constructor
  · rintro ⟨pi, hpi, ht⟩
    obtain ⟨p, hp, rfl⟩ := Option.map_eq_some_iff.1 hpi
    exact ⟨p, hp, ht⟩
  · rintro ⟨p, hp, ht⟩
    exact ⟨infoOf p, by rw [hp]; rfl, ht⟩

theorem Mirrors.refresh {po : PermissionObject}
    (hpo : (infoOf po).level = pi.level) :
    (m.refresh pi po).Mirrors (Function.update last pi.level (some po)) := by
  intro k
  rw [entry_refresh hpo, update_apply]
  split
  · rfl
  · exact h k

theorem Mirrors.drop : (m.drop k).Mirrors (Function.update last k none) := by
  intro j
  rw [entry_drop, update_apply]
  split
  · rfl
  · exact h j

theorem Mirrors.renew : (renew permissions pi m).Mirrors
    (Function.update last pi.level (lookup permissions pi.level)) := by
  unfold QueryMap.renew
  cases hlookup : lookup permissions pi.level with
  | none => exact h.drop
  | some po => exact h.refresh (lookup_eq_some hlookup).2

theorem rollback_spec (hsettled : ∀ k, Stale t (last k) → ¬ Stale t (lookup permissions k))
    {fuel : Nat} (hfuel : (staleLevels t m).card < fuel) :
    ∃ m', rollback permissions t fuel m = .ok m'
      ∧ m'.Mirrors (rolledBack t last (lookup permissions)) := by
  -- the rounds change the mirrored state, and not what is left in the end
  have hround : ∀ m, (∃ last', m.Mirrors last' ∧ rolledBack t last' (lookup permissions)
      = rolledBack t last (lookup permissions)) → ∀ pi ∈ m.permissionInfoIndex,
      t ≤ pi.lastUpdated → ∃ last', (renew permissions pi m).Mirrors last'
        ∧ rolledBack t last' (lookup permissions) = rolledBack t last (lookup permissions) := by
    rintro m ⟨last', h', heq⟩ pi hpi ht
    obtain ⟨p, hp, rfl⟩ := h'.exists_of_mem hpi
    exact ⟨_, h'.renew, (rolledBack_update ⟨p, hp, ht⟩).trans heq⟩
  obtain ⟨m', hrun, ⟨last', h', heq⟩, hdone⟩ := rollback_returns hround fuel ⟨last, h, rfl⟩ hfuel
    fun k hk => hsettled k (h.mem_staleLevels.1 hk)
  refine ⟨m', hrun, ?_⟩
  have hleft : rolledBack t last' (lookup permissions) = last' := by
    funext k
    refine if_neg ?_
    rintro ⟨p, hp, ht⟩
    exact absurd (hdone _ (h'.mem_of_some hp)) (not_lt.2 ht)
  rwa [← heq, hleft]

end

theorem card_staleLevels_le : (staleLevels t m).card ≤ m.permissionInfoIndex.size := by
  refine (toFinset_card_le _).trans ?_
  rw [length_map]
  exact length_filter_le _ _

/-! ## The loops over the touched permissions -/

theorem Mirrors.update_eq (h : m.Mirrors last) (permissions : GenericIndex PermissionObject)
    (k : PermissionLevel) :
    match lookup permissions k with
    | none => update permissions k m = eosThrow .pluginException "chain data is missing"
    | some po => ∃ m', update permissions k m = .ok m'
        ∧ m'.Mirrors (Function.update last k (some po)) := by
  unfold update
  cases hlookup : lookup permissions k with
  | none => rfl
  | some po =>
    have hpo : (infoOf po).level = k := (lookup_eq_some hlookup).2
    have hinfo := h.info k
    cases hfind : m.permissionInfoIndex.find? k with
    | none =>
      rw [hfind] at hinfo
      refine ⟨_, rfl, fun j => ?_⟩
      have hblank : m.entry (infoOf po).level = entryOf none := by
        rw [hpo, h k, Option.map_eq_none_iff.1 hinfo.symm]
      rw [entry_add hblank, hpo, update_apply]
      split
      · rfl
      · exact h j
    | some pi =>
      have hpi : pi.level = k := (find?_eq_some_iff.1 hfind).2
      subst hpi
      exact ⟨_, rfl, h.refresh hpo⟩

theorem Mirrors.delete (h : m.Mirrors last) (k : PermissionLevel) :
    (m.delete k).Mirrors (Function.update last k none) := by
  unfold QueryMap.delete
  split
  · exact h.drop
  · next hcontains =>
    intro j
    rw [update_apply]
    split
    · next hj =>
      have hinfo := h.info k
      rw [contains_eq_isSome, hinfo, Option.isSome_map, Bool.not_eq_true,
        Option.isSome_eq_false_iff, Option.isNone_iff_eq_none] at hcontains
      rw [hj, h k, hcontains]
    · exact h j

variable (ks : List PermissionLevel)

def lookedUp (last now : PermissionLevel → Option PermissionObject)
    (k : PermissionLevel) : Option PermissionObject :=
  if k ∈ ks then now k else last k

theorem lookedUp_concat {ks : List PermissionLevel} :
    lookedUp (ks ++ [k]) last now = Function.update (lookedUp ks last now) k (now k) := by
  funext j
  unfold lookedUp
  by_cases hj : j = k
  · subst hj
    simp
  · simp [hj]

/-- What a block has to leave behind for the map to follow: the permissions that its actions update
stand and those that they delete do not; any other permission is as it was, unless it was last
updated at the time of the block or later; and such a permission is not updated in the block. -/
structure Followed (last now : PermissionLevel → Option PermissionObject) (t : Nat)
    (touched : Touched) : Prop where
  updated : ∀ k ∈ touched.1.entries, (now k).isSome = true
  deleted : ∀ k ∈ touched.2.entries, now k = none
  traced : ∀ k, k ∉ touched.1.entries → k ∉ touched.2.entries → ¬ Stale t (last k) →
    entryOf (now k) = entryOf (last k)
  settled : ∀ k, Stale t (last k) → ¬ Stale t (now k)

/-- What `commit_block` leaves. -/
def committed (last now : PermissionLevel → Option PermissionObject) (t : Nat) (touched : Touched) :
    PermissionLevel → Option PermissionObject :=
  lookedUp touched.2.entries (lookedUp touched.1.entries (rolledBack t last now) now) fun _ => none

theorem entryOf_eq_none {o : Option PermissionObject} (h : entryOf o = entryOf none) : o = none := by
  cases o with
  | none => rfl
  | some po => cases congrArg Entry.info h

/-- The map that `commit_block` leaves is the one to be built if and only if the marks are right. -/
theorem committed_iff (hsettled : ∀ k, Stale t (last k) → ¬ Stale t (now k))
    (hupdated : ∀ k ∈ touched.1.entries, (now k).isSome = true) :
    (∀ k, entryOf (committed last now t touched k) = entryOf (now k))
      ↔ Followed last now t touched := by
  simp only [committed, lookedUp, rolledBack]
  constructor
  · intro h
    refine ⟨hupdated, fun k hk => ?_, fun k hk hnot hfresh => ?_, hsettled⟩
    · have hk' := h k
      rw [if_pos hk] at hk'
      exact entryOf_eq_none hk'.symm
    · have hk' := h k
      rw [if_neg hnot, if_neg hk, if_neg hfresh] at hk'
      exact hk'.symm
  · intro h k
    split_ifs with hdeleted hk hstale
    · rw [h.deleted k hdeleted]
    · rfl
    · rfl
    · exact (h.traced k hk hdeleted hstale).symm

section

variable (h : m.Mirrors last)
include h

theorem ends_updates :
    Ends (ks.forM fun up => attempt (update permissions up)) m
      (fun _ m' => (∀ k ∈ ks, (lookup permissions k).isSome = true)
        ∧ m'.Mirrors (lookedUp ks last (lookup permissions)))
      fun _ _ => ∃ k ∈ ks, lookup permissions k = none := by
  have hloop := ends_forM (f := fun up => attempt (update permissions up))
    (I := fun done m => (∀ k ∈ done, (lookup permissions k).isSome = true)
      ∧ m.Mirrors (lookedUp done last (lookup permissions)))
    (E := fun _ _ => ∃ k ∈ ks, lookup permissions k = none) ks [] m ?_ ⟨by simp, h⟩
  · simpa only [nil_append] using hloop
  · rintro done k m hk ⟨hdone, hm⟩
    have hupdate := hm.update_eq permissions k
    rw [ends_attempt]
    cases hlookup : lookup permissions k with
    | none =>
      rw [hlookup] at hupdate
      rw [hupdate]
      exact ⟨k, hk, hlookup⟩
    | some po =>
      rw [hlookup] at hupdate
      obtain ⟨m', hok, hm'⟩ := hupdate
      rw [hok]
      refine ⟨?_, ?_⟩
      · intro j hj
        rcases mem_append.1 hj with hj | hj
        · exact hdone j hj
        · rw [mem_singleton.1 hj, hlookup, Option.isSome_some]
      · rw [lookedUp_concat, hlookup]
        exact hm'

theorem ends_deletes {E : Failure → QueryMap → Prop} :
    Ends (ks.forM fun dp => EStateM.modifyGet fun m => ((), m.delete dp)) m
      (fun _ m' => m'.Mirrors (lookedUp ks last fun _ => none)) E := by
  have hloop := ends_forM (f := fun dp => EStateM.modifyGet fun m : QueryMap => ((), m.delete dp))
    (I := fun done m => m.Mirrors (lookedUp done last fun _ => none)) (E := E) ks [] m ?_ h
  · simpa only [nil_append] using hloop
  · intro done k m _ hm
    show (m.delete k).Mirrors _
    rw [lookedUp_concat]
    exact hm.delete k

theorem ends_commit (permissions : GenericIndex PermissionObject) (t : Nat)
    (touched : Touched) :
    Ends (commit permissions t touched.1 touched.2) m
      (fun _ m' => (∀ k, Stale t (last k) → ¬ Stale t (lookup permissions k))
        ∧ (∀ k ∈ touched.1.entries, (lookup permissions k).isSome = true)
        ∧ m'.Mirrors (committed last (lookup permissions) t touched))
      fun _ _ => (∃ k, Stale t (last k) ∧ Stale t (lookup permissions k))
        ∨ ∃ k ∈ touched.1.entries, lookup permissions k = none := by
  unfold commit
  rw [ends_bind, ends_attempt]
  by_cases hsettled : ∀ k, Stale t (last k) → ¬ Stale t (lookup permissions k)
  · obtain ⟨m₁, hrollback, h₁⟩ := rollback_spec h hsettled (Nat.lt_succ_of_le card_staleLevels_le)
    rw [rollbackToBefore, hrollback]
    show Ends (bind _ _) m₁ _ _
    rw [ends_bind]
    refine (ends_updates touched.1.entries h₁).mono ?_ fun _ _ hmissing => .inr hmissing
    rintro _ m₂ ⟨hupdated, h₂⟩
    exact (ends_deletes touched.2.entries h₂).mono (fun _ m₃ h₃ => ⟨hsettled, hupdated, h₃⟩)
      fun _ _ he => he
  · simp only [not_forall, not_not] at hsettled
    obtain ⟨k, hlast, hnow⟩ := hsettled
    rw [rollbackToBefore, rollback_not_settled hnow _ (h.mem_staleLevels.2 hlast)]
    exact .inl ⟨k, hlast, hnow⟩

/-- **One block, with the write lock.** The map is the one to be built from the index if and only
if the block leaves the right marks. -/
theorem commit_iff (touched : Touched) :
    (∃ m', commit permissions t touched.1 touched.2 m = .ok () m' ∧ m' = build permissions)
      ↔ Followed last (lookup permissions) t touched := by
  have hends := ends_commit h permissions t touched
  cases hcommit : commit permissions t touched.1 touched.2 m with
  | ok u m' =>
    obtain ⟨hsettled, hupdated, hm'⟩ := hends.of_ok hcommit
    rw [← committed_iff hsettled hupdated]
    constructor
    · rintro ⟨_, heq, rfl⟩ k
      cases heq
      rw [← hm' k]
      exact mirrors_build permissions k
    · intro hall
      refine ⟨m', rfl, Mirrors.eq_build fun k => ?_⟩
      rw [hm' k]
      exact hall k
  | error e m' =>
    refine iff_of_false (fun ⟨_, heq, _⟩ => nomatch heq) fun hfollowed => ?_
    rcases hends.of_error hcommit with ⟨k, hlast, hnow⟩ | ⟨k, hk, hnone⟩
    · exact hfollowed.settled k hlast hnow
    · have hsome := hfollowed.updated k hk
      rw [hnone] at hsome
      cases hsome

end

theorem followed_of_untouched (h₁ : touched.1.entries = []) (h₂ : touched.2.entries = [])
    (hfresh : ∀ k, ¬ Stale t (last k)) :
    Followed last now t touched ↔ ∀ k, entryOf (last k) = entryOf (now k) := by
  constructor
  · intro h k
    exact (h.traced k (by simp [h₁]) (by simp [h₂]) (hfresh k)).symm
  · intro h
    exact ⟨by simp [h₁], by simp [h₂], fun k _ _ _ => (h k).symm, fun k hk => absurd hk (hfresh k)⟩

end QueryMap

/-! ## Blocks -/

namespace AccountQueryDb

open QueryMap

variable {db db' : AccountQueryDb} {last : PermissionLevel → Option PermissionObject}
  {permissions : GenericIndex PermissionObject} {t : Nat} {receipts : List Nat}

/-- The block has touched something, or made something stale. -/
def Required (db : AccountQueryDb) (t : Nat) (receipts : List Nat) : Prop :=
  (db.touched receipts).1.entries ≠ [] ∨ (db.touched receipts).2.entries ≠ []
    ∨ db.map.isRollbackRequired t = true

instance (db : AccountQueryDb) (t : Nat) (receipts : List Nat) : Decidable (db.Required t receipts) :=
  inferInstanceAs (Decidable ((db.touched receipts).1.entries ≠ [] ∨
    (db.touched receipts).2.entries ≠ [] ∨ db.map.isRollbackRequired t = true))

theorem commitBlock_apply :
    commitBlock permissions t receipts db = (whenever (db.Required t receipts)
      (zoom map (fun db map => { db with map })
        (QueryMap.commit permissions t (db.touched receipts).1 (db.touched receipts).2)) >>= fun _ =>
      EStateM.modifyGet fun db =>
        ((), { db with cachedTraceMap := FlatMap.empty, onblockTrace := none })) db := rfl

theorem commitBlock_of_required (h : db.Required t receipts) :
    commitBlock permissions t receipts db
      = match QueryMap.commit permissions t (db.touched receipts).1 (db.touched receipts).2 db.map with
        | .ok _ map => .ok () ⟨map, FlatMap.empty, none⟩
        | .error e map => .error e { db with map } := by
  rw [commitBlock_apply, whenever, if_pos h, bind_apply]
  unfold zoom
  cases QueryMap.commit permissions t (db.touched receipts).1 (db.touched receipts).2 db.map with
  | ok u map => rfl
  | error e map => rfl

theorem commitBlock_of_not_required (h : ¬ db.Required t receipts) :
    commitBlock permissions t receipts db = .ok () ⟨db.map, FlatMap.empty, none⟩ := by
  rw [commitBlock_apply, whenever, if_neg h]
  rfl

/-- **One block.** `commit_block` leaves the map to be built from the index after the block if and
only if the block leaves the right marks. -/
theorem commitBlock_iff (h : db.map.Mirrors last) :
    (∃ db', commitBlock permissions t receipts db = .ok () db' ∧ db'.map = build permissions)
      ↔ Followed last (lookup permissions) t (db.touched receipts) := by
  by_cases hrequired : db.Required t receipts
  · rw [← commit_iff h, commitBlock_of_required hrequired]
    cases QueryMap.commit permissions t (db.touched receipts).1 (db.touched receipts).2 db.map with
    | ok u map => simp
    | error e map => simp
  · rw [commitBlock_of_not_required hrequired]
    simp only [Required, not_or, not_not, h.isRollbackRequired_iff, not_exists] at hrequired
    obtain ⟨h₁, h₂, hfresh⟩ := hrequired
    rw [followed_of_untouched h₁ h₂ hfresh]
    constructor
    · rintro ⟨_, heq, hbuild⟩ k
      cases heq
      rw [← h k, hbuild]
      exact mirrors_build permissions k
    · intro hall
      exact ⟨_, rfl, Mirrors.eq_build fun k => (h k).trans (hall k)⟩

/-- While a block is applied, its traces are cached. -/
def cacheBlock (db : AccountQueryDb) (block : PermissionBlock) : AccountQueryDb :=
  (block.onblock :: block.transactions).foldl cacheTransactionTrace db

theorem map_cacheTransactionTrace (db : AccountQueryDb) (trace : TransactionTrace) :
    (db.cacheTransactionTrace trace).map = db.map := by
  unfold cacheTransactionTrace
  repeat' split
  all_goals rfl

theorem map_cacheBlock (db : AccountQueryDb) (block : PermissionBlock) :
    (db.cacheBlock block).map = db.map := by
  have hfoldl : ∀ (l : List TransactionTrace) (db : AccountQueryDb),
      (l.foldl cacheTransactionTrace db).map = db.map := by
    intro l
    induction l with
    | nil => intro db; rfl
    | cons trace l ih => exact fun db => (ih _).trans (map_cacheTransactionTrace db trace)
  exact hfoldl _ db

end AccountQueryDb

/-! ## Runs of the node -/

/-- The chain after some block, and the time of the block. -/
structure ChainState where
  time : Nat
  database : Database

structure QueryNode where
  /-- the states that blocks of any branch have led to -/
  states : List ChainState
  /-- the state at the last block that was committed -/
  last : Database
  queryDb : AccountQueryDb

namespace QueryNode

open QueryMap

def start (chain : ChainState) : QueryNode :=
  ⟨[chain], chain.database, .start chain.database.permissions⟩

def commitBlock (node : QueryNode) (block : PermissionBlock) (chain : Database) :
    EStateM.Result Failure AccountQueryDb Unit :=
  AccountQueryDb.commitBlock chain.permissions block.time (block.transactions.map receiptId)
    (node.queryDb.cacheBlock block)

def committed (node : QueryNode) (block : PermissionBlock) (chain : Database)
    (queryDb : AccountQueryDb) : QueryNode :=
  ⟨⟨block.time, chain⟩ :: node.states, chain, queryDb⟩

/-- The runs of a node in which every committed block meets the condition `P`. A block may follow
any earlier one: after a fork switch the blocks of the new branch are applied to an older state. -/
inductive Run (P : QueryNode → PermissionBlock → Database → Prop) : QueryNode → Prop where
  | start (chain : ChainState) : Run P (start chain)
  /-- a transaction that has been applied outside of any block that is committed -/
  | trace {node : QueryNode} (trace : TransactionTrace) :
      Run P node → Run P { node with queryDb := node.queryDb.cacheTransactionTrace trace }
  | commit {node : QueryNode} {parent : ChainState} {block : PermissionBlock} {chain : Database}
      {queryDb : AccountQueryDb} :
      Run P node → parent ∈ node.states → parent.time < block.time →
      parent.database.applyBlock block = .ok chain → P node block chain →
      node.commitBlock block chain = .ok () queryDb → Run P (node.committed block chain queryDb)
  /-- `FC_LOG_AND_DROP` -/
  | drop {node : QueryNode} {parent : ChainState} {block : PermissionBlock} {chain : Database}
      {queryDb : AccountQueryDb} {e : ChainException} :
      Run P node → parent ∈ node.states → parent.time < block.time →
      parent.database.applyBlock block = .ok chain → P node block chain →
      node.commitBlock block chain = .error (.exception e) queryDb →
      Run P (node.committed block chain queryDb)

def Exact (node : QueryNode) : Prop := node.queryDb.map = build node.last.permissions

def FollowedBlock (node : QueryNode) (block : PermissionBlock) (chain : Database) : Prop :=
  Followed (lookup node.last.permissions) (lookup chain.permissions) block.time
    ((node.queryDb.cacheBlock block).touched (block.transactions.map receiptId))

variable {node : QueryNode} {block : PermissionBlock} {chain : Database}

theorem Exact.commitBlock_iff (h : node.Exact) :
    (∃ queryDb, node.commitBlock block chain = .ok () queryDb
        ∧ (node.committed block chain queryDb).Exact)
      ↔ node.FollowedBlock block chain := by
  refine AccountQueryDb.commitBlock_iff ?_
  rw [AccountQueryDb.map_cacheBlock, show node.queryDb.map = _ from h]
  exact mirrors_build node.last.permissions

theorem Run.exact (h : Run FollowedBlock node) : node.Exact := by
  induction h with
  | start chain => rfl
  | trace trace _ ih => exact (AccountQueryDb.map_cacheTransactionTrace _ trace).trans ih
  | commit _ _ _ _ hfollowed hcommit ih =>
    obtain ⟨_, heq, hnext⟩ := ih.commitBlock_iff.2 hfollowed
    rw [hcommit] at heq
    cases heq
    exact hnext
  | drop _ _ _ _ hfollowed hcommit ih =>
    -- a commit that follows does not throw
    obtain ⟨_, heq, -⟩ := ih.commitBlock_iff.2 hfollowed
    rw [hcommit] at heq
    cases heq

/-- **The account query database mirrors the chain** in every run in which the blocks leave the
right marks; and from then on it does so after one more block if and only if that block does. -/
theorem mirrors_of_run (h : Run FollowedBlock node) :
    (node.Exact ∧ node.queryDb.map.SameResults (build node.last.permissions))
      ∧ ∀ block chain,
        (∃ queryDb, node.commitBlock block chain = .ok () queryDb
            ∧ (node.committed block chain queryDb).Exact)
          ↔ node.FollowedBlock block chain := by
  have hexact : node.queryDb.map = build node.last.permissions := h.exact
  refine ⟨⟨hexact, ?_⟩, fun _ _ => h.exact.commitBlock_iff⟩
  rw [hexact]
  exact ⟨rfl, rfl⟩

/-! ## Blocks that are followed and blocks that are not -/

def extend (node : QueryNode) (parent : ChainState) (block : PermissionBlock) : Option QueryNode :=
  match parent.database.applyBlock block with
  | .error _ => none
  | .ok chain =>
    match node.commitBlock block chain with
    | .error _ _ => none
    | .ok _ queryDb => some (node.committed block chain queryDb)

instance (node : QueryNode) : Decidable node.Exact :=
  inferInstanceAs (Decidable (node.queryDb.map = build node.last.permissions))

variable {node' : QueryNode} {parent : ChainState}

theorem extend_eq_some (h : node.extend parent block = some node') :
    ∃ chain queryDb, parent.database.applyBlock block = .ok chain
      ∧ node.commitBlock block chain = .ok () queryDb
      ∧ node' = node.committed block chain queryDb := by
  unfold extend at h
  split at h
  · cases h
  · next chain happly =>
    split at h
    · cases h
    · next queryDb hcommit =>
      cases h
      exact ⟨chain, queryDb, happly, hcommit, rfl⟩

theorem Run.extend (h : Run FollowedBlock node) (hmem : parent ∈ node.states)
    (htime : parent.time < block.time) (hextend : node.extend parent block = some node')
    (hexact : node'.Exact) : Run FollowedBlock node' := by
  obtain ⟨chain, queryDb, happly, hcommit, rfl⟩ := extend_eq_some hextend
  refine h.commit hmem htime happly ?_ hcommit
  exact h.exact.commitBlock_iff.1 ⟨queryDb, hcommit, hexact⟩

def systemContext : ActionContext where
  authorization := [⟨systemAccountName, activeName⟩]
  pendingTime := none
  maxTransactionDelay := 45
  keyTypeActivated _ := true
  packSize _ := 34
  checkKeyLists := false
  keyDenylist := []

def unpackedKey (key : PublicKey) : UnpackedAuthority where
  toAuthority := Database.systemAuthority key
  weight_lt := Database.systemAuthority_weight_lt key

def onblockTrace : TransactionTrace where
  id := 0
  status := some .executed
  failedDtrx := none
  actionTraces := [⟨systemAccountName, systemAccountName, systemContext, .onblock⟩]

def blockOf (time : Nat) (acts : List NativeAction) : PermissionBlock where
  time
  producers := [systemAccountName]
  onblock := onblockTrace
  transactions := [{
    id := 1
    status := some .executed
    failedDtrx := none
    actionTraces := acts.map fun act =>
      ⟨systemAccountName, systemAccountName, systemContext, .native act⟩ }]

def genesisChain : Option ChainState :=
  match Database.initializeDatabase systemContext ⟨1, 7⟩ with
  | .ok database => some ⟨1, database⟩
  | .error _ => none

/-- A permission is created at the time `5`, and the block with it is left for one at the time `3`. -/
def forkedNodes : Option (ChainState × QueryNode × QueryNode) := do
  let chain ← genesisChain
  let node₁ ← (start chain).extend chain (blockOf 5
    [.updateauth ⟨systemAccountName, stringToName "spend", activeName, unpackedKey 3⟩])
  let node₂ ← node₁.extend chain (blockOf 3 [])
  some (chain, node₁, node₂)

def unfollowedNode : Option (ChainState × QueryNode) := do
  let chain ← genesisChain
  let node ← (start chain).extend chain (blockOf 5
    [.newaccount ⟨systemAccountName, stringToName "alice", unpackedKey 3, unpackedKey 4⟩])
  some (chain, node)

theorem mirrors_of_run_forked :
    ∃ node, Run FollowedBlock node ∧ node.states.length = 3
      ∧ (node.Exact ∧ node.queryDb.map.SameResults (build node.last.permissions))
      ∧ ∀ block chain,
        (∃ queryDb, node.commitBlock block chain = .ok () queryDb
            ∧ (node.committed block chain queryDb).Exact)
          ↔ node.FollowedBlock block chain := by
  have hnodes : forkedNodes.any (fun p => p.1.time = 1 ∧ p.2.1.Exact ∧ p.2.2.Exact) = true := by
    decide +kernel
  obtain ⟨⟨chain, node₁, node₂⟩, hforked, hexact⟩ := Option.any_eq_true _ _ |>.1 hnodes
  obtain ⟨htime, hexact₁, hexact₂⟩ := of_decide_eq_true hexact
  simp only [forkedNodes, Option.bind_eq_bind, Option.bind_eq_some_iff] at hforked
  obtain ⟨_, -, _, hnode₁, _, hnode₂, heq⟩ := hforked
  cases heq
  have hrun₁ := (Run.start chain).extend mem_cons_self
    (show chain.time < 5 by rw [htime]; decide) hnode₁ hexact₁
  obtain ⟨chain₁, _, -, -, rfl⟩ := extend_eq_some hnode₁
  have hrun₂ := hrun₁.extend (mem_cons_of_mem _ mem_cons_self)
    (show chain.time < 3 by rw [htime]; decide) hnode₂ hexact₂
  obtain ⟨chain₂, _, -, -, rfl⟩ := extend_eq_some hnode₂
  exact ⟨_, hrun₂, rfl, mirrors_of_run hrun₂⟩

/-- A `newaccount` leaves no mark: the map lacks the permissions of the new account. -/
theorem newaccount_not_mirrored :
    ∃ node, Run (fun _ _ _ => True) node
      ∧ ¬ node.queryDb.map.SameResults (build node.last.permissions) := by
  have hnode : unfollowedNode.any (fun p => p.1.time = 1
      ∧ ¬ p.2.queryDb.map.SameResults (build p.2.last.permissions)) = true := by decide +kernel
  obtain ⟨⟨chain, node⟩, hunfollowed, hexact⟩ := Option.any_eq_true _ _ |>.1 hnode
  obtain ⟨htime, hexact⟩ := of_decide_eq_true hexact
  simp only [unfollowedNode, Option.bind_eq_bind, Option.bind_eq_some_iff] at hunfollowed
  obtain ⟨_, -, _, hextend, heq⟩ := hunfollowed
  cases heq
  obtain ⟨_, _, happly, hcommit, rfl⟩ := extend_eq_some hextend
  refine ⟨_, (Run.start chain).commit mem_cons_self ?_ happly trivial hcommit, hexact⟩
  show chain.time < 5
  rw [htime]
  decide

end QueryNode

end PotatoNode.ChainPlugin
