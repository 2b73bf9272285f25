import PotatoNode.Lib.Table
import PotatoNode.Chain.Exceptions
import PotatoNode.Chain.Name

/-!
# Allowed and denied actors (`controller.cpp`)

A node can be told which accounts may authorize the transactions it takes. `check_actor_list`
compares the actors of a transaction with a list by walking both in order: each search starts where
the last one ended. Both are sorted sets, so nothing is missed that way.
-/

namespace PotatoNode.Chain

open Lib List

/-! ## The check -/

/-- `std::lower_bound( first, last, value )`: the range from the first element that is not less. -/
def lowerBound (range : List AccountName) (value : AccountName) : List AccountName :=
  range.dropWhile (· < value)

/-- The loop over the actors that sets `is_subset`. -/
def allFound : List AccountName → List AccountName → Bool
  | [], _ => true
  | actor :: actors, range =>
    match lowerBound range actor with
    | [] => false
    | found :: next => found = actor && allFound actors next

/-- The loop over the actors that sets `intersects`. -/
def anyFound : List AccountName → List AccountName → Bool
  | [], _ => false
  | actor :: actors, range =>
    match lowerBound range actor with
    -- all other actors are guaranteed to not exist in the denylist
    | [] => false
    | found :: next => found = actor || anyFound actors (found :: next)

/-- `*cbegin()`, of a set that is not empty. -/
def cbegin (s : FlatSet AccountName) : AccountName := s.entries.headD 0

/-- `*crbegin()`, of a set that is not empty. -/
def crbegin (s : FlatSet AccountName) : AccountName := s.entries.getLastD 0

/-- The lists of the controller's configuration. -/
structure ActorLists where
  actorAllowlist : FlatSet AccountName
  actorDenylist : FlatSet AccountName

def ActorLists.checkActorList (conf : ActorLists) (actors : FlatSet AccountName) : Result Unit :=
  if actors.size = 0 then .ok ()
  else if 0 < conf.actorAllowlist.size then
    let allowlist := conf.actorAllowlist
    -- quick extents check, then brute force the check actors
    let isSubset := cbegin allowlist ≤ cbegin actors && crbegin actors ≤ crbegin allowlist
      && allFound actors.entries allowlist.entries
    eosAssert isSubset .actorAllowlistException
      "authorizing actor(s) in transaction are not on the actor allowlist: ${actors}"
  else if 0 < conf.actorDenylist.size then
    let denylist := conf.actorDenylist
    let intersects := cbegin actors ≤ crbegin denylist && cbegin denylist ≤ crbegin actors
      && anyFound actors.entries denylist.entries
    eosAssert (!intersects) .actorDenylistException
      "authorizing actor(s) in transaction are on the actor denylist: ${actors}"
  else .ok ()

/-! ## The extents -/

variable {s : FlatSet AccountName} {x : AccountName}

theorem cbegin_spec (hx : x ∈ s) : cbegin s ∈ s ∧ cbegin s ≤ x := by
  obtain ⟨entries, hsorted⟩ := s
  cases entries with
  | nil => cases hx
  | cons a rest =>
    refine ⟨mem_cons_self, ?_⟩
    rcases mem_cons.1 hx with rfl | hx
    · exact le_rfl
    · exact (rel_of_pairwise_cons hsorted hx).le

theorem crbegin_spec (hx : x ∈ s) : crbegin s ∈ s ∧ x ≤ crbegin s := by
  obtain ⟨entries, hsorted⟩ := s
  rcases eq_nil_or_concat' entries with rfl | ⟨init, z, rfl⟩
  · cases hx
  · show (init ++ [z]).getLastD 0 ∈ init ++ [z] ∧ x ≤ (init ++ [z]).getLastD 0
    rw [getLastD_concat]
    refine ⟨mem_append_right _ mem_cons_self, ?_⟩
    rcases mem_append.1 hx with hx | hx
    · exact ((pairwise_append.1 hsorted).2.2 x hx z mem_cons_self).le
    · exact (mem_singleton.1 hx).le

/-! ## The loops -/

section Loops

variable {actors range next : List AccountName} {actor found : AccountName}

section

variable (hrange : range.Pairwise (· < ·))
include hrange

theorem mem_lowerBound : x ∈ lowerBound range actor ↔ x ∈ range ∧ actor ≤ x := by
  unfold lowerBound
  induction range with
  | nil => simp
  | cons a range ih =>
    obtain ⟨ha, hrange⟩ := pairwise_cons.1 hrange
    by_cases hlt : a < actor
    · rw [dropWhile_cons_of_pos (by simpa using hlt), ih hrange, mem_cons]
      constructor
      · rintro ⟨hx, hle⟩
        exact ⟨.inr hx, hle⟩
      · rintro ⟨rfl | hx, hle⟩
        · exact absurd hlt (not_lt.2 hle)
        · exact ⟨hx, hle⟩
    · rw [dropWhile_cons_of_neg (by simpa using hlt)]
      refine ⟨fun hx => ⟨hx, ?_⟩, And.left⟩
      rcases mem_cons.1 hx with rfl | hx
      · exact not_lt.1 hlt
      · exact (not_lt.1 hlt).trans (ha x hx).le

theorem mem_iff_of_lowerBound
    (hfound : lowerBound range actor = found :: next) :
    (actor ∈ range ↔ found = actor) ∧ (found :: next).Pairwise (· < ·)
      ∧ ∀ x, actor < x → (x ∈ range ↔ x ∈ found :: next) := by
  have hsorted : (found :: next).Pairwise (· < ·) :=
    hfound ▸ hrange.sublist (dropWhile_suffix _).sublist
  have hmem (x : AccountName) : x ∈ found :: next ↔ x ∈ range ∧ actor ≤ x := by
    rw [← hfound, mem_lowerBound hrange]
  refine ⟨⟨fun hactor => ?_, ?_⟩, hsorted, fun x hx => ?_⟩
  · obtain ⟨-, hle⟩ := (hmem found).1 mem_cons_self
    rcases mem_cons.1 ((hmem actor).2 ⟨hactor, le_rfl⟩) with heq | hnext
    · exact heq.symm
    · exact absurd (rel_of_pairwise_cons hsorted hnext) (not_lt.2 hle)
  · rintro rfl
    exact ((hmem found).1 mem_cons_self).1
  · rw [hmem, and_iff_left hx.le]

theorem notMem_of_lowerBound_nil
    (hnil : lowerBound range actor = []) (hle : actor ≤ x) : x ∉ range := by
  intro hx
  have hmem := (mem_lowerBound hrange).2 ⟨hx, hle⟩
  rw [hnil] at hmem
  cases hmem

end

theorem allFound_iff (hactors : actors.Pairwise (· < ·)) (hrange : range.Pairwise (· < ·)) :
    allFound actors range = true ↔ ∀ a ∈ actors, a ∈ range := by
  induction actors generalizing range with
  | nil => simp [allFound]
  | cons actor actors ih =>
    obtain ⟨hlt, hactors⟩ := pairwise_cons.1 hactors
    rw [allFound, forall_mem_cons]
    cases hfound : lowerBound range actor with
    | nil => simp [notMem_of_lowerBound_nil hrange hfound le_rfl]
    | cons found next =>
      obtain ⟨hactor, hnext, hrest⟩ := mem_iff_of_lowerBound hrange hfound
      simp only [Bool.and_eq_true, decide_eq_true_eq]
      rw [ih hactors hnext.of_cons, hactor]
      refine and_congr_right fun heq => forall₂_congr fun a ha => ?_
      rw [hrest a (hlt a ha), mem_cons, or_iff_right]
      rintro rfl
      exact absurd heq (hlt a ha).ne'

theorem anyFound_iff (hactors : actors.Pairwise (· < ·)) (hrange : range.Pairwise (· < ·)) :
    anyFound actors range = true ↔ ∃ a ∈ actors, a ∈ range := by
  induction actors generalizing range with
  | nil => simp [anyFound]
  | cons actor actors ih =>
    obtain ⟨hlt, hactors⟩ := pairwise_cons.1 hactors
    simp only [anyFound, mem_cons, exists_eq_or_imp]
    cases hfound : lowerBound range actor with
    | nil =>
      simp only [Bool.false_eq_true, false_iff, not_or, not_exists, not_and]
      exact ⟨notMem_of_lowerBound_nil hrange hfound le_rfl,
        fun a ha => notMem_of_lowerBound_nil hrange hfound (hlt a ha).le⟩
    | cons found next =>
      obtain ⟨hactor, hnext, hrest⟩ := mem_iff_of_lowerBound hrange hfound
      simp only [Bool.or_eq_true, decide_eq_true_eq]
      rw [ih hactors hnext, hactor]
      exact or_congr_right (exists_congr fun a => and_congr_right fun ha => (hrest a (hlt a ha)).symm)

end Loops

/-! ## The check as a set operation -/

theorem eosAssert_eq_error {cond : Prop} [Decidable cond] {type : ExceptionType}
    {message : String} : (∃ e, eosAssert cond type message = .error e) ↔ ¬ cond := by
  unfold eosAssert
  split
  · next h => simp [h]
  · next h => exact ⟨fun _ => h, fun _ => ⟨_, rfl⟩⟩

/-- **The lists are sets.** The check throws exactly if some actor is not on the allowlist or, where
there is no allowlist, some actor is on the denylist. -/
theorem ActorLists.checkActorList_throws_iff (conf : ActorLists) (actors : FlatSet AccountName) :
    (∃ e, conf.checkActorList actors = .error e) ↔
      actors.size ≠ 0 ∧
        (conf.actorAllowlist.size ≠ 0 ∧ ¬ (∀ a ∈ actors, a ∈ conf.actorAllowlist)
          ∨ conf.actorAllowlist.size = 0 ∧ ∃ a ∈ actors, a ∈ conf.actorDenylist) := by
  unfold checkActorList
  by_cases hactors : actors.size = 0
  · simp [hactors]
  rw [if_neg hactors, and_iff_right hactors]
  by_cases hallow : conf.actorAllowlist.size = 0
  · rw [if_neg (by omega), or_iff_right fun h => h.1 hallow, and_iff_right hallow]
    by_cases hdeny : conf.actorDenylist.size = 0
    · have hempty : conf.actorDenylist.entries = [] := length_eq_zero_iff.1 hdeny
      simp [hdeny, Table.mem_def, hempty]
    · simp only [if_pos (Nat.pos_of_ne_zero hdeny), eosAssert_eq_error, Bool.not_eq_true',
        Bool.not_eq_false, Bool.and_eq_true, decide_eq_true_eq,
        anyFound_iff actors.sorted conf.actorDenylist.sorted]
      refine ⟨And.right, fun h => ⟨?_, h⟩⟩
      obtain ⟨a, ha, hdenied⟩ := h
      exact ⟨(cbegin_spec ha).2.trans (crbegin_spec hdenied).2,
        (cbegin_spec hdenied).2.trans (crbegin_spec ha).2⟩
  · rw [if_pos (Nat.pos_of_ne_zero hallow), or_iff_left fun h => hallow h.1, and_iff_right hallow]
    simp only [eosAssert_eq_error, Bool.and_eq_true, decide_eq_true_eq,
      allFound_iff actors.sorted conf.actorAllowlist.sorted]
    obtain ⟨a, ha⟩ := exists_mem_of_length_pos (Nat.pos_of_ne_zero hactors)
    refine not_congr ⟨And.right, fun h => ⟨⟨?_, ?_⟩, h⟩⟩
    · exact (cbegin_spec (h _ (cbegin_spec ha).1)).2
    · exact (crbegin_spec (h _ (crbegin_spec ha).1)).2

end PotatoNode.Chain
