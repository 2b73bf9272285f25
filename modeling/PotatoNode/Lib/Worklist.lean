import Mathlib.Data.List.Nodup
import Mathlib.Data.List.Perm.Subperm

/-!
# Queue loops over a forest

A loop that reads a vector from the front while it pushes at the back visits everything that can
be reached from the first element, breadth first. It ends if the successor lists form a finite
`Forest`: a node is the successor of one node at most, and successors have a larger rank.
-/

namespace PotatoNode.Lib

open List

variable {κ ε : Type}

/-- Visit the queued nodes in order, queueing what each visit returns. `done` is the part of the
vector before the loop index, `todo` the part from it on. -/
def worklist (visit : κ → Except ε (List κ)) (stuck : ε) :
    (fuel : Nat) → (done todo : List κ) → Except ε (List κ)
  | _, done, [] => .ok done
  | 0, _, _ :: _ => .error stuck
  | fuel + 1, done, x :: todo =>
    match visit x with
    | .error e => .error e
    | .ok next => worklist visit stuck fuel (done ++ [x]) (todo ++ next)

def Reaches (succ : κ → List κ) : κ → κ → Prop :=
  Relation.ReflTransGen fun a b => b ∈ succ a

/-- Finitely many nodes, one predecessor each, no cycle. -/
structure Forest (succ : κ → List κ) (nodes : List κ) (rank : κ → Nat) : Prop where
  mem : ∀ {a b}, b ∈ succ a → b ∈ nodes
  nodup : ∀ a, (succ a).Nodup
  parent : ∀ {a a' b}, b ∈ succ a → b ∈ succ a' → a = a'
  rank_lt : ∀ {a b}, b ∈ succ a → rank a < rank b

section Reaches

variable {succ : κ → List κ} {nodes : List κ} {rank : κ → Nat} {a b c : κ}

theorem Reaches.refl : Reaches succ a a := Relation.ReflTransGen.refl

theorem Reaches.tail (h : Reaches succ a b) (hbc : c ∈ succ b) : Reaches succ a c :=
  Relation.ReflTransGen.tail h hbc

theorem Reaches.trans (h : Reaches succ a b) (h' : Reaches succ b c) : Reaches succ a c :=
  Relation.ReflTransGen.trans h h'

theorem Reaches.rank_le (hF : Forest succ nodes rank) (h : Reaches succ a b) : rank a ≤ rank b := by
  induction h with
  | refl => exact Nat.le_refl _
  | tail _ hbc ih => exact Nat.le_trans ih (Nat.le_of_lt (hF.rank_lt hbc))

theorem reaches_iff : Reaches succ a c ↔ c = a ∨ ∃ b, Reaches succ a b ∧ c ∈ succ b :=
  Relation.ReflTransGen.cases_tail_iff _ a c

theorem Reaches.ne_of_mem_succ (hF : Forest succ nodes rank) (h : Reaches succ a b)
    (hc : c ∈ succ b) : c ≠ a := by
  intro hca
  have hle := h.rank_le hF
  have hlt := hF.rank_lt hc
  rw [hca] at hlt
  omega

end Reaches

/-- Between two iterations: the queue holds distinct nodes that can be reached from `a`, each
queued by its predecessor, and the successors of all visited nodes. -/
structure WorklistInv (succ : κ → List κ) (a : κ) (done todo : List κ) : Prop where
  nodup : (done ++ todo).Nodup
  start : a ∈ done ++ todo
  reaches : ∀ x ∈ done ++ todo, Reaches succ a x
  origin : ∀ x ∈ done ++ todo, x = a ∨ ∃ p ∈ done, x ∈ succ p
  closed : ∀ p ∈ done, ∀ x ∈ succ p, x ∈ done ++ todo

section Loop

variable {succ : κ → List κ} {nodes : List κ} {rank : κ → Nat} {a x : κ} {done todo : List κ}

theorem worklistInv_start : WorklistInv succ a [] [a] where
  nodup := nodup_singleton a
  start := mem_singleton_self a
  reaches y hy := by
    rw [mem_singleton.1 hy]
    exact Reaches.refl
  origin y hy := .inl (mem_singleton.1 hy)
  closed p hp := by cases hp

namespace WorklistInv

section

variable (h : WorklistInv succ a done (x :: todo))
include h

theorem fresh (hF : Forest succ nodes rank) {y : κ} (hy : y ∈ succ x) : y ∉ done ++ x :: todo := by
  intro hmem
  have hx : x ∈ done ++ x :: todo := mem_append_right _ mem_cons_self
  rcases h.origin y hmem with hya | ⟨p, hp, hyp⟩
  · exact (h.reaches x hx).ne_of_mem_succ hF hy hya
  · -- its one predecessor would have been visited already
    have hxp : x = p := hF.parent hy hyp
    have hdisj := (nodup_append.1 h.nodup).2.2 p hp x mem_cons_self
    exact hdisj hxp.symm

theorem step (hF : Forest succ nodes rank) : WorklistInv succ a (done ++ [x]) (todo ++ succ x) := by
  have hx : x ∈ done ++ x :: todo := mem_append_right _ mem_cons_self
  have hqueue : (done ++ [x]) ++ (todo ++ succ x) = (done ++ x :: todo) ++ succ x := by simp
  have hdone : ∀ p ∈ done, p ∈ done ++ [x] := fun p hp => mem_append_left _ hp
  refine ⟨?_, ?_, ?_, ?_, ?_⟩
  · rw [hqueue, nodup_append]
    refine ⟨h.nodup, hF.nodup x, ?_⟩
    intro y hy z hz hyz
    exact h.fresh hF hz (hyz ▸ hy)
  · rw [hqueue]
    exact mem_append_left _ h.start
  · rw [hqueue]
    intro y hy
    rcases mem_append.1 hy with hold | hnew
    · exact h.reaches y hold
    · exact (h.reaches x hx).tail hnew
  · rw [hqueue]
    intro y hy
    rcases mem_append.1 hy with hold | hnew
    · exact (h.origin y hold).imp_right fun ⟨p, hp, hyp⟩ => ⟨p, hdone p hp, hyp⟩
    · exact .inr ⟨x, mem_append_right _ (mem_singleton_self x), hnew⟩
  · rw [hqueue]
    intro p hp y hy
    rcases mem_append.1 hp with hold | hlast
    · exact mem_append_left _ (h.closed p hold y hy)
    · rw [mem_singleton.1 hlast] at hy
      exact mem_append_right _ hy

end

theorem length_le (h : WorklistInv succ a done todo) (hF : Forest succ nodes rank) :
    done.length + todo.length ≤ nodes.length + 1 := by
  have hsub : done ++ todo ⊆ a :: nodes := by
    intro y hy
    rcases h.origin y hy with hya | ⟨p, -, hyp⟩
    · exact hya ▸ mem_cons_self
    · exact mem_cons_of_mem _ (hF.mem hyp)
  have hlen := (subperm_of_subset h.nodup hsub).length_le
  rwa [length_append, length_cons] at hlen

theorem mem_iff (h : WorklistInv succ a done []) (y : κ) : y ∈ done ↔ Reaches succ a y := by
  have hnil : done ++ [] = done := append_nil done
  constructor
  · intro hy
    exact h.reaches y (hnil.symm ▸ hy)
  · intro hy
    induction hy with
    | refl => exact hnil ▸ h.start
    | tail _ hbc ih => exact hnil ▸ h.closed _ ih _ hbc

end WorklistInv

/-- **The queue loop.** Within `nodes.length + 1` iterations it has visited exactly what can be
reached from `a`, or it has stopped with the error of a node that can be reached. -/
theorem worklist_spec {visit : κ → Except ε (List κ)} (stuck : ε) (hF : Forest succ nodes rank)
    (hvisit : ∀ x, visit x = .ok (succ x) ∨ ∃ e, visit x = .error e) :
    ∀ (fuel : Nat) (done todo : List κ), WorklistInv succ a done todo →
      (∀ x ∈ done, visit x = .ok (succ x)) → nodes.length + 1 ≤ fuel + done.length →
      (∃ q, worklist visit stuck fuel done todo = .ok q ∧ (∀ x, x ∈ q ↔ Reaches succ a x)
        ∧ ∀ x ∈ q, visit x = .ok (succ x))
      ∨ ∃ x e, Reaches succ a x ∧ visit x = .error e
        ∧ worklist visit stuck fuel done todo = .error e := by
  intro fuel
  -- the visited part grows by one while the fuel falls by one
  induction fuel with
  | zero =>
    intro done todo hinv hdone hfuel
    cases todo with
    | nil => exact .inl ⟨done, rfl, hinv.mem_iff, hdone⟩
    | cons x todo =>
      have hlen := hinv.length_le hF
      rw [length_cons] at hlen
      omega
  | succ fuel ih =>
    intro done todo hinv hdone hfuel
    cases todo with
    | nil => exact .inl ⟨done, rfl, hinv.mem_iff, hdone⟩
    | cons x todo =>
      have hx : x ∈ done ++ x :: todo := mem_append_right _ mem_cons_self
      rcases hvisit x with hok | ⟨e, herr⟩
      · have hloop : worklist visit stuck (fuel + 1) done (x :: todo)
            = worklist visit stuck fuel (done ++ [x]) (todo ++ succ x) := by
          simp only [worklist, hok]
        rw [hloop]
        apply ih _ _ (hinv.step hF)
        · intro y hy
          rcases mem_append.1 hy with hold | hlast
          · exact hdone y hold
          · exact mem_singleton.1 hlast ▸ hok
        · rw [length_append, length_singleton]
          omega
      · exact .inr ⟨x, e, hinv.reaches x hx, herr, by simp only [worklist, herr]⟩

end Loop

end PotatoNode.Lib
