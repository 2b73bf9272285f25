import Mathlib.Data.List.Basic

/-!
# Rows by their keys

A list of rows read as a map from keys to rows, and what is left of such a map after entries that
insert or remove rows. Where a key is hit by one entry only, the order of the entries does not
matter, so that the results are told from the entries as a set.
-/

namespace PotatoNode.Lib

open List

variable {ρ κ : Type} [DecidableEq κ] (key : ρ → κ)

def keyed (rows : List ρ) (k : κ) : Option ρ := rows.find? fun row => key row = k

/-- An entry inserts its row, or removes the row with the same key. -/
def applyEntry (held : κ → Option ρ) (entry : Bool × ρ) : κ → Option ρ :=
  Function.update held (key entry.2) (if entry.1 then some entry.2 else none)

def applyEntries (held : κ → Option ρ) (entries : List (Bool × ρ)) : κ → Option ρ :=
  entries.foldl (applyEntry key) held

variable {key} {rows : List ρ} {row : ρ} {k : κ} {held : κ → Option ρ}
  {entries : List (Bool × ρ)} {entry : Bool × ρ}

theorem keyed_eq_some (hmem : row ∈ rows) (hkey : key row = k)
    (hunique : ∀ row' ∈ rows, key row' = k → row' = row) : keyed key rows k = some row := by
  obtain ⟨row', hfind⟩ : ∃ row', keyed key rows k = some row' := by
    rw [← Option.isSome_iff_exists, keyed, find?_isSome]
    exact ⟨row, hmem, by simpa using hkey⟩
  have hrow' := hunique row' (mem_of_find?_eq_some hfind) (by simpa using find?_some hfind)
  rw [hfind, hrow']

theorem keyed_eq_none (h : ∀ row ∈ rows, key row ≠ k) : keyed key rows k = none :=
  find?_eq_none.2 fun row hrow => by simpa using h row hrow

theorem applyEntries_append (more : List (Bool × ρ)) :
    applyEntries key held (entries ++ more) = applyEntries key (applyEntries key held entries) more :=
  foldl_append

theorem applyEntries_of_forall_ne (h : ∀ entry ∈ entries, key entry.2 ≠ k) :
    applyEntries key held entries k = held k := by
  induction entries generalizing held with
  | nil => rfl
  | cons entry rest ih =>
    have hstep : applyEntries key held (entry :: rest)
        = applyEntries key (applyEntry key held entry) rest := rfl
    rw [hstep, ih fun e he => h e (mem_cons_of_mem _ he), applyEntry,
      Function.update_of_ne (h entry mem_cons_self).symm]

theorem applyEntries_of_mem (hmem : entry ∈ entries) (hkey : key entry.2 = k)
    (hunique : ∀ entry' ∈ entries, key entry'.2 = k → entry' = entry) :
    applyEntries key held entries k = if entry.1 then some entry.2 else none := by
  induction entries generalizing held with
  | nil => cases hmem
  | cons first rest ih =>
    have hstep : applyEntries key held (first :: rest)
        = applyEntries key (applyEntry key held first) rest := rfl
    rw [hstep]
    by_cases hin : entry ∈ rest
    · exact ih hin fun e he => hunique e (mem_cons_of_mem _ he)
    · -- the entry is the first one, and no other has its key
      have hfirst : entry = first := (mem_cons.1 hmem).resolve_right hin
      subst hfirst
      rw [applyEntries_of_forall_ne, applyEntry, hkey, Function.update_self]
      intro e he hk
      rw [hunique e (mem_cons_of_mem _ he) hk] at he
      exact hin he

end PotatoNode.Lib
