import PotatoNode.Lib.Table

/-!
# Cursors

A loop that goes through a table while its body changes the table keeps the key where it will go on,
and looks it up again (`lowerBound`). What it has before it is counted by `remaining`; the count goes
down with every entry that is left behind (`remaining_lt`), as long as nothing of the kind that is
counted is added.
-/

namespace PotatoNode.Lib.Table

open List

variable {α κ : Type} [LinearOrder κ] {key : α → κ}

/-- The first entry whose key is not below `k`. -/
def lowerBound (t : Table key) (k : κ) : Option α := t.entries.find? fun a => k ≤ key a

def next (t : Table key) (a : α) : Option α := t.entries.find? fun b => key a < key b

variable {t : Table key} {a : α}

theorem lowerBound_eq_some {k : κ} (h : t.lowerBound k = some a) : a ∈ t ∧ k ≤ key a :=
  ⟨mem_of_find?_eq_some h, by simpa using find?_some h⟩

theorem next_eq_some {b : α} (h : t.next a = some b) : b ∈ t ∧ key a < key b :=
  ⟨mem_of_find?_eq_some h, by simpa using find?_some h⟩

/-- The number of entries with a property, from the key `k` on. -/
def ahead (t : Table key) (p : α → Bool) (k : κ) : Nat :=
  (t.entries.filter fun a => k ≤ key a ∧ p a).length

/-- The entries of a list, of which the last one counts where two have one key. -/
def ofList (l : List α) : Table key := l.foldr (fun a t => t.insert a) Table.empty

theorem mem_ofList {l : List α} (h : (l.map key).Nodup) : a ∈ (ofList l : Table key) ↔ a ∈ l := by
  induction l with
  | nil => exact iff_of_false (Table.notMem_empty a) not_mem_nil
  | cons b l ih =>
    obtain ⟨hb, hl⟩ := nodup_cons.1 h
    show a ∈ (ofList l).insert b ↔ _
    rw [Table.mem_insert, ih hl, mem_cons]
    refine or_congr_right (and_iff_left_of_imp fun ha hkey => hb ?_)
    exact List.mem_map.2 ⟨a, ha, hkey⟩

theorem nodup_entries (t : Table key) : t.entries.Nodup := .of_map key t.nodup_keys

/-- The number of entries with a property that a cursor has before it. -/
def remaining (t : Table key) (p : α → Bool) : Option α → Nat
  | none => 0
  | some a => t.ahead p (key a)

section

variable {t u : Table key} {p : α → Bool} {a : α} {cursor : Option α}

theorem remaining_le (hcursor : ∀ b ∈ cursor, key a < key b) (hold : ∀ b ∈ u, p b → b ∈ t) :
    u.remaining p cursor ≤ t.remaining p (some a) := by
  cases cursor with
  | none => exact Nat.zero_le _
  | some c =>
    refine (subperm_of_subset (u.nodup_entries.filter _) fun b hb => ?_).length_le
    simp only [List.mem_filter, decide_eq_true_eq] at hb ⊢
    exact ⟨hold b hb.1 hb.2.2, (hcursor c rfl).le.trans hb.2.1, hb.2.2⟩

theorem remaining_lt (ha : a ∈ t) (hp : p a) (hcursor : ∀ b ∈ cursor, key a < key b)
    (hold : ∀ b ∈ u, p b → b ∈ t) : u.remaining p cursor < t.remaining p (some a) := by
  have hmem : a ∈ t.entries.filter fun b => key a ≤ key b ∧ p b :=
    mem_filter.2 ⟨ha, decide_eq_true ⟨le_refl _, hp⟩⟩
  cases cursor with
  | none => exact length_pos_of_mem hmem
  | some c =>
    have hlater := hcursor c rfl
    have hnew : a ∉ u.entries.filter fun b => key c ≤ key b ∧ p b := by
      simp only [List.mem_filter, decide_eq_true_eq]
      exact fun h => absurd h.2.1 (not_le.2 hlater)
    have hnodup := nodup_cons.2 ⟨hnew, u.nodup_entries.filter _⟩
    refine (subperm_of_subset hnodup fun b hb => ?_).length_le
    rcases mem_cons.1 hb with rfl | hb
    · exact hmem
    · simp only [List.mem_filter, decide_eq_true_eq] at hb ⊢
      exact ⟨hold b hb.1 hb.2.2, hlater.le.trans hb.2.1, hb.2.2⟩

end

end PotatoNode.Lib.Table
