import Mathlib.Data.List.Sort

/-!
# Tables — containers with one unique, ordered key

`flat_map`, `std::map` and the unique ordered index of a `multi_index_container` are one
thing to their callers: a sequence of entries in ascending key order with at most one entry
for each key. `Table key` is that sequence, with the order as a field, so two tables that
hold the same entries are equal (`Table.ext_mem`) and a loop over the container is a fold
over `entries`.

Every operation is described once by its membership lemma (`mem_insert`, `mem_erase`,
`mem_filter`) and once by what `find?` answers afterwards; clients use these and never look
at the list.
-/

namespace PotatoNode.Lib

open List Option

variable {α κ : Type} [LinearOrder κ] {key : α → κ}

/-- Entries in ascending key order, at most one entry for each key. -/
structure Table {α κ : Type} [LinearOrder κ] (key : α → κ) where
  entries : List α
  sorted : entries.Pairwise (fun a b => key a < key b)

namespace Table

instance : Membership α (Table key) where
  mem t a := a ∈ t.entries

variable {t : Table key} {a b : α} {k : κ}

theorem mem_def : a ∈ t ↔ a ∈ t.entries := Iff.rfl

instance [DecidableEq α] : DecidableEq (Table key) := fun t u =>
  decidable_of_iff (t.entries = u.entries) ⟨fun h => by
    cases t; cases u; cases h; rfl, fun h => by rw [h]⟩

instance [DecidableEq α] (a : α) (t : Table key) : Decidable (a ∈ t) :=
  inferInstanceAs (Decidable (a ∈ t.entries))

variable {u : Table key}

/-- **Tables are extensional.** The order field leaves one list for each set of entries. -/
theorem ext_mem (h : ∀ a, a ∈ t ↔ a ∈ u) : t = u := by
  have hentries : t.entries = u.entries := t.sorted.eq_of_mem_iff u.sorted h
  cases t; cases u; cases hentries; rfl

theorem nodup_keys (t : Table key) : (t.entries.map key).Nodup :=
  pairwise_map.2 (t.sorted.imp ne_of_lt)

theorem eq_of_mem_of_key_eq (ha : a ∈ t) (hb : b ∈ t) (hk : key a = key b) : a = b :=
  inj_on_of_nodup_map t.nodup_keys ha hb hk

/-- A table with entries of `l` only, as many as `l` has, has all of them. -/
theorem mem_iff_of_length {l : List α} (hsub : ∀ a ∈ t, a ∈ l)
    (hlength : l.length ≤ t.entries.length) : a ∈ t ↔ a ∈ l :=
  ((subperm_of_subset (.of_map key t.nodup_keys) hsub).perm_of_length_le hlength).mem_iff

/-! ## Lookup -/

/-- The entry with key `k`, if there is one. -/
def find? (t : Table key) (k : κ) : Option α :=
  t.entries.find? (fun a => key a = k)

/-- Whether some entry has key `k`. -/
def contains (t : Table key) (k : κ) : Bool :=
  (t.find? k).isSome

theorem contains_eq_isSome (t : Table key) (k : κ) : t.contains k = (t.find? k).isSome := rfl

theorem find?_eq_some_iff : t.find? k = some a ↔ a ∈ t ∧ key a = k := by
  constructor
  · intro h
    exact ⟨mem_of_find?_eq_some h, by simpa using find?_some h⟩
  · rintro ⟨ha, hk⟩
    cases hf : t.find? k with
    | none =>
      have hall := find?_eq_none.1 hf a ha
      exact absurd (by simpa using hk) hall
    | some b =>
      have hb : b ∈ t := mem_of_find?_eq_some hf
      have hkb : key b = k := by simpa using find?_some hf
      rw [eq_of_mem_of_key_eq hb ha (hkb.trans hk.symm)]

theorem find?_eq_none_iff : t.find? k = none ↔ ∀ a ∈ t, key a ≠ k := by
  unfold find?
  rw [find?_eq_none]
  simp only [decide_eq_true_eq, ne_eq, mem_def]

theorem find?_of_mem (ha : a ∈ t) : t.find? (key a) = some a := find?_eq_some_iff.2 ⟨ha, rfl⟩

theorem contains_iff : t.contains k = true ↔ ∃ a ∈ t, key a = k := by
  unfold contains
  rw [isSome_iff_exists]
  exact exists_congr fun a => find?_eq_some_iff

theorem ext_find? (h : ∀ k, t.find? k = u.find? k) : t = u := by
  apply ext_mem
  intro a
  constructor
  · intro ha
    have hf := find?_of_mem ha
    rw [h] at hf
    exact (find?_eq_some_iff.1 hf).1
  · intro ha
    have hf := find?_of_mem ha
    rw [← h] at hf
    exact (find?_eq_some_iff.1 hf).1

/-! ## The empty table, erasing and filtering -/

def empty : Table key := ⟨[], List.Pairwise.nil⟩

@[simp] theorem notMem_empty (a : α) : a ∉ (empty : Table key) := not_mem_nil

/-- The entries that satisfy `p`. -/
def filter (p : α → Bool) (t : Table key) : Table key :=
  ⟨t.entries.filter p, t.sorted.filter p⟩

variable {p : α → Bool}

@[simp] theorem mem_filter : a ∈ t.filter p ↔ a ∈ t ∧ p a = true := List.mem_filter

/-- The table without the entry with key `k`. -/
def erase (t : Table key) (k : κ) : Table key :=
  t.filter (fun a => key a ≠ k)

@[simp] theorem mem_erase : a ∈ t.erase k ↔ a ∈ t ∧ key a ≠ k := by
  simp [erase]

theorem find?_filter : (t.filter p).find? k = (t.find? k).filter p := by
  cases hf : t.find? k with
  | none =>
    rw [find?_eq_none_iff] at hf
    rw [filter_none, find?_eq_none_iff]
    exact fun a ha => hf a (mem_filter.1 ha).1
  | some a =>
    obtain ⟨ha, hk⟩ := find?_eq_some_iff.1 hf
    by_cases hp : p a = true
    · rw [filter_some_pos hp]
      exact find?_eq_some_iff.2 ⟨mem_filter.2 ⟨ha, hp⟩, hk⟩
    · rw [filter_some_neg (by simpa using hp), find?_eq_none_iff]
      intro b hb hkb
      obtain ⟨hbt, hpb⟩ := mem_filter.1 hb
      rw [eq_of_mem_of_key_eq hbt ha (hkb.trans hk.symm)] at hpb
      exact hp hpb

theorem find?_erase {j : κ} : (t.erase j).find? k = if k = j then none else t.find? k := by
  unfold erase
  rw [find?_filter]
  cases hf : t.find? k with
  | none => simp
  | some a =>
    have hk := (find?_eq_some_iff.1 hf).2
    by_cases hkj : k = j
    · simp [hk, hkj]
    · simp [hk, hkj]

/-! ## Insertion -/

/-- Ordered insertion; an entry with the same key is replaced. -/
def insertList (key : α → κ) (a : α) : List α → List α
  | [] => [a]
  | b :: l =>
    if key a < key b then a :: b :: l
    else if key a = key b then a :: l
    else b :: insertList key a l

theorem mem_insertList_subset : ∀ {l : List α}, b ∈ insertList key a l → b = a ∨ b ∈ l
  | [], h => by simpa [insertList] using h
  | c :: l, h => by
    unfold insertList at h
    split at h
    · simpa using h
    · split at h
      · rcases mem_cons.1 h with rfl | hl
        · exact Or.inl rfl
        · exact Or.inr (mem_cons_of_mem _ hl)
      · rcases mem_cons.1 h with rfl | hl
        · exact Or.inr mem_cons_self
        · exact (mem_insertList_subset hl).imp_right (mem_cons_of_mem _)

theorem pairwise_insertList (a : α) :
    ∀ {l : List α}, l.Pairwise (fun x y => key x < key y) →
      (insertList key a l).Pairwise (fun x y => key x < key y)
  | [], _ => by simp [insertList]
  | b :: l, h => by
    obtain ⟨hb, hl⟩ := pairwise_cons.1 h
    unfold insertList
    split
    · next hlt =>
      refine pairwise_cons.2 ⟨?_, h⟩
      intro c hc
      rcases mem_cons.1 hc with rfl | hcl
      · exact hlt
      · exact hlt.trans (hb c hcl)
    · next hnlt =>
      split
      · next heq => exact pairwise_cons.2 ⟨fun c hc => heq ▸ hb c hc, hl⟩
      · next hne =>
        refine pairwise_cons.2 ⟨?_, pairwise_insertList a hl⟩
        intro c hc
        rcases mem_insertList_subset hc with rfl | hcl
        · exact lt_of_le_of_ne (not_lt.1 hnlt) (Ne.symm hne)
        · exact hb c hcl

/-- The table with entry `a` under its key. -/
def insert (t : Table key) (a : α) : Table key :=
  ⟨insertList key a t.entries, pairwise_insertList a t.sorted⟩

theorem mem_insertList_self (a : α) : ∀ l : List α, a ∈ insertList key a l
  | [] => by simp [insertList]
  | b :: l => by
    unfold insertList
    split
    · exact mem_cons_self
    · split
      · exact mem_cons_self
      · exact mem_cons_of_mem _ (mem_insertList_self a l)

theorem mem_insertList_of_ne (hne : key b ≠ key a) : ∀ {l : List α}, b ∈ l → b ∈ insertList key a l
  | c :: l, h => by
    unfold insertList
    split
    · exact mem_cons_of_mem _ h
    · split
      · next heq =>
        rcases mem_cons.1 h with rfl | hl
        · exact absurd heq.symm hne
        · exact mem_cons_of_mem _ hl
      · rcases mem_cons.1 h with rfl | hl
        · exact mem_cons_self
        · exact mem_cons_of_mem _ (mem_insertList_of_ne hne hl)

@[simp] theorem mem_insert : b ∈ t.insert a ↔ b = a ∨ (b ∈ t ∧ key b ≠ key a) := by
  have hself : a ∈ t.insert a := mem_insertList_self a t.entries
  constructor
  · intro hb
    by_cases hk : key b = key a
    · exact Or.inl (eq_of_mem_of_key_eq hb hself hk)
    · rcases mem_insertList_subset hb with h | h
      · exact Or.inl h
      · exact Or.inr ⟨h, hk⟩
  · rintro (rfl | ⟨hb, hk⟩)
    · exact hself
    · exact mem_insertList_of_ne hk hb

theorem erase_insert (t : Table key) (a : α) : (t.insert a).erase (key a) = t.erase (key a) := by
  apply ext_mem
  intro b
  rw [mem_erase, mem_erase, mem_insert]
  exact ⟨fun h => ⟨(h.1.resolve_left fun hb => h.2 (congrArg key hb)).1, h.2⟩,
    fun h => ⟨.inr h, h.2⟩⟩

theorem erase_of_new (h : ∀ b ∈ t, key b ≠ k) : t.erase k = t := by
  apply ext_mem
  intro b
  rw [mem_erase]
  exact ⟨And.left, fun hb => ⟨hb, h b hb⟩⟩

theorem perm_cons_erase (ha : a ∈ t) : t.entries.Perm (a :: (t.erase (key a)).entries) := by
  have hnodup : ∀ u : Table key, u.entries.Nodup := fun u => .of_map key u.nodup_keys
  have hnew : a ∉ (t.erase (key a)).entries := fun h => (mem_erase.1 h).2 rfl
  rw [perm_ext_iff_of_nodup (hnodup t) (nodup_cons.2 ⟨hnew, hnodup _⟩)]
  intro b
  rw [mem_cons]
  constructor
  · intro hb
    by_cases hk : key b = key a
    · exact .inl (eq_of_mem_of_key_eq hb ha hk)
    · exact .inr (mem_erase.2 ⟨hb, hk⟩)
  · rintro (rfl | hb)
    · exact ha
    · exact (mem_erase.1 hb).1

theorem length_le_insert (t : Table key) (a : α) :
    t.entries.length ≤ (t.insert a).entries.length := by
  show t.entries.length ≤ (insertList key a t.entries).length
  induction t.entries with
  | nil => exact Nat.zero_le _
  | cons b l ih =>
    unfold insertList
    split
    · exact Nat.le_succ _
    · split
      · exact le_rfl
      · exact Nat.succ_le_succ ih

theorem find?_insert : (t.insert a).find? k = if k = key a then some a else t.find? k := by
  split
  · next hk => exact find?_eq_some_iff.2 ⟨mem_insert.2 (Or.inl rfl), hk.symm⟩
  · next hk =>
    cases hf : t.find? k with
    | none =>
      rw [find?_eq_none_iff] at hf ⊢
      intro b hb hkb
      rcases mem_insert.1 hb with rfl | ⟨hbt, _⟩
      · exact hk hkb.symm
      · exact hf b hbt hkb
    | some b =>
      obtain ⟨hb, hkb⟩ := find?_eq_some_iff.1 hf
      refine find?_eq_some_iff.2 ⟨mem_insert.2 (Or.inr ⟨hb, ?_⟩), hkb⟩
      rw [hkb]
      exact hk

theorem insert_erase (t : Table key) (a : α) : (t.erase (key a)).insert a = t.insert a := by
  apply ext_mem
  intro b
  rw [mem_insert, mem_insert, mem_erase, and_assoc, and_self_iff]

/-- `emplace`: an entry with the same key stays. -/
def emplace (t : Table key) (a : α) : Table key :=
  if t.contains (key a) then t else t.insert a

theorem find?_emplace :
    (t.emplace a).find? k = if k = key a then (t.find? k).or (some a) else t.find? k := by
  unfold emplace contains
  cases hf : t.find? (key a) with
  | none =>
    rw [isSome_none, if_neg Bool.false_ne_true, find?_insert]
    split
    · next hk => rw [hk, hf, none_or]
    · rfl
  | some b =>
    rw [isSome_some, if_pos rfl]
    split
    · next hk => rw [hk, hf, some_or]
    · rfl

/-- Every entry changed by `f`, which keeps the keys. -/
def map (f : α → α) (hf : ∀ a, key (f a) = key a) (t : Table key) : Table key :=
  ⟨t.entries.map f, List.pairwise_map.2 (t.sorted.imp fun h => by rwa [hf, hf])⟩

variable {f : α → α}

theorem mem_map (hf : ∀ a, key (f a) = key a) : b ∈ t.map f hf ↔ ∃ a ∈ t, f a = b := List.mem_map

theorem find?_map (hf : ∀ a, key (f a) = key a) : (t.map f hf).find? k = (t.find? k).map f := by
  show (t.entries.map f).find? _ = _
  rw [List.find?_map]
  simp only [Function.comp_def, hf]
  rfl

def size (t : Table key) : Nat := t.entries.length

end Table

/-! ## Sets and maps

A `flat_set<K>` is a table of keys, a `flat_map<K, V>` a table of pairs keyed by the first
component. -/

/-- `flat_set` and `std::set`: keys in ascending order. -/
abbrev FlatSet (κ : Type) [LinearOrder κ] := Table (fun k : κ => k)

def FlatSet.ofList (l : List κ) : FlatSet κ := l.foldr (fun k s => s.insert k) Table.empty

theorem FlatSet.mem_ofList {l : List κ} {k : κ} : k ∈ FlatSet.ofList l ↔ k ∈ l := by
  induction l with
  | nil => simp [ofList]
  | cons j l ih =>
    have hcons : FlatSet.ofList (j :: l) = (FlatSet.ofList l).insert j := rfl
    rw [hcons, Table.mem_insert, mem_cons]
    tauto

/-- `flat_map` and `std::map`: pairs in ascending key order. -/
abbrev FlatMap (κ ν : Type) [LinearOrder κ] := Table (Prod.fst : κ × ν → κ)

namespace FlatMap

variable {ν : Type}

def empty : FlatMap κ ν := Table.empty

/-- The value stored under `k`. -/
def get? (m : FlatMap κ ν) (k : κ) : Option ν := (m.find? k).map Prod.snd

def set (m : FlatMap κ ν) (k : κ) (v : ν) : FlatMap κ ν := m.insert (k, v)

variable {m : FlatMap κ ν} {k : κ} {v : ν}

theorem get?_eq_some_iff : m.get? k = some v ↔ (k, v) ∈ m := by
  unfold get?
  rw [map_eq_some_iff]
  constructor
  · rintro ⟨⟨k', v'⟩, hf, rfl⟩
    obtain ⟨hmem, rfl⟩ := Table.find?_eq_some_iff.1 hf
    exact hmem
  · intro hmem
    exact ⟨(k, v), Table.find?_eq_some_iff.2 ⟨hmem, rfl⟩, rfl⟩

@[simp] theorem get?_empty (k : κ) : (empty : FlatMap κ ν).get? k = none := rfl

theorem get?_set {j : κ} : (m.set j v).get? k = if k = j then some v else m.get? k := by
  unfold get? set
  rw [Table.find?_insert]
  split <;> rfl

theorem get?_erase {j : κ} : get? (m.erase j) k = if k = j then none else m.get? k := by
  unfold get?
  rw [Table.find?_erase]
  split <;> rfl

end FlatMap

end PotatoNode.Lib
