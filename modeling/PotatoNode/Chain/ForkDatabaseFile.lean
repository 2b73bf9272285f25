import PotatoNode.Lib.Runs
import PotatoNode.Chain.ForkTree

/-!
# The fork database file (`fork_database.cpp`)

`close` writes the fork database to a file, and `open` builds it again: it adds the blocks one
after the other, so that each block must come after its parent. `close` writes them in the order
of preference, the validated and the other blocks merged.
-/

namespace PotatoNode.Chain

open Lib BlockState List Table

/-! ## The file -/

/-- What is read back of a packed state. -/
def BlockHeaderState.reflected (s : BlockHeaderState) : BlockHeaderState :=
  { s with headerExts := [] }

namespace BlockState

/-- What is read back of a packed state. -/
def reflected (b : BlockState) : BlockState :=
  { b with toBlockHeaderState := b.toBlockHeaderState.reflected, numbered := b.numbered }

def setHeaderExts (b : BlockState) (exts : List (Nat × ProducerAuthoritySchedule)) : BlockState :=
  { b with
    toBlockHeaderState := { b.toBlockHeaderState with headerExts := exts }
    numbered := b.numbered }

def blockExts (b : BlockState) : Result (List (Nat × ProducerAuthoritySchedule)) :=
  match b.block with
  | some block => block.validateAndExtractHeaderExtensions
  | none => .error .undefinedBehaviour

end BlockState

/-- The values packed into `fork_db.dat`, with the number of blocks as the length of the list. -/
structure ForkDbFile where
  totem : Nat
  version : Nat
  /-- only the `block_header_state` portion is written -/
  root : BlockState
  blocks : List BlockState
  headId : BlockId

namespace ForkDatabase

def magicNumber : Nat := 0x30510FDB

def minSupportedVersion : Nat := 1

def maxSupportedVersion : Nat := 1

def byLib (index : ForkIndex) : List BlockState :=
  index.entries.insertionSort fun a b => a.byLibBlockNum ≤ b.byLibBlockNum

/-- The loop of `close`, on the unvalidated and the validated blocks from the last to the first
one: of the two next blocks the unvalidated one is written if the other is preferred over it. -/
def writeOrder (index : ForkIndex) : List BlockState :=
  List.merge ((byLib index).filter fun b => !b.validated).reverse
    ((byLib index).filter fun b => b.validated).reverse
    fun unvalidated validated => firstPreferred validated unvalidated

def close (d : ForkDatabase) : ForkDbFile where
  totem := magicNumber
  version := maxSupportedVersion
  root := d.root.reflected
  blocks := (writeOrder d.index).map reflected
  headId := d.head.id

/-- One iteration of the loop of `open`. -/
def readBlock (d : ForkDatabase) (s : BlockState) : Result ForkDatabase := do
  let exts ← s.blockExts
  d.add (s.setHeaderExts exts) false

/-- The head that `open` looks up. -/
def readHead (d : ForkDatabase) (headId : BlockId) : Result BlockState :=
  if d.root.id = headId then .ok d.root
  else
    match d.getBlock headId with
    | some head => .ok head
    | none =>
      eosThrow .forkDatabaseException
        ("could not find head while reconstructing fork database from file; '${filename}' is " ++
          "likely corrupted")

/-- The assertions at the end of `open`. -/
def assertBestHead (d : ForkDatabase) : Result Unit :=
  match d.index.first.filter (·.validated) with
  | none =>
    eosAssert (d.head.id = d.root.id) .forkDatabaseException
      "head not set to root despite no better option available; '${filename}' is likely corrupted"
  | some candidate =>
    eosAssert (¬ firstPreferred candidate d.head) .forkDatabaseException
      "head not set to best available option available; '${filename}' is likely corrupted"

def openFile (file : ForkDbFile) : Result ForkDatabase := do
  eosAssert (file.totem = magicNumber) .forkDatabaseException
    ("Fork database file '${filename}' has unexpected magic number: ${actual_totem}. Expected " ++
      "${expected_totem}")
  eosAssert (minSupportedVersion ≤ file.version ∧ file.version ≤ maxSupportedVersion)
    .forkDatabaseException
    ("Unsupported version of fork database file '${filename}'. Fork database version is " ++
      "${version} while code supports version(s) [${min},${max}]")
  let d ← file.blocks.foldlM readBlock (reset file.root)
  let head ← d.readHead file.headId
  assertBestHead { d with head := head }
  .ok { d with head := head }

/-! ## Databases of the node -/

/-- `n` is a new block on its parent in `d`, as the constructor of `block_state` builds it from a
received block. A block of the node itself has the same state. -/
def Builds (fc : Fc) (d : ForkDatabase) (n : BlockState) : Prop :=
  match d.getBlockHeader n.prev, n.block with
  | some parent, some b => n.validated = false
    ∧ (parent.nextHeader fc b.toSignedBlockHeader n.additionalSignatures false
        = .ok n.toBlockHeaderState
      ∨ parent.nextHeader fc b.toSignedBlockHeader n.additionalSignatures true
        = .ok n.toBlockHeaderState)
  | _, _ => False

def NodeCall (fc : Fc) (d : ForkDatabase) : ForkCall → Prop
  | .add n _ => d.Builds fc n
  | _ => True

def afterCall (d : ForkDatabase) (c : ForkCall) : Result ForkDatabase :=
  match c.run d with
  | .ok _ d' => .ok d'
  | .error e _ => .error e

/-- The databases that the calls of a node lead to, from any root. Calls that throw change
nothing; the node moves the root only to ancestors of the head, which succeeds. -/
abbrev Reached (fc : Fc) : ForkDatabase → Prop :=
  Reachable afterCall (NodeCall fc) fun d => ∃ rootBhs, d = reset rootBhs

/-! ## The order of the file -/

theorem pairwise_merge_lt {α β : Type} [LinearOrder β] (rank : α → β) {xs ys : List α}
    (hxs : xs.Pairwise fun a b => rank a ≤ rank b) (hys : ys.Pairwise fun a b => rank a ≤ rank b) :
    (merge xs ys fun x y => rank x < rank y).Pairwise fun a b => rank a ≤ rank b := by
  induction xs, ys using merge.induct (fun x y => decide (rank x < rank y)) with
  | case1 ys => simpa using hys
  | case2 xs _ => simpa using hxs
  | case3 x xs y ys hlt ih =>
    have hxy : rank x < rank y := of_decide_eq_true hlt
    obtain ⟨hx, hxs'⟩ := pairwise_cons.1 hxs
    rw [merge, if_pos hlt]
    refine pairwise_cons.2 ⟨fun z hz => ?_, ih hxs' hys⟩
    rcases mem_merge.1 hz with hz | hz
    · exact hx z hz
    · rcases mem_cons.1 hz with rfl | hz
      · exact le_of_lt hxy
      · exact (le_of_lt hxy).trans ((pairwise_cons.1 hys).1 z hz)
  | case4 x xs y ys hlt ih =>
    have hyx : rank y ≤ rank x := not_lt.1 fun h => hlt (decide_eq_true h)
    obtain ⟨hy, hys'⟩ := pairwise_cons.1 hys
    rw [merge, if_neg hlt]
    refine pairwise_cons.2 ⟨fun z hz => ?_, ih hxs hys'⟩
    rcases mem_merge.1 hz with hz | hz
    · rcases mem_cons.1 hz with rfl | hz
      · exact hyx
      · exact hyx.trans ((pairwise_cons.1 hxs).1 z hz)
    · exact hy z hz

section Order

variable {index : ForkIndex}

theorem perm_writeOrder (index : ForkIndex) : (writeOrder index).Perm index.entries := by
  have hparts := filter_append_perm (fun b : BlockState => !b.validated) (byLib index)
  simp only [Bool.not_not] at hparts
  calc writeOrder index
      _ |>.Perm (_ ++ _) := merge_perm_append _
      _ |>.Perm (_ ++ _) := (reverse_perm _).append (reverse_perm _)
      _ |>.Perm _ := hparts
      _ |>.Perm index.entries := perm_insertionSort _ _

theorem mem_writeOrder {b : BlockState} : b ∈ writeOrder index ↔ b ∈ index :=
  (perm_writeOrder index).mem_iff

theorem nodup_writeOrder (index : ForkIndex) :
    (writeOrder index).Pairwise fun a b => a.id ≠ b.id := by
  have hnodup := ((perm_writeOrder index).map (·.id)).nodup_iff.2 index.nodup_keys
  exact pairwise_map.1 hnodup

theorem pairwise_part (v : Bool) (p : BlockState → Bool)
    (hp : ∀ b, p b = true → b.validated = v) :
    ((byLib index).filter p).reverse.Pairwise fun a b => a.preference ≤ b.preference := by
  have hsorted : (byLib index).Pairwise fun a b => a.byLibBlockNum ≤ b.byLibBlockNum := by
    exact pairwise_insertionSort _ _
  rw [pairwise_reverse]
  refine (hsorted.filter p).imp_of_mem fun ha hb hle => ?_
  apply preference_le_of_byLibBlockNum_le hle
  rw [hp _ (mem_filter.1 ha).2, hp _ (mem_filter.1 hb).2]

theorem pairwise_writeOrder (index : ForkIndex) :
    (writeOrder index).Pairwise fun a b => a.preference ≤ b.preference :=
  pairwise_merge_lt preference
    (pairwise_part false _ fun b hb => by simpa using hb) (pairwise_part true _ fun b hb => hb)

end Order

/-! ## Reading the blocks -/

section Read

variable {d d' e e' : ForkDatabase} {b n p : BlockState}

theorem getBlockHeader_isSome_iff {id : BlockId} :
    (d.getBlockHeader id).isSome ↔ id = d.root.id ∨ ∃ p ∈ d.index, p.id = id := by
  unfold getBlockHeader
  split
  · next hroot => simp [hroot.symm]
  · next hroot =>
    rw [Option.isSome_iff_exists]
    constructor
    · rintro ⟨p, hp⟩
      exact .inr ⟨p, find?_eq_some_iff.1 hp⟩
    · intro hor
      obtain ⟨p, hp⟩ := hor.resolve_left fun heq => hroot heq.symm
      exact ⟨p, find?_eq_some_iff.2 hp⟩

/-- The exception of `add`. -/
def unlinkable : Failure := .exception ⟨.unlinkableBlockException, "unlinkable block"⟩

theorem add_new (hnew : ∀ x ∈ d.index, x.id ≠ n.id) :
    ((n.prev = d.root.id ∨ ∃ p ∈ d.index, p.id = n.prev)
      ∧ d.add n false = .ok (d.takeValidated (d.index.insert n)))
    ∨ ((n.prev ≠ d.root.id ∧ ∀ p ∈ d.index, p.id ≠ n.prev)
      ∧ d.add n false = .error unlinkable) := by
  have hnone : d.getBlock n.id = none := find?_eq_none_iff.2 hnew
  by_cases hlink : (d.getBlockHeader n.prev).isSome
  · left
    refine ⟨getBlockHeader_isSome_iff.1 hlink, ?_⟩
    unfold add
    rw [eosAssert_of hlink, hnone]
    rfl
  · right
    constructor
    · simpa [getBlockHeader_isSome_iff] using hlink
    · unfold add eosAssert
      rw [if_neg hlink]
      rfl

def Readable (b : BlockState) : Prop := b.blockExts = .ok b.headerExts

theorem readBlock_reflected (h : Readable b) : e.readBlock b.reflected = e.add b false := by
  have hexts : b.reflected.blockExts = .ok b.headerExts := h
  unfold readBlock
  rw [hexts]
  rfl

/-- The blocks of `l` can be added: parents have the smaller preference. -/
structure Addable (e : ForkDatabase) (l : List BlockState) : Prop where
  readable : ∀ b ∈ l, Readable b
  sorted : l.Pairwise fun a b => a.preference ≤ b.preference
  nodup : l.Pairwise fun a b => a.id ≠ b.id
  new : ∀ b ∈ l, ∀ x ∈ e.index, x.id ≠ b.id

variable {l : List BlockState}

theorem Addable.step (h : Addable e (b :: l)) :
    Addable (e.takeValidated (e.index.insert b)) l where
  readable x hx := h.readable x (mem_cons_of_mem _ hx)
  sorted := (pairwise_cons.1 h.sorted).2
  nodup := (pairwise_cons.1 h.nodup).2
  new x hx y hy := by
    rcases (mem_insert_of_new (h.new b mem_cons_self)).1 hy with rfl | hy
    · exact (pairwise_cons.1 h.nodup).1 x hx
    · exact h.new x (mem_cons_of_mem _ hx) y hy

theorem Addable.read_ok : ∀ {l : List BlockState} {e : ForkDatabase}, Addable e l →
    (∀ b ∈ l, b.prev = e.root.id ∨ (∃ p ∈ e.index, p.id = b.prev)
      ∨ ∃ p ∈ l, p.id = b.prev ∧ p.preference < b.preference) →
    ∃ e', (l.map reflected).foldlM readBlock e = .ok e' ∧ e'.root = e.root
      ∧ ∀ x, x ∈ e'.index ↔ x ∈ l ∨ x ∈ e.index
  | [], e, _, _ => ⟨e, rfl, rfl, fun x => by simp⟩
  | b :: l, e, h, hparent => by
    have hnew := h.new b mem_cons_self
    have hmem := fun x => mem_insert_of_new (b := x) hnew
    rcases add_new hnew with ⟨-, hok⟩ | ⟨⟨hroot, hnone⟩, -⟩
    · obtain ⟨e', hrest, hroot, hmem'⟩ := h.step.read_ok (by
        intro x hx
        rcases hparent x (mem_cons_of_mem _ hx) with hr | ⟨p, hp, hid⟩ | ⟨p, hp, hid, hlt⟩
        · exact .inl hr
        · exact .inr (.inl ⟨p, (hmem p).2 (.inr hp), hid⟩)
        · rcases mem_cons.1 hp with rfl | hp
          · exact .inr (.inl ⟨p, (hmem p).2 (.inl rfl), hid⟩)
          · exact .inr (.inr ⟨p, hp, hid, hlt⟩))
      refine ⟨e', ?_, hroot, fun x => ?_⟩
      · rw [map_cons, foldlM_cons, readBlock_reflected (h.readable b mem_cons_self), hok]
        exact hrest
      · have hx : x ∈ (e.takeValidated (e.index.insert b)).index ↔ x = b ∨ x ∈ e.index := hmem x
        rw [hmem' x, hx, mem_cons]
        tauto
    · -- the first block has the least preference, so its parent is not in the list
      exfalso
      rcases hparent b mem_cons_self with hr | ⟨p, hp, hid⟩ | ⟨p, hp, -, hlt⟩
      · exact hroot hr
      · exact hnone p hp hid
      · rcases mem_cons.1 hp with rfl | hp
        · exact lt_irrefl _ hlt
        · exact absurd hlt (not_lt.2 ((pairwise_cons.1 h.sorted).1 p hp))

/-- A block that is written before its parent cannot be added. -/
theorem Addable.read_error (h : Addable e l) (hb : b ∈ l) (hp : p ∈ l)
    (hid : p.id = b.prev) (hlt : b.preference < p.preference) (hroot : b.prev ≠ e.root.id) :
    (l.map reflected).foldlM readBlock e = .error unlinkable := by
  induction l generalizing e with
  | nil => cases hb
  | cons x l ih =>
    have hnew := h.new x mem_cons_self
    rw [map_cons, foldlM_cons, readBlock_reflected (h.readable x mem_cons_self)]
    rcases add_new hnew with ⟨hlink, hok⟩ | ⟨-, herr⟩
    · rw [hok]
      -- neither of the two is the first block
      have hb' : b ∈ l := by
        rcases mem_cons.1 hb with rfl | hb'
        · rcases hlink with hr | ⟨q, hq, hqid⟩
          · exact absurd hr hroot
          · exact absurd (hqid.trans hid.symm) (h.new p hp q hq)
        · exact hb'
      have hp' : p ∈ l := by
        rcases mem_cons.1 hp with rfl | hp'
        · exact absurd hlt (not_lt.2 ((pairwise_cons.1 h.sorted).1 b hb'))
        · exact hp'
      exact ih h.step hb' hp' hroot
    · rw [herr]
      rfl

end Read

/-! ## A restart -/

/-- No block has a lower last irreversible block than its parent. -/
def LibAscends (d : ForkDatabase) : Prop :=
  ∀ b ∈ d.index, ∀ p ∈ d.index, p.id = b.prev →
    p.dposIrreversibleBlocknum ≤ b.dposIrreversibleBlocknum

instance (d : ForkDatabase) : Decidable d.LibAscends :=
  inferInstanceAs (Decidable (∀ b ∈ d.index.entries, ∀ p ∈ d.index.entries, p.id = b.prev →
    p.dposIrreversibleBlocknum ≤ b.dposIrreversibleBlocknum))

/-- `d'` has the root, the block states and the head of `d`. Of the root only the packed fields of
`block_header_state` are used. -/
structure Restored (d d' : ForkDatabase) : Prop where
  root : d'.root.toBlockHeaderState.reflected = d.root.toBlockHeaderState.reflected
  index : d'.index = d.index
  head : d'.head.id = d.head.id

section Restart

variable {d d' e : ForkDatabase} {b n p : BlockState}

theorem preference_lt_iff (hid : p.id = b.prev) :
    p.preference < b.preference ↔ p.dposIrreversibleBlocknum ≤ b.dposIrreversibleBlocknum := by
  have hnum : p.blockNum + 1 = b.blockNum := by
    rw [← p.numbered.1, ← b.numbered.1, hid]
    exact b.blockNum_prev
  unfold preference
  rw [Prod.Lex.toLex_lt_toLex]
  constructor
  · rintro (hlt | ⟨heq, -⟩)
    · exact le_of_lt hlt
    · exact le_of_eq heq
  · intro hle
    rcases lt_or_eq_of_le hle with hlt | heq
    · exact .inl hlt
    · exact .inr ⟨heq, by show p.blockNum < b.blockNum; omega⟩

theorem preference_ne (hid : p.id = b.prev) : p.preference ≠ b.preference := by
  intro heq
  have hnum : p.blockNum = b.blockNum := (Prod.mk.inj (toLex_inj.1 heq)).2
  have hprev := b.blockNum_prev
  rw [← hid, p.numbered.1, b.numbered.1] at hprev
  omega

theorem addable_writeOrder (hread : ∀ b ∈ d.index, Readable b) :
    Addable (reset d.root.reflected) (writeOrder d.index) where
  readable b hb := hread b (mem_writeOrder.1 hb)
  sorted := pairwise_writeOrder d.index
  nodup := nodup_writeOrder d.index
  new _ _ x hx := absurd hx (notMem_empty x)

theorem TreeInv.readHead_eq (h : d.TreeInv) (hindex : e.index = d.index)
    (hroot : e.root.id = d.root.id) (hpref : e.root.preference = d.root.preference) :
    ∃ head, e.readHead d.head.id = .ok head ∧ head.id = d.head.id
      ∧ head.preference = d.head.preference := by
  unfold readHead
  rcases h.head_mem with hhead | ⟨hin, -⟩
  · refine ⟨e.root, if_pos ?_, ?_, ?_⟩
    · rw [hhead, hroot]
    · rw [hhead, hroot]
    · rw [hhead, hpref]
  · refine ⟨d.head, ?_, rfl, rfl⟩
    have hne : ¬ e.root.id = d.head.id := by
      rw [hroot]
      exact (h.root_notMem _ hin).symm
    have hfind : e.getBlock d.head.id = some d.head := by
      unfold getBlock
      rw [hindex]
      exact find?_of_mem hin
    rw [if_neg hne, hfind]

theorem TreeInv.assertBestHead_eq (h : d.TreeInv) {head : BlockState} (hindex : e.index = d.index)
    (hroot : e.root.id = d.root.id) (hid : head.id = d.head.id)
    (hpref : head.preference = d.head.preference) :
    assertBestHead { e with head := head } = .ok () := by
  unfold assertBestHead
  rw [hindex]
  cases hfirst : d.index.first.filter (·.validated) with
  | none =>
    apply eosAssert_of
    rcases h.head_mem with hhead | ⟨hin, hv⟩
    · rw [hid, hhead, hroot]
    · -- the first block would be validated, as the head is
      cases hc : d.index.first with
      | none => exact absurd hin (ForkIndex.notMem_of_first_none hc)
      | some c =>
        have hcv := (ForkIndex.first_best hc hin hv).1
        rw [hc, Option.filter_some_pos (p := fun b : BlockState => b.validated) hcv] at hfirst
        cases hfirst
  | some c =>
    obtain ⟨hc, hcv⟩ := Option.filter_eq_some_iff.1 hfirst
    apply eosAssert_of
    have hbest := h.head_best c (ForkIndex.mem_of_first hc) hcv
    unfold firstPreferred at hbest ⊢
    rwa [hpref]

theorem openFile_close_eq (d : ForkDatabase) : openFile d.close = (do
    let e ← ((writeOrder d.index).map reflected).foldlM readBlock
      (reset d.root.reflected)
    let head ← e.readHead d.head.id
    assertBestHead { e with head := head }
    .ok { e with head := head }) := by
  rfl

/-- **A restart.** `open` after `close` restores the database if it is `LibAscends`, and throws
otherwise. -/
theorem TreeInv.openFile_close (h : d.TreeInv) (hread : ∀ b ∈ d.index, Readable b) :
    (d.LibAscends ∧ ∃ d', openFile d.close = .ok d' ∧ d.Restored d')
    ∨ (¬ d.LibAscends ∧ openFile d.close = .error unlinkable) := by
  have hadd := addable_writeOrder hread
  by_cases hasc : d.LibAscends
  · left
    obtain ⟨e', hok, hroot, hmem⟩ := hadd.read_ok (by
      intro b hb
      rcases h.linked b (mem_writeOrder.1 hb) with hr | ⟨p, hp, hid⟩
      · exact .inl hr
      · refine .inr (.inr ⟨p, mem_writeOrder.2 hp, hid, (preference_lt_iff hid).2 ?_⟩)
        exact hasc b (mem_writeOrder.1 hb) p hp hid)
    have hindex : e'.index = d.index := by
      apply ext_mem
      intro x
      rw [hmem x, mem_writeOrder]
      exact or_iff_left (notMem_empty x)
    have hrootId : e'.root.id = d.root.id := by rw [hroot]; rfl
    obtain ⟨head, hhead, hid, hpref⟩ := h.readHead_eq hindex hrootId (by rw [hroot]; rfl)
    have hbest := h.assertBestHead_eq hindex hrootId hid hpref
    refine ⟨hasc, { e' with head := head }, ?_, ?_, hindex, hid⟩
    · rw [openFile_close_eq, hok, ok_bind, hhead, ok_bind, hbest, ok_bind]
    · show e'.root.toBlockHeaderState.reflected = _
      rw [hroot]
      rfl
  · right
    refine ⟨hasc, ?_⟩
    obtain ⟨b, hb, p, hp, hid, hlt⟩ : ∃ b ∈ d.index, ∃ p ∈ d.index, p.id = b.prev
        ∧ b.preference < p.preference := by
      unfold LibAscends at hasc
      push Not at hasc
      obtain ⟨b, hb, p, hp, hid, hlt⟩ := hasc
      refine ⟨b, hb, p, hp, hid, lt_of_le_of_ne ?_ (preference_ne hid).symm⟩
      exact not_lt.1 fun h => absurd ((preference_lt_iff hid).1 h) (not_le.2 hlt)
    have herr := hadd.read_error (mem_writeOrder.2 hb) (mem_writeOrder.2 hp) hid hlt
      (fun hroot => h.root_notMem p hp (hid.trans hroot))
    rw [openFile_close_eq, herr]
    rfl

end Restart

/-! ## Databases of the node can be read back -/

section Reached

variable {fc : Fc} {d d' : ForkDatabase} {b n : BlockState} {c : ForkCall}

theorem afterCall_eq_ok (h : d.afterCall c = .ok d') : c.run d = .ok () d' := by
  unfold afterCall at h
  cases hc : c.run d with
  | ok _ t =>
    rw [hc] at h
    injection h with h
    rw [h]
  | error e t =>
    rw [hc] at h
    cases h

theorem Builds.readable (h : d.Builds fc n) : Readable n := by
  unfold Builds at h
  split at h
  · next parent block _ hblock =>
    obtain ⟨-, hor⟩ := h
    obtain ⟨pro, hacc, hheader⟩ : ∃ pro,
        Accepts fc parent.toBlockHeaderState n.toBlockHeaderState pro
        ∧ n.header = block.toSignedBlockHeader := by
      rcases hor with hok | hok
      · exact accepts_of_nextHeader hok
      · exact accepts_of_nextHeader hok
    unfold Readable blockExts
    rw [hblock]
    have hexts := hacc.exts
    rw [hheader] at hexts
    exact hexts
  · exact h.elim

theorem readable_of_afterCall (h : d.TreeInv) (hread : ∀ b ∈ d.index, Readable b)
    (hnode : d.NodeCall fc c) (hc : c.run d = .ok () d') : ∀ b ∈ d'.index, Readable b := by
  intro x hx
  cases c with
  | reset rootBhs =>
    injection hc with _ hc
    exact absurd (hc ▸ hx) (notMem_empty x)
  | add n ignoreDuplicate =>
    simp only [ForkCall.run, attempt_eq_ok] at hc
    rcases add_eq_ok hc with ⟨-, -, rfl⟩ | ⟨-, hnew, rfl⟩
    · exact hread x hx
    · rcases (mem_insert_of_new hnew).1 hx with rfl | hx
      · exact Builds.readable hnode
      · exact hread x hx
  | markValid n =>
    simp only [ForkCall.run, attempt_eq_ok] at hc
    rcases markValid_eq_ok hc with ⟨-, rfl⟩ | ⟨-, b, hb, -, rfl⟩
    · exact hread x hx
    · rcases (mem_insert_setValidated hb).1 hx with rfl | ⟨hx, -⟩
      · exact hread b hb
      · exact hread x hx
  | remove id =>
    simp only [ForkCall.run, attempt_eq_ok] at hc
    exact hread x (((Pruned.of_remove hc).1.mem x).1 hx).1
  | advanceRoot id =>
    obtain ⟨newRoot, ids, d₁, -, -, -, -, hadv, rfl⟩ := advanceRoot_eq_ok h hc
    exact hread x (hadv.sub x hx).1
  | rollbackHeadToRoot =>
    injection hc with _ hc
    rw [← hc] at hx
    obtain ⟨a, ha, rfl⟩ := mem_rollbackHeadToRoot.1 hx
    exact hread a ha

theorem Reached.treeInv_readable (run : Reached fc d) : d.TreeInv ∧ ∀ b ∈ d.index, Readable b := by
  refine Reachable.invariant (I := fun d => d.TreeInv ∧ ∀ b ∈ d.index, Readable b) run ?_ ?_
  · rintro d ⟨rootBhs, rfl⟩
    exact ⟨treeInv_reset rootBhs, fun b hb => absurd hb (notMem_empty b)⟩
  · intro d c d' ⟨h, hread⟩ hnode hc
    have hrun := afterCall_eq_ok hc
    exact ⟨h.run c hrun, readable_of_afterCall h hread hnode hrun⟩

/-- **The fork database survives a restart** if and only if no block has a smaller last
irreversible block than its parent. -/
theorem restored_iff (run : Reached fc d) :
    (∃ d', openFile d.close = .ok d' ∧ d.Restored d') ↔ d.LibAscends := by
  obtain ⟨h, hread⟩ := Reached.treeInv_readable run
  rcases h.openFile_close hread with ⟨hasc, hok⟩ | ⟨hasc, herr⟩
  · exact iff_of_true hok hasc
  · refine iff_of_false ?_ hasc
    rintro ⟨d', hok, -⟩
    rw [herr] at hok
    cases hok

end Reached

instance (fc : Fc) (d : ForkDatabase) (n : BlockState) : Decidable (d.Builds fc n) :=
  match h : d.getBlockHeader n.prev, h' : n.block with
  | some parent, some b => decidable_of_iff (n.validated = false
      ∧ (parent.nextHeader fc b.toSignedBlockHeader n.additionalSignatures false
          = .ok n.toBlockHeaderState
        ∨ parent.nextHeader fc b.toSignedBlockHeader n.additionalSignatures true
          = .ok n.toBlockHeaderState)) (by unfold Builds; rw [h, h'])
  | none, _ => .isFalse (by unfold Builds; rw [h]; exact id)
  | some _, none => .isFalse (by unfold Builds; rw [h, h']; exact id)

instance (fc : Fc) (d : ForkDatabase) (c : ForkCall) : Decidable (d.NodeCall fc c) :=
  match c with
  | .add n _ => inferInstanceAs (Decidable (d.Builds fc n))
  | .reset _ | .markValid _ | .remove _ | .advanceRoot _ | .rollbackHeadToRoot => .isTrue trivial

end ForkDatabase

/-! ## A chain in the fork database -/

def receiveCalls (s : BlockHeaderState) : List ForkCall :=
  if h : s.Numbered then [.add ⟨s, some ⟨s.header, []⟩, false, h⟩ false] else []

/-- The calls for a block that is applied on the chain `older`: it is added and marked as valid,
and the root moves on to its last irreversible block. -/
def applyCalls (s : BlockHeaderState) (older : List BlockHeaderState) : List ForkCall :=
  if h : s.Numbered then
    [.add ⟨s, some ⟨s.header, []⟩, false, h⟩ false, .markValid ⟨s, some ⟨s.header, []⟩, false, h⟩]
      ++ match older.head?, older.find? fun r => r.blockNum = s.dposIrreversibleBlocknum with
        | some parent, some r =>
          if parent.dposIrreversibleBlocknum < r.blockNum ∧ 1 < r.blockNum then [.advanceRoot r.id]
          else []
        | _, _ => []
  else []

def chainCalls : List BlockHeaderState → List ForkCall
  | [] | [_] => []
  | s :: older => chainCalls older ++ applyCalls s older

theorem ForkDatabase.Reached.of_chain (bs : List BlockPlan)
    (calls : List BlockHeaderState → List ForkCall) {P : ForkDatabase → Bool}
    (h : ((buildSample bs).toOption.bind fun chain =>
      replay ForkDatabase.afterCall (ForkDatabase.NodeCall Fc.sample)
        (ForkDatabase.reset genesis) (calls chain)).any P = true) :
    ∃ d, ForkDatabase.Reached Fc.sample d ∧ P d = true := by
  cases hchain : (buildSample bs).toOption with
  | none =>
    rw [hchain] at h
    cases h
  | some chain =>
    rw [hchain] at h
    exact Reachable.replay (.start ⟨genesis, rfl⟩) h

namespace ForkDatabase

/-- Four blocks on the genesis block, the second of which is irreversible. -/
theorem restored_chain :
    ∃ d, Reached Fc.sample d ∧ d.index.size = 2 ∧ d.root.blockNum = 3
      ∧ ∃ d', openFile d.close = .ok d' ∧ d.Restored d' := by
  obtain ⟨d, run, hP⟩ := Reached.of_chain
    [.plain 2 0, .introducing 3 0 1 [1, 2, 3, 4], .plain 4 0, .plain 48 0] chainCalls
    (P := fun d => d.index.size = 2 ∧ d.root.blockNum = 3 ∧ d.LibAscends)
    (by decide +kernel)
  obtain ⟨hsize, hroot, hasc⟩ := of_decide_eq_true hP
  exact ⟨d, run, hsize, hroot, (restored_iff run).2 hasc⟩

/-- The chain on which the last irreversible block falls from 7 to 3: the block that lowers it is
received, and written before its parent. -/
theorem restart_fails :
    ∃ d, Reached Fc.sample d ∧ d.root.blockNum = 7 ∧ d.head.blockNum = 12
      ∧ openFile d.close = .error unlinkable := by
  obtain ⟨d, run, hP⟩ := Reached.of_chain
    [.plain 2 0, .introducing 3 0 1 [1, 2, 3, 4], .plain 4 0, .plain 48 0, .plain 60 1,
      .introducing 72 2 2 [4, 1], .plain 96 2, .plain 108 2, .plain 120 2, .plain 144 2,
      .plain 156 2, .plain 180 0]
    (fun chain => match chain with
      | s :: older => chainCalls older ++ receiveCalls s
      | [] => [])
    (P := fun d => d.root.blockNum = 7 ∧ d.head.blockNum = 12 ∧ ¬ d.LibAscends)
    (by decide +kernel)
  obtain ⟨hroot, hhead, hasc⟩ := of_decide_eq_true hP
  obtain ⟨h, hread⟩ := Reached.treeInv_readable run
  rcases h.openFile_close hread with ⟨hyes, -⟩ | ⟨-, herr⟩
  · exact absurd hyes hasc
  · exact ⟨d, run, hroot, hhead, herr⟩

end ForkDatabase

end PotatoNode.Chain
