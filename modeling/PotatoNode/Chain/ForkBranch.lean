import PotatoNode.Chain.ForkTree

/-!
# Branches of the fork database

`Branch d a l c` is the way down from `a` to its ancestor `c`: the blocks of `l`, `a` first and
`c` left out. In a tree `fetch_branch_from` never throws, and what it returns are the branches
from both blocks to their lowest common ancestor (`fetchBranchFrom_spec`).
-/

namespace PotatoNode.Chain

open Lib Table List Nat

namespace ForkDatabase

def InTree (d : ForkDatabase) (b : BlockState) : Prop := b = d.root ∨ b ∈ d.index

/-- The blocks from `a` down to, but without, its ancestor `c`. -/
inductive Branch (d : ForkDatabase) : BlockState → List BlockState → BlockState → Prop where
  | refl (a : BlockState) : Branch d a [] a
  | step {a p c : BlockState} {l : List BlockState} (mem : a ∈ d.index)
      (parent : d.getBlockHeader a.prev = some p) (rest : Branch d p l c) : Branch d a (a :: l) c

section Tree

variable {d : ForkDatabase} {a b c : BlockState} {l m : List BlockState}
  {id : BlockId} {x : BlockState} {d' : ForkDatabase} {ids : List BlockId}

theorem inTree_of_getBlockHeader (h : d.getBlockHeader id = some b) : d.InTree b ∧ b.id = id := by
  unfold getBlockHeader at h
  split at h
  · next hid =>
    injection h with h
    exact h ▸ ⟨.inl rfl, hid⟩
  · obtain ⟨hmem, hid⟩ := find?_eq_some_iff.1 h
    exact ⟨.inr hmem, hid⟩

theorem getBlock_isSome_iff : (d.getBlock id).isSome ↔ ∃ x ∈ d.index, x.id = id := by
  rw [Option.isSome_iff_exists]
  exact exists_congr fun x => find?_eq_some_iff

section

variable (h : d.TreeInv)
include h

theorem TreeInv.exists_parent (hb : b ∈ d.index) :
    ∃ p, d.InTree p ∧ p.id = b.prev ∧ p.blockNum + 1 = b.blockNum := by
  have hnum : ∀ p : BlockState, p.id = b.prev → p.blockNum + 1 = b.blockNum := by
    intro p hp
    rw [← p.numbered.1, ← b.numbered.1, hp]
    exact b.blockNum_prev
  rcases h.linked b hb with hroot | ⟨p, hp, hid⟩
  · exact ⟨d.root, .inl rfl, hroot.symm, hnum _ hroot.symm⟩
  · exact ⟨p, .inr hp, hid, hnum p hid⟩

theorem TreeInv.root_lt_blockNum (hb : b ∈ d.index) : d.root.blockNum < b.blockNum := by
  have hlt := h.root_lt b (h.linked b hb)
  rwa [d.root.numbered.1, b.numbered.1] at hlt

section

variable (hb : d.InTree b)
include hb

theorem TreeInv.getBlockHeader_eq : d.getBlockHeader b.id = some b := by
  unfold getBlockHeader
  rcases hb with rfl | hmem
  · rw [if_pos rfl]
  · rw [if_neg (h.root_notMem b hmem).symm]
    exact find?_of_mem hmem

theorem TreeInv.existingBlock_eq : d.existingBlock b.id = .ok b := by
  unfold existingBlock
  rw [h.getBlockHeader_eq hb]

theorem TreeInv.root_le_blockNum : d.root.blockNum ≤ b.blockNum := by
  rcases hb with rfl | hmem
  · exact le_refl _
  · exact le_of_lt (h.root_lt_blockNum hmem)

theorem TreeInv.mem_of_blockNum_lt (ha : d.InTree a)
    (hlt : a.blockNum < b.blockNum) : b ∈ d.index := by
  have hroot := h.root_le_blockNum ha
  rcases hb with rfl | hmem
  · omega
  · exact hmem

end

theorem TreeInv.mem_of_id_ne (ha : d.InTree a) (hb : d.InTree b)
    (hnum : a.blockNum = b.blockNum) (hid : a.id ≠ b.id) : a ∈ d.index := by
  rcases ha with rfl | hmem
  · rcases hb with rfl | hmem
    · exact absurd rfl hid
    · have := h.root_lt_blockNum hmem
      omega
  · exact hmem

end

/-! ## Branches -/

theorem Branch.append (h : d.Branch a l b) (h' : d.Branch b m c) : d.Branch a (l ++ m) c := by
  induction h with
  | refl => exact h'
  | step mem parent _ ih => exact .step mem parent (ih h')

section

variable (h : d.Branch a l c)
include h

theorem Branch.mem_index : ∀ x ∈ l, x ∈ d.index := by
  induction h with
  | refl => intro x hx; cases hx
  | step mem _ _ ih =>
    intro x hx
    rcases mem_cons.1 hx with rfl | hx
    · exact mem
    · exact ih x hx

theorem Branch.blockNum :
    a.blockNum = c.blockNum + l.length
      ∧ ∀ x ∈ l, c.blockNum < x.blockNum ∧ x.blockNum ≤ a.blockNum := by
  induction h with
  | refl => exact ⟨rfl, fun x hx => by cases hx⟩
  | @step a p c l mem parent _ ih =>
    obtain ⟨-, hid⟩ := inTree_of_getBlockHeader parent
    have hnum : p.blockNum + 1 = a.blockNum := by
      rw [← p.numbered.1, ← a.numbered.1, hid]
      exact a.blockNum_prev
    obtain ⟨hlen, hmem⟩ := ih
    refine ⟨by rw [length_cons]; omega, fun x hx => ?_⟩
    rcases mem_cons.1 hx with rfl | hx
    · omega
    · have := hmem x hx
      omega

theorem Branch.mem_of_below (hb : b ∈ d.index)
    (hbelow : d.index.Below b.id a.id) (hlt : c.blockNum < b.blockNum) : b ∈ l := by
  induction h with
  | refl a =>
    have hle := hbelow.rank_le d.index.forest
    rw [b.numbered.1, a.numbered.1] at hle
    omega
  | @step a p c l mem parent _ ih =>
    rcases reaches_iff.1 hbelow with heq | ⟨x, hx, hsucc⟩
    · exact eq_of_mem_of_key_eq mem hb heq ▸ mem_cons_self
    · -- the predecessor of `a` is its parent
      obtain ⟨a', ha', hprev, hid⟩ := ForkIndex.mem_successors.1 hsucc
      have haa : a' = a := eq_of_mem_of_key_eq ha' mem hid
      obtain ⟨-, hpid⟩ := inTree_of_getBlockHeader parent
      rw [← hprev, haa, ← hpid] at hx
      exact mem_cons_of_mem _ (ih hx hlt)

theorem Branch.bottom_below : d.index.Below c.id a.id := by
  induction h with
  | refl => exact Reaches.refl
  | step mem parent _ ih =>
    obtain ⟨-, hpid⟩ := inTree_of_getBlockHeader parent
    rw [hpid] at ih
    exact ih.child mem

theorem Branch.nil_iff : l = [] ↔ a = c := by
  have hnum := h.blockNum.1
  cases h with
  | refl => exact ⟨fun _ => rfl, fun _ => rfl⟩
  | step _ _ _ =>
    refine ⟨(fun hl => by cases hl), fun hac => ?_⟩
    subst hac
    rw [length_cons] at hnum
    omega

end

theorem Branch.top_eq (h : d.Branch a (x :: l) c) : a = x := by
  cases h with
  | step _ _ _ => rfl

/-- Upside down, every block of a branch is on top of the one before it. -/
def Upward (d : ForkDatabase) : BlockId → List BlockState → Prop
  | _, [] => True
  | id, b :: rest => b ∈ d.index ∧ b.prev = id ∧ Upward d b.id rest

theorem Upward.concat (hx : x ∈ d.index) :
    ∀ {id : BlockId} {l : List BlockState}, d.Upward id l →
      x.prev = (l.getLast?.map (·.id)).getD id → d.Upward id (l ++ [x])
  | _, [], _, hprev => ⟨hx, hprev, trivial⟩
  | id, y :: l, h, hprev => by
    refine ⟨h.1, h.2.1, Upward.concat hx h.2.2 ?_⟩
    rw [hprev]
    cases l with
    | nil => rfl
    | cons z l => rw [getLast?_cons_cons, getLast?_cons]; rfl

section

variable (h : d.Branch a l c)
include h

theorem Branch.eq_top (hx : x ∈ l) (hnum : x.blockNum = a.blockNum) : x = a := by
  cases h with
  | refl => cases hx
  | step mem parent rest =>
    have htop := (Branch.step mem parent rest).blockNum.1
    rw [length_cons] at htop
    rcases mem_cons.1 hx with rfl | hx
    · rfl
    · have hbottom := rest.blockNum.1
      have hle := (rest.blockNum.2 x hx).2
      omega

theorem Branch.prev_of_getLast? (hx : l.getLast? = some x) : x.prev = c.id := by
  induction h with
  | refl => cases hx
  | @step a p c l _ parent rest ih =>
    cases rest with
    | refl =>
      injection hx with hx
      exact hx ▸ (inTree_of_getBlockHeader parent).2.symm
    | step _ _ _ =>
      exact ih hx

theorem Branch.getLastD_reverse (hne : l ≠ []) (x : BlockState) : l.reverse.getLastD x = a := by
  cases h with
  | refl => exact absurd rfl hne
  | step _ _ _ => rw [reverse_cons, getLastD_concat]

theorem Branch.upward : d.Upward c.id l.reverse := by
  induction h with
  | refl => trivial
  | @step a p c l mem parent rest ih =>
    rw [reverse_cons]
    apply ih.concat mem
    rw [← (inTree_of_getBlockHeader parent).2, getLast?_reverse]
    cases rest with
    | refl => rfl
    | step _ _ _ => rfl

end

/-! ## `fetch_branch_from` -/

theorem TreeInv.climb_spec (h : d.TreeInv) {num : Nat} (hnum : d.root.blockNum ≤ num) :
    ∀ (fuel : Nat) (a : BlockState), d.InTree a → a.blockNum ≤ num + fuel →
      ∃ l b, d.climb num fuel a = .ok (l, b) ∧ d.Branch a l b ∧ d.InTree b
        ∧ b.blockNum = min a.blockNum num := by
  have hstay : ∀ (fuel : Nat) (a : BlockState), ¬ num < a.blockNum →
      d.climb num fuel a = .ok ([], a) := by
    intro fuel a hle
    cases fuel with
    | zero | succ fuel => exact if_neg hle
  intro fuel
  induction fuel with
  | zero =>
    intro a ha hfuel
    exact ⟨[], a, hstay 0 a (by omega), .refl a, ha, by omega⟩
  | succ fuel ih =>
    intro a ha hfuel
    by_cases hlt : num < a.blockNum
    · have hmem : a ∈ d.index := by
        rcases ha with rfl | hmem
        · omega
        · exact hmem
      obtain ⟨p, hp, hid, hpnum⟩ := h.exists_parent hmem
      obtain ⟨l, b, hclimb, hbranch, hb, hbnum⟩ := ih p hp (by omega)
      refine ⟨a :: l, b, ?_, .step hmem (hid ▸ h.getBlockHeader_eq hp) hbranch, hb, by omega⟩
      unfold climb
      rw [if_pos hlt, ← hid, h.existingBlock_eq hp, ok_bind, hclimb, ok_bind]
    · exact ⟨[], a, hstay _ a hlt, .refl a, ha, by omega⟩

/-- The branches of `a` and `b` down to a block of the tree, with no block in common. -/
structure Parted (d : ForkDatabase) (a b : BlockState) (l m : List BlockState) (c : BlockState) :
    Prop where
  inTree : d.InTree c
  left : d.Branch a l c
  right : d.Branch b m c
  disjoint : ∀ x ∈ l, ∀ y ∈ m, x.id ≠ y.id

theorem Parted.symm (h : d.Parted a b l m c) : d.Parted b a m l c :=
  ⟨h.inTree, h.right, h.left, fun x hx y hy => (h.disjoint y hy x hx).symm⟩

theorem TreeInv.climbBoth_spec (h : d.TreeInv) :
    ∀ (fuel : Nat) (a b : BlockState), d.InTree a → d.InTree b → a.blockNum = b.blockNum →
      a.id ≠ b.id → a.blockNum ≤ fuel →
      ∃ l m c, d.climbBoth fuel a b = .ok (l, m) ∧ d.Parted a b l m c := by
  intro fuel
  induction fuel with
  | zero =>
    intro a b ha hb hnum hid hfuel
    have hpos := a.numbered.2
    omega
  | succ fuel ih =>
    intro a b ha hb hnum hid hfuel
    have hmemA := h.mem_of_id_ne ha hb hnum hid
    have hmemB := h.mem_of_id_ne hb ha hnum.symm hid.symm
    obtain ⟨p, hp, hpid, hpnum⟩ := h.exists_parent hmemA
    obtain ⟨q, hq, hqid, hqnum⟩ := h.exists_parent hmemB
    have hparentA : d.getBlockHeader a.prev = some p := hpid ▸ h.getBlockHeader_eq hp
    have hparentB : d.getBlockHeader b.prev = some q := hqid ▸ h.getBlockHeader_eq hq
    unfold climbBoth
    by_cases hprev : a.prev = b.prev
    · rw [if_neg (not_not.2 hprev)]
      refine ⟨[a], [b], q, rfl, hq, .step hmemA (hprev ▸ hparentB) (.refl q),
        .step hmemB hparentB (.refl q), ?_⟩
      intro x hx y hy
      rw [mem_singleton.1 hx, mem_singleton.1 hy]
      exact hid
    · rw [if_pos hprev]
      have hpq : p.id ≠ q.id := by rw [hpid, hqid]; exact hprev
      have hnumpq : p.blockNum = q.blockNum := by omega
      have hmemP := h.mem_of_id_ne hp hq hnumpq hpq
      have hmemQ := h.mem_of_id_ne hq hp hnumpq.symm hpq.symm
      have hindexed : ∀ r ∈ d.index, d.indexedBlock r.id = .ok r := by
        intro r hr
        unfold indexedBlock getBlock
        rw [find?_of_mem hr]
      obtain ⟨l, m, c, hclimb, hc, hl, hm, hdisj⟩ := ih p q hp hq hnumpq hpq (by omega)
      refine ⟨a :: l, b :: m, c, ?_, hc, .step hmemA hparentA hl, .step hmemB hparentB hm, ?_⟩
      · rw [← hpid, ← hqid, hindexed p hmemP, hindexed q hmemQ, ok_bind, ok_bind, hclimb, ok_bind]
      · -- blocks with different numbers have different ids
        intro x hx y hy hxy
        have hnumxy : x.blockNum = y.blockNum := by rw [← x.numbered.1, ← y.numbered.1, hxy]
        rcases mem_cons.1 hx with rfl | hx
        · rcases mem_cons.1 hy with rfl | hy
          · exact hid hxy
          · have := hm.blockNum.2 y hy
            omega
        · rcases mem_cons.1 hy with rfl | hy
          · have := hl.blockNum.2 x hx
            omega
          · exact hdisj x hx y hy hxy

/-- **`fetch_branch_from`.** In a tree it returns the branches from both blocks to a common
ancestor, and they have no block in common. -/
theorem TreeInv.fetchBranchFrom_spec (h : d.TreeInv) (ha : d.InTree a) (hb : d.InTree b) :
    ∃ l m c, d.fetchBranchFrom a.id b.id = .ok (l, m) ∧ d.Parted a b l m c := by
  obtain ⟨l₁, a₁, hclimbA, hl₁, ha₁, hnumA⟩ :=
    h.climb_spec (h.root_le_blockNum hb) a.blockNum a ha (by omega)
  obtain ⟨m₁, b₁, hclimbB, hm₁, hb₁, hnumB⟩ :=
    h.climb_spec (h.root_le_blockNum ha₁) b.blockNum b hb (by omega)
  have hnum : a₁.blockNum = b₁.blockNum := by omega
  -- what the first two loops collect lies above the other block
  have hapart : ∀ x ∈ l₁, b.blockNum < x.blockNum := by
    intro x hx
    have := hl₁.blockNum.2 x hx
    omega
  have hapart' : ∀ y ∈ m₁, a₁.blockNum < y.blockNum := by
    intro y hy
    have := hm₁.blockNum.2 y hy
    omega
  have hfetch : d.fetchBranchFrom a.id b.id = (if a₁.id = b₁.id then .ok (l₁, m₁)
      else d.climbBoth a₁.blockNum a₁ b₁ >>= fun rest => .ok (l₁ ++ rest.1, m₁ ++ rest.2)) := by
    unfold fetchBranchFrom
    rw [h.existingBlock_eq ha, h.existingBlock_eq hb, ok_bind, ok_bind, hclimbA, ok_bind]
    dsimp only
    rw [hclimbB]
    rfl
  by_cases hid : a₁.id = b₁.id
  · have hab : a₁ = b₁ := by
      have ha₁' := h.getBlockHeader_eq ha₁
      rw [hid, h.getBlockHeader_eq hb₁] at ha₁'
      injection ha₁' with hab
      exact hab.symm
    refine ⟨l₁, m₁, b₁, by rw [hfetch, if_pos hid], hb₁, hab ▸ hl₁, hm₁, ?_⟩
    intro x hx y hy hxy
    have hnumxy : x.blockNum = y.blockNum := by rw [← x.numbered.1, ← y.numbered.1, hxy]
    have hxb := hapart x hx
    have hyb := (hm₁.blockNum.2 y hy).2
    omega
  · obtain ⟨restA, restB, c, hboth, hc, hA, hB, hdisj⟩ :=
      h.climbBoth_spec a₁.blockNum a₁ b₁ ha₁ hb₁ hnum hid (le_refl _)
    have hlong := hm₁.append hB
    refine ⟨l₁ ++ restA, m₁ ++ restB, c, by rw [hfetch, if_neg hid, hboth]; rfl, hc,
      hl₁.append hA, hlong, ?_⟩
    intro x hx y hy hxy
    have hnumxy : x.blockNum = y.blockNum := by rw [← x.numbered.1, ← y.numbered.1, hxy]
    have hyb := (hlong.blockNum.2 y hy).2
    rcases mem_append.1 hx with hx | hx
    · have := hapart x hx
      omega
    · have hxa := (hA.blockNum.2 x hx).2
      rcases mem_append.1 hy with hy | hy
      · have := hapart' y hy
        omega
      · exact hdisj x hx y hy hxy

theorem Parted.nil_iff_below (h : d.Parted a b l m c) : m = [] ↔ d.index.Below b.id a.id := by
  obtain ⟨-, hl, hm, hdisj⟩ := h
  constructor
  · intro hnil
    rw [hm.nil_iff.1 hnil]
    exact hl.bottom_below
  · intro hbelow
    cases hm with
    | refl => rfl
    | @step _ _ _ m mem _ rest =>
      have hlt := ((Branch.step mem ‹_› rest).blockNum.2 b mem_cons_self).1
      exact absurd rfl (hdisj b (hl.mem_of_below mem hbelow hlt) b mem_cons_self)

theorem Branch.eq_singleton (h : d.Branch a l c) (hprev : a.prev = c.id) : l = [a] := by
  have hnum := h.blockNum.1
  rw [← a.numbered.1, ← a.blockNum_prev, hprev, c.numbered.1] at hnum
  obtain ⟨x, hx⟩ := length_eq_one_iff.1 (show l.length = 1 by omega)
  subst hx
  rw [h.top_eq]

/-! ## `fetch_branch` -/

theorem TreeInv.fetchBranchLoop_spec (h : d.TreeInv) (trimAfterBlockNum : Nat) :
    ∀ (fuel : Nat) (b : BlockState), d.InTree b → b.blockNum ≤ fuel →
      ∃ l, d.Branch b l d.root ∧ d.fetchBranchLoop trimAfterBlockNum fuel (d.getBlock b.id)
        = .ok (l.filter (·.blockNum ≤ trimAfterBlockNum)) := by
  have hroot : d.getBlock d.root.id = none := find?_eq_none_iff.2 h.root_notMem
  have hend : ∀ fuel, d.fetchBranchLoop trimAfterBlockNum fuel none = .ok [] := by
    intro fuel
    cases fuel with
    | zero => rfl
    | succ fuel => rfl
  intro fuel
  induction fuel with
  | zero =>
    intro b _ hfuel
    have hpos := b.numbered.2
    omega
  | succ fuel ih =>
    intro b hb hfuel
    rcases hb with rfl | hmem
    · exact ⟨[], .refl _, by rw [hroot]; rfl⟩
    · obtain ⟨p, hp, hid, hnum⟩ := h.exists_parent hmem
      obtain ⟨l, hbranch, hloop⟩ := ih p hp (by omega)
      refine ⟨b :: l, .step hmem (hid ▸ h.getBlockHeader_eq hp) hbranch, ?_⟩
      have hsome : d.getBlock b.id = some b := find?_of_mem hmem
      rw [hsome, fetchBranchLoop, ← hid, hloop]
      show Except.ok _ = _
      rw [filter_cons]
      simp only [decide_eq_true_eq]

theorem TreeInv.fetchBranch_spec (h : d.TreeInv) (hb : d.InTree b) (trimAfterBlockNum : Nat) :
    ∃ l, d.Branch b l d.root
      ∧ d.fetchBranch b.id trimAfterBlockNum = .ok (l.filter (·.blockNum ≤ trimAfterBlockNum)) :=
  h.fetchBranchLoop_spec trimAfterBlockNum _ b hb (le_of_eq b.numbered.1.symm)

theorem Branch.below_of_mem (h : d.Branch a l c) : ∀ x ∈ l, d.index.Below x.id a.id := by
  induction h with
  | refl => intro x hx; cases hx
  | step mem parent _ ih =>
    intro x hx
    rcases mem_cons.1 hx with rfl | hx
    · exact Reaches.refl
    · have hbelow := ih x hx
      rw [(inTree_of_getBlockHeader parent).2] at hbelow
      exact hbelow.child mem

theorem Branch.below_bottom (h : d.Branch a l c) (hbelow : d.index.Below id a.id)
    (hle : numFromId id ≤ c.blockNum) : d.index.Below id c.id := by
  induction h with
  | refl => exact hbelow
  | @step a p c l mem parent rest ih =>
    have hnum := (Branch.step mem parent rest).blockNum.1
    rcases reaches_iff.1 hbelow with heq | ⟨x, hx, hsucc⟩
    · rw [← heq, a.numbered.1, hnum, length_cons] at hle
      omega
    · obtain ⟨a', ha', hprev, hid⟩ := ForkIndex.mem_successors.1 hsucc
      have haa : a' = a := eq_of_mem_of_key_eq ha' mem hid
      rw [← hprev, haa, ← (inTree_of_getBlockHeader parent).2] at hx
      exact ih hx hle

/-! ## `advance_root` -/

theorem exists_mem_of_below {index : ForkIndex} (hsub : ∀ x ∈ index, x ∈ d.index)
    {x a y : BlockId} (h : index.Below x y) (hay : d.index.Below a y)
    (hlt : numFromId x < numFromId a) : ∃ b ∈ index, b.id = a := by
  induction h with
  | refl =>
    have := hay.rank_le d.index.forest
    omega
  | @tail y z _ hyz ih =>
    obtain ⟨b, hb, hprev, hid⟩ := ForkIndex.mem_successors.1 hyz
    rcases reaches_iff.1 hay with heq | ⟨w, hw, hwz⟩
    · exact ⟨b, hb, hid.trans heq⟩
    · -- the parent is the same in both containers
      have hsucc : z ∈ d.index.successors y := ForkIndex.mem_successors.2 ⟨b, hsub b hb, hprev, hid⟩
      exact ih (d.index.forest.parent hwz hsucc ▸ hw)

/-- `d'` is `d` after the root moved to `b`: only the blocks above `b` are left. -/
structure Advanced (d : ForkDatabase) (b : BlockState) (d' : ForkDatabase) : Prop where
  root : d'.root = b
  head : d'.head = d.head
  mem : ∀ x, x ∈ d'.index ↔ x ∈ d.index ∧ x ≠ b ∧ d.index.Below b.id x.id

theorem Advancing.below (h : Advancing d b ids d') (hroot : d.root.id ∈ ids) (x : BlockState)
    (hx : x ∈ d'.index) : d.index.Below b.id x.id := by
  -- by induction on the block number, from the parent
  induction hn : numFromId x.id using Nat.strong_induction_on generalizing x with
  | _ n ih =>
    have hin := (h.sub x hx).1
    rcases h.linked x hx with hprev | hprev | ⟨p, hp, hid⟩
    · exact absurd hprev ((h.removed _ hroot).2 x hx)
    · have hself : d.index.Below b.id x.prev := hprev ▸ Reaches.refl
      exact hself.child hin
    · have hnum := x.blockNum_prev
      have hbelow := ih _ (by rw [hid]; omega) p hp rfl
      rw [hid] at hbelow
      exact hbelow.child hin

theorem Advancing.not_below {x : BlockId} (h : Advancing d b ids d') (hb : b ∈ d.index)
    (hlt : numFromId id < b.blockNum) (hx : d.index.Below b.id x) : ¬ d'.index.Below id x := by
  intro hbelow
  -- the way from `id` would pass `b`, which is not in the container any more
  obtain ⟨y, hy, hid⟩ := exists_mem_of_below (fun y hy => (h.sub y hy).1) hbelow hx
    (by rw [b.numbered.1]; exact hlt)
  obtain ⟨hyd, hne⟩ := h.sub y hy
  exact hne (eq_of_mem_of_key_eq hyd hb hid)

section

variable (h : d.TreeInv)
include h

theorem TreeInv.blocksToRemove_spec : ∀ (fuel : Nat) (b : BlockState),
    b ∈ d.index → b.blockNum ≤ fuel →
    ∃ ids, d.blocksToRemove fuel b = .ok ids ∧ ∀ id ∈ ids, numFromId id < b.blockNum := by
  intro fuel
  induction fuel with
  | zero =>
    intro b _ hfuel
    have hpos := b.numbered.2
    omega
  | succ fuel ih =>
    intro b hb hfuel
    obtain ⟨p, hp, hid, hnum⟩ := h.exists_parent hb
    have hprev : numFromId b.prev < b.blockNum := by
      rw [← hid, p.numbered.1]
      omega
    rcases hp with rfl | hmem
    · have hnone : d.getBlock b.prev = none := by
        rw [← hid]
        exact find?_eq_none_iff.2 h.root_notMem
      refine ⟨[b.prev], ?_, fun id hmem => mem_singleton.1 hmem ▸ hprev⟩
      rw [blocksToRemove, hnone]
      simp only [eosAssert, if_pos hid.symm]
      rfl
    · obtain ⟨ids, hok, hlt⟩ := ih p hmem (by omega)
      have hsome : d.getBlock b.prev = some p := by
        rw [← hid]
        exact find?_of_mem hmem
      refine ⟨b.prev :: ids, by rw [blocksToRemove, hsome]; simp only [hok]; rfl, fun id hin => ?_⟩
      rcases mem_cons.1 hin with rfl | hin
      · exact hprev
      · have := hlt id hin
        omega

theorem TreeInv.head_above (hadv : Advancing d b ids d') (hroot : d.root.id ∈ ids) :
    d.index.Below b.id d.head.id := by
  rcases h.head_mem with hhead | ⟨hin, -⟩
  · exact absurd (congrArg (fun x : BlockState => x.id) hhead).symm (hadv.removed _ hroot).1
  · by_cases hnew : d.head = b
    · rw [hnew]
      exact Reaches.refl
    · exact hadv.below hroot _ (hadv.head_mem hin hnew)

/-- **`advance_root`.** For a validated block it returns if the head is above it; otherwise it
throws when the block has left the container. -/
theorem TreeInv.ends_advanceRoot_validated (hb : b ∈ d.index)
    (hv : b.validated = true) :
    Ends (ForkDatabase.advanceRoot b.id) d
      (fun _ d' => d.index.Below b.id d.head.id ∧ d.Advanced b d')
      (fun _ d' => ¬ d.index.Below b.id d.head.id ∧ b ∉ d'.index) := by
  obtain ⟨ids, hids, hlt⟩ := h.blocksToRemove_spec b.blockNum b hb (le_refl _)
  have hcheck : d.checkNewRoot b.id = .ok (b, ids) := by
    have hsome : d.getBlock b.id = some b := find?_of_mem hb
    unfold checkNewRoot
    rw [hsome]
    simp only [eosAssert, if_pos hv, hids]
    rfl
  have hroot := root_mem_blocksToRemove hids
  unfold ForkDatabase.advanceRoot
  rw [ends_bind, ends_compute, hcheck]
  show Ends (modify _ >>= fun _ => _) d _ _
  rw [ends_bind, ends_modify, ends_bind]
  -- the blocks above the new root stay while its ancestors are removed
  refine (ends_forM (I := fun done d₁ => Advancing d b done d₁
    ∧ ∀ x ∈ d.index, x ≠ b → d.index.Below b.id x.id → x ∈ d₁.index)
    (E := fun _ d₁ => ¬ d.index.Below b.id d.head.id ∧ b ∉ d₁.index) ids [] _ ?_ ?_).mono ?_
    fun _ _ hfail => hfail
  · intro done id d₁ hid ⟨hadv, hkept⟩
    rw [ends_attempt]
    rcases d₁.remove_cases id with ⟨hhead, herr⟩ | ⟨-, d₂, hok, hpruned⟩
    · rw [herr]
      rw [hadv.head] at hhead
      exact ⟨fun hbelow => hadv.not_below hb (hlt id hid) hbelow hhead,
        fun hmem => (hadv.sub b hmem).2 rfl⟩
    · rw [hok]
      refine ⟨hadv.step hok, fun x hx hne hbelow => (hpruned.mem x).2 ?_⟩
      exact ⟨hkept x hx hne hbelow, hadv.not_below hb (hlt id hid) hbelow⟩
  · have hstart := advancing_start h hb
    refine ⟨hstart, fun x hx hne _ => mem_erase.2 ⟨hx, fun hid => hne ?_⟩⟩
    exact eq_of_mem_of_key_eq hx hb hid
  · intro _ d₁ ⟨hadv, hkept⟩
    refine ⟨h.head_above hadv hroot, rfl, hadv.head, fun x => ?_⟩
    exact ⟨fun hx => ⟨(hadv.sub x hx).1, (hadv.sub x hx).2, hadv.below hroot x hx⟩,
      fun ⟨hx, hne, hbelow⟩ => hkept x hx hne hbelow⟩

theorem TreeInv.advanceRoot_returns (hb : b ∈ d.index) (hv : b.validated = true)
    (hbelow : d.index.Below b.id d.head.id) : ∃ d', ForkDatabase.advanceRoot b.id d = .ok () d' := by
  cases hrun : ForkDatabase.advanceRoot b.id d with
  | ok _ d' => exact ⟨d', rfl⟩
  | error e d' => exact absurd hbelow ((h.ends_advanceRoot_validated hb hv).of_error hrun).1

end

/-! ## Changes along a branch -/

theorem Branch.top_inTree (h : d.Branch a l c) (hmem : ∀ x ∈ l, x ∈ d'.index) (hc : d'.InTree c) :
    d'.InTree a := by
  cases h with
  | refl => exact hc
  | step _ _ _ => exact .inr (hmem a mem_cons_self)

theorem Branch.transfer (h : d.Branch a l c) (htree : d'.TreeInv) (hmem : ∀ x ∈ l, x ∈ d'.index)
    (hc : d'.InTree c) : d'.Branch a l c := by
  induction h with
  | refl a => exact .refl a
  | @step a p c l _ parent rest ih =>
    have hrest : ∀ x ∈ l, x ∈ d'.index := fun x hx => hmem x (mem_cons_of_mem _ hx)
    have hp : d'.InTree p := rest.top_inTree hrest hc
    refine .step (hmem a mem_cons_self) ?_ (ih hrest hc)
    rw [← (inTree_of_getBlockHeader parent).2]
    exact htree.getBlockHeader_eq hp

/-- `d'` is `d` after the block `b` of the container was marked as valid. -/
structure Marked (d : ForkDatabase) (b : BlockState) (d' : ForkDatabase) : Prop where
  tree : d'.TreeInv
  root : d'.root = d.root
  head : d'.head = if firstPreferred b d.head then b.setValidated true else d.head
  mem : ∀ x, x ∈ d'.index ↔ x = b.setValidated true ∨ (x ∈ d.index ∧ x ≠ b)

theorem TreeInv.markValid_spec (h : d.TreeInv) (hb : b ∈ d.index) :
    ∃ d', d.markValid b = .ok d' ∧ d.Marked b d' := by
  cases hv : b.validated with
  | true =>
    have hok : d.markValid b = .ok d := by rw [ForkDatabase.markValid, if_pos hv]
    refine ⟨d, hok, h, rfl, (if_neg (h.head_best b hb hv)).symm, fun x => ?_⟩
    rw [BlockState.setValidated_eq hv]
    by_cases hx : x = b
    · exact ⟨fun _ => .inl hx, fun _ => hx ▸ hb⟩
    · exact ⟨fun hmem => .inr ⟨hmem, hx⟩, fun hmem => (hmem.resolve_left hx).1⟩
  | false =>
    have hok : d.markValid b = .ok (d.takePreferred (d.index.insert (b.setValidated true))) := by
      unfold ForkDatabase.markValid getBlock
      rw [if_neg (by rw [hv]; exact Bool.false_ne_true), find?_of_mem hb]
    have hmem := fun x => mem_insert_setValidated (c := x) hb
    have hin : b.setValidated true ∈ d.index.insert (b.setValidated true) := (hmem _).2 (.inl rfl)
    refine ⟨_, hok, h.markValid hok, rfl, ?_, hmem⟩
    -- of the validated blocks only `b` can be preferred over the head
    have honly : ∀ x ∈ d.index.insert (b.setValidated true), x.validated = true →
        firstPreferred x d.head → x = b.setValidated true := by
      intro x hx hxv hpref
      rcases (hmem x).1 hx with hxb | ⟨hold, -⟩
      · exact hxb
      · exact absurd hpref (h.head_best x hold hxv)
    rcases d.takePreferred_head ⟨_, hin, rfl⟩ with ⟨hnone, hhead⟩ | ⟨hmem', hv', hpref, -⟩
    · have hnot := hnone _ hin rfl
      have hpref : ¬ firstPreferred b d.head := hnot
      rw [hhead, if_neg hpref]
    · have hbv := honly _ hmem' hv' hpref
      rw [hbv] at hpref
      have hpref : firstPreferred b d.head := hpref
      rw [hbv, if_pos hpref]

theorem ForkIndex.below_congr {index index' : ForkIndex}
    (h : ∀ id p, (∃ b ∈ index, b.id = id ∧ b.prev = p) ↔ ∃ b ∈ index', b.id = id ∧ b.prev = p)
    (x y : BlockId) : index.Below x y ↔ index'.Below x y := by
  have hsucc : (fun a b => b ∈ index.successors a) = fun a b => b ∈ index'.successors a := by
    funext p id
    apply propext
    rw [ForkIndex.mem_successors, ForkIndex.mem_successors]
    have := h id p
    constructor
    · rintro ⟨b, hb, hp, hid⟩
      obtain ⟨b', hb', hid', hp'⟩ := this.1 ⟨b, hb, hid, hp⟩
      exact ⟨b', hb', hp', hid'⟩
    · rintro ⟨b, hb, hp, hid⟩
      obtain ⟨b', hb', hid', hp'⟩ := this.2 ⟨b, hb, hid, hp⟩
      exact ⟨b', hb', hp', hid'⟩
  show Relation.ReflTransGen _ x y ↔ Relation.ReflTransGen _ x y
  rw [hsucc]

theorem Marked.below_iff (h : d.Marked b d') (hb : b ∈ d.index) (x y : BlockId) :
    d'.index.Below x y ↔ d.index.Below x y := by
  apply ForkIndex.below_congr
  intro id p
  constructor
  · rintro ⟨a, ha, hid, hp⟩
    rcases (h.mem a).1 ha with rfl | ⟨ha, -⟩
    · exact ⟨b, hb, hid, hp⟩
    · exact ⟨a, ha, hid, hp⟩
  · rintro ⟨a, ha, hid, hp⟩
    by_cases hab : a = b
    · exact ⟨b.setValidated true, (h.mem _).2 (.inl rfl), hab ▸ hid, hab ▸ hp⟩
    · exact ⟨a, (h.mem a).2 (.inr ⟨ha, hab⟩), hid, hp⟩

end Tree

end ForkDatabase

end PotatoNode.Chain
