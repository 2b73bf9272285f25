import PotatoNode.Chain.ForkBranch

/-!
# What the operations of the fork database do
-/

namespace PotatoNode.Chain

open Lib BlockState Bool

namespace ForkDatabase

variable {d d' : ForkDatabase} {a b c n : BlockState} {l m : List BlockState}

/-! ## The head -/

/-- Every other validated block comes after the head in `by_lib_block_num`: a block that ties with
the head in last irreversible block and number has the larger id by `sha256_less`. -/
def Unrivalled (d : ForkDatabase) : Prop :=
  ∀ b ∈ d.index, b.validated = true → b ≠ d.head →
    d.head ∈ d.index ∧ (b.preference = d.head.preference → sha256Words d.head.id < sha256Words b.id)

instance (d : ForkDatabase) : Decidable d.Unrivalled :=
  inferInstanceAs (Decidable (∀ b ∈ d.index.entries, b.validated = true → b ≠ d.head →
    d.head ∈ d.index ∧ (b.preference = d.head.preference → sha256Words d.head.id < sha256Words b.id)))

theorem words_le_of_byLibBlockNum_le (h : a.byLibBlockNum ≤ b.byLibBlockNum)
    (hv : a.validated = b.validated) (hp : a.preference = b.preference) :
    sha256Words a.id ≤ sha256Words b.id := by
  obtain ⟨hlib, hnum⟩ := Prod.mk.inj (toLex_inj.1 hp)
  have hrest := (Prod.Lex.le_iff'.1 h).2 (congrArg (!·) hv)
  have hrest := (Prod.Lex.le_iff'.1 hrest).2 (congrArg OrderDual.toDual hlib)
  exact (Prod.Lex.le_iff'.1 hrest).2 (congrArg OrderDual.toDual hnum)

theorem TreeInv.first_eq_head_iff (h : d.TreeInv) (hc : c ∈ d.index) (hv : c.validated = true)
    (hfirst : ∀ b ∈ d.index, c.byLibBlockNum ≤ b.byLibBlockNum) : c = d.head ↔ d.Unrivalled := by
  constructor
  · rintro rfl b hb hbv hne
    refine ⟨hc, fun htie => ?_⟩
    have hle := words_le_of_byLibBlockNum_le (hfirst b hb) (hv.trans hbv.symm) htie.symm
    exact lt_of_le_of_ne hle fun hid =>
      hne (Table.eq_of_mem_of_key_eq hb hc (sha256Words_inj hid).symm)
  · intro hun
    by_contra hne
    obtain ⟨hhead, htie⟩ := hun c hc hv hne
    have hheadv : d.head.validated = true := by
      rcases h.head_mem with hroot | ⟨-, hheadv⟩
      · exact absurd (congrArg (fun b : BlockState => b.id) hroot) (h.root_notMem _ hhead)
      · exact hheadv
    have hle := hfirst _ hhead
    have heq : c.preference = d.head.preference :=
      le_antisymm (not_lt.1 (h.head_best c hc hv))
        (preference_le_of_byLibBlockNum_le hle (hv.trans hheadv.symm))
    have hid := words_le_of_byLibBlockNum_le hle (hv.trans hheadv.symm) heq
    exact absurd (htie heq) (not_lt.2 hid)

theorem TreeInv.takeValidated_head_eq_iff (h : d.TreeInv) (hn : n.validated = false)
    (hnew : ∀ x ∈ d.index, x.id ≠ n.id) :
    (d.takeValidated (d.index.insert n)).head = d.head ↔ d.Unrivalled := by
  have hmem := fun x => mem_insert_of_new (b := x) hnew
  cases hfirst : ForkIndex.first _ with
  | none => exact absurd ((hmem n).2 (.inl rfl)) (ForkIndex.notMem_of_first_none hfirst)
  | some c =>
    cases hv : c.validated with
    | false =>
      have hhead : (d.takeValidated (d.index.insert n)).head = d.head := by
        simp [takeValidated, hfirst, hv]
      -- then no block is validated
      refine iff_of_true hhead fun b hb hbv => ?_
      have hc := (ForkIndex.first_best hfirst ((hmem b).2 (.inr hb)) hbv).1
      rw [hv] at hc
      cases hc
    | true =>
      have hhead : (d.takeValidated (d.index.insert n)).head = c := by
        simp [takeValidated, hfirst, hv]
      have hc : c ∈ d.index := by
        rcases (hmem c).1 (ForkIndex.mem_of_first hfirst) with rfl | hc
        · rw [hn] at hv
          cases hv
        · exact hc
      rw [hhead]
      exact h.first_eq_head_iff hc hv fun b hb => ForkIndex.first_le hfirst ((hmem b).2 (.inr hb))

theorem markValid_head (hmark : d.markValid n = .ok d') :
    d'.head = d.head ∨ firstPreferred d'.head d.head := by
  rcases markValid_eq_ok hmark with ⟨-, rfl⟩ | ⟨-, b, hb, -, rfl⟩
  · exact .inl rfl
  · have hvalid : ∃ c ∈ d.index.insert (b.setValidated true), c.validated = true :=
      ⟨b.setValidated true, (mem_insert_setValidated hb).2 (.inl rfl), rfl⟩
    rcases d.takePreferred_head hvalid with ⟨-, hhead⟩ | ⟨-, -, hpref, -⟩
    · exact .inl hhead
    · exact .inr hpref

/-- **The head is sticky.** After every sequence of calls: `add` of a block that is not validated
keeps the head if and only if the block is known already or the head has no rival; `mark_valid`
leaves the head only for a block that is preferred over it. -/
theorem sticky_head_of_forkRun (run : ForkRun d) :
    (∀ (n : BlockState) (ignoreDuplicate : Bool) (d' : ForkDatabase), n.validated = false →
      d.add n ignoreDuplicate = .ok d' →
      (d'.head = d.head ↔ (∃ b ∈ d.index, b.id = n.id) ∨ d.Unrivalled))
    ∧ ∀ (n : BlockState) (d' : ForkDatabase), d.markValid n = .ok d' →
      d'.head = d.head ∨ firstPreferred d'.head d.head := by
  have h := treeInv_of_forkRun run
  refine ⟨fun n ignoreDuplicate d' hn hadd => ?_, fun n d' => markValid_head⟩
  rcases add_eq_ok hadd with ⟨-, hknown, rfl⟩ | ⟨-, hnew, rfl⟩
  · exact iff_of_true rfl (.inl hknown)
  · rw [h.takeValidated_head_eq_iff hn hnew]
    refine ⟨.inr, fun hor => hor.resolve_left ?_⟩
    rintro ⟨b, hb, hid⟩
    exact hnew b hb hid

/-- A branch of two validated blocks, and one more block on top of it. -/
theorem sticky_head_two_blocks :
    let a := genesis.child 1 0
    let b := a.child 1 1
    ∃ d, ForkRun d ∧ d.head = b.setValidated true ∧ d.Unrivalled
      ∧ ∀ (ignoreDuplicate : Bool) (d' : ForkDatabase),
        d.add (b.child 1 1) ignoreDuplicate = .ok d' → d'.head = d.head := by
  intro a b
  obtain ⟨d, run, hP⟩ := exists_forkRun_of_runForkCalls genesis
    [.add a false, .markValid a, .add b false, .markValid b]
    (P := fun d => d.head = b.setValidated true ∧ d.Unrivalled)
    (by decide +kernel)
  obtain ⟨hhead, hun⟩ := of_decide_eq_true hP
  refine ⟨d, run, hhead, hun, fun ignoreDuplicate d' hadd => ?_⟩
  exact ((sticky_head_of_forkRun run).1 _ ignoreDuplicate d' rfl hadd).2 (.inr hun)

/-- A switch to a longer branch fails at its third block. The first two stay validated, and the
second one ties with the head. The next block that is added, on top of the head, makes it the
head. -/
theorem head_lost_to_tie :
    let a₁ := genesis.child 9 0
    let a₂ := a₁.child 9 0
    let b₁ := genesis.child 1 0
    let b₂ := b₁.child 1 0
    let b₃ := b₂.child 1 0
    ∃ d d', ForkRun d ∧ b₃ ∉ d.index ∧ d.head = a₂.setValidated true
      ∧ d.add (a₂.child 9 0) false = .ok d' ∧ d'.head = b₂.setValidated true
      ∧ d'.head.preference = d.head.preference := by
  intro a₁ a₂ b₁ b₂ b₃
  obtain ⟨d, run, hP⟩ := exists_forkRun_of_runForkCalls genesis
    [.add a₁ false, .markValid a₁, .add a₂ false, .markValid a₂, .add b₁ false, .add b₂ false,
      .add b₃ false, .markValid b₁, .markValid b₂, .remove b₃.id]
    (P := fun d => decide (b₃ ∉ d.index ∧ d.head = a₂.setValidated true)
      && (d.add (a₂.child 9 0) false).toOption.any fun d' =>
        d'.head = b₂.setValidated true ∧ d'.head.preference = d.head.preference)
    (by decide +kernel)
  obtain ⟨hd, hadd⟩ := and_eq_true_iff.1 hP
  obtain ⟨hgone, hhead⟩ := of_decide_eq_true hd
  cases h : d.add _ false with
  | ok d' =>
    rw [h] at hadd
    exact ⟨d, d', run, hgone, hhead, h, of_decide_eq_true hadd⟩
  | error e =>
    rw [h] at hadd
    cases hadd

/-! ## `remove` and `advance_root` -/

/-- **`remove` deletes one subtree.** It ends, whatever the container holds: with an exception and
no change if the head is the block or above it, or without the block and the blocks above it. -/
theorem remove_subtree (d : ForkDatabase) (id : BlockId) :
    (d.index.Below id d.head.id ∧ (ForkCall.remove id).run d = .error removesHead d)
    ∨ (¬ d.index.Below id d.head.id ∧ ∃ d', (ForkCall.remove id).run d = .ok () d'
      ∧ d'.root = d.root ∧ d'.head = d.head
      ∧ ∀ b, b ∈ d'.index ↔ b ∈ d.index ∧ ¬ d.index.Below id b.id) := by
  rcases d.remove_cases id with ⟨hbelow, herr⟩ | ⟨hnot, d', hok, hpruned⟩
  · left
    refine ⟨hbelow, ?_⟩
    simp only [ForkCall.run, attempt_eq_error]
    exact ⟨herr, trivial⟩
  · right
    refine ⟨hnot, d', ?_, hpruned.root, hpruned.head, hpruned.mem⟩
    simp only [ForkCall.run, attempt_eq_ok]
    exact hok

theorem advanceRoot_of_checkNewRoot {id : BlockId} {e : Failure}
    (h : d.checkNewRoot id = .error e) : advanceRoot id d = .error e d := by
  have hends : Ends (advanceRoot id) d (fun _ _ => False) fun e' d' => e' = e ∧ d' = d := by
    unfold advanceRoot
    rw [ends_bind, ends_compute, h]
    exact ⟨rfl, rfl⟩
  cases hrun : advanceRoot id d with
  | ok _ d' => exact (hends.of_ok hrun).elim
  | error e' d' =>
    obtain ⟨rfl, rfl⟩ := hends.of_error hrun
    rfl

/-- **`advance_root` is exact, and when it is atomic.** If it returns, the block is the root and
exactly the blocks above it are left. If it throws, nothing has changed, if and only if the block
is not a validated block of the container or the head is above it. -/
theorem advanceRoot_exact_atomic (h : d.TreeInv) (id : BlockId) :
    (∀ d', advanceRoot id d = .ok () d' → ∃ b ∈ d.index, b.id = id ∧ d'.root = b
      ∧ d'.head = d.head ∧ ∀ x, x ∈ d'.index ↔ x ∈ d.index ∧ x ≠ b ∧ d.index.Below b.id x.id)
    ∧ ((∀ e d', advanceRoot id d = .error e d' → d' = d)
      ↔ ∀ b ∈ d.index, b.id = id → b.validated = true → d.index.Below b.id d.head.id) := by
  cases hcheck : d.checkNewRoot id with
  | error e =>
    have hrun := advanceRoot_of_checkNewRoot hcheck
    refine ⟨fun d' hok => ?_, iff_of_true (fun e' d' herr => ?_) fun b hb hid hv => ?_⟩
    · rw [hrun] at hok
      cases hok
    · rw [hrun] at herr
      cases herr
      rfl
    · -- in a tree the checks pass
      subst hid
      cases hret : advanceRoot b.id d with
      | ok _ d' =>
        rw [hrun] at hret
        cases hret
      | error e' d' =>
        have hfail := ((h.ends_advanceRoot_validated hb hv).of_error hret).2
        rw [hrun] at hret
        cases hret
        exact absurd hb hfail
  | ok r =>
    obtain ⟨b, ids⟩ := r
    obtain ⟨hb, rfl, hv, -⟩ := checkNewRoot_eq_ok hcheck
    have hends := h.ends_advanceRoot_validated hb hv
    refine ⟨fun d' hok => ?_, fun hatomic x hx hid _ => ?_, fun hcond e d' herr => ?_⟩
    · obtain ⟨-, hadv⟩ := hends.of_ok hok
      exact ⟨b, hb, rfl, hadv.root, hadv.head, hadv.mem⟩
    · rw [hid]
      cases hrun : advanceRoot b.id d with
      | ok _ d' => exact (hends.of_ok hrun).1
      | error e d' =>
        have hgone := (hends.of_error hrun).2
        rw [hatomic e d' hrun] at hgone
        exact absurd hb hgone
    · exact absurd (hcond b hb rfl hv) (hends.of_error herr).1

def endsWith (onOk : ForkDatabase → Bool) (onError : Failure → ForkDatabase → Bool) :
    EStateM.Result Failure ForkDatabase Unit → Bool
  | .ok _ d => onOk d
  | .error e d => onError e d

/-- Two validated branches; the head is on the first one. -/
theorem advanceRoot_of_two_branches :
    let a := genesis.child 1 0
    let b := a.child 1 1
    ∃ d d', ForkRun d ∧ d.head = b.setValidated true ∧ advanceRoot a.id d = .ok () d'
      ∧ ∃ newRoot ∈ d.index, newRoot.id = a.id ∧ d'.root = newRoot ∧ d'.head = d.head
        ∧ ∀ x, x ∈ d'.index ↔ x ∈ d.index ∧ x ≠ newRoot ∧ d.index.Below newRoot.id x.id := by
  intro a b
  obtain ⟨d, run, hP⟩ := exists_forkRun_of_runForkCalls genesis
    [.add a false, .add (genesis.child 2 0) false, .markValid a,
      .markValid (genesis.child 2 0), .add b false, .markValid b]
    (P := fun d => decide (d.head = b.setValidated true)
      && endsWith (fun _ => true) (fun _ _ => false) (advanceRoot a.id d))
    (by decide +kernel)
  obtain ⟨hhead, hrun⟩ := and_eq_true_iff.1 hP
  cases h : advanceRoot a.id d with
  | ok _ d' =>
    exact ⟨d, d', run, of_decide_eq_true hhead, h,
      (advanceRoot_exact_atomic (treeInv_of_forkRun run) a.id).1 d' h⟩
  | error e d' =>
    rw [h] at hrun
    cases hrun

/-- Two validated blocks on the genesis block, the first one is the head. `advance_root` to the
second one throws, and the block is gone. -/
theorem advanceRoot_half_done :
    let a := genesis.child 1 0
    let b := genesis.child 2 0
    ∃ d d', ForkRun d ∧ d.TreeInv ∧ d.head = a.setValidated true
      ∧ advanceRoot b.id d = .error removesHead d'
      ∧ b.setValidated true ∈ d.index ∧ b.setValidated true ∉ d'.index := by
  intro a b
  obtain ⟨d, run, hP⟩ := exists_forkRun_of_runForkCalls genesis
    [.add a false, .markValid a, .add b false, .markValid b]
    (P := fun d => decide (d.head = a.setValidated true ∧ b.setValidated true ∈ d.index)
      && endsWith (fun _ => false) (fun e d' => e = removesHead ∧ b.setValidated true ∉ d'.index)
        (advanceRoot b.id d))
    (by decide +kernel)
  obtain ⟨hd, hrun⟩ := and_eq_true_iff.1 hP
  obtain ⟨hhead, hmem⟩ := of_decide_eq_true hd
  cases h : advanceRoot b.id d with
  | ok _ d' =>
    rw [h] at hrun
    cases hrun
  | error e d' =>
    rw [h] at hrun
    obtain ⟨rfl, hgone⟩ := of_decide_eq_true hrun
    exact ⟨d, d', run, treeInv_of_forkRun run, hhead, h, hmem, hgone⟩

/-! ## `fetch_branch_from` -/

/-- `c` is the lowest block below both `a` and `b`. -/
structure LowestCommonAncestor (d : ForkDatabase) (a b c : BlockState) : Prop where
  inTree : d.InTree c
  left : d.index.Below c.id a.id
  right : d.index.Below c.id b.id
  lowest : ∀ x, d.InTree x → d.index.Below x.id a.id → d.index.Below x.id b.id →
    d.index.Below x.id c.id

theorem Branch.descending (h : d.Branch a l c) : l.Pairwise fun x y => y.blockNum < x.blockNum := by
  induction h with
  | refl => exact List.Pairwise.nil
  | @step a p c l mem parent rest ih =>
    refine List.pairwise_cons.2 ⟨fun y hy => ?_, ih⟩
    have htop := (Branch.step mem parent rest).blockNum.1
    have hbottom := rest.blockNum.1
    have hle := (rest.blockNum.2 y hy).2
    rw [List.length_cons] at htop
    omega

theorem TreeInv.lowestCommonAncestor (h : d.TreeInv) (hparted : d.Parted a b l m c) :
    d.LowestCommonAncestor a b c where
  inTree := hparted.inTree
  left := hparted.left.bottom_below
  right := hparted.right.bottom_below
  lowest x hx hxa hxb := by
    obtain ⟨hc, hl, hm, hdisj⟩ := hparted
    rcases Nat.lt_or_ge c.blockNum x.blockNum with hlt | hge
    · -- a common ancestor above `c` would lie on both branches
      have hmem := h.mem_of_blockNum_lt hx hc hlt
      exact absurd rfl (hdisj x (hl.mem_of_below hmem hxa hlt) x (hm.mem_of_below hmem hxb hlt))
    · exact hl.below_bottom hxa (x.numbered.1 ▸ hge)

/-- **`fetch_branch_from` finds the lowest common ancestor.** In a tree it returns, for every two
blocks, the branches from both to it, in descending order. -/
theorem fetchBranchFrom_lowest (h : d.TreeInv) (ha : d.InTree a) (hb : d.InTree b) :
    ∃ l m c, d.fetchBranchFrom a.id b.id = .ok (l, m) ∧ d.LowestCommonAncestor a b c
      ∧ d.Branch a l c ∧ d.Branch b m c
      ∧ (l.Pairwise fun x y => y.blockNum < x.blockNum)
      ∧ (m.Pairwise fun x y => y.blockNum < x.blockNum)
      ∧ (a = b → l = [] ∧ m = []) := by
  obtain ⟨l, m, c, hfetch, hparted⟩ := h.fetchBranchFrom_spec ha hb
  refine ⟨l, m, c, hfetch, h.lowestCommonAncestor hparted, hparted.left, hparted.right,
    hparted.left.descending, hparted.right.descending, ?_⟩
  rintro rfl
  exact ⟨hparted.symm.nil_iff_below.2 Reaches.refl, hparted.nil_iff_below.2 Reaches.refl⟩

/-- Branches of different length on the genesis block. -/
theorem fetchBranchFrom_two_branches :
    let a := genesis.child 1 0
    let b := a.child 1 0
    let c := genesis.child 2 0
    ∃ d, ForkRun d ∧ d.InTree b ∧ d.InTree c ∧ d.fetchBranchFrom b.id c.id = .ok ([b, a], [c])
      ∧ ∃ l m x, d.fetchBranchFrom b.id c.id = .ok (l, m) ∧ d.LowestCommonAncestor b c x
        ∧ d.Branch b l x ∧ d.Branch c m x
        ∧ (l.Pairwise fun x y => y.blockNum < x.blockNum)
        ∧ (m.Pairwise fun x y => y.blockNum < x.blockNum)
        ∧ (b = c → l = [] ∧ m = []) := by
  intro a b c
  obtain ⟨d, run, hP⟩ := exists_forkRun_of_runForkCalls genesis
    [.add a false, .add b false, .add c false]
    (P := fun d => decide (b ∈ d.index ∧ c ∈ d.index)
      && match d.fetchBranchFrom b.id c.id with
        | .ok branches => decide (branches = ([b, a], [c]))
        | .error _ => false)
    (by decide +kernel)
  obtain ⟨hmem, hfetch⟩ := and_eq_true_iff.1 hP
  obtain ⟨hb, hc⟩ := of_decide_eq_true hmem
  have hok : d.fetchBranchFrom b.id c.id = .ok ([b, a], [c]) := by
    cases h : d.fetchBranchFrom b.id c.id with
    | ok branches =>
      rw [h] at hfetch
      rw [of_decide_eq_true hfetch]
    | error e =>
      rw [h] at hfetch
      cases hfetch
  exact ⟨d, run, .inr hb, .inr hc, hok,
    fetchBranchFrom_lowest (treeInv_of_forkRun run) (.inr hb) (.inr hc)⟩

end ForkDatabase

end PotatoNode.Chain
