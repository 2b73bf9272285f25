import PotatoNode.NetPlugin.SyncManager

/-!
# The end of head catch-up (`sync_manager::sync_recv_block`)

In the stage `head_catchup` block connections have a record of the head of their peer's fork, and a
block that comes in should end the stage once all of them are reached, and remove the records it
reaches (`EndsCatchup`). The loop goes through the connections as `cp` but clears the record of `c`,
the connection the block came from.
-/

namespace PotatoNode.NetPlugin

open Lib Chain Connection List

def Connection.Reached (blkId : BlockId) (blkNum : UInt32) (cp : Connection) : Prop :=
  cp.forkHead ≠ 0 ∧ (cp.forkHeadNum < blkNum ∨ cp.forkHead = blkId)

/-- There is a record and the block does not reach it. -/
def Connection.Ahead (blkId : BlockId) (blkNum : UInt32) (cp : Connection) : Prop :=
  cp.forkHead ≠ 0 ∧ ¬ (cp.forkHeadNum < blkNum ∨ cp.forkHead = blkId)

def Connection.forkRecord (cp : Connection) : BlockId × UInt32 := (cp.forkHead, cp.forkHeadNum)

instance (blkId : BlockId) (blkNum : UInt32) (cp : Connection) :
    Decidable (cp.Reached blkId blkNum) :=
  inferInstanceAs (Decidable (_ ∧ _))

instance (blkId : BlockId) (blkNum : UInt32) (cp : Connection) : Decidable (cp.Ahead blkId blkNum) :=
  inferInstanceAs (Decidable (_ ∧ _))

namespace Connection

variable {blkId : BlockId} {blkNum : UInt32} {cp cp' : Connection}

theorem null_or_reached_or_ahead (blkId : BlockId) (blkNum : UInt32) (cp : Connection) :
    cp.forkHead = 0 ∨ cp.Reached blkId blkNum ∨ cp.Ahead blkId blkNum := by
  unfold Reached Ahead
  tauto

theorem Reached.not_ahead (h : cp.Reached blkId blkNum) : ¬ cp.Ahead blkId blkNum :=
  fun hahead => hahead.2 h.2

theorem not_ahead_iff : ¬ cp.Ahead blkId blkNum ↔
    cp.forkHead = 0 ∨ cp.forkHeadNum < blkNum ∨ cp.forkHead = blkId := by
  unfold Ahead
  tauto

theorem reached_congr (blkId : BlockId) (blkNum : UInt32) (h : cp.forkRecord = cp'.forkRecord) :
    cp.Reached blkId blkNum ↔ cp'.Reached blkId blkNum := by
  obtain ⟨hhead, hnum⟩ := Prod.ext_iff.1 h
  dsimp only [forkRecord] at hhead hnum
  rw [Reached, Reached, hhead, hnum]

theorem ahead_congr (blkId : BlockId) (blkNum : UInt32) (h : cp.forkRecord = cp'.forkRecord) :
    cp.Ahead blkId blkNum ↔ cp'.Ahead blkId blkNum := by
  obtain ⟨hhead, hnum⟩ := Prod.ext_iff.1 h
  dsimp only [forkRecord] at hhead hnum
  rw [Ahead, Ahead, hhead, hnum]

end Connection

namespace SyncManager

variable {m : SyncManager} {info : ChainInfo} {isQuiting : Bool} {c : ConnectionId} {blkId : BlockId}
  {blkNum : UInt32} {blkApplied : Bool}

/-- What a block should do in the stage `head_catchup`: the stage ends exactly if no record of a
block connection is ahead of the block, and exactly the records that are reached are cleared. -/
structure EndsCatchup (m m' : SyncManager) (blkId : BlockId) (blkNum : UInt32) : Prop where
  ends_iff : m'.syncState = .inSync ↔
    ∀ cp ∈ m.blockConnections, (m.connection cp).forkHead = 0
      ∨ (m.connection cp).forkHeadNum < blkNum ∨ (m.connection cp).forkHead = blkId
  cleared : ∀ cp ∈ m.blockConnections, (m.connection cp).Reached blkId blkNum →
    (m'.connection cp).forkRecord = (0, 0)
  kept : ∀ cp, ¬ (cp ∈ m.blockConnections ∧ (m.connection cp).Reached blkId blkNum) →
    (m'.connection cp).forkRecord = (m.connection cp).forkRecord

/-! ## The loop -/

@[simp] theorem modify_connection_self (f : Connection → Connection) :
    (m.modify c f).connection c = f (m.connection c) :=
  Function.update_self ..

variable {cp : ConnectionId} {s : SyncManager × Bool}

theorem modify_connection_of_ne (h : cp ≠ c) (f : Connection → Connection) :
    (m.modify c f).connection cp = m.connection cp :=
  Function.update_of_ne h ..

theorem catchUpWith_of_ahead (h : (s.1.connection cp).Ahead blkId blkNum) :
    catchUpWith c blkId blkNum s cp = (s.1, true) := by
  unfold catchUpWith
  rw [if_neg h.1, if_neg h.2]

theorem catchUpWith_of_reached (h : (s.1.connection cp).Reached blkId blkNum) :
    catchUpWith c blkId blkNum s cp = (s.1.modify c clearForkHead, s.2) := by
  unfold catchUpWith
  rw [if_neg h.1, if_pos h.2]

theorem catchUpWith_of_null (h : (s.1.connection cp).forkHead = 0) :
    catchUpWith c blkId blkNum s cp = s :=
  if_pos h

/-- The loop only changes the record of the connection that the block came from. -/
theorem connection_foldl_of_ne (h : cp ≠ c) (l : List ConnectionId) (s : SyncManager × Bool) :
    (l.foldl (catchUpWith c blkId blkNum) s).1.connection cp = s.1.connection cp := by
  induction l generalizing s with
  | nil => rfl
  | cons cp' l ih =>
    rw [foldl_cons, ih]
    rcases null_or_reached_or_ahead blkId blkNum _ with
      hnull | hreached | hahead
    · rw [catchUpWith_of_null hnull]
    · rw [catchUpWith_of_reached hreached]
      exact modify_connection_of_ne h _
    · rw [catchUpWith_of_ahead hahead]

theorem ahead_modify_iff (hreached : (m.connection c).Reached blkId blkNum) (cp : ConnectionId) :
    ((m.modify c clearForkHead).connection cp).Ahead blkId blkNum ↔
      (m.connection cp).Ahead blkId blkNum := by
  by_cases hcp : cp = c
  · subst hcp
    rw [modify_connection_self]
    exact ⟨fun h => absurd rfl h.1, fun h => absurd h hreached.not_ahead⟩
  · rw [modify_connection_of_ne hcp]

/-- By induction on the connections: what the loop comes to. -/
theorem foldl_catchUpWith (l : List ConnectionId)
    (honly : ∀ cp ∈ l, (m.connection cp).Reached blkId blkNum → cp = c) (flag : Bool) :
    l.foldl (catchUpWith c blkId blkNum) (m, flag) =
      (if c ∈ l ∧ (m.connection c).Reached blkId blkNum
          then m.modify c clearForkHead else m,
        flag || l.any fun cp => (m.connection cp).Ahead blkId blkNum) := by
  induction l generalizing m flag with
  | nil => simp
  | cons cp l ih =>
    have honly' := fun cp' hcp' => honly cp' (mem_cons_of_mem cp hcp')
    rw [foldl_cons, any_cons]
    rcases null_or_reached_or_ahead blkId blkNum _ with
      hnull | hreached | hahead
    · have hcp : ¬ (m.connection cp).Reached blkId blkNum := fun h => h.1 hnull
      have hcp' : ¬ (m.connection cp).Ahead blkId blkNum := fun h => h.1 hnull
      rw [catchUpWith_of_null hnull, ih honly', decide_eq_false hcp']
      by_cases hc : c = cp
      · simp [hc, hcp]
      · simp [hc]
    · obtain rfl := honly cp mem_cons_self hreached
      have hcleared : ¬ (m.connection cp).clearForkHead.Reached blkId blkNum := fun h => h.1 rfl
      rw [catchUpWith_of_reached hreached, ih ?_]
      · simp [hcleared, hreached, hreached.not_ahead, ahead_modify_iff hreached]
      · intro cp' hcp' h
        by_cases hne : cp' = cp
        · exact hne
        · rw [modify_connection_of_ne hne] at h
          exact honly' cp' hcp' h
    · have hcp : ¬ (m.connection cp).Reached blkId blkNum := fun h => h.not_ahead hahead
      rw [catchUpWith_of_ahead hahead, ih honly', decide_eq_true hahead]
      congr 1
      · by_cases hc : c = cp
        · simp [hc, hcp]
        · simp [hc]
      · simp

/-! ## The call -/

@[simp] theorem setState_syncState (newState : Stage) : (m.setState newState).syncState = newState := by
  unfold setState
  split
  · exact ‹_›
  · rfl

@[simp] theorem setState_connection (newState : Stage) :
    (m.setState newState).connection = m.connection := by
  unfold setState
  split <;> rfl

theorem syncUpdateExpected_eq (m : SyncManager) (blkNum : UInt32) (blkApplied : Bool) : ∃ next,
    m.syncUpdateExpected blkNum blkApplied = { m with syncNextExpectedNum := next } := by
  unfold syncUpdateExpected
  split
  · split
    · exact ⟨_, rfl⟩
    · exact ⟨_, rfl⟩
  · exact ⟨_, rfl⟩

/-- What happens before the loop touches neither the stage nor the records. -/
theorem noteBlock_keeps (c : ConnectionId) (blkNum : UInt32) (blkApplied : Bool) :
    (m.noteBlock c blkNum blkApplied).syncState = m.syncState
      ∧ (m.noteBlock c blkNum blkApplied).blockConnections = m.blockConnections
      ∧ ∀ cp, ((m.noteBlock c blkNum blkApplied).connection cp).forkRecord
          = (m.connection cp).forkRecord := by
  unfold noteBlock
  obtain ⟨next, hnext⟩ := syncUpdateExpected_eq
    (m.modify c fun c => { c with consecutiveRejectedBlocks := 0 }) blkNum blkApplied
  rw [hnext]
  have hconnection (cp : ConnectionId) :
      ((m.modify c fun c => { c with consecutiveRejectedBlocks := 0 }).connection cp).connectionType
          = (m.connection cp).connectionType
        ∧ ((m.modify c fun c => { c with consecutiveRejectedBlocks := 0 }).connection cp).forkRecord
          = (m.connection cp).forkRecord := by
    by_cases hcp : cp = c
    · subst hcp
      rw [modify_connection_self]
      exact ⟨rfl, rfl⟩
    · rw [modify_connection_of_ne hcp]
      exact ⟨rfl, rfl⟩
  refine ⟨rfl, filter_congr fun cp _ => ?_, fun cp => (hconnection cp).2⟩
  unfold isTransactionsOnly
  rw [(hconnection cp).1]

theorem catchUp_connection_of_ne (h : cp ≠ c) :
    (m.catchUp c blkId blkNum).1.connection cp = m.connection cp := by
  unfold catchUp
  dsimp only
  split
  · rw [setState_connection, connection_foldl_of_ne h]
  · rw [setState_connection, connection_foldl_of_ne h]

section

variable (honly : ∀ cp ∈ m.blockConnections, (m.connection cp).Reached blkId blkNum → cp = c)

include honly

theorem catchUp_connection_self :
    (m.catchUp c blkId blkNum).1.connection c =
      if c ∈ m.blockConnections ∧ (m.connection c).Reached blkId blkNum
        then (m.connection c).clearForkHead else m.connection c := by
  unfold catchUp
  rw [foldl_catchUpWith (m := { m with syncSource := none }) m.blockConnections honly false]
  by_cases hreached : c ∈ m.blockConnections ∧ (m.connection c).Reached blkId blkNum
  · rw [if_pos hreached]
    dsimp only
    split <;> rw [setState_connection, modify_connection_self]
  · rw [if_neg hreached]
    dsimp only
    split <;> rw [setState_connection]

/-- In sync, unless a connection is ahead. -/
theorem catchUp_syncState :
    (m.catchUp c blkId blkNum).1.syncState = .inSync ↔
      ∀ cp ∈ m.blockConnections, ¬ (m.connection cp).Ahead blkId blkNum := by
  unfold catchUp
  rw [foldl_catchUpWith (m := { m with syncSource := none }) m.blockConnections honly false]
  simp only [Bool.false_or]
  split
  · rename_i hahead
    obtain ⟨cp, hcp, hcp'⟩ := any_eq_true.1 hahead
    rw [setState_syncState]
    exact ⟨fun h => (by cases h), fun h => absurd (of_decide_eq_true hcp') (h cp hcp)⟩
  · rename_i hnone
    rw [setState_syncState]
    refine ⟨fun _ cp hcp hahead => hnone ?_, fun _ => rfl⟩
    exact any_eq_true.2 ⟨cp, hcp, decide_eq_true hahead⟩

theorem catchUp_endsCatchup : m.EndsCatchup (m.catchUp c blkId blkNum).1 blkId blkNum := by
  refine ⟨?_, fun cp hcp hreached => ?_, fun cp hcp => ?_⟩
  · simp only [catchUp_syncState honly, not_ahead_iff]
  · obtain rfl := honly cp hcp hreached
    rw [catchUp_connection_self honly, if_pos ⟨hcp, hreached⟩]
    rfl
  · by_cases hne : cp = c
    · subst hne
      rw [catchUp_connection_self honly, if_neg hcp]
    · rw [catchUp_connection_of_ne hne]

end

/-- Records of other connections are not cleared. -/
theorem eq_of_endsCatchup_catchUp (h : m.EndsCatchup (m.catchUp c blkId blkNum).1 blkId blkNum)
    (hcp : cp ∈ m.blockConnections) (hreached : (m.connection cp).Reached blkId blkNum) :
    cp = c := by
  by_contra hne
  have hcleared := h.cleared cp hcp hreached
  rw [catchUp_connection_of_ne hne] at hcleared
  exact hreached.1 (Prod.ext_iff.1 hcleared).1

/-- Only the records count. -/
theorem endsCatchup_congr {m₀ m' : SyncManager} (hblock : m₀.blockConnections = m.blockConnections)
    (hrecord : ∀ cp, (m₀.connection cp).forkRecord = (m.connection cp).forkRecord) :
    m₀.EndsCatchup m' blkId blkNum ↔ m.EndsCatchup m' blkId blkNum := by
  have hreached := fun cp => reached_congr blkId blkNum (hrecord cp)
  have hahead := fun cp => ahead_congr blkId blkNum (hrecord cp)
  have hiff : ∀ m : SyncManager, m.EndsCatchup m' blkId blkNum ↔ _ ∧ _ ∧ _ := fun m =>
    ⟨fun h => ⟨h.1, h.2, h.3⟩, fun h => ⟨h.1, h.2.1, h.2.2⟩⟩
  rw [hiff, hiff]
  simp only [← not_ahead_iff, hblock, hahead, hreached, hrecord]

/-- A block ends the stage `head_catchup` as it should exactly if the only record it may reach is
that of the connection it came from. While the application is quitting nothing is done with the
block, which is right if it reaches no record and one is ahead. -/
theorem endsCatchup_syncRecvBlock_iff (hstate : m.syncState = .headCatchup) :
    m.EndsCatchup (m.syncRecvBlock info isQuiting c blkId blkNum blkApplied).1 blkId blkNum ↔
      if isQuiting then
        (∃ cp ∈ m.blockConnections, (m.connection cp).Ahead blkId blkNum)
          ∧ ∀ cp ∈ m.blockConnections, ¬ (m.connection cp).Reached blkId blkNum
      else ∀ cp ∈ m.blockConnections, (m.connection cp).Reached blkId blkNum → cp = c := by
  cases isQuiting with
  | true =>
    show m.EndsCatchup m blkId blkNum ↔ _
    constructor
    · intro h
      refine ⟨?_, fun cp hcp hreached => hreached.1 (Prod.ext_iff.1 (h.cleared cp hcp hreached)).1⟩
      by_contra hnone
      push Not at hnone
      have := h.ends_iff.2 fun cp hcp => not_ahead_iff.1 (hnone cp hcp)
      rw [hstate] at this
      cases this
    · rintro ⟨⟨cp, hcp, hahead⟩, hnone⟩
      refine ⟨?_, fun cp hcp hreached => absurd hreached (hnone cp hcp), fun cp _ => rfl⟩
      rw [hstate]
      exact ⟨fun h => (by cases h), fun h => absurd hahead (not_ahead_iff.2 (h cp hcp))⟩
  | false =>
    obtain ⟨hstate', hblock, hrecord⟩ := noteBlock_keeps (m := m) c blkNum blkApplied
    have hcall : m.syncRecvBlock info false c blkId blkNum blkApplied
        = (m.noteBlock c blkNum blkApplied).catchUp c blkId blkNum := by
      unfold syncRecvBlock
      dsimp only
      rw [if_neg (by decide), hstate', hstate]
    have hreached := fun cp => reached_congr blkId blkNum (hrecord cp)
    rw [hcall, ← endsCatchup_congr hblock hrecord]
    constructor
    · intro h cp hcp hcp'
      exact eq_of_endsCatchup_catchUp h (hblock ▸ hcp) ((hreached cp).2 hcp')
    · intro honly
      apply catchUp_endsCatchup
      intro cp hcp hcp'
      exact honly cp (hblock ▸ hcp) ((hreached cp).1 hcp')

def sampleCatchup : SyncManager where
  syncKnownLibNum := 3
  syncLastRequestedNum := 0
  syncNextExpectedNum := 4
  syncReqSpan := 100
  syncSource := none
  syncState := .headCatchup
  connections := FlatSet.ofList [1, 2]
  connection := fun c =>
    { socketOpen := true
      connecting := false
      syncing := false
      connectionType := .both
      consecutiveRejectedBlocks := 0
      forkHead := if c = 1 then 44 else if c = 2 then 99 else 0
      forkHeadNum := if c = 1 then 4 else if c = 2 then 9 else 0
      lastIrreversibleBlockNum := 3 }

def sampleInfo : ChainInfo := ⟨3, 4, 44⟩

/-- Block 5 from the first connection reaches its record only. -/
theorem endsCatchup_of_first :
    sampleCatchup.syncState = .headCatchup
      ∧ sampleCatchup.EndsCatchup (sampleCatchup.syncRecvBlock sampleInfo false 1 55 5 true).1 55 5 :=
  ⟨rfl, (endsCatchup_syncRecvBlock_iff rfl).2 (by decide +kernel)⟩

/-- If it comes from the second connection, the record of the first is reached and that of the
second is cleared, before the loop gets there: the stage ends although block 9 was not reached. -/
theorem catchup_ends_early :
    sampleCatchup.syncState = .headCatchup
      ∧ (sampleCatchup.connection 2).Ahead 55 5
      ∧ (sampleCatchup.syncRecvBlock sampleInfo false 2 55 5 true).1.syncState = .inSync
      ∧ ((sampleCatchup.syncRecvBlock sampleInfo false 2 55 5 true).1.connection 1).forkRecord
        = (44, 4)
      ∧ ((sampleCatchup.syncRecvBlock sampleInfo false 2 55 5 true).1.connection 2).forkRecord
        = (0, 0)
      ∧ ¬ sampleCatchup.EndsCatchup
          (sampleCatchup.syncRecvBlock sampleInfo false 2 55 5 true).1 55 5 := by
  have hstate : (sampleCatchup.syncRecvBlock sampleInfo false 2 55 5 true).1.syncState = .inSync := by
    decide +kernel
  have hahead : (sampleCatchup.connection 2).Ahead 55 5 := by decide +kernel
  refine ⟨rfl, hahead, hstate, by decide +kernel, by decide +kernel, fun h => ?_⟩
  exact not_ahead_iff.2 (h.ends_iff.1 hstate 2 (by decide +kernel)) hahead

end SyncManager

end PotatoNode.NetPlugin
