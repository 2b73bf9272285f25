import PotatoNode.Lib.RoundRobin
import PotatoNode.ProducerPlugin.DoubleSigning

/-!
# The next block of a producer (`producer_plugin_impl::calculate_next_block_time`)

A producer that can not produce now sleeps until the time `calculate_next_block_time` returns. The
slots are `uint32_t` and the distance between two producers is an unsigned `size_t` that
underflows; the producers take turns of `producer_repetitions` slots (`Lib.RoundRobin`).
-/

namespace PotatoNode.ProducerPlugin

open Lib Chain RoundRobin List Nat

/-- The slot in rounds over a schedule of `size` producers at which the producer with the given
index comes next, from `minimumSlot` on. The distance is a `size_t`, the slot a `uint32_t`. -/
def nextBlockSlot (size producerIndex minimumSlot : Nat) : Nat :=
  let minimumSlotProducerIndex := minimumSlot % (size * producerRepetitions) / producerRepetitions
  if producerIndex = minimumSlotProducerIndex then minimumSlot
  else
    let producerDistance := (producerIndex + 2 ^ 64 - minimumSlotProducerIndex) % 2 ^ 64
    -- check for unsigned underflow
    let producerDistance :=
      if producerIndex < producerDistance then (producerDistance + size) % 2 ^ 64
      else producerDistance
    -- align the minimum slot to the first of its set of reps
    let firstMinimumProducerSlot := minimumSlot - minimumSlot % producerRepetitions
    (firstMinimumProducerSlot + producerDistance * producerRepetitions) % 2 ^ 64 % 2 ^ 32

namespace Node

variable {σ : Type} (n : Node σ) (producer : AccountName) (current : BlockTimestamp)

def lastBlockNum : Nat :=
  if n.chain.pending.isSome then n.chain.head.blockNum + 1 else n.chain.head.blockNum

/-- `minimum_offset` as `calculate_next_block_time` computes it. -/
def minimumOffset : Nat :=
  match n.getWatermark producer with
  | none => 1
  | some w =>
    let minimumOffset :=
      if n.lastBlockNum < w.blockNum then (w.blockNum - n.lastBlockNum + 1) % 2 ^ 32 else 1
    if current.slot < w.timestamp.slot then
      max minimumOffset ((w.timestamp.slot - current.slot + 1) % 2 ^ 32)
    else minimumOffset

def calculateNextBlockTime : Option Nat :=
  let activeSchedule := n.chain.head.activeSchedule.producers
  match activeSchedule.findIdx? (·.producerName = producer) with
  -- this producer is not in the active producer set
  | none => none
  | some producerIndex =>
    let minimumSlot := (current.slot + n.minimumOffset producer current) % 2 ^ 32
    some (toTimePoint ⟨nextBlockSlot activeSchedule.length producerIndex minimumSlot⟩)

/-- A slot at which the producer may produce: it comes after the current one, far enough to be
past its watermark's block number if no slot is missed, past its watermark's timestamp, and the
schedule has it for this producer. -/
structure LegalSlot (s : Nat) : Prop where
  later : current.slot + 1 ≤ s
  pastNumber : ∀ w, n.getWatermark producer = some w → n.lastBlockNum < w.blockNum →
    current.slot + (w.blockNum - n.lastBlockNum + 1) ≤ s
  pastTimestamp : ∀ w, n.getWatermark producer = some w → current.slot < w.timestamp.slot →
    current.slot + (w.timestamp.slot - current.slot + 1) ≤ s
  scheduled : ∃ pro, n.chain.head.getScheduledProducer ⟨s⟩ = .ok pro ∧ pro.producerName = producer

variable {n producer current}

theorem minimumOffset_le_iff {t s : Nat} (hfits : t < 2 ^ 32)
    (hlegal : n.LegalSlot producer current t) :
    current.slot + n.minimumOffset producer current ≤ s ↔
      current.slot + 1 ≤ s
      ∧ (∀ w, n.getWatermark producer = some w → n.lastBlockNum < w.blockNum →
          current.slot + (w.blockNum - n.lastBlockNum + 1) ≤ s)
      ∧ (∀ w, n.getWatermark producer = some w → current.slot < w.timestamp.slot →
          current.slot + (w.timestamp.slot - current.slot + 1) ≤ s) := by
  have hnumber := hlegal.pastNumber
  have htime := hlegal.pastTimestamp
  unfold minimumOffset
  cases hw : n.getWatermark producer with
  | none => simp
  | some w =>
    have hnumber := hnumber w hw
    have htime := htime w hw
    simp only [Option.some.injEq, forall_eq']
    split <;> split <;> omega

end Node

/-! ## The turn of the producer -/

section

variable {size i m : Nat}

theorem wrapped_distance {a : Nat} (hi : i < 2 ^ 64) (ha : a < size) (ha64 : a < 2 ^ 64)
    (hfits : distance size i a < 2 ^ 64) :
    (if i < (i + 2 ^ 64 - a) % 2 ^ 64 then ((i + 2 ^ 64 - a) % 2 ^ 64 + size) % 2 ^ 64
      else (i + 2 ^ 64 - a) % 2 ^ 64) = distance size i a := by
  unfold distance at hfits ⊢
  by_cases hle : a ≤ i
  · have hd : (i + 2 ^ 64 - a) % 2 ^ 64 = i - a := by omega
    rw [hd, if_neg (by omega), if_pos hle]
  · have hd : (i + 2 ^ 64 - a) % 2 ^ 64 = 2 ^ 64 - (a - i) := by omega
    rw [if_neg hle] at hfits ⊢
    rw [if_pos (by omega)]
    omega

theorem nextBlockSlot_eq (hi : i < size)
    (hfits : nextTurn size producerRepetitions i m < 2 ^ 32) :
    nextBlockSlot size i m = nextTurn size producerRepetitions i m := by
  have hm : m < 2 ^ 32 := lt_of_le_of_lt (le_nextTurn (by decide) hi) hfits
  have hi32 : i < 2 ^ 32 := by
    have hturn : turn size producerRepetitions
        (nextTurn size producerRepetitions i m) = i :=
      turn_nextTurn (by decide) hi
    rw [← hturn]
    exact lt_of_le_of_lt turn_le hfits
  have ha : turn size producerRepetitions m < size := turn_lt (by omega)
  have ha32 : turn size producerRepetitions m ≤ m := turn_le
  unfold nextTurn at hfits ⊢
  by_cases hturn : i = turn size producerRepetitions m
  · rw [if_pos hturn]
    exact if_pos hturn
  · rw [if_neg hturn] at hfits ⊢
    have hdist := Nat.le_mul_of_pos_right
      (distance size i (turn size producerRepetitions m))
      (show 0 < producerRepetitions by decide)
    have hwrapped := wrapped_distance (i := i) (by omega) ha (by omega) (by omega)
    refine (if_neg hturn).trans ?_
    unfold turn at hwrapped hfits ⊢
    simp only [hwrapped]
    rw [mod_eq_of_lt (lt_trans hfits (by decide)), mod_eq_of_lt hfits]

end

namespace Node

variable {σ : Type} {n : Node σ} {producer : AccountName} {current : BlockTimestamp}
  {head : BlockHeaderState}

theorem getScheduledProducer_eq_ok {t : BlockTimestamp}
    {pro : ProducerAuthority} :
    head.getScheduledProducer t = .ok pro ↔
      head.activeSchedule.producers[turn head.activeSchedule.producers.length
        producerRepetitions t.slot]? = some pro := by
  unfold BlockHeaderState.getScheduledProducer turn
  dsimp only
  split
  · rename_i pro' hpro'
    rw [hpro', Except.ok.injEq, Option.some.injEq]
  · rename_i hnone
    rw [hnone]
    simp

theorem scheduled_iff_turn (hdistinct : head.activeSchedule.names.Nodup)
    {i : Nat}
    (hi : head.activeSchedule.producers.findIdx? (·.producerName = producer) = some i) (s : Nat) :
    (∃ pro, head.getScheduledProducer ⟨s⟩ = .ok pro ∧ pro.producerName = producer) ↔
      turn head.activeSchedule.producers.length producerRepetitions s = i := by
  obtain ⟨hlt, hname, -⟩ := findIdx?_eq_some_iff_getElem.1 hi
  have hname := of_decide_eq_true hname
  simp only [getScheduledProducer_eq_ok]
  constructor
  · rintro ⟨pro, hpro, hpro'⟩
    -- two places of the schedule with the same name
    have hsame : head.activeSchedule.names[i]? = head.activeSchedule.names[
        turn head.activeSchedule.producers.length producerRepetitions s]? := by
      unfold ProducerAuthoritySchedule.names
      rw [getElem?_map, getElem?_map, hpro, getElem?_eq_getElem hlt]
      simp [hname, hpro']
    have hlt' : i < head.activeSchedule.names.length := by
      simpa [ProducerAuthoritySchedule.names] using hlt
    exact ((getElem?_inj hlt' hdistinct).1 hsame).symm
  · intro hturn
    rw [hturn]
    exact ⟨_, getElem?_eq_getElem hlt, hname⟩

theorem legalSlot_iff {i t : Nat} (hdistinct : n.chain.head.activeSchedule.names.Nodup)
    (hi : n.chain.head.activeSchedule.producers.findIdx? (·.producerName = producer) = some i)
    (hfits : t < 2 ^ 32) (hlegal : n.LegalSlot producer current t) (s : Nat) :
    n.LegalSlot producer current s ↔ current.slot + n.minimumOffset producer current ≤ s
      ∧ turn n.chain.head.activeSchedule.producers.length producerRepetitions s = i := by
  rw [minimumOffset_le_iff hfits hlegal, ← scheduled_iff_turn hdistinct hi s]
  constructor
  · intro h
    exact ⟨⟨h.later, h.pastNumber, h.pastTimestamp⟩, h.scheduled⟩
  · rintro ⟨⟨hlater, hnumber, htime⟩, hscheduled⟩
    exact ⟨hlater, hnumber, htime, hscheduled⟩

/-- `calculate_next_block_time` returns the time of the earliest legal slot, if there is one among
the slots of 32 bits. -/
theorem calculateNextBlockTime_isLeast (n : Node σ) (producer : AccountName)
    (current : BlockTimestamp) (hdistinct : n.chain.head.activeSchedule.names.Nodup)
    (hmem : producer ∈ n.chain.head.activeSchedule.names)
    (hfits : ∃ t < 2 ^ 32, n.LegalSlot producer current t) :
    ∃ s, n.calculateNextBlockTime producer current = some (toTimePoint ⟨s⟩)
      ∧ IsLeast {s | n.LegalSlot producer current s} s := by
  obtain ⟨t, ht, hlegal⟩ := hfits
  obtain ⟨pro, hpro, hname⟩ := mem_map.1 hmem
  cases hi : n.chain.head.activeSchedule.producers.findIdx? (·.producerName = producer) with
  | none => simpa [hname] using findIdx?_eq_none_iff.1 hi pro hpro
  | some i =>
    obtain ⟨hlt, -⟩ := findIdx?_eq_some_iff_getElem.1 hi
    have hlegal_iff := legalSlot_iff hdistinct hi ht hlegal
    have hleast := isLeast_nextTurn (m := current.slot + n.minimumOffset producer current)
      (show 0 < producerRepetitions by decide) hlt
    -- the witness of `hfits` bounds the minimum slot and the slot found
    obtain ⟨hle, hturn⟩ := (hlegal_iff t).1 hlegal
    have hnext := lt_of_le_of_lt (hleast.2 ⟨hle, hturn⟩) ht
    refine ⟨nextTurn n.chain.head.activeSchedule.producers.length producerRepetitions i
      (current.slot + n.minimumOffset producer current), ?_, ?_⟩
    · unfold calculateNextBlockTime
      dsimp only
      rw [hi]
      dsimp only
      rw [mod_eq_of_lt (lt_of_le_of_lt hle ht), nextBlockSlot_eq hlt hnext]
    · simpa only [hlegal_iff] using hleast

def sampleAhead : Node (List BlockId) :=
  { sampleNode with producerWatermarks := FlatMap.empty.set 2 ⟨5, ⟨30⟩⟩ }

/-- The turns of producer 2 are the slots 12 to 23 and 36 to 47 of the first two rounds; the
watermark excludes those up to slot 30. -/
theorem calculateNextBlockTime_sampleAhead :
    sampleAhead.calculateNextBlockTime 2 ⟨22⟩ = some (toTimePoint ⟨36⟩)
      ∧ ∃ s, sampleAhead.calculateNextBlockTime 2 ⟨22⟩ = some (toTimePoint ⟨s⟩)
        ∧ IsLeast {s | sampleAhead.LegalSlot 2 ⟨22⟩ s} s := by
  have hlegal : sampleAhead.LegalSlot 2 ⟨22⟩ 36 := by
    refine ⟨by decide, ?_, ?_, ⟨⟨2, ⟨1, [⟨2, 1⟩]⟩⟩, by decide +kernel, rfl⟩⟩
    · rintro w hw -
      injection hw with hw
      subst hw
      decide
    · rintro w hw -
      injection hw with hw
      subst hw
      decide
  exact ⟨by decide +kernel, calculateNextBlockTime_isLeast sampleAhead 2 ⟨22⟩ (by decide +kernel)
    (by decide +kernel) ⟨36, by decide, hlegal⟩⟩

end Node

end PotatoNode.ProducerPlugin
