import QuantumVault.Consensus.BlockValidator
import QuantumVault.Consensus.Epoch

/-!
# Slots, epochs and time stamps

The maps between slots, epochs and times divide one way and multiply the other. They agree everywhere but at the largest word, where a saturated product stands for the end of the last epoch, and a saturated time for the start of every later slot. The window of time stamps that the header check allows is rounded at both ends on its own, so it is the slot only when slots last whole seconds.
-/

namespace QuantumVault

open Result

/-! ### Epochs -/

section Epochs

private theorem toNat_epochFirstSlot (clock : SlotClock) (epoch : Epoch) :
    (clock.epochFirstSlot epoch).toNat = min (epoch.toNat * clock.epochSlots.toNat) (2 ^ 64 - 1) :=
  Word.toNat_saturatingMul _ _

private theorem toNat_epochLastSlot (clock : SlotClock) (epoch : Epoch) :
    (clock.epochLastSlot epoch).toNat =
      min (min (epoch.toNat + 1) (2 ^ 64 - 1) * clock.epochSlots.toNat) (2 ^ 64 - 1) - 1 := by
  rw [SlotClock.epochLastSlot, Word.toNat_saturatingSub, Word.toNat_saturatingMul, Word.toNat_saturatingAdd]
  rfl

private theorem containsSlot_iff_div {clock : SlotClock} (hslots : clock.epochSlots ≠ 0) (epoch : Epoch) (nonce : EpochNonce)
    (slot : Slot) :
    (EpochInfo.new clock epoch nonce).containsSlot slot = true ↔ slot / clock.epochSlots = epoch ∧ slot ≠ Word.max := by
  have hepoch := UInt64.toNat_lt epoch
  have hslot := UInt64.toNat_lt slot
  have hpositive : 0 < clock.epochSlots.toNat := by
    rw [ne_eq, ← UInt64.toNat_inj, UInt64.toNat_zero] at hslots
    omega
  have hmax : Word.max.toNat = 2 ^ 64 - 1 := rfl
  have hsucc : (epoch.toNat + 1) * clock.epochSlots.toNat = epoch.toNat * clock.epochSlots.toNat + clock.epochSlots.toNat :=
    Nat.succ_mul _ _
  rw [EpochInfo.containsSlot, decide_eq_true_iff, EpochInfo.new, ge_iff_le, UInt64.le_iff_toNat_le, UInt64.le_iff_toNat_le,
    toNat_epochFirstSlot, toNat_epochLastSlot, ← UInt64.toNat_inj, UInt64.toNat_div, Nat.div_eq_iff hpositive, ne_eq,
    ← UInt64.toNat_inj, hmax]
  by_cases hlast : epoch.toNat = 2 ^ 64 - 1
  · -- no slot below the largest word is in the last epoch
    have hlarge : 2 ^ 64 - 1 ≤ epoch.toNat * clock.epochSlots.toNat := by
      rw [hlast]
      exact Nat.le_mul_of_pos_right _ hpositive
    omega
  · rw [min_eq_left (by omega : epoch.toNat + 1 ≤ 2 ^ 64 - 1), hsucc]
    omega

private theorem slotToEpoch_of_slots {clock : SlotClock} (hslots : clock.epochSlots ≠ 0) (slot : Slot) :
    clock.slotToEpoch slot = some (slot / clock.epochSlots) :=
  if_neg hslots

/-- The two maps between slots and epochs agree on a slot and an epoch. -/
def EpochsAgree (clock : SlotClock) (nonce : EpochNonce) (slot : Slot) (epoch : Epoch) : Prop :=
  ∃ e, clock.slotToEpoch slot = some e ∧ ((EpochInfo.new clock epoch nonce).containsSlot slot = true ↔ e = epoch)

theorem epochsAgree_iff (clock : SlotClock) (nonce : EpochNonce) (slot : Slot) (epoch : Epoch) :
    EpochsAgree clock nonce slot epoch ↔
      clock.epochSlots ≠ 0 ∧ ¬ (slot = Word.max ∧ epoch = slot / clock.epochSlots) := by
  by_cases hslots : clock.epochSlots = 0
  · simp [EpochsAgree, SlotClock.slotToEpoch, hslots]
  · simp only [EpochsAgree, slotToEpoch_of_slots hslots, Option.some.injEq, exists_eq_left', containsSlot_iff_div hslots, ne_eq,
      hslots, not_false_eq_true, true_and]
    by_cases hmax : slot = Word.max
    · simp [hmax, eq_comm]
    · simp [hmax]

end Epochs

/-! ### Times -/

section Times

theorem toNat_slotStartTimeMs (clock : SlotClock) (slot : Slot) :
    (clock.slotStartTimeMs slot).toNat =
      min (clock.genesisTimeMs.toNat + slot.toNat * clock.slotDurationMs.toNat) (2 ^ 64 - 1) := by
  rw [SlotClock.slotStartTimeMs, Word.toNat_saturatingAdd, Word.toNat_saturatingMul]
  omega

/-- The slot of a time is the last one that has started. -/
def TimesAgree (clock : SlotClock) (timeMs : UInt64) : Prop :=
  ∃ s, clock.timeToSlot timeMs = some (some s) ∧ IsGreatest {slot : Slot | clock.slotStartTimeMs slot ≤ timeMs} s

private theorem timeToSlot_of_duration {clock : SlotClock} {timeMs : UInt64} (hduration : clock.slotDurationMs ≠ 0)
    (hgenesis : clock.genesisTimeMs ≤ timeMs) :
    clock.timeToSlot timeMs = some (some (Word.saturatingSub timeMs clock.genesisTimeMs / clock.slotDurationMs)) := by
  rw [SlotClock.timeToSlot, if_neg (UInt64.not_lt.mpr hgenesis), if_neg hduration]

private theorem slotStart_le_of_timeToSlot {clock : SlotClock} {timeMs : UInt64} (hgenesis : clock.genesisTimeMs ≤ timeMs) :
    clock.slotStartTimeMs (Word.saturatingSub timeMs clock.genesisTimeMs / clock.slotDurationMs) ≤ timeMs := by
  rw [UInt64.le_iff_toNat_le] at hgenesis
  rw [UInt64.le_iff_toNat_le, toNat_slotStartTimeMs, UInt64.toNat_div, Word.toNat_saturatingSub]
  have hfloor := Nat.div_mul_le_self (timeMs.toNat - clock.genesisTimeMs.toNat) clock.slotDurationMs.toNat
  omega

private theorem le_timeToSlot {clock : SlotClock} {timeMs : UInt64} (hduration : clock.slotDurationMs ≠ 0)
    (hmax : timeMs ≠ Word.max)
    {slot : Slot} (hstart : clock.slotStartTimeMs slot ≤ timeMs) :
    slot ≤ Word.saturatingSub timeMs clock.genesisTimeMs / clock.slotDurationMs := by
  have htime := UInt64.toNat_lt timeMs
  have hword : Word.max.toNat = 2 ^ 64 - 1 := rfl
  rw [ne_eq, ← UInt64.toNat_inj, hword] at hmax
  rw [ne_eq, ← UInt64.toNat_inj, UInt64.toNat_zero] at hduration
  rw [UInt64.le_iff_toNat_le, toNat_slotStartTimeMs] at hstart
  rw [UInt64.le_iff_toNat_le, UInt64.toNat_div, Word.toNat_saturatingSub, Nat.le_div_iff_mul_le (by omega)]
  omega

theorem slot_le_max (slot : UInt64) : slot ≤ Word.max := by
  have hword : Word.max.toNat = 2 ^ 64 - 1 := rfl
  rw [UInt64.le_iff_toNat_le, hword]
  exact Nat.le_of_lt_succ (UInt64.toNat_lt slot)

private theorem div_eq_max {a k : UInt64} (hk : k ≠ 0) : a / k = Word.max ↔ a = Word.max ∧ k = 1 := by
  have ha := UInt64.toNat_lt a
  have hword : Word.max.toNat = 2 ^ 64 - 1 := rfl
  have hone : (1 : UInt64).toNat = 1 := rfl
  rw [ne_eq, ← UInt64.toNat_inj, UInt64.toNat_zero] at hk
  rw [← UInt64.toNat_inj, ← UInt64.toNat_inj, ← UInt64.toNat_inj, UInt64.toNat_div, hword, hone]
  refine ⟨fun hquotient => ?_, fun ⟨hmax, hunit⟩ => by rw [hmax, hunit, Nat.div_one]⟩
  by_cases hunit : k.toNat = 1
  · rw [hunit, Nat.div_one] at hquotient
    exact ⟨hquotient, hunit⟩
  · have hhalf : a.toNat / k.toNat ≤ a.toNat / 2 := Nat.div_le_div_left (by omega) (by omega)
    omega

private theorem timesAgree_iff {clock : SlotClock} {timeMs : UInt64} (hgenesis : clock.genesisTimeMs ≤ timeMs) :
    TimesAgree clock timeMs ↔
      clock.slotDurationMs ≠ 0 ∧ (timeMs ≠ Word.max ∨ clock.genesisTimeMs = 0 ∧ clock.slotDurationMs = 1) := by
  by_cases hduration : clock.slotDurationMs = 0
  · simp [TimesAgree, SlotClock.timeToSlot, UInt64.not_lt.mpr hgenesis, hduration]
  simp only [TimesAgree, timeToSlot_of_duration hduration hgenesis, Option.some.injEq, exists_eq_left', ne_eq, hduration,
    not_false_eq_true, true_and]
  by_cases hmax : timeMs = Word.max
  · subst hmax
    have hzero : Word.saturatingSub Word.max clock.genesisTimeMs = Word.max ↔ clock.genesisTimeMs = 0 := by
      have hword : Word.max.toNat = 2 ^ 64 - 1 := rfl
      rw [← UInt64.toNat_inj, ← UInt64.toNat_inj, Word.toNat_saturatingSub, hword, UInt64.toNat_zero]
      have hbound := UInt64.toNat_lt clock.genesisTimeMs
      omega
    rw [← hzero, ← div_eq_max hduration]
    simp only [not_true_eq_false, false_or]
    refine ⟨fun ⟨_, hgreatest⟩ => ?_, fun hlast => ⟨slot_le_max _, fun slot _ => ?_⟩⟩
    · exact UInt64.le_antisymm (slot_le_max _) (hgreatest (slot_le_max _))
    · rw [hlast]
      exact slot_le_max slot
  · simp only [hmax, not_false_eq_true, true_or, iff_true]
    exact ⟨slotStart_le_of_timeToSlot hgenesis, fun slot hstart => le_timeToSlot hduration hmax hstart⟩

end Times

/-! ### Agreement of the maps -/

section Agreement

/-- The maps agree for clocks with positive parameters, except that no epoch contains the largest slot and that at the largest time every slot has started. -/
theorem slot_maps_agree_iff (clock : SlotClock) (nonce : EpochNonce) (slot : Slot) (epoch : Epoch) (timeMs : UInt64) :
    (EpochsAgree clock nonce slot epoch ↔
        clock.epochSlots ≠ 0 ∧ ¬ (slot = Word.max ∧ epoch = slot / clock.epochSlots)) ∧
      (clock.genesisTimeMs ≤ timeMs →
        (TimesAgree clock timeMs ↔
          clock.slotDurationMs ≠ 0 ∧
            (timeMs ≠ Word.max ∨ clock.genesisTimeMs = 0 ∧ clock.slotDurationMs = 1))) :=
  ⟨epochsAgree_iff clock nonce slot epoch, timesAgree_iff⟩

theorem slot_maps_agree_iff_mainnet :
    EpochsAgree (.new .mainnet 0) .zero 21600 1 ∧ TimesAgree (.new .mainnet 0) 4500 :=
  have ⟨hepochs, htimes⟩ := slot_maps_agree_iff (.new .mainnet 0) .zero 21600 1 4500
  ⟨hepochs.mpr (by decide), (htimes (by decide)).mpr (by decide)⟩

/-- The largest slot has an epoch by its quotient, and that epoch does not contain it. -/
theorem last_slot_outside_epoch :
    ConsensusParams.mainnet.validate = .ok () ∧ ¬ EpochsAgree (.new .mainnet 0) .zero Word.max (Word.max / 21600) :=
  ⟨rfl, fun hagree => ((epochsAgree_iff _ _ _ _).mp hagree).right ⟨rfl, rfl⟩⟩

end Agreement

/-! ### Time stamps of headers -/

section Stamps

def StampPasses (ctx : BlockValidationContext) (header : BlockHeader) (timestamp : Timestamp) : Prop :=
  checkTimestamp ctx { header with timestamp } = .ok ()

theorem stampPasses_iff (ctx : BlockValidationContext) (header : BlockHeader) (timestamp : Timestamp) :
    StampPasses ctx header timestamp ↔
      (ctx.clock.slotStartTimeMs header.slot).toNat / 1000 ≤ timestamp.toNat ∧
        timestamp.toNat <
          (ctx.clock.slotStartTimeMs header.slot).toNat / 1000 + ctx.consensusParams.slotDurationMs.toNat / 1000 := by
  have hstart := UInt64.toNat_lt (ctx.clock.slotStartTimeMs header.slot)
  have hduration := UInt64.toNat_lt ctx.consensusParams.slotDurationMs
  have hthousand : (1000 : UInt64).toNat = 1000 := rfl
  rw [StampPasses, checkTimestamp, require_eq_ok, not_or, UInt64.not_lt, UInt64.not_le, UInt64.le_iff_toNat_le,
    UInt64.lt_iff_toNat_lt, Word.toNat_saturatingAdd, UInt64.toNat_div, UInt64.toNat_div, hthousand]
  dsimp only
  omega

/-- The stamps of an honest producer pass the check for a slot, and those of other slots do not. Stamps count seconds, slots milliseconds. -/
structure StampsFit (ctx : BlockValidationContext) (header : BlockHeader) : Prop where
  /-- The stamp that the clock itself gives the slot. -/
  start : StampPasses ctx header (ctx.clock.slotStartTimestamp header.slot)
  inside : ∀ timestamp : Timestamp, (ctx.clock.slotStartTimeMs header.slot).toNat ≤ timestamp.toNat * 1000 →
    timestamp.toNat * 1000 < (ctx.clock.slotStartTimeMs header.slot).toNat + ctx.consensusParams.slotDurationMs.toNat →
      StampPasses ctx header timestamp
  early : ∀ timestamp : Timestamp,
    timestamp.toNat * 1000 + ctx.consensusParams.slotDurationMs.toNat ≤ (ctx.clock.slotStartTimeMs header.slot).toNat →
      ¬ StampPasses ctx header timestamp
  late : ∀ timestamp : Timestamp,
    (ctx.clock.slotStartTimeMs header.slot).toNat + ctx.consensusParams.slotDurationMs.toNat ≤ timestamp.toNat * 1000 →
      ¬ StampPasses ctx header timestamp

variable {ctx : BlockValidationContext} {header : BlockHeader}

private theorem not_stampPasses_of_early {timestamp : Timestamp}
    (hearly : timestamp.toNat * 1000 + ctx.consensusParams.slotDurationMs.toNat ≤
      (ctx.clock.slotStartTimeMs header.slot).toNat) :
    ¬ StampPasses ctx header timestamp := by
  rw [stampPasses_iff]
  omega

private theorem not_stampPasses_of_late {timestamp : Timestamp}
    (hlate : (ctx.clock.slotStartTimeMs header.slot).toNat + ctx.consensusParams.slotDurationMs.toNat ≤
      timestamp.toNat * 1000) :
    ¬ StampPasses ctx header timestamp := by
  rw [stampPasses_iff]
  omega

theorem stampPasses_start_iff :
    StampPasses ctx header (ctx.clock.slotStartTimestamp header.slot) ↔
      1000 ≤ ctx.consensusParams.slotDurationMs.toNat := by
  have hthousand : (1000 : UInt64).toNat = 1000 := rfl
  rw [stampPasses_iff, SlotClock.slotStartTimestamp, UInt64.toNat_div, hthousand]
  omega

private theorem duration_pos {p : ConsensusParams} (hvalid : p.validate = .ok ()) : 0 < p.slotDurationMs.toNat := by
  obtain ⟨hduration, -⟩ := require_bind_eq_ok.mp hvalid
  rw [ne_eq, ← UInt64.toNat_inj, UInt64.toNat_zero] at hduration
  omega

private theorem slotStart_of_clock {clock : SlotClock} {p : ConsensusParams} {genesisSecs : UInt64} {slot : Slot}
    (hclock : clock = .new p genesisSecs) (htime : genesisSecs.toNat * 1000 + slot.toNat * p.slotDurationMs.toNat < 2 ^ 64) :
    (clock.slotStartTimeMs slot).toNat = genesisSecs.toNat * 1000 + slot.toNat * p.slotDurationMs.toNat := by
  have hthousand : (1000 : UInt64).toNat = 1000 := rfl
  rw [toNat_slotStartTimeMs, hclock, SlotClock.new, Word.toNat_saturatingMul, hthousand]
  dsimp only
  omega

private theorem dvd_slotStart (genesisSecs slot : Nat) {duration : Nat} (hdivides : 1000 ∣ duration) :
    1000 ∣ genesisSecs * 1000 + slot * duration :=
  Nat.dvd_add (Nat.dvd_mul_left 1000 genesisSecs) (hdivides.mul_left slot)

/-- The window of a slot with a fraction of a second ends before the slot does. -/
theorem windowEnd_inside {duration : Nat} (hfraction : ¬ 1000 ∣ duration) (hlong : 1000 ≤ duration) (start : Nat) :
    start ≤ (start / 1000 + duration / 1000) * 1000 ∧ (start / 1000 + duration / 1000) * 1000 < start + duration := by
  omega

/-- The stamps fit exactly when slots last whole seconds: otherwise the last second inside the slot is refused, or all of them. -/
theorem honest_stamps_iff {genesisSecs : UInt64} (hvalid : ctx.consensusParams.validate = .ok ())
    (hclock : ctx.clock = .new ctx.consensusParams genesisSecs)
    (htime : genesisSecs.toNat * 1000 + header.slot.toNat * ctx.consensusParams.slotDurationMs.toNat < 2 ^ 64) :
    StampsFit ctx header ↔ 1000 ∣ ctx.consensusParams.slotDurationMs.toNat := by
  have hpositive : 0 < ctx.consensusParams.slotDurationMs.toNat := duration_pos hvalid
  have hstart := slotStart_of_clock hclock htime
  refine ⟨fun hfit => ?_, fun hdivides => ⟨?_, fun timestamp hfrom huntil => ?_, fun _ => not_stampPasses_of_early,
    fun _ => not_stampPasses_of_late⟩⟩
  · -- the second at which the window ends would be inside the slot
    by_contra hfraction
    have hlong := stampPasses_start_iff.mp hfit.start
    obtain ⟨last, hlast⟩ := Word.exists_toNat_eq (n :=
      (ctx.clock.slotStartTimeMs header.slot).toNat / 1000 + ctx.consensusParams.slotDurationMs.toNat / 1000) (by
        have hbound := UInt64.toNat_lt ctx.consensusParams.slotDurationMs
        have hbound' := UInt64.toNat_lt (ctx.clock.slotStartTimeMs header.slot)
        omega)
    have hrefused : ¬ StampPasses ctx header last := by
      rw [stampPasses_iff]
      omega
    obtain ⟨hfrom, huntil⟩ := windowEnd_inside hfraction hlong (ctx.clock.slotStartTimeMs header.slot).toNat
    rw [← hlast] at hfrom huntil
    exact hrefused (hfit.inside last hfrom huntil)
  · exact stampPasses_start_iff.mpr (Nat.le_of_dvd hpositive hdivides)
  · have hwhole := dvd_slotStart genesisSecs.toNat header.slot.toNat hdivides
    rw [stampPasses_iff]
    omega

/-- A validator of a network with these parameters and this start, after its genesis block. -/
def stampContext (p : ConsensusParams) (genesisSecs : UInt64) : BlockValidationContext :=
  ⟨.zero, 0, 0, .new p genesisSecs, p, .zero, ⟨0, ∅, 0⟩, []⟩

theorem honest_stamps_iff_mainnet :
    StampsFit (stampContext .mainnet 1700000000) { BlockHeader.genesisTemplate with slot := 7 } :=
  (honest_stamps_iff rfl rfl (by decide)).mpr (by decide)

/-- Slots of a tenth of a second are valid, and even the stamp that the clock gives their blocks is refused. -/
theorem no_stamp_fits_short_slots :
    ProtocolParams.ephemeral.consensus.validate = .ok () ∧
      ¬ StampPasses (stampContext ProtocolParams.ephemeral.consensus 1700000000) { BlockHeader.genesisTemplate with slot := 7 }
        ((stampContext ProtocolParams.ephemeral.consensus 1700000000).clock.slotStartTimestamp 7) :=
  ⟨rfl, fun hpasses => absurd (stampPasses_start_iff.mp hpasses) (by decide)⟩

end Stamps

end QuantumVault
