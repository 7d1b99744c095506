import QuantumVault.Core.Params

/-!
# Slots, epochs and time

The mapping between slot numbers, epochs and wall-clock time. All of it is saturating 64-bit arithmetic, except that a division by a zero parameter stops the process; there the result is `none`.
-/

namespace QuantumVault

abbrev Epoch := UInt64

structure SlotClock where
  slotDurationMs : UInt64
  epochSlots : UInt64
  genesisTimeMs : UInt64
deriving DecidableEq

namespace SlotClock

def new (consensus : ConsensusParams) (genesisTimeSecs : UInt64) : SlotClock where
  slotDurationMs := consensus.slotDurationMs
  epochSlots := consensus.epochSlots
  genesisTimeMs := Word.saturatingMul genesisTimeSecs 1000

def slotToEpoch (clock : SlotClock) (slot : Slot) : Option Epoch :=
  if clock.epochSlots = 0 then none else some (slot / clock.epochSlots)

def epochFirstSlot (clock : SlotClock) (epoch : Epoch) : Slot := Word.saturatingMul epoch clock.epochSlots

/-- The last slot still belongs to the epoch. -/
def epochLastSlot (clock : SlotClock) (epoch : Epoch) : Slot :=
  Word.saturatingSub (Word.saturatingMul (Word.saturatingAdd epoch 1) clock.epochSlots) 1

/-- Start of a slot in milliseconds. -/
def slotStartTimeMs (clock : SlotClock) (slot : Slot) : UInt64 :=
  Word.saturatingAdd clock.genesisTimeMs (Word.saturatingMul slot clock.slotDurationMs)

/-- Start of a slot in whole seconds. -/
def slotStartTimestamp (clock : SlotClock) (slot : Slot) : Timestamp := clock.slotStartTimeMs slot / 1000

/-- The slot of a time in milliseconds. The inner option is the source's own: before genesis there is no slot. -/
def timeToSlot (clock : SlotClock) (timeMs : UInt64) : Option (Option Slot) :=
  if timeMs < clock.genesisTimeMs then some none
  else if clock.slotDurationMs = 0 then none
  else some (some (Word.saturatingSub timeMs clock.genesisTimeMs / clock.slotDurationMs))

/-- One key period is one epoch. An epoch beyond 32 bits is mapped to a period that no key reaches. -/
def slotToKesPeriod (clock : SlotClock) (slot : Slot) : Option UInt32 :=
  (clock.slotToEpoch slot).map fun epoch => if epoch.toNat < 2 ^ 32 then epoch.toUInt32 else 0xFFFFFFFF

end SlotClock

end QuantumVault
