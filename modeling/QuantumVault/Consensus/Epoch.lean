import QuantumVault.Consensus.LeaderSchedule

/-!
# Epochs

What a consumer needs to know about one epoch: its first and its last slot, and the nonce of its elections.
-/

namespace QuantumVault

structure EpochInfo where
  epoch : Epoch
  firstSlot : Slot
  lastSlot : Slot
  nonce : EpochNonce
deriving DecidableEq

namespace EpochInfo

def new (clock : SlotClock) (epoch : Epoch) (nonce : EpochNonce) : EpochInfo :=
  ⟨epoch, clock.epochFirstSlot epoch, clock.epochLastSlot epoch, nonce⟩

def containsSlot (info : EpochInfo) (slot : Slot) : Bool := decide (slot ≥ info.firstSlot ∧ slot ≤ info.lastSlot)

end EpochInfo

end QuantumVault
