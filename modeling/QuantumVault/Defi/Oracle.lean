import QuantumVault.Core.Types
import QuantumVault.Lib.Result
import QuantumVault.Lib.Sorting
import QuantumVault.Lib.Wide
import QuantumVault.Lib.Window

/-!
# Price oracle

The median of the prices that validators observed, refused when one of them is too far from it, and the same guard between two prices that follow each other. Prices are 64.64 fixed-point numbers. Deviations are in basis points of the lower price, and cut to 16 bits before they are compared with the bound.

Observations are kept in a window of bounded size, and averaged over time: each price counts for the slots until the next observation.
-/

namespace QuantumVault

open Result

inductive OracleError where
  | insufficientObservations (available need : Nat)
  | emptyWindow
  | manipulationDetected (pctChange : UInt16)
  | zeroDuration
  | overflow
deriving DecidableEq

namespace Oracle

abbrev PriceQ64 : Type := BitVec 128

/-- A signed price sample of a validator. -/
structure PriceObservation where
  poolId : Hash256
  priceQ64 : PriceQ64
  slot : UInt64
  signerPoolId : Hash256
  signature : Bytes
deriving DecidableEq

/-- A window of observations, the oldest first. -/
structure OracleWindow where
  poolId : Hash256
  maxSize : Nat
  observations : List PriceObservation
deriving DecidableEq

namespace OracleWindow

/-- The bytes of one observation in a queue: two hashes, a price, a slot and the header of the signature. -/
def observationBytes : Nat := 112

/-- The largest number of observations a queue can be asked to hold, of at most `isize::MAX` bytes. -/
def maxCapacity : Nat := (2 ^ 63 - 1) / observationBytes

/-- An empty window. Room for all its observations is reserved at once, so there is none of a size beyond the largest capacity: the process stops there. -/
def new (poolId : Hash256) (maxSize : Nat) : Option OracleWindow :=
  if maxSize ≤ maxCapacity then some ⟨poolId, maxSize, []⟩ else none

def addObservation (w : OracleWindow) (obs : PriceObservation) : OracleWindow :=
  { w with observations := Window.push w.maxSize w.observations obs }

def clear (w : OracleWindow) : OracleWindow := { w with observations := [] }

end OracleWindow

/-- One round of the loop over neighbours: the price counts for the slots between them. -/
def twapStep (sums : Nat × UInt64) (neighbours : PriceObservation × PriceObservation) : Except OracleError (Nat × UInt64) := do
  let dt ← okOr (Word.checkedSub neighbours.2.slot neighbours.1.slot) .overflow
  let priceTime ← okOr (Wide.checkedMul neighbours.1.priceQ64.toNat dt.toNat) .overflow
  let sumPriceTime ← okOr (Wide.checkedAdd sums.1 priceTime) .overflow
  let sumTime ← okOr (Word.checkedAdd sums.2 dt) .overflow
  return (sumPriceTime, sumTime)

def computeTwap (observations : List PriceObservation) : Except OracleError PriceQ64 :=
  match observations with
  | [] => .error .emptyWindow
  | [obs] => .ok obs.priceQ64
  | obs => do
      let (sumPriceTime, sumTime) ← (obs.zip obs.tail).foldlM twapStep (0, 0)
      require (sumTime ≠ 0) .zeroDuration
      let twap ← okOr (Wide.checkedDiv sumPriceTime sumTime.toNat) .overflow
      return BitVec.ofNat 128 twap

end Oracle

end QuantumVault
