import QuantumVault.Consensus.Slot
import QuantumVault.Core.Crypto

/-!
# Slot leaders

Stake pools, the stake distribution of an epoch and the election of slot leaders. A pool leads a slot when the value its VRF gives for the slot is below a threshold that grows with its share of the stake. The threshold is computed in fixed-point 128-bit arithmetic, here on natural numbers with the word's bound written out where an operation saturates.
-/

namespace QuantumVault

open Result

abbrev PoolId := Hash256

structure StakePool where
  id : PoolId
  vrfKey : Bytes
  kesKey : Bytes
  pledge : Amount
  marginNum : UInt32
  marginDen : UInt32
  fixedCost : Amount
  active : Bool
deriving DecidableEq

/-- The stake of every pool during an epoch, and the total. -/
structure StakeDistribution where
  epoch : Epoch
  poolStakes : Std.ExtTreeMap PoolId UInt64
  totalStake : UInt64

namespace StakeDistribution

def poolStake (dist : StakeDistribution) (pool : PoolId) : UInt64 := dist.poolStakes[pool]?.getD 0

/-- A pool's share as numerator and denominator. -/
def relativeStake (dist : StakeDistribution) (pool : PoolId) : UInt64 × UInt64 :=
  let s := dist.poolStake pool
  if dist.totalStake = 0 ∨ s = 0 then (0, 1) else (s, dist.totalStake)

def isEmpty (dist : StakeDistribution) : Bool := dist.totalStake == 0

end StakeDistribution

inductive LeaderError where
  | vrfEvaluation (reason : String)
  | vrfVerification (reason : String)
  | noStake (pool : PoolId)
  | emptyDistribution
deriving DecidableEq

abbrev EpochNonce := Hash256
abbrev VrfOutput := Hash256

/-- A verifiable random function: evaluation with the operator's secret key, and verification of a proof against a public key. -/
structure VrfEvaluator where
  evaluate : (input : Bytes) → Except LeaderError (VrfOutput × Bytes)
  verify : (vrfPk input proof : Bytes) → Except LeaderError VrfOutput

/-! ### The threshold -/

/-- The largest 128-bit word. -/
def maxU128 : Nat := 2 ^ 128 - 1

def leaderFixedScale : Nat := 2 ^ 64

/-- The negated logarithm of one minus the active slot coefficient, scaled. -/
def lnOneMinusFMag : Nat := 946194274264587207

def leaderExpTerms : Nat := 9

/-- The state of the Taylor loop: the magnitude of the last term, the sum so far, and whether the next term is subtracted. -/
structure ExpState where
  term : Nat
  acc : Nat
  subtract : Bool

def expStep (m : Nat) (st : ExpState) (k : Nat) : ExpState :=
  let term := min (st.term * m) maxU128 / 2 ^ 64 / k
  ⟨term, if st.subtract then st.acc - term else min (st.acc + term) maxU128, !st.subtract⟩

def expNegFixed (m : Nat) : Nat :=
  ((List.range' 1 leaderExpTerms).foldl (expStep m) ⟨leaderFixedScale, leaderFixedScale, true⟩).acc

def leaderThresholdFixed (stakeNum stakeDen : UInt64) : Nat :=
  let m := min (stakeNum.toNat * lnOneMinusFMag) maxU128 / stakeDen.toNat
  leaderFixedScale - expNegFixed m

/-- The first eight bytes of the output as a big-endian number. -/
def leaderVrfValue (output : VrfOutput) : Nat := ofLittleEndian (output.bytes.take 8).reverse

def isSlotLeader (stakeNum stakeDen : UInt64) (output : VrfOutput) : Bool :=
  if stakeNum = 0 ∨ stakeDen = 0 then false
  else decide (leaderVrfValue output < leaderThresholdFixed stakeNum stakeDen)

/-! ### Elections -/

variable [Crypto]

def vrfInput (nonce : EpochNonce) (slot : Slot) : Bytes :=
  (sha3_256 (ascii "QV-VRF" ++ nonce.bytes ++ (toLittleEndian 8 slot.toNat).reverse)).bytes

/-- The producer's side: the output and the proof if the pool leads the slot. -/
def checkLeadership (vrf : VrfEvaluator) (poolId : PoolId) (nonce : EpochNonce) (slot : Slot)
    (distribution : StakeDistribution) : Except LeaderError (Option (VrfOutput × Bytes)) := do
  require (distribution.isEmpty = false) .emptyDistribution
  let (stakeNum, stakeDen) := distribution.relativeStake poolId
  require (stakeNum ≠ 0) (.noStake poolId)
  let (output, proof) ← vrf.evaluate (vrfInput nonce slot)
  return if isSlotLeader stakeNum stakeDen output then some (output, proof) else none

/-- The validator's side. -/
def verifyLeadership (vrf : VrfEvaluator) (vrfPk : Bytes) (poolId : PoolId) (nonce : EpochNonce) (slot : Slot)
    (proof : Bytes) (distribution : StakeDistribution) : Except LeaderError Bool := do
  require (distribution.isEmpty = false) .emptyDistribution
  let (stakeNum, stakeDen) := distribution.relativeStake poolId
  require (stakeNum ≠ 0) (.noStake poolId)
  let output ← vrf.verify vrfPk (vrfInput nonce slot) proof
  return isSlotLeader stakeNum stakeDen output

end QuantumVault
