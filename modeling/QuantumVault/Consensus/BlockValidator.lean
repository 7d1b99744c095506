import QuantumVault.Consensus.LeaderSchedule
import QuantumVault.Core.Block
import QuantumVault.Core.Kes

/-!
# Consensus validation of headers

The checks a validator makes on a header against its parent, the clock, the registry of pools and the stake distribution: linkage, time, the producer's identity, the leadership proof and the signature. The signature scheme is a parameter, with the production scheme below.
-/

namespace QuantumVault

open Result

/-- Why a signature is refused. Each case has one text in the source; the reasons that come from libraries carry none. -/
inductive KesRejection where
  | publicKeyLength
  | decode
  | periodMismatch (period expected : UInt32)
  | crypto
  | rejected
deriving DecidableEq

inductive BlockValidationError where
  | unsupportedVersion (version : UInt32)
  | slotNotMonotonic (blockSlot parentSlot : UInt64)
  | heightMismatch (blockHeight parentHeight : UInt64)
  | prevHashMismatch
  | timestampOutOfRange (slot timestamp slotStart slotEnd : UInt64)
  | leadership (source : LeaderError)
  | unknownProducer (pool : PoolId)
  | invalidKesSignature (reason : KesRejection)
  | structure (source : BlockError)
  /-- The process stops here: the clock has epochs without slots. -/
  | abort
deriving DecidableEq

/-- Verification of a signature of a message under a key, for the period the slot is in. -/
abbrev KesVerifier : Type :=
  (kesPk : Bytes) → (expectedKesPeriod : UInt32) → (message signature : Bytes) → Except BlockValidationError Unit

structure BlockValidationContext where
  parentHash : BlockHash
  parentSlot : Slot
  parentHeight : Height
  clock : SlotClock
  consensusParams : ConsensusParams
  epochNonce : EpochNonce
  stakeDistribution : StakeDistribution
  pools : List StakePool

/-- The time of a header has to be inside its slot, in whole seconds. -/
def checkTimestamp (ctx : BlockValidationContext) (header : BlockHeader) : Except BlockValidationError Unit :=
  let slotStart := ctx.clock.slotStartTimeMs header.slot / 1000
  let slotEnd := Word.saturatingAdd slotStart (ctx.consensusParams.slotDurationMs / 1000)
  require (¬ (header.timestamp < slotStart ∨ header.timestamp ≥ slotEnd))
    (.timestampOutOfRange header.slot header.timestamp slotStart slotEnd)

/-- The signature check: the bytes of the header, with everything in it, under the pool's key. -/
def checkKesSignature (clock : SlotClock) (kes : KesVerifier) (pool : StakePool) (header : BlockHeader) :
    Except BlockValidationError Unit := do
  let expectedKesPeriod ← okOr (clock.slotToKesPeriod header.slot) .abort
  kes pool.kesKey expectedKesPeriod header.canonicalBytes header.kesSig

variable [Crypto]

def findPoolByKeyHash (pools : List StakePool) (keyHash : Hash256) : Option PoolId :=
  (pools.find? fun pool => sha3_256 pool.vrfKey == keyHash).map StakePool.id

def findProducer (pools : List StakePool) (keyHash : Hash256) : Except BlockValidationError StakePool := do
  let producerPoolId ← okOr (findPoolByKeyHash pools keyHash) (.unknownProducer keyHash)
  okOr (pools.find? fun pool => pool.id == producerPoolId) (.unknownProducer producerPoolId)

def validateBlockHeader (header : BlockHeader) (ctx : BlockValidationContext) (vrf : VrfEvaluator) (kes : KesVerifier) :
    Except BlockValidationError Unit := do
  require (header.version = blockVersion) (.unsupportedVersion header.version)
  require (header.prevHash = ctx.parentHash) .prevHashMismatch
  require (¬ header.slot ≤ ctx.parentSlot) (.slotNotMonotonic header.slot ctx.parentSlot)
  require (header.height = Word.saturatingAdd ctx.parentHeight 1) (.heightMismatch header.height ctx.parentHeight)
  checkTimestamp ctx header
  let pool ← findProducer ctx.pools header.producerKeyHash
  let isLeader ← (verifyLeadership vrf pool.vrfKey pool.id ctx.epochNonce header.slot header.vrfProof
    ctx.stakeDistribution).mapError .leadership
  require (isLeader = true) (.leadership (.vrfVerification "VRF output above threshold"))
  checkKesSignature ctx.clock kes pool header

def validateBlock (block : Block) (ctx : BlockValidationContext) (vrf : VrfEvaluator) (kes : KesVerifier) :
    Except BlockValidationError Unit := do
  block.validateStructure.mapError .structure
  validateBlockHeader block.header ctx vrf kes

/-- The production scheme. The period in the signature has to be the one of the slot. -/
def dilithiumSumKesVerifier : KesVerifier := fun kesPk expectedKesPeriod message signature => do
  let pk ← okOr (if h : kesPk.length = 32 then some (⟨kesPk, h⟩ : Hash256) else none)
    (.invalidKesSignature .publicKeyLength)
  let sig ← okOr (KesSignature.decode signature) (.invalidKesSignature .decode)
  require (sig.period = expectedKesPeriod) (.invalidKesSignature (.periodMismatch sig.period expectedKesPeriod))
  let valid ← okOr (Kes.verify pk sig message) (.invalidKesSignature .crypto)
  require (valid = true) (.invalidKesSignature .rejected)

end QuantumVault
