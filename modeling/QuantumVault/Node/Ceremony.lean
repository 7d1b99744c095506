import QuantumVault.Core.HybridKem
import QuantumVault.Lib.TreeMap
import QuantumVault.Lib.Update
import QuantumVault.Node.Genesis

/-!
# The genesis ceremony

The participants of a new network register with a key and a stake pledge, then each contributes randomness. The coordinator checks what it receives, in two phases, and in the end derives the epoch nonce, builds the genesis block and hands out a transcript that anyone can replay.

A key that has been read at a level is of that level, so the second check of the level has no counterpart here. Counts are natural numbers.
-/

namespace QuantumVault

open Result Update

inductive CeremonyError where
  | wrongPhase (expected current : String)
  | invalidRegistration (reason : String)
  | invalidContribution (reason : String)
  | duplicateParticipant (keyHash : String)
  | insufficientParticipants (needed present : Nat)
  | missingContributions (registered contributed : Nat)
  | signatureVerification (reason : String)
  | serialization (reason : String)
  | stakeOverflow (total cap : UInt64)
deriving DecidableEq

structure CeremonyParams where
  network : String
  minParticipants : Nat
  maxParticipants : Nat
  maxTotalStake : UInt64
  minStakePerParticipant : UInt64
  requiredDilithiumLevel : String
  domain : String
  genesisTimestamp : UInt64
deriving DecidableEq

def CeremonyParams.dilithiumLevel (params : CeremonyParams) : DilithiumLevel :=
  match params.requiredDilithiumLevel with
  | "Level2" => .level2
  | "Level5" => .level5
  | _ => .level3

def CeremonyParams.mainnetDefault : CeremonyParams where
  network := "mainnet"
  minParticipants := 3
  maxParticipants := 100
  maxTotalStake := 2100000000000000
  minStakePerParticipant := 1000000000
  requiredDilithiumLevel := "Level3"
  domain := "QuantumVault/GenesisCeremony/v1/mainnet"
  genesisTimestamp := 0

def CeremonyParams.devnetDefault : CeremonyParams where
  network := "devnet"
  minParticipants := 1
  maxParticipants := 10
  maxTotalStake := 2100000000000000
  minStakePerParticipant := 1
  requiredDilithiumLevel := "Level3"
  domain := "QuantumVault/GenesisCeremony/v1/devnet"
  genesisTimestamp := 0

/-! ### Messages and phases -/

structure Registration where
  identityKey : Bytes
  vrfKey : Bytes
  stakePledge : UInt64
  rewardAddress : Option Bytes
  signature : Bytes
deriving DecidableEq

structure Contribution where
  identityKey : Bytes
  randomness : Hash256
  signature : Bytes
deriving DecidableEq

structure VerifiedRegistration where
  identityKey : Bytes
  vrfKey : Bytes
  stakePledge : UInt64
  rewardAddress : Bytes
deriving DecidableEq

structure VerifiedContribution where
  identityKeyHash : Hash256
  randomness : Hash256
deriving DecidableEq

inductive CeremonyPhase where
  | registration
  | contribution
  | finalized
deriving DecidableEq

def CeremonyPhase.asStr : CeremonyPhase → String
  | registration => "Registration"
  | contribution => "Contribution"
  | finalized => "Finalized"

structure CeremonyTranscript where
  params : CeremonyParams
  registrations : List Registration
  contributions : List Contribution
  epochNonce : Hash256
  genesisBlockHash : String
  totalStake : UInt64
  participantCount : Nat
  finalizedAt : UInt64
deriving DecidableEq

/-- What a finished ceremony hands out. -/
structure CeremonyOutput where
  genesisBlock : Block
  epochNonce : Hash256
  transcript : CeremonyTranscript
deriving DecidableEq

/-- Both maps are sorted by the hash of the identity key; the raw logs keep the order of arrival. -/
structure CeremonyCoordinator where
  params : CeremonyParams
  phase : CeremonyPhase
  registrations : Std.ExtTreeMap Hash256 VerifiedRegistration
  contributions : Std.ExtTreeMap Hash256 VerifiedContribution
  rawRegistrations : List Registration
  rawContributions : List Contribution

/-- Two lower-case digits for each byte. -/
def hexEncode (bytes : Bytes) : String :=
  String.ofList (bytes.flatMap fun b => [Nat.digitChar (b.toNat / 16), Nat.digitChar (b.toNat % 16)])

/-! ### The coordinator -/

namespace CeremonyCoordinator

def new (params : CeremonyParams) : CeremonyCoordinator :=
  ⟨params, .registration, ∅, ∅, [], []⟩

/-- What a participant signs to register. -/
def registrationSigningPayload (self : CeremonyCoordinator) (reg : Registration) : Bytes :=
  self.params.domain.toUTF8.toList ++ ascii "/register/v1" ++ reg.identityKey ++ reg.vrfKey ++
    toLittleEndian 8 reg.stakePledge.toNat ++ reg.rewardAddress.getD []

/-- What a participant signs to contribute. -/
def contributionSigningPayload (self : CeremonyCoordinator) (contrib : Contribution) : Bytes :=
  self.params.domain.toUTF8.toList ++ ascii "/contribute/v1" ++ contrib.identityKey ++ contrib.randomness.bytes

/-- The sum of the pledges in a word. A build that checks arithmetic stops if it does not fit. -/
def totalStake (self : CeremonyCoordinator) : UInt64 :=
  (self.registrations.toList.map fun entry => entry.2.stakePledge).sum

variable [Crypto]

/-- The signature that came with a message, read and verified under a key. -/
def verifySignature (level : DilithiumLevel) (identityKey payload signature : Bytes) (refusal : String) :
    Update CeremonyError CeremonyCoordinator Unit := do
  let badSize := CryptoError.text (.invalidSize level.signatureBytes signature.length)
  let sig ← lift (okOr (PqcSignature.fromBytes level signature)
    (.signatureVerification ("invalid signature bytes: " ++ badSize)))
  let verdict ← lift (okOr (verifyPqc level identityKey payload sig)
    (.signatureVerification ("verification error: " ++ badSize)))
  check (verdict = true) (.signatureVerification refusal)

def acceptRegistration (reg : Registration) : Update CeremonyError CeremonyCoordinator Unit := do
  let self ← read
  check (self.phase = .registration) (.wrongPhase "Registration" self.phase.asStr)
  check (self.registrations.size < self.params.maxParticipants) (.invalidRegistration "maximum participants reached")
  check (self.params.minStakePerParticipant ≤ reg.stakePledge)
    (.invalidRegistration s!"stake {reg.stakePledge} below minimum {self.params.minStakePerParticipant}")
  let level := self.params.dilithiumLevel
  let identityKey ← lift (okOr (PqcPublicKey.fromBytes level reg.identityKey)
    (.invalidRegistration ("invalid identity key: " ++
      CryptoError.text (.invalidSize level.publicKeyBytes reg.identityKey.length))))
  let keyHash := sha3_256 reg.identityKey
  check (self.registrations[keyHash]? = none) (.duplicateParticipant (hexEncode (keyHash.bytes.take 8)))
  verifySignature level identityKey (self.registrationSigningPayload reg) reg.signature
    "signature verification returned false"
  let newTotal ← lift (okOr (Word.checkedAdd self.totalStake reg.stakePledge)
    (.stakeOverflow Word.max self.params.maxTotalStake))
  check (newTotal ≤ self.params.maxTotalStake) (.stakeOverflow newTotal self.params.maxTotalStake)
  let verified := ⟨identityKey, reg.vrfKey, reg.stakePledge, reg.rewardAddress.getD keyHash.bytes⟩
  perform fun self => { self with registrations := self.registrations.insert keyHash verified }
  perform fun self => { self with rawRegistrations := self.rawRegistrations ++ [reg] }

def closeRegistration : Update CeremonyError CeremonyCoordinator Unit := do
  let self ← read
  check (self.phase = .registration) (.wrongPhase "Registration" self.phase.asStr)
  check (self.params.minParticipants ≤ self.registrations.size)
    (.insufficientParticipants self.params.minParticipants self.registrations.size)
  perform fun self => { self with phase := .contribution }

def acceptContribution (contrib : Contribution) : Update CeremonyError CeremonyCoordinator Unit := do
  let self ← read
  check (self.phase = .contribution) (.wrongPhase "Contribution" self.phase.asStr)
  let keyHash := sha3_256 contrib.identityKey
  let registration ← lift (okOr self.registrations[keyHash]? (.invalidContribution "participant not registered"))
  check (self.contributions[keyHash]? = none) (.duplicateParticipant (hexEncode (keyHash.bytes.take 8)))
  verifySignature self.params.dilithiumLevel registration.identityKey (self.contributionSigningPayload contrib)
    contrib.signature "contribution signature invalid"
  check (contrib.randomness ≠ .zero) (.invalidContribution "randomness must not be all zeros")
  let verified := ⟨keyHash, contrib.randomness⟩
  perform fun self => { self with contributions := self.contributions.insert keyHash verified }
  perform fun self => { self with rawContributions := self.rawContributions ++ [contrib] }

/-! ### The end of the ceremony -/

def deriveEpochNonce (self : CeremonyCoordinator) : Hash256 :=
  sha3_256 (self.params.domain.toUTF8.toList ++ ascii "/epoch_nonce/v1" ++
    self.contributions.toList.flatMap fun entry => entry.1.bytes ++ entry.2.randomness.bytes)

/-- One output for each participant, in the order of the key hashes. -/
def genesisOutputs (self : CeremonyCoordinator) : List TxOutput :=
  self.registrations.toList.map fun entry =>
    .new entry.2.stakePledge (p2pkhPqc (sha3_256 entry.2.identityKey))

def buildGenesisBlock (self : CeremonyCoordinator) : Block :=
  let genesisTx := Transaction.genesis self.genesisOutputs
  let timestamp := if self.params.genesisTimestamp > 0 then self.params.genesisTimestamp else 0
  { header := { BlockHeader.genesisTemplate with merkleRoot := merkleRootOf [genesisTx.id], timestamp := timestamp }
    transactions := [genesisTx] }

/-- The coordinator is used up. `now` is the time on the clock, which only the transcript shows. -/
def finalize (self : CeremonyCoordinator) (now : UInt64) : Except CeremonyError CeremonyOutput := do
  require (self.phase = .contribution) (.wrongPhase "Contribution" self.phase.asStr)
  require (self.registrations.size ≤ self.contributions.size)
    (.missingContributions self.registrations.size self.contributions.size)
  let epochNonce := self.deriveEpochNonce
  let genesisBlock := self.buildGenesisBlock
  let transcript : CeremonyTranscript :=
    ⟨self.params, self.rawRegistrations, self.rawContributions, epochNonce, hexEncode genesisBlock.header.hash.bytes,
      self.totalStake, self.registrations.size, now⟩
  return ⟨genesisBlock, epochNonce, transcript⟩

end CeremonyCoordinator

/-! ### Participants -/

namespace Participant

variable [Signing]

/-- A signature of the participant, or the error of the signature library. -/
def sign (level : DilithiumLevel) (secretKey payload : Bytes) : Except CeremonyError Bytes := do
  let failed (e : CryptoError) : CeremonyError := .signatureVerification ("signing failed: " ++ e.text)
  require (secretKey.length = level.secretKeyBytes) (failed .malformedPublicKey)
  okOr (signPqc level secretKey payload)
    (failed (.invalidSize level.signatureBytes (mlDsaSign level secretKey payload).length))

/-- A registration without a reward address. -/
def createRegistration (level : DilithiumLevel) (secretKey publicKey : Bytes) (stakePledge : UInt64) (vrfKey : Bytes)
    (domain : String) : Except CeremonyError Registration := do
  let payload := domain.toUTF8.toList ++ ascii "/register/v1" ++ publicKey ++ vrfKey ++ toLittleEndian 8 stakePledge.toNat
  let signature ← sign level secretKey payload
  return ⟨publicKey, vrfKey, stakePledge, none, signature⟩

def createContribution (level : DilithiumLevel) (secretKey publicKey : Bytes) (randomness : Hash256) (domain : String) :
    Except CeremonyError Contribution := do
  let payload := domain.toUTF8.toList ++ ascii "/contribute/v1" ++ publicKey ++ randomness.bytes
  let signature ← sign level secretKey payload
  return ⟨publicKey, randomness, signature⟩

end Participant

variable [Crypto]

/-- Two lists of messages, sent to a coordinator one after the other. -/
def replay (registrations : List Registration) (contributions : List Contribution) :
    Update CeremonyError CeremonyCoordinator Unit := do
  forM registrations CeremonyCoordinator.acceptRegistration
  CeremonyCoordinator.closeRegistration
  forM contributions CeremonyCoordinator.acceptContribution

def verifyTranscript (transcript : CeremonyTranscript) (now : UInt64) : Except CeremonyError Bool :=
  match (replay transcript.registrations transcript.contributions).run (.new transcript.params) with
  | (.error e, _) => .error e
  | (.ok _, coordinator) => do
      let result ← coordinator.finalize now
      require (result.epochNonce = transcript.epochNonce)
        (.invalidContribution "epoch nonce mismatch during transcript verification")
      require (hexEncode result.genesisBlock.header.hash.bytes = transcript.genesisBlockHash)
        (.serialization "genesis block hash mismatch during transcript verification")
      return true

end QuantumVault
