import QuantumVault.Miner.Keystore

/-!
# The keys of an operator

Three key pairs from one master seed. The bundle keeps the seed, so that it can be saved again, next to the signing key that forgets its past.
-/

namespace QuantumVault

open Result

structure VrfKeyPair where
  publicKey : Bytes
  secretKey : Bytes
deriving DecidableEq

/-- The VRF library turns every seed into a key pair. -/
class VrfKeys where
  fromSeed : (seed : Hash256) → VrfKeyPair

structure KesKeyPair where
  pk : Hash256
  sk : KesSecretKey
deriving DecidableEq

structure OperatorKeys where
  masterSeed : Hash256
  vrf : VrfKeyPair
  kes : KesKeyPair
  cold : PqcKeyPair
deriving DecidableEq

variable [Crypto]

namespace KesKeyPair

def period (kes : KesKeyPair) : UInt32 := kes.sk.period

def evolveToNextPeriod (kes : KesKeyPair) : Except KeyError KesKeyPair := do
  let sk ← okOr (Kes.evolve kes.sk) (.signingFailed "kes evolve: ")
  return { kes with sk := sk }

/-- Advance a number of times. -/
def evolveTimes : (times : Nat) → KesKeyPair → Except KeyError KesKeyPair
  | 0, kes => .ok kes
  | times + 1, kes => do
      let kes ← kes.evolveToNextPeriod
      evolveTimes times kes

variable [Signing]

def fromSeed (masterSeed : Hash256) : Except KeyError KesKeyPair := do
  let (pk, sk) ← okOr (Kes.generate masterSeed) (.keyGeneration "kes: ")
  return ⟨pk, sk⟩

def sign (kes : KesKeyPair) (message : Bytes) : Except KeyError KesSignature :=
  okOr (Kes.sign kes.sk message) (.signingFailed "kes sign: ")

end KesKeyPair

namespace OperatorKeys

/-- The seed of one of the three key pairs. -/
def derive (master : Hash256) (tag : String) : Hash256 := sha3_256 (master.bytes ++ ascii tag)

def rotateKes (keys : OperatorKeys) : Except KeyError OperatorKeys := do
  let kes ← keys.kes.evolveToNextPeriod
  return { keys with kes := kes }

omit [Crypto] in
def saveEncrypted [AtRest] (keys : OperatorKeys) (password : Bytes) (entropy : Keystore.Entropy) :
    Except KeyError OperatorKeystoreEnvelope :=
  Keystore.save ⟨1, keys.masterSeed, keys.kes.period⟩ password entropy

variable [Signing] [VrfKeys]

def fromSeed (master : Hash256) : Except KeyError OperatorKeys := do
  let vrf := VrfKeys.fromSeed (derive master "vrf")
  let kes ← KesKeyPair.fromSeed (derive master "kes")
  let cold ← okOr (fromSeedPqc .level3 (derive master "cold")) (.keyGeneration "cold from_seed: ")
  return ⟨master, vrf, kes, cold⟩

def loadEncrypted [AtRest] (file : OperatorKeystoreEnvelope) (password : Bytes) : Except KeyError OperatorKeys := do
  let plaintext ← Keystore.load file password
  let keys ← fromSeed plaintext.masterSeed
  let kes ← keys.kes.evolveTimes plaintext.kesPeriod.toNat
  return { keys with kes := kes }

end OperatorKeys

end QuantumVault
