import QuantumVault.Core.HybridKem

/-!
# Stealth addresses

A recipient publishes a view key and a spend key. A sender encapsulates a secret to the view key and commits the output to a hash of that secret and of the spend key. The recipient finds the output by decapsulating; a one-byte tag sorts out most outputs of others.
-/

namespace QuantumVault

open Result HybridKem

inductive PrivacyError where
  | crypto (reason : String)
  | invalidStealthOutput (reason : String)
deriving DecidableEq

def PrivacyError.text : PrivacyError → String
  | crypto reason => s!"crypto error: {reason}"
  | invalidStealthOutput reason => s!"invalid stealth output: {reason}"

structure StealthAddress where
  viewPk : HybridPublicKey
  spendPk : Bytes
deriving DecidableEq

/-- The recipient's keys, the spend keys with their parameter set. -/
structure StealthKeys where
  viewKp : HybridKeyPair
  spendLevel : DilithiumLevel
  spendKp : PqcKeyPair
deriving DecidableEq

/-- Fresh keys from the entropy of the view key and the seed of the spend key. -/
def StealthKeys.generate [HybridKem] [Signing] (kyberLevel : KyberLevel) (dilithiumLevel : DilithiumLevel)
    (viewEntropy : KemEntropy) (spendSeed : Hash256) : Option StealthKeys := do
  let spendKp ← fromSeedPqc dilithiumLevel spendSeed
  return ⟨generateKeypair kyberLevel viewEntropy, dilithiumLevel, spendKp⟩

def StealthKeys.address (keys : StealthKeys) : StealthAddress := ⟨keys.viewKp.pub, keys.spendKp.publicKey⟩

/-- What the sender computes for an output. The commitment is not sent: it is in the locking script. -/
structure StealthOutput where
  kemCiphertext : Bytes
  kyberLevel : UInt8
  viewTag : UInt8
  onetimePkHash : Hash256
deriving DecidableEq

structure ScanResult where
  sharedSecret : Hash256
  onetimePkHash : Hash256
deriving DecidableEq

namespace Stealth

def stealthKdfTag : Bytes := ascii "QuantumVault-Stealth-v1"

def viewTagDomain : Bytes := ascii "QuantumVault-ViewTag-v1"

def levelByte : KyberLevel → UInt8
  | .level1 => 1
  | .level3 => 3
  | .level5 => 5

def levelOfByte (byte : UInt8) : Except PrivacyError KyberLevel :=
  if byte = 1 then .ok .level1
  else if byte = 3 then .ok .level3
  else if byte = 5 then .ok .level5
  else .error (.invalidStealthOutput s!"unknown Kyber level: {byte}")

variable [Crypto]

def computeViewTag (sharedSecret : Hash256) : UInt8 :=
  (sha3_256 (viewTagDomain ++ sharedSecret.bytes)).bytes.headD 0

def computeOnetimePkHash (sharedSecret : Hash256) (spendPk : Bytes) : Hash256 :=
  sha3_256 (stealthKdfTag ++ sharedSecret.bytes ++ spendPk)

variable [HybridKem]

def createStealthOutput (recipient : StealthAddress) (entropy : KemEntropy) :
    Except PrivacyError (StealthOutput × Hash256) := do
  let (ciphertext, sharedSecret) ←
    (encapsulateHybrid recipient.viewPk entropy).mapError fun e => .crypto e.text
  let viewTag := computeViewTag sharedSecret
  let onetimePkHash := computeOnetimePkHash sharedSecret recipient.spendPk
  return (⟨ciphertext.bytes, levelByte recipient.viewPk.level, viewTag, onetimePkHash⟩, sharedSecret)

/-- Detection needs the view key pair and the public spend key only. -/
def scanOutputView (viewKp : HybridKeyPair) (spendPk : Bytes) (output : StealthOutput) :
    Except PrivacyError (Option ScanResult) := do
  let kyberLevel ← levelOfByte output.kyberLevel
  let sharedSecret ←
    (decapsulateHybrid viewKp ⟨output.kemCiphertext, kyberLevel⟩).mapError fun e => .crypto e.text
  if computeViewTag sharedSecret ≠ output.viewTag then return none
  else return some ⟨sharedSecret, computeOnetimePkHash sharedSecret spendPk⟩

def scanOutput (stealthKeys : StealthKeys) (output : StealthOutput) : Except PrivacyError (Option ScanResult) :=
  scanOutputView stealthKeys.viewKp stealthKeys.spendKp.publicKey output

end Stealth

end QuantumVault
