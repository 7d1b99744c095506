import QuantumVault.Core.Kes
import QuantumVault.Lib.Result

/-!
# Hybrid key encapsulation

X25519 and Kyber side by side. A ciphertext is the ephemeral X25519 key followed by the Kyber ciphertext, and the shared secret is a hash of both component secrets and of everything that was sent. The two components come from outside the repository and are left uninterpreted, with the randomness they draw as an argument.
-/

namespace QuantumVault

open Result

inductive KyberLevel where
  | level1
  | level3
  | level5
deriving DecidableEq

def x25519PkBytes : Nat := 32

namespace KyberLevel

def kyberPublicKeyBytes : KyberLevel → Nat
  | level1 => 800
  | level3 => 1184
  | level5 => 1568

def kyberSecretKeyBytes : KyberLevel → Nat
  | level1 => 1632
  | level3 => 2400
  | level5 => 3168

def kyberCiphertextBytes : KyberLevel → Nat
  | level1 => 768
  | level3 => 1088
  | level5 => 1568

def hybridCiphertextBytes (level : KyberLevel) : Nat := x25519PkBytes + level.kyberCiphertextBytes

end KyberLevel

/-- Failures of the cryptographic wrappers, those that the modelled functions reach. -/
inductive CryptoError where
  | invalidSize (expected actual : Nat)
  | malformedCiphertext
  | malformedPublicKey
deriving DecidableEq

def CryptoError.text : CryptoError → String
  | invalidSize expected actual => s!"invalid input size: expected {expected}, got {actual}"
  | malformedCiphertext => "ciphertext malformed"
  | malformedPublicKey => "public key malformed"

/-- The two component libraries: key agreement on 32-byte strings, and Kyber keys, public key first, encapsulation into a shared secret and a ciphertext, and decapsulation. -/
class HybridKem where
  x25519PublicKey : (secret : Hash256) → Hash256
  x25519DiffieHellman : (secret peer : Hash256) → Hash256
  kyberKeyPair : KyberLevel → (entropy : Bytes) → Bytes × Bytes
  kyberEncapsulate : KyberLevel → (publicKey entropy : Bytes) → Bytes × Bytes
  kyberDecapsulate : KyberLevel → (ciphertext secretKey : Bytes) → Bytes

export HybridKem (x25519PublicKey x25519DiffieHellman kyberKeyPair kyberEncapsulate kyberDecapsulate)

/-! ### Keys and ciphertexts -/

structure HybridPublicKey where
  x25519 : Hash256
  kyber : Bytes
  level : KyberLevel
deriving DecidableEq

structure HybridKeyPair where
  pub : HybridPublicKey
  x25519Secret : Bytes
  kyberSecret : Bytes
deriving DecidableEq

structure HybridCiphertext where
  bytes : Bytes
  level : KyberLevel
deriving DecidableEq

/-- What an operation draws from the operating system: an X25519 secret and the randomness of Kyber. -/
structure KemEntropy where
  x25519Secret : Hash256
  kyber : Bytes
deriving DecidableEq

def Hash256.ofBytes (bytes : Bytes) : Option Hash256 :=
  if h : bytes.length = 32 then some ⟨bytes, h⟩ else none

namespace HybridKem

def kdfContext : Bytes := ascii "QuantumVault-Hybrid-KEM-v1"

variable [HybridKem]

def generateKeypair (level : KyberLevel) (entropy : KemEntropy) : HybridKeyPair :=
  let kyber := kyberKeyPair level entropy.kyber
  { pub := ⟨x25519PublicKey entropy.x25519Secret, kyber.1, level⟩
    x25519Secret := entropy.x25519Secret.bytes
    kyberSecret := kyber.2 }

variable [Crypto]

/-- The shared secret: a hash of the whole transcript. -/
def kdfCombine (ecdh : Hash256) (kyberSs : Bytes) (ephX25519Pk peerX25519Pk : Hash256) (kyberCt : Bytes) : Hash256 :=
  sha3_256 (kdfContext ++ ecdh.bytes ++ kyberSs ++ ephX25519Pk.bytes ++ peerX25519Pk.bytes ++ kyberCt)

def encapsulateHybrid (peer : HybridPublicKey) (entropy : KemEntropy) : Except CryptoError (HybridCiphertext × Hash256) := do
  let ephPk := x25519PublicKey entropy.x25519Secret
  let ecdh := x25519DiffieHellman entropy.x25519Secret peer.x25519
  require (peer.kyber.length = peer.level.kyberPublicKeyBytes) .malformedPublicKey
  let (kyberSs, kyberCt) := kyberEncapsulate peer.level peer.kyber entropy.kyber
  let ss := kdfCombine ecdh kyberSs ephPk peer.x25519 kyberCt
  return (⟨ephPk.bytes ++ kyberCt, peer.level⟩, ss)

def decapsulateHybrid (keyPair : HybridKeyPair) (ciphertext : HybridCiphertext) : Except CryptoError Hash256 := do
  require (ciphertext.level = keyPair.pub.level) .malformedCiphertext
  require (ciphertext.bytes.length = ciphertext.level.hybridCiphertextBytes) .malformedCiphertext
  let (ephPk, kyberCt) ← okOr (Hash256.decode ciphertext.bytes) .malformedCiphertext
  let x25519Secret ← okOr (Hash256.ofBytes keyPair.x25519Secret)
    (.invalidSize x25519PkBytes keyPair.x25519Secret.length)
  let ecdh := x25519DiffieHellman x25519Secret ephPk
  require (keyPair.kyberSecret.length = keyPair.pub.level.kyberSecretKeyBytes)
    (.invalidSize keyPair.pub.level.kyberSecretKeyBytes keyPair.kyberSecret.length)
  let kyberSs := kyberDecapsulate keyPair.pub.level kyberCt keyPair.kyberSecret
  return kdfCombine ecdh kyberSs ephPk keyPair.pub.x25519 kyberCt

end HybridKem

end QuantumVault
