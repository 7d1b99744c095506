import QuantumVault.Core.Threshold
import QuantumVault.Mempool.EncryptedPool

/-!
# Threshold envelopes

The body of a transaction is encrypted under a fresh session key, and the session key to the public key of the committee. Enough shares of the committee give the session key back.
-/

namespace QuantumVault

open Result

/-- The symmetric cipher, uninterpreted. Sealing and opening take the key, the nonce and the data. -/
class Aead where
  aesGcmSeal : (key nonce data : Bytes) → Option Bytes
  aesGcmOpen : (key nonce data : Bytes) → Option Bytes

export Aead (aesGcmSeal aesGcmOpen)

def envelopeCiphertextBytes : Nat := 64

def aesNonceBytes : Nat := 12

def aesKeyBytes : Nat := 32

namespace Threshold

/-- What the source prints for a failure. -/
def CryptoError.message : CryptoError → String
  | invalidThreshold threshold total => "invalid threshold/total: " ++ toString threshold ++ "/" ++ toString total
  | totalTooLarge => "total must be <= 255 for index space"
  | duplicateShareIndex => "duplicate share index"
  | zeroShareIndex => "share index must be non-zero"
  | tooFewParticipants => "DKG requires at least 2 participants"
  | shareVerificationFailed issuer recipient =>
      "share verification failed: issuer=" ++ toString issuer ++ ", recipient=" ++ toString recipient
  | publicKeyMismatch => "aggregate public key mismatch"
  | ciphertextTooShort => "ciphertext too short (need at least 32 bytes for C1)"
  | insufficientShares available need => "insufficient shares: have " ++ toString available ++ ", need " ++ toString need

end Threshold

open Threshold

variable [Crypto] [Aead]

/-- The encrypted session key and the encrypted body, which begins with the nonce. -/
def encryptEnvelope (committeePk : U256) (txBody : Bytes) (aesKeySeed randomness : U256) (nonce : Bytes) :
    Except EncryptedPoolError (Bytes × Bytes) := do
  let kem := DkgThresholdDecryptor.encrypt committeePk aesKeySeed randomness
  let ct ← okOr (aesGcmSeal (toBigEndian aesKeySeed) nonce txBody) (.decryption "AES-GCM encrypt: aead::Error")
  return (kem, nonce ++ ct)

def kemLengthError (length : Nat) : EncryptedPoolError :=
  .decryption ("kem_ciphertext must be 64 bytes, got " ++ toString length)

omit [Crypto] [Aead] in
def createEnvelopeShare (participantId : UInt32) (participantKeyShare : U256) (encryptedTx : EncryptedTx)
    (threshold : UInt32) : Except EncryptedPoolError QuantumVault.DecryptionShare := do
  require (encryptedTx.kemCiphertext.length = envelopeCiphertextBytes) (kemLengthError encryptedTx.kemCiphertext.length)
  let share ← ((DkgThresholdDecryptor.mk participantId participantKeyShare threshold).createDecryptionShare
    encryptedTx.kemCiphertext).mapError fun e => .decryption ("create share: " ++ e.message)
  return ⟨share.participantId, share.shareData⟩

structure DkgEnvelopeDecryptor where
  t : UInt32
  n : UInt32
deriving DecidableEq

namespace DkgEnvelopeDecryptor

/-- The second half of the ciphertext under the hash of what the shares give. -/
def aesKey (kemCiphertext combined : Bytes) : Bytes :=
  let mask := (sha3_256 combined).bytes
  List.zipWith (· ^^^ ·) ((kemCiphertext.drop aesKeyBytes).take (envelopeCiphertextBytes - aesKeyBytes)) mask

def decrypt (d : DkgEnvelopeDecryptor) (encryptedTx : EncryptedTx) (shares : List QuantumVault.DecryptionShare) :
    Except EncryptedPoolError Bytes := do
  require (shares.length < 2 ^ 32) (.decryption "share count overflow")
  let got := UInt32.ofNat shares.length
  require (¬ got < d.t) (.insufficientShares got d.t)
  let cryptoShares := shares.map fun s => Threshold.DecryptionShare.mk s.memberIndex s.shareBytes
  require (encryptedTx.kemCiphertext.length = envelopeCiphertextBytes) (kemLengthError encryptedTx.kemCiphertext.length)
  require (¬ encryptedTx.encryptedBody.length < aesNonceBytes) (.decryption "encrypted_body shorter than AES-GCM nonce")
  let combined ← (combineShares cryptoShares d.t).mapError fun e => .decryption ("combine: " ++ e.message)
  require (¬ combined.length < 32) (.decryption "combined share shorter than 32 bytes")
  let key := aesKey encryptedTx.kemCiphertext (combined.take 32)
  let nonce := encryptedTx.encryptedBody.take aesNonceBytes
  okOr (aesGcmOpen key nonce (encryptedTx.encryptedBody.drop aesNonceBytes)) (.decryption "AES-GCM decrypt: aead::Error")

def toThresholdDecryptor (d : DkgEnvelopeDecryptor) : ThresholdDecryptor := ⟨d.decrypt⟩

end DkgEnvelopeDecryptor

end QuantumVault
