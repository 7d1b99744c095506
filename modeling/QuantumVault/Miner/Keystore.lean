import QuantumVault.Core.Kes
import QuantumVault.Lib.Result
import QuantumVault.Lib.Text

/-!
# The keystore of an operator

A master seed and the period of the signing key, sealed under a password. The file holds an envelope as JSON, which is written and read back by the JSON library, so a file is its envelope here.
-/

namespace QuantumVault

open Result

/-- The errors of the miner that key management returns. Where the source appends the text of an error from a key library, the reason ends before it. -/
inductive KeyError where
  | keyGeneration (reason : String)
  | signingFailed (reason : String)
  | keystore (reason : String)
deriving DecidableEq

/-- Argon2id and AES-256-GCM. What is sealed opens under its key, and no key opens it to anything else. -/
class AtRest where
  argon2id : (password salt : Bytes) → Except String Bytes
  encrypt : (key nonce plaintext : Bytes) → Bytes
  decrypt : (key nonce ciphertext : Bytes) → Option Bytes
  argon2id_salt : ∀ password salt, salt.length = 16 → ∃ key, argon2id password salt = .ok key
  decrypt_encrypt : ∀ key nonce plaintext, decrypt key nonce (encrypt key nonce plaintext) = some plaintext
  authentic : ∀ key key' nonce plaintext opened,
    decrypt key' nonce (encrypt key nonce plaintext) = some opened → opened = plaintext

structure OperatorKeystorePlaintext where
  version : UInt32
  masterSeed : Hash256
  kesPeriod : UInt32
deriving DecidableEq

structure KdfParams where
  algo : String
  params : String
  salt : Bytes
deriving DecidableEq

structure CipherParams where
  algo : String
  iv : Bytes
  ciphertext : Bytes
  tag : String
deriving DecidableEq

structure OperatorKeystoreEnvelope where
  version : UInt32
  kdf : KdfParams
  cipher : CipherParams
deriving DecidableEq

namespace OperatorKeystorePlaintext

def encode (plaintext : OperatorKeystorePlaintext) : Bytes :=
  Encode.u32 plaintext.version ++ plaintext.masterSeed.bytes ++ Encode.u32 plaintext.kesPeriod

/-- Bytes after the plaintext are ignored. -/
def decode (input : Bytes) : Option OperatorKeystorePlaintext := do
  let (version, rest) ← Decode.u32 input
  let (masterSeed, rest) ← Hash256.decode rest
  let (kesPeriod, _) ← Decode.u32 rest
  return ⟨version, masterSeed, kesPeriod⟩

end OperatorKeystorePlaintext

namespace Keystore

def saltBytes : Nat := 16

def nonceBytes : Nat := 12

def envelopeVersion : UInt32 := 1

/-- What a save draws from the system. -/
structure Entropy where
  salt : Bytes
  iv : Bytes
  length_salt : salt.length = saltBytes
  length_iv : iv.length = nonceBytes

variable [AtRest]

def deriveKey (password salt : Bytes) : Except KeyError Bytes :=
  (AtRest.argon2id password salt).mapError fun e => .keystore ("argon2 derive: " ++ e)

def save (plaintext : OperatorKeystorePlaintext) (password : Bytes) (entropy : Entropy) :
    Except KeyError OperatorKeystoreEnvelope := do
  let key ← deriveKey password entropy.salt
  let ciphertext := AtRest.encrypt key entropy.iv plaintext.encode
  return {
    version := envelopeVersion
    kdf := ⟨"argon2id", "65540,3,1", Hex.encode entropy.salt⟩
    cipher := ⟨"aes-256-gcm", Hex.encode entropy.iv, Hex.encode ciphertext, ""⟩ }

def load (envelope : OperatorKeystoreEnvelope) (password : Bytes) : Except KeyError OperatorKeystorePlaintext := do
  require (envelope.version = envelopeVersion) (.keystore ("unsupported keystore version " ++ toString envelope.version))
  require (envelope.kdf.algo = "argon2id") (.keystore ("unsupported KDF: " ++ envelope.kdf.algo))
  require (envelope.cipher.algo = "aes-256-gcm") (.keystore ("unsupported cipher: " ++ envelope.cipher.algo))
  let salt ← (Hex.decode envelope.kdf.salt).mapError fun e => KeyError.keystore ("hex salt: " ++ e.text)
  let iv ← (Hex.decode envelope.cipher.iv).mapError fun e => KeyError.keystore ("hex iv: " ++ e.text)
  require (iv.length = nonceBytes) (.keystore ("iv must be 12 bytes, got " ++ toString iv.length))
  let ciphertext ← (Hex.decode envelope.cipher.ciphertext).mapError fun e => KeyError.keystore ("hex ciphertext: " ++ e.text)
  let key ← deriveKey password salt
  let plaintextBytes ← okOr (AtRest.decrypt key iv ciphertext) (.keystore "wrong password or corrupted keystore")
  okOr (OperatorKeystorePlaintext.decode plaintextBytes) (.keystore "bincode decode: ")

end Keystore

end QuantumVault
