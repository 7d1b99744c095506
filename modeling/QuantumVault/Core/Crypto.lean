import QuantumVault.Core.Types

/-!
# Cryptographic primitives

Hashing and ML-DSA signature verification come from outside the repository and are left uninterpreted: nothing in the development depends on how they compute. What the repository itself adds around them, the length checks on keys and signatures, is written out.
-/

namespace QuantumVault

inductive DilithiumLevel where
  | level2
  | level3
  | level5
deriving DecidableEq

namespace DilithiumLevel

def publicKeyBytes : DilithiumLevel → Nat
  | level2 => 1312
  | level3 => 1952
  | level5 => 2592

def signatureBytes : DilithiumLevel → Nat
  | level2 => 2420
  | level3 => 3309
  | level5 => 4627

end DilithiumLevel

/-- The uninterpreted primitives. `mlDsaVerify` is the verdict of the signature library on a key and a signature of the exact lengths of the parameter set. -/
class Crypto where
  sha3_256 : Bytes → Hash256
  blake3 : Bytes → Hash256
  mlDsaVerify : DilithiumLevel → (publicKey message signature : Bytes) → Bool

export Crypto (sha3_256 blake3 mlDsaVerify)

variable [Crypto]

/-- A public key is accepted only at the exact length of its level. -/
def PqcPublicKey.fromBytes (level : DilithiumLevel) (bytes : Bytes) : Option Bytes :=
  if bytes.length ≠ level.publicKeyBytes then none else some bytes

/-- A signature is accepted at any non-zero length up to that of its level. -/
def PqcSignature.fromBytes (level : DilithiumLevel) (bytes : Bytes) : Option Bytes :=
  if bytes.isEmpty ∨ bytes.length > level.signatureBytes then none else some bytes

/-- Verification fails with an error, here `none`, when a length is not the one of the level. -/
def verifyPqc (level : DilithiumLevel) (publicKey message signature : Bytes) : Option Bool :=
  if publicKey.length ≠ level.publicKeyBytes then none
  else if signature.length ≠ level.signatureBytes then none
  else some (mlDsaVerify level publicKey message signature)

/-- One signature against one key: the levels are tried in the order 3, 2, 5 and any error counts as a refusal. -/
def checksigPqc (pkBytes sigBytes msg : Bytes) : Bool :=
  [DilithiumLevel.level3, .level2, .level5].any fun level =>
    match PqcPublicKey.fromBytes level pkBytes, PqcSignature.fromBytes level sigBytes with
    | some pk, some sig => verifyPqc level pk msg sig == some true
    | _, _ => false

/-- The keys not used yet, and whether the signature found one of them. -/
def takeMatchingKey (msg sig : Bytes) : List (Bytes × Bool) → List (Bytes × Bool) × Bool
  | [] => ([], false)
  | (pk, used) :: rest =>
      if !used && checksigPqc pk sig msg then ((pk, true) :: rest, true)
      else
        let (rest', found) := takeMatchingKey msg sig rest
        ((pk, used) :: rest', found)

/-- M-of-N check: each signature takes the first unused key it verifies under. -/
def checkmultisigPqc (pks sigs : List Bytes) (msg : Bytes) (threshold : Nat) : Bool :=
  if threshold > pks.length ∨ sigs.length < threshold then false
  else
    let init : List (Bytes × Bool) × Nat := (pks.map fun pk => (pk, false), 0)
    let result := sigs.foldl (fun acc sig =>
      let (keys, found) := takeMatchingKey msg sig acc.1
      (keys, if found then acc.2 + 1 else acc.2)) init
    decide (threshold ≤ result.2)

/-! ### Primitives for small examples -/

omit [Crypto] in
theorem length_repeatedByte (b : UInt8) : (List.replicate 32 b).length = 32 := List.length_replicate

def repeatedByte (b : UInt8) : Hash256 := ⟨List.replicate 32 b, length_repeatedByte b⟩

/-- A checksum in place of the hash, for small examples. It is never zero. -/
def sampleDigest (bytes : Bytes) : Hash256 :=
  ⟨toLittleEndian 8 (bytes.foldl (fun acc b => acc * 31 + b.toNat + 1) 7 % 2 ^ 64) ++ List.replicate 24 1, by simp⟩

omit [Crypto] in
theorem sampleDigest_ne_zero (bytes : Bytes) : sampleDigest bytes ≠ .zero := by
  intro hzero
  have hlast := congrArg (fun h : Hash256 => h.bytes.drop 8) hzero
  rw [sampleDigest, List.drop_left' (length_toLittleEndian 8 _)] at hlast
  exact absurd hlast (by decide)

omit [Crypto] in
/-- The digest with one input sent to zero: nothing else is. -/
theorem eq_of_sampleDigest_zero {input bytes : Bytes}
    (h : (if bytes = input then Hash256.zero else sampleDigest bytes) = .zero) : bytes = input := by
  by_contra hne
  rw [if_neg hne] at h
  exact sampleDigest_ne_zero bytes h

/-- Primitives for small examples: no signature verifies. -/
@[reducible] def sampleCrypto : Crypto := ⟨sampleDigest, sampleDigest, fun _ _ _ _ => false⟩

end QuantumVault
