import QuantumVault.Privacy.Stealth

/-!
# Selective disclosure

A recipient proves to an auditor that one output is its own, and if it likes, what amount is in it. The proof carries the shared secret, from which the auditor derives the tag and the commitment of the output again, and a hash over everything it discloses.
-/

namespace QuantumVault

open Stealth

/-! ### Commitments to amounts -/

/-- A commitment scheme for amounts. Blinding factors have 32 bytes. Either call may fail. -/
structure Committer where
  commit : (value : UInt64) → (blinding : Hash256) → Except PrivacyError Bytes
  verifyOpening : (commitment : Bytes) → (value : UInt64) → (blinding : Hash256) → Except PrivacyError Bool

def commitmentDomain : Bytes := ascii "QuantumVault-Pedersen-v1"

def mockCommitHash [Crypto] (value : UInt64) (blinding : Hash256) : Hash256 :=
  sha3_256 (commitmentDomain ++ toLittleEndian 8 value.toNat ++ blinding.bytes)

/-- The commitments are hashes until there is a real scheme. -/
def mockCommitter [Crypto] : Committer where
  commit value blinding := .ok (mockCommitHash value blinding).bytes
  verifyOpening commitment value blinding := .ok (decide (commitment = (mockCommitHash value blinding).bytes))

/-! ### Disclosure proofs -/

def disclosureDomain : Bytes := ascii "QuantumVault-Disclosure-v1"

/-- What the binding hash is taken of. Parts that are absent take no bytes. -/
def bindingPreimage (sharedSecret onetimePkHash : Hash256) (amount : Option UInt64) (blinding : Option Hash256) : Bytes :=
  disclosureDomain ++ sharedSecret.bytes ++ onetimePkHash.bytes ++
    (amount.map fun amt => toLittleEndian 8 amt.toNat).getD [] ++ (blinding.map Hash256.bytes).getD []

def computeBindingHash [Crypto] (sharedSecret onetimePkHash : Hash256) (amount : Option UInt64)
    (blinding : Option Hash256) : Hash256 :=
  sha3_256 (bindingPreimage sharedSecret onetimePkHash amount blinding)

structure DisclosureProof where
  sharedSecretBytes : Hash256
  disclosedAmount : Option UInt64
  disclosedBlinding : Option Hash256
  bindingHash : Hash256
deriving DecidableEq

namespace DisclosureProof

variable [Crypto]

def create (sharedSecret onetimePkHash : Hash256) (amount : Option UInt64) (blinding : Option Hash256) : DisclosureProof :=
  ⟨sharedSecret, amount, blinding, computeBindingHash sharedSecret onetimePkHash amount blinding⟩

def verify (self : DisclosureProof) (output : StealthOutput) (spendPk : Bytes) (commitment : Option Bytes)
    (committer : Committer) : Except PrivacyError Bool :=
  let ss := self.sharedSecretBytes
  if computeViewTag ss ≠ output.viewTag then .ok false
  else if computeOnetimePkHash ss spendPk ≠ output.onetimePkHash then .ok false
  else if self.bindingHash ≠ computeBindingHash ss output.onetimePkHash self.disclosedAmount self.disclosedBlinding then
    .ok false
  else
    match self.disclosedAmount, self.disclosedBlinding, commitment with
    | some amt, some blinding, some comm => do
        if ¬ (← committer.verifyOpening comm amt blinding) then return false
        return true
    | _, _, _ => .ok true

end DisclosureProof

end QuantumVault
