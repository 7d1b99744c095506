import QuantumVault.Privacy.Stealth
import QuantumVault.Proof.Consensus.Kes

/-!
# A recipient finds what was sent to it

Decapsulation returns the secret that was encapsulated once the two component libraries do so: both ends hash the same transcript. The tag and the commitment are functions of that secret, so a scan of the output with the recipient's keys reports it, with the commitment the sender computed.
-/

namespace QuantumVault

open Result HybridKem

/-- Correctness of the component libraries: both ends of a key agreement get the same secret, and Kyber keys and ciphertexts have the lengths of their parameter set and decapsulate to what was encapsulated. -/
structure KemCorrect [HybridKem] : Prop where
  diffieHellman_comm : ∀ a b, x25519DiffieHellman a (x25519PublicKey b) = x25519DiffieHellman b (x25519PublicKey a)
  length_publicKey : ∀ level entropy, (kyberKeyPair level entropy).1.length = level.kyberPublicKeyBytes
  length_secretKey : ∀ level entropy, (kyberKeyPair level entropy).2.length = level.kyberSecretKeyBytes
  length_ciphertext : ∀ level publicKey entropy,
    (kyberEncapsulate level publicKey entropy).2.length = level.kyberCiphertextBytes
  decapsulate : ∀ level keyEntropy entropy,
    kyberDecapsulate level (kyberEncapsulate level (kyberKeyPair level keyEntropy).1 entropy).2
      (kyberKeyPair level keyEntropy).2 = (kyberEncapsulate level (kyberKeyPair level keyEntropy).1 entropy).1

theorem Hash256.ofBytes_bytes (h : Hash256) : Hash256.ofBytes h.bytes = some h := dif_pos h.length_eq

theorem Hash256.ofBytes_eq_some {bytes : Bytes} {hash : Hash256} : Hash256.ofBytes bytes = some hash ↔ bytes = hash.bytes := by
  refine ⟨fun h => ?_, fun h => h ▸ ofBytes_bytes hash⟩
  unfold ofBytes at h
  split at h
  · exact congrArg Hash256.bytes (Option.some.inj h)
  · cases h

private theorem Stealth.levelOfByte_levelByte (level : KyberLevel) : levelOfByte (levelByte level) = .ok level := by
  cases level <;> rfl

variable [Crypto] [HybridKem] {level : KyberLevel}

theorem HybridKem.decapsulate_encapsulate (hkem : KemCorrect) (level : KyberLevel) (viewEntropy entropy : KemEntropy) :
    ∃ bytes ss, encapsulateHybrid (generateKeypair level viewEntropy).pub entropy = .ok (⟨bytes, level⟩, ss) ∧
      decapsulateHybrid (generateKeypair level viewEntropy) ⟨bytes, level⟩ = .ok ss := by
  let pk := (kyberKeyPair level viewEntropy.kyber).1
  let ct := (kyberEncapsulate level pk entropy.kyber).2
  let ephPk := x25519PublicKey entropy.x25519Secret
  refine ⟨ephPk.bytes ++ ct, _, require_bind_eq_ok.mpr ⟨hkem.length_publicKey _ _, rfl⟩, ?_⟩
  have hsize : (ephPk.bytes ++ ct).length = level.hybridCiphertextBytes := by
    rw [List.length_append, ephPk.length_eq]
    exact congrArg (32 + ·) (hkem.length_ciphertext level pk entropy.kyber)
  refine require_bind_eq_ok.mpr ⟨rfl, require_bind_eq_ok.mpr ⟨hsize, ?_⟩⟩
  refine okOr_bind_eq_ok.mpr ⟨_, Hash256.decode_bytes ephPk ct, ?_⟩
  refine okOr_bind_eq_ok.mpr ⟨_, Hash256.ofBytes_bytes viewEntropy.x25519Secret, ?_⟩
  refine require_bind_eq_ok.mpr ⟨hkem.length_secretKey _ _, ?_⟩
  show Except.ok (kdfCombine (x25519DiffieHellman viewEntropy.x25519Secret (x25519PublicKey entropy.x25519Secret))
    (kyberDecapsulate level ct (kyberKeyPair level viewEntropy.kyber).2) ephPk
    (x25519PublicKey viewEntropy.x25519Secret) ct) = _
  rw [hkem.decapsulate, hkem.diffieHellman_comm]
  rfl

variable [Signing] {dilithiumLevel : DilithiumLevel} {viewEntropy entropy : KemEntropy} {spendSeed : Hash256}
  {keys : StealthKeys}

omit [Crypto] in
theorem StealthKeys.generate_eq_some (h : StealthKeys.generate level dilithiumLevel viewEntropy spendSeed = some keys) :
    keys.viewKp = generateKeypair level viewEntropy ∧ fromSeedPqc keys.spendLevel spendSeed = some keys.spendKp := by
  unfold StealthKeys.generate at h
  simp only [Option.bind_eq_bind, Option.bind_eq_some_iff] at h
  obtain ⟨spendKp, hspend, hkeys⟩ := h
  cases hkeys
  exact ⟨rfl, hspend⟩

/-- **Create and scan.** What a sender computes for a recipient is found by that recipient, whatever commitment the scan is shown, and the scan reports the sender's secret and commitment. -/
theorem Stealth.scanOutput_createStealthOutput (hkem : KemCorrect)
    (hkeys : StealthKeys.generate level dilithiumLevel viewEntropy spendSeed = some keys) (entropy : KemEntropy) :
    ∃ output ss, createStealthOutput keys.address entropy = .ok (output, ss) ∧
      output.onetimePkHash = computeOnetimePkHash ss keys.spendKp.publicKey ∧
      ∀ shown, scanOutput keys { output with onetimePkHash := shown } = .ok (some ⟨ss, output.onetimePkHash⟩) := by
  obtain ⟨bytes, ss, hencapsulate, hdecapsulate⟩ := decapsulate_encapsulate hkem level viewEntropy entropy
  rw [← (StealthKeys.generate_eq_some hkeys).1] at hencapsulate hdecapsulate
  have hlevel : keys.viewKp.pub.level = level := by rw [(StealthKeys.generate_eq_some hkeys).1]; rfl
  refine ⟨⟨bytes, levelByte level, computeViewTag ss, computeOnetimePkHash ss keys.spendKp.publicKey⟩, ss, ?_, rfl, ?_⟩
  · refine bind_eq_ok.mpr ⟨_, mapError_eq_ok.mpr hencapsulate, ?_⟩
    rw [← hlevel]
    rfl
  · intro shown
    refine bind_eq_ok.mpr ⟨level, levelOfByte_levelByte level, ?_⟩
    refine bind_eq_ok.mpr ⟨ss, mapError_eq_ok.mpr hdecapsulate, ?_⟩
    exact if_neg (not_not.mpr rfl)

end QuantumVault
