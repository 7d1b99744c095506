import QuantumVault.Proof.Mempool.Threshold

/-!
# Envelopes that open

An envelope that was sealed to a committee opens with the shares of enough of its members, if their key shares add up in the exponent. The nonce at the front of the body and the session key behind the mask are then the ones that were used to seal it.
-/

namespace QuantumVault

open Result Threshold

/-- The cipher opens what it has sealed. -/
def AeadCorrect [Aead] : Prop :=
  ∀ key nonce data sealed, aesGcmSeal key nonce data = some sealed → aesGcmOpen key nonce sealed = some data

variable [Crypto] [Aead] {participants : List FeldmanVssParticipant} {pk : U256} {body nonce : Bytes} {seed randomness : U256}
  {etx : EncryptedTx}

private theorem encryptEnvelope_eq_ok :
    encryptEnvelope pk body seed randomness nonce = .ok (etx.kemCiphertext, etx.encryptedBody) ↔
      ∃ sealed, aesGcmSeal (toBigEndian seed) nonce body = some sealed ∧
        etx.kemCiphertext = DkgThresholdDecryptor.encrypt pk seed randomness ∧ etx.encryptedBody = nonce ++ sealed := by
  refine okOr_bind_eq_ok.trans (exists_congr fun sealed => and_congr_right fun _ => ?_)
  rw [pure_eq_ok, Prod.mk.injEq, eq_comm, eq_comm (b := etx.encryptedBody)]

omit [Aead] in
private theorem createEnvelopeShare_honest {n : Nat} (t : UInt32) (ids : Fin n → UInt32)
    (hkem : etx.kemCiphertext = DkgThresholdDecryptor.encrypt pk seed randomness) :
    ((List.ofFn ids).mapM fun id =>
        createEnvelopeShare id (aggregateShare participants (Field.fromU32 id)) etx t) =
      .ok ((honestShares participants ids (Field.reduceBytes randomness)).map fun share =>
        ⟨share.participantId, share.shareData⟩) := by
  have hshare (id : UInt32) : createEnvelopeShare id (aggregateShare participants (Field.fromU32 id)) etx t =
      .ok ⟨id, toBigEndian (Field.pow (Field.pow generator (Field.reduceBytes randomness))
        (aggregateShare participants (Field.fromU32 id)))⟩ := by
    have hhonest := honestShare_encrypt participants t pk seed randomness id
    rw [← hkem] at hhonest
    refine require_bind_eq_ok.mpr ⟨?_, bind_eq_ok.mpr ⟨_, mapError_eq_ok.mpr hhonest, rfl⟩⟩
    rw [hkem, length_encrypt]
    rfl
  rw [funext hshare]
  refine List.mapM_pure.trans ?_
  rw [honestShares, List.map_ofFn, List.map_ofFn]
  rfl

/-- **An envelope opens for its committee.** The shares that enough members give for a sealed envelope decrypt it to its body, if `r` times the weighted sum of their key shares and `r` times the sum of the secrets agree modulo `p - 1`. -/
theorem decrypt_encryptEnvelope (haead : AeadCorrect) {t : UInt32} (n : UInt32) (ids : Fin t.toNat → UInt32)
    (ht : 1 ≤ t) (hlength : ∀ p ∈ participants, p.coefficients.length = t.toNat)
    (hpk : aggregatePublicKey participants = some pk) (hnonce : nonce.length = aesNonceBytes)
    (hseal : encryptEnvelope pk body seed randomness nonce = .ok (etx.kemCiphertext, etx.encryptedBody))
    (hexponent : (Field.reduceBytes randomness).toNat * weightedSum participants ids ≡
      (Field.reduceBytes randomness).toNat * constantSum participants [MOD fieldPrime - 1]) :
    ∃ shares, ((List.ofFn ids).mapM fun id =>
        createEnvelopeShare id (aggregateShare participants (Field.fromU32 id)) etx t) = .ok shares ∧
      (DkgEnvelopeDecryptor.mk t n).decrypt etx shares = .ok body := by
  obtain ⟨sealed, hsealed, hkem, hbody⟩ := encryptEnvelope_eq_ok.mp hseal
  have hcoefficients : ∀ p ∈ participants, p.coefficients ≠ [] := by
    intro p hp hnil
    have hlen := hlength p hp
    rw [hnil, List.length_nil] at hlen
    have htpos : 1 ≤ t.toNat := UInt32.le_iff_toNat_le.mp ht
    omega
  obtain ⟨pk', hpk', hvalue⟩ := exists_aggregatePublicKey hcoefficients
  cases hpk'.symm.trans hpk
  refine ⟨_, createEnvelopeShare_honest t ids hkem, ?_⟩
  have hcombined := (combined_honest_iff ids hvalue (Field.reduceBytes randomness)).mpr hexponent
  have hcount : (honestShares participants ids (Field.reduceBytes randomness)).length = t.toNat := List.length_ofFn
  have hshares : ((honestShares participants ids (Field.reduceBytes randomness)).map fun share =>
      QuantumVault.DecryptionShare.mk share.participantId share.shareData).map (fun s =>
        Threshold.DecryptionShare.mk s.memberIndex s.shareBytes) = honestShares participants ids (Field.reduceBytes randomness) := by
    rw [List.map_map]
    exact List.map_id' _
  unfold DkgEnvelopeDecryptor.decrypt
  simp only [require_bind_eq_ok, List.length_map, hcount, hshares, UInt32.ofNat_toNat]
  refine ⟨t.toNat_lt, UInt32.lt_irrefl t, ?_, ?_, ?_⟩
  · rw [hkem, length_encrypt]
    rfl
  · rw [hbody, List.length_append, hnonce]
    omega
  · refine bind_eq_ok.mpr ⟨_, mapError_eq_ok.mpr (combineShares_of_length hcount), require_bind_eq_ok.mpr ⟨?_, ?_⟩⟩
    · rw [length_toBigEndian]
      omega
    · rw [okOr_eq_ok, List.take_of_length_le (length_toBigEndian _).le, hcombined, hkem, aesKey_encrypt, hbody,
        List.take_left' hnonce, List.drop_left' hnonce]
      exact haead _ _ _ _ hsealed

end QuantumVault
