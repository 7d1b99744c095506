import QuantumVault.Privacy.ViewKey

/-!
# What a disclosure proof shows

The secret, the commitment of the output, the amount and the blinding factor are all told by the preimage of the binding hash: the last two differ in length, so their total length says which of them are there. The opening of a commitment is checked only when the proof discloses both. With an amount and no blinding factor, a verified proof says nothing about the commitment.
-/

namespace QuantumVault

open Result Stealth

/-! ### The preimage -/

/-- **The preimage of the binding hash tells everything that is disclosed.** -/
theorem bindingPreimage_injective {ss ss' hash hash' : Hash256} {amount amount' : Option UInt64}
    {blinding blinding' : Option Hash256}
    (h : bindingPreimage ss hash amount blinding = bindingPreimage ss' hash' amount' blinding') :
    ss = ss' ∧ hash = hash' ∧ amount = amount' ∧ blinding = blinding' := by
  have hbytes (a b : Hash256) : a.bytes.length = b.bytes.length := a.length_eq.trans b.length_eq.symm
  have hword (a b : UInt64) : (toLittleEndian 8 a.toNat).length = (toLittleEndian 8 b.toNat).length := by
    rw [length_toLittleEndian, length_toLittleEndian]
  unfold bindingPreimage at h
  simp only [List.append_assoc] at h
  obtain ⟨hss, h⟩ := List.append_inj (List.append_cancel_left h) (hbytes ss ss')
  obtain ⟨hhash, h⟩ := List.append_inj h (hbytes hash hash')
  refine ⟨Hash256.ext hss, Hash256.ext hhash, ?_⟩
  have hlen := congrArg List.length h
  -- eight bytes for the amount and 32 for the blinding factor: no two of the four cases have the same length
  rcases amount with _ | a <;> rcases amount' with _ | a' <;> rcases blinding with _ | b <;> rcases blinding' with _ | b' <;>
    simp only [Option.map_none, Option.map_some, Option.getD_none, Option.getD_some, List.append_nil, List.nil_append,
      List.length_append, List.length_nil, length_toLittleEndian, Hash256.length_eq] at h hlen <;>
    first | omega | skip
  · exact ⟨rfl, rfl⟩
  · exact ⟨rfl, congrArg some (Hash256.ext h)⟩
  · exact ⟨congrArg some (toLittleEndian_u64_inj h), rfl⟩
  · obtain ⟨ha, hb⟩ := List.append_inj h (hword a a')
    exact ⟨congrArg some (toLittleEndian_u64_inj ha), congrArg some (Hash256.ext hb)⟩

/-! ### Verification -/

variable [Crypto] {proof : DisclosureProof} {output : StealthOutput} {spendPk : Bytes} {commitment : Option Bytes}
  {committer : Committer}

/-- The first three checks: the proof belongs to the output and to the key, and is bound to what it discloses. -/
structure DisclosureProof.Belongs (proof : DisclosureProof) (output : StealthOutput) (spendPk : Bytes) : Prop where
  viewTag : computeViewTag proof.sharedSecretBytes = output.viewTag
  onetimePkHash : computeOnetimePkHash proof.sharedSecretBytes spendPk = output.onetimePkHash
  bindingHash : proof.bindingHash =
    computeBindingHash proof.sharedSecretBytes output.onetimePkHash proof.disclosedAmount proof.disclosedBlinding

/-- The last check, where the proof discloses enough for it. -/
def DisclosureProof.OpensIfDisclosed (proof : DisclosureProof) (commitment : Option Bytes) (committer : Committer) : Prop :=
  ∀ amt blinding comm, proof.disclosedAmount = some amt → proof.disclosedBlinding = some blinding →
    commitment = some comm → committer.verifyOpening comm amt blinding = .ok true

theorem DisclosureProof.verify_eq_ok_true : proof.verify output spendPk commitment committer = .ok true ↔
    proof.Belongs output spendPk ∧ proof.OpensIfDisclosed commitment committer := by
  unfold DisclosureProof.verify
  dsimp only
  split
  · rename_i hne
    exact iff_of_false (by simp) fun h => hne h.1.viewTag
  rename_i htag
  split
  · rename_i hne
    exact iff_of_false (by simp) fun h => hne h.1.onetimePkHash
  rename_i hhash
  split
  · rename_i hne
    exact iff_of_false (by simp) fun h => hne h.1.bindingHash
  rename_i hbinding
  rw [ne_eq, not_not] at htag hhash hbinding
  rw [and_iff_right ⟨htag, hhash, hbinding⟩]
  split
  · rename_i amt blinding comm hamount hblinding
    have hopens : proof.OpensIfDisclosed (some comm) committer ↔ committer.verifyOpening comm amt blinding = .ok true := by
      refine ⟨fun h => h amt blinding comm hamount hblinding rfl, fun h amt' blinding' comm' ha hb hc => ?_⟩
      cases hamount.symm.trans ha
      cases hblinding.symm.trans hb
      cases hc
      exact h
    rw [hopens]
    rcases committer.verifyOpening comm amt blinding with e | opened
    · simp
    · cases opened <;> simp
  · rename_i hmissing
    exact iff_of_true rfl fun amt blinding comm ha hb hc => (hmissing amt blinding comm ha hb hc).elim

/-! ### What an auditor may conclude -/

def DisclosureTruthful (proof : DisclosureProof) (output : StealthOutput) (spendPk comm : Bytes) (committer : Committer) :
    Prop :=
  proof.verify output spendPk (some comm) committer = .ok true → ∀ amt, proof.disclosedAmount = some amt →
    ∃ blinding, proof.disclosedBlinding = some blinding ∧ committer.verifyOpening comm amt blinding = .ok true

/-- **A verified disclosure is truthful unless it leaves the blinding factor out.** An honest proof of a correct opening always verifies, and two proofs have the same binding preimage only when they disclose the same. -/
theorem disclosure_truthful_iff (proof : DisclosureProof) (output : StealthOutput) (spendPk comm : Bytes)
    (committer : Committer) :
    (DisclosureTruthful proof output spendPk comm committer ↔
      proof.disclosedAmount = none ∨ proof.disclosedBlinding ≠ none ∨ ¬ proof.Belongs output spendPk) ∧
    (∀ ss amount blinding commitment, computeViewTag ss = output.viewTag →
      computeOnetimePkHash ss spendPk = output.onetimePkHash →
      (∀ amt r c, amount = some amt → blinding = some r → commitment = some c →
        committer.verifyOpening c amt r = .ok true) →
      (DisclosureProof.create ss output.onetimePkHash amount blinding).verify output spendPk commitment committer =
        .ok true) ∧
    ∀ ss ss' hash hash' amount amount' blinding blinding',
      bindingPreimage ss hash amount blinding = bindingPreimage ss' hash' amount' blinding' →
        ss = ss' ∧ hash = hash' ∧ amount = amount' ∧ blinding = blinding' := by
  refine ⟨⟨fun htruthful => ?_, fun hcond hverify amt hamount => ?_⟩, ?_, ?_⟩
  · by_contra hnot
    rw [not_or, not_or, ne_eq, not_not, not_not] at hnot
    obtain ⟨hamount, hblinding, hbelongs⟩ := hnot
    obtain ⟨amt, hamt⟩ := Option.ne_none_iff_exists'.mp hamount
    have hopens : proof.OpensIfDisclosed (some comm) committer := by
      intro _ _ _ _ hsome
      rw [hblinding] at hsome
      cases hsome
    obtain ⟨blinding, hsome, -⟩ := htruthful (DisclosureProof.verify_eq_ok_true.mpr ⟨hbelongs, hopens⟩) amt hamt
    rw [hblinding] at hsome
    cases hsome
  · obtain ⟨hbelongs, hopens⟩ := DisclosureProof.verify_eq_ok_true.mp hverify
    rcases hcond with hnone | hblinding | hnot
    · rw [hnone] at hamount
      cases hamount
    · obtain ⟨blinding, hsome⟩ := Option.ne_none_iff_exists'.mp hblinding
      exact ⟨blinding, hsome, hopens amt blinding comm hamount hsome rfl⟩
    · exact absurd hbelongs hnot
  · intro ss amount blinding commitment htag hhash hopens
    exact DisclosureProof.verify_eq_ok_true.mpr ⟨⟨htag, hhash, rfl⟩, hopens⟩
  · intro ss ss' hash hash' amount amount' blinding blinding'
    exact bindingPreimage_injective

def outputTo (sharedSecret : Hash256) (spendPk : Bytes) : StealthOutput :=
  ⟨[], 3, computeViewTag sharedSecret, computeOnetimePkHash sharedSecret spendPk⟩

omit [Crypto] in
theorem disclosure_not_truthful : ¬ ∀ (_ : Crypto) (proof : DisclosureProof) (output : StealthOutput) (spendPk comm : Bytes)
    (committer : Committer), DisclosureTruthful proof output spendPk comm committer := by
  intro hall
  let _ : Crypto := sampleCrypto
  let output := outputTo (repeatedByte 1) (List.replicate 1952 2)
  let proof := DisclosureProof.create (repeatedByte 1) output.onetimePkHash (some 1000000) none
  have hverify : proof.verify output (List.replicate 1952 2) (some (mockCommitHash 5 (repeatedByte 3)).bytes)
      mockCommitter = .ok true :=
    DisclosureProof.verify_eq_ok_true.mpr ⟨⟨rfl, rfl, rfl⟩, fun _ _ _ _ hblinding => by cases hblinding⟩
  obtain ⟨blinding, hblinding, -⟩ := hall sampleCrypto proof output _ _ mockCommitter hverify 1000000 rfl
  cases hblinding

end QuantumVault
