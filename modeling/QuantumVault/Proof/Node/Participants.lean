import QuantumVault.Proof.Node.CeremonyBinding
import QuantumVault.Proof.Wallet.Signing

/-!
# Honest participants of the ceremony

A participant registers with a generated key and signs what it sends. The coordinator accepts all that such participants send, as long as their number and their pledges are within the bounds and no two have one key, and the ceremony can then be finished.
-/

namespace QuantumVault

open Result Update CeremonyCoordinator

/-- Someone who takes part: the seed of the key, and what is registered and contributed. -/
structure Applicant where
  seed : Hash256
  vrfKey : Bytes
  stakePledge : UInt64
  randomness : Hash256

variable [Crypto] [Signing]

namespace Applicant

variable {params : CeremonyParams}

def publicKey (params : CeremonyParams) (a : Applicant) : Bytes := (mlDsaKeyGen params.dilithiumLevel a.seed).1

def secretKey (params : CeremonyParams) (a : Applicant) : Bytes := (mlDsaKeyGen params.dilithiumLevel a.seed).2

def registration (params : CeremonyParams) (a : Applicant) : Registration :=
  let unsigned : Registration := ⟨a.publicKey params, a.vrfKey, a.stakePledge, none, []⟩
  { unsigned with
    signature := mlDsaSign params.dilithiumLevel (a.secretKey params)
      ((CeremonyCoordinator.new params).registrationSigningPayload unsigned) }

def contribution (params : CeremonyParams) (a : Applicant) : Contribution :=
  let unsigned : Contribution := ⟨a.publicKey params, a.randomness, []⟩
  { unsigned with
    signature := mlDsaSign params.dilithiumLevel (a.secretKey params)
      ((CeremonyCoordinator.new params).contributionSigningPayload unsigned) }

theorem sign_eq (hsigning : SigningCorrect) (a : Applicant) (payload : Bytes) :
    Participant.sign params.dilithiumLevel (a.secretKey params) payload =
      .ok (mlDsaSign params.dilithiumLevel (a.secretKey params) payload) := by
  have hlen : (a.secretKey params).length = params.dilithiumLevel.secretKeyBytes := hsigning.length_secretKey _ _
  refine require_bind_eq_ok.mpr ⟨hlen, ?_⟩
  rw [signPqc, if_neg (not_not.mpr hlen), fromBytes_signature hsigning]
  rfl

private theorem createRegistration_eq (hsigning : SigningCorrect) (a : Applicant) :
    Participant.createRegistration params.dilithiumLevel (a.secretKey params) (a.publicKey params) a.stakePledge a.vrfKey
      params.domain = .ok (a.registration params) :=
  createRegistration_eq_ok.mpr ⟨_, rfl, sign_eq hsigning a _⟩

private theorem createContribution_eq (hsigning : SigningCorrect) (a : Applicant) :
    Participant.createContribution params.dilithiumLevel (a.secretKey params) (a.publicKey params) a.randomness
      params.domain = .ok (a.contribution params) :=
  bind_eq_ok.mpr ⟨_, sign_eq hsigning a _, rfl⟩

theorem verifies (hsigning : SigningCorrect) (a : Applicant) (payload : Bytes) :
    Verifies params.dilithiumLevel (a.publicKey params) payload
      (mlDsaSign params.dilithiumLevel (a.secretKey params) payload) :=
  ⟨_, fromBytes_signature hsigning _ _ _, verifyPqc_sign hsigning _ _ _⟩

private theorem registration_valid (hsigning : SigningCorrect) {a : Applicant}
    (hstake : params.minStakePerParticipant ≤ a.stakePledge) :
    (a.registration params).Valid params where
  stake := hstake
  key := if_neg (not_not.mpr (hsigning.length_publicKey _ _))
  signature := verifies hsigning a _

private theorem contribution_valid (hsigning : SigningCorrect) {a : Applicant} {applicants : List Applicant}
    (ha : a ∈ applicants)
    (hregs : Registrable params (applicants.map (registration params))) (hrandom : a.randomness ≠ .zero) :
    (a.contribution params).Valid params (registered params (applicants.map (registration params))).registrations where
  registered := by
    have hentry : (a.registration params).entry ∈ (applicants.map (registration params)).map Registration.entry :=
      List.mem_map_of_mem (List.mem_map_of_mem ha)
    exact ⟨(a.registration params).verified, TreeMap.getElem?_insertAll_of_mem (keys_entry _ ▸ hregs.distinct) hentry,
      verifies hsigning a _⟩
  randomness := hrandom

end Applicant

/-! ### Everyone is accepted -/

omit [Signing] in
/-- Calls that go through one after the other are all accepted. -/
theorem acceptedCalls_of_run {calls : List CeremonyCall} {c c' : CeremonyCoordinator} {u : PUnit}
    (h : (forM calls CeremonyCall.apply).run c = (.ok u, c')) : acceptedCalls c calls = calls ∧ afterCalls c calls = c' := by
  induction calls generalizing c with
  | nil =>
      obtain rfl := run_forM_nil_eq_ok.mp h
      exact ⟨rfl, rfl⟩
  | cons call calls ih =>
      obtain ⟨c₁, hcall, hrest⟩ := run_forM_cons_eq_ok.mp h
      obtain ⟨haccepted, hafter⟩ := ih hrest
      rw [acceptedCalls, afterCalls, List.foldl_cons, hcall]
      exact ⟨congrArg (call :: ·) haccepted, hafter⟩

def ceremonyCalls (regs : List Registration) (contribs : List Contribution) : List CeremonyCall :=
  regs.map .acceptRegistration ++ .closeRegistration :: contribs.map .acceptContribution

omit [Signing] in
private theorem acceptedCalls_ceremonyCalls {params : CeremonyParams} {regs : List Registration} {contribs : List Contribution}
    {c : CeremonyCoordinator} (h : (replay regs contribs).run (.new params) = (.ok (), c)) :
    acceptedRegistrations params (ceremonyCalls regs contribs) = regs ∧
      acceptedContributions params (ceremonyCalls regs contribs) = contribs ∧
      afterCalls (.new params) (ceremonyCalls regs contribs) = c := by
  have hrun : (forM (ceremonyCalls regs contribs) CeremonyCall.apply).run (.new params) = (.ok (), c) := by
    obtain ⟨_, c₁, hregs, _, c₂, hclose, hcontribs⟩ := by simpa only [replay, run_bind_eq_ok] using h
    refine run_forM_append_eq_ok.mpr ⟨c₁, ?_, run_forM_cons_eq_ok.mpr ⟨c₂, hclose, ?_⟩⟩
    · rw [Update.forM_map]
      exact hregs
    · rw [Update.forM_map]
      exact hcontribs
  obtain ⟨haccepted, hafter⟩ := acceptedCalls_of_run hrun
  rw [acceptedRegistrations, acceptedContributions, haccepted]
  refine ⟨?_, ?_, hafter⟩
  · simp [ceremonyCalls, CeremonyCall.registration?, Function.comp_def]
  · simp [ceremonyCalls, CeremonyCall.contribution?, Function.comp_def, List.filterMap_cons]

omit [Signing] in
private theorem Contributable.size_conducted {params : CeremonyParams} {regs : List Registration} {contribs : List Contribution}
    (h : Contributable params regs contribs) : (conducted params regs contribs).contributions.size = contribs.length := by
  have hlist := TreeMap.toList_insertAll_perm (keys_contribution_entry contribs ▸ h.distinct)
    fun (entry : Hash256 × VerifiedContribution) _ =>
      (Std.ExtTreeMap.getElem?_empty : (∅ : Std.ExtTreeMap Hash256 VerifiedContribution)[entry.1]? = none)
  rw [← Std.ExtTreeMap.length_toList, conducted, hlist.length_eq]
  simp

/-- Applicants whom the bounds of a ceremony admit. -/
structure Admitted (params : CeremonyParams) (applicants : List Applicant) : Prop where
  distinct : ((applicants.map (Applicant.registration params)).map Registration.keyHash).Nodup
  enough : params.minParticipants ≤ applicants.length
  room : applicants.length ≤ params.maxParticipants
  stake : ∀ a ∈ applicants, params.minStakePerParticipant ≤ a.stakePledge
  budget : (applicants.map fun a => a.stakePledge.toNat).sum ≤ params.maxTotalStake.toNat
  randomness : ∀ a ∈ applicants, a.randomness ≠ .zero

def honestCalls (params : CeremonyParams) (applicants : List Applicant) : List CeremonyCall :=
  ceremonyCalls (applicants.map (Applicant.registration params)) (applicants.map (Applicant.contribution params))

/-- **An honest ceremony goes through.** Every applicant can sign, what the admitted applicants send is accepted without exception, and the ceremony can be finished. -/
theorem honest_ceremony (hsigning : SigningCorrect) {params : CeremonyParams} {applicants : List Applicant}
    (h : Admitted params applicants) (now : UInt64) :
    (∀ a ∈ applicants,
      Participant.createRegistration params.dilithiumLevel (a.secretKey params) (a.publicKey params) a.stakePledge a.vrfKey
          params.domain = .ok (a.registration params) ∧
        Participant.createContribution params.dilithiumLevel (a.secretKey params) (a.publicKey params) a.randomness
          params.domain = .ok (a.contribution params)) ∧
      acceptedRegistrations params (honestCalls params applicants) = applicants.map (Applicant.registration params) ∧
      acceptedContributions params (honestCalls params applicants) = applicants.map (Applicant.contribution params) ∧
      ∃ output, (afterCalls (.new params) (honestCalls params applicants)).finalize now = .ok output := by
  have hkeys : (applicants.map (Applicant.contribution params)).map Contribution.keyHash =
      (applicants.map (Applicant.registration params)).map Registration.keyHash := by
    rw [List.map_map, List.map_map]
    rfl
  have hregs : Registrable params (applicants.map (Applicant.registration params)) := by
    refine ⟨?_, h.distinct, ?_, ?_⟩
    · intro reg hreg
      obtain ⟨a, ha, rfl⟩ := List.mem_map.mp hreg
      exact Applicant.registration_valid hsigning (h.stake a ha)
    · rw [List.length_map]
      exact h.room
    · rw [List.map_map]
      exact h.budget
  have hcontribs : Contributable params (applicants.map (Applicant.registration params))
      (applicants.map (Applicant.contribution params)) := by
    refine ⟨?_, hkeys ▸ h.distinct⟩
    intro contrib hcontrib
    obtain ⟨a, ha, rfl⟩ := List.mem_map.mp hcontrib
    exact Applicant.contribution_valid hsigning ha hregs (h.randomness a ha)
  have hmin : params.minParticipants ≤ (applicants.map (Applicant.registration params)).length := by
    rw [List.length_map]
    exact h.enough
  obtain ⟨hacceptedRegs, hacceptedContribs, hafter⟩ :=
    acceptedCalls_ceremonyCalls (replay_eq_ok.mpr ⟨hregs, hmin, hcontribs, rfl⟩)
  have hcount : (conducted params (applicants.map (Applicant.registration params))
      (applicants.map (Applicant.contribution params))).contributions.size = applicants.length := by
    rw [hcontribs.size_conducted, List.length_map]
  have hall : (conducted params (applicants.map (Applicant.registration params))
      (applicants.map (Applicant.contribution params))).registrations.size ≤ applicants.length :=
    (hregs.size_registered.trans (List.length_map _)).le
  refine ⟨fun a _ => ⟨a.createRegistration_eq hsigning, a.createContribution_eq hsigning⟩, hacceptedRegs,
    hacceptedContribs, ?_⟩
  rw [honestCalls, hafter]
  exact ⟨_, finalize_eq_ok.mpr ⟨rfl, hall.trans hcount.ge, rfl⟩⟩

/-! ### Two applicants -/

omit [Crypto] [Signing]

def sampleApplicants : List Applicant := [⟨sampleDigest [1], [], 5, sampleDigest [11]⟩, ⟨sampleDigest [2], [7], 8, sampleDigest [12]⟩]

theorem admitted_sample (applicants : List Applicant) (h : applicants.Perm sampleApplicants) :
    @Admitted signingCrypto sampleSigning .devnetDefault applicants := by
  apply @Admitted.mk signingCrypto sampleSigning
  · have hkeys : ((sampleApplicants.map (@Applicant.registration sampleSigning .devnetDefault)).map
        (@Registration.keyHash signingCrypto)).Nodup := by
      decide +kernel
    exact ((h.map _).map _).nodup_iff.mpr hkeys
  · rw [h.length_eq]
    decide
  · rw [h.length_eq]
    decide
  · intro a ha
    have hstake : ∀ a ∈ sampleApplicants, CeremonyParams.devnetDefault.minStakePerParticipant ≤ a.stakePledge := by decide
    exact hstake a (h.mem_iff.mp ha)
  · rw [(h.map _).sum_eq]
    decide
  · intro a ha
    have hrandomness : ∀ a ∈ sampleApplicants, a.randomness ≠ .zero := by decide +kernel
    exact hrandomness a (h.mem_iff.mp ha)

/-- Two applicants who take part in either order make the same network, which holds what they pledge. -/
theorem ceremony_reproducible_twoApplicants :
    ∃ output output',
      @finalize signingCrypto (@afterCalls signingCrypto (.new .devnetDefault)
        (@honestCalls sampleSigning .devnetDefault sampleApplicants)) 7 = .ok output ∧
      @finalize signingCrypto (@afterCalls signingCrypto (.new .devnetDefault)
        (@honestCalls sampleSigning .devnetDefault sampleApplicants.reverse)) 9 = .ok output' ∧
      output'.epochNonce = output.epochNonce ∧ output'.genesisBlock = output.genesisBlock ∧
      ∃ tx, output.genesisBlock.transactions = [tx] ∧ (tx.outputValues.map UInt64.toNat).sum = 13 := by
  have hperm : sampleApplicants.reverse.Perm sampleApplicants := List.reverse_perm _
  obtain ⟨-, hregs, hcontribs, output, hfinalize⟩ := @honest_ceremony signingCrypto sampleSigning signingCorrect_sample
    .devnetDefault sampleApplicants (admitted_sample _ (List.Perm.refl _)) 7
  obtain ⟨-, hregs', hcontribs', output', hfinalize'⟩ := @honest_ceremony signingCrypto sampleSigning signingCorrect_sample
    .devnetDefault sampleApplicants.reverse (admitted_sample _ hperm) 9
  obtain ⟨⟨tx, hblock, -, -, hsum, -⟩, -, -, hreordered⟩ := (@ceremony_reproducible signingCrypto .devnetDefault
    (@honestCalls sampleSigning .devnetDefault sampleApplicants)).2 7 output hfinalize
  obtain ⟨hnonce, hsame⟩ := hreordered _ 9 output' (by rw [hregs, hregs']; exact hperm.map _)
    (by rw [hcontribs, hcontribs']; exact hperm.map _) hfinalize'
  refine ⟨output, output', hfinalize, hfinalize', hnonce, hsame, tx, hblock, hsum.trans ?_⟩
  rw [hregs, List.map_map]
  rfl

end QuantumVault
