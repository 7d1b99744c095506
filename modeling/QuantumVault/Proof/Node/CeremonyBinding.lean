import QuantumVault.Proof.Node.Ceremony

/-!
# What ceremony messages and transcripts bind

A registration is signed over its fields one after the other, without their lengths. A registration whose fields have the same lengths cannot have the same payload unless it is the same, but every other way to cut the payload into fields is another registration under the same signature.

A transcript is checked by replaying it. Its nonce and its block hash are compared with those of the replay, the counts next to them are not.
-/

namespace QuantumVault

open Result Update CeremonyCoordinator

/-! ### Registrations under one signature -/

/-- The lengths that the payload of a registration does not tell. -/
def Registration.shape (reg : Registration) : Nat × Option Nat :=
  (reg.vrfKey.length, reg.rewardAddress.map List.length)

def shapeLength (shape : Nat × Option Nat) : Nat := shape.1 + shape.2.getD 0

/-- Two registrations agree in everything but the signature. -/
def SameRegistration (reg reg' : Registration) : Prop :=
  reg.vrfKey = reg'.vrfKey ∧ reg.stakePledge = reg'.stakePledge ∧ reg.rewardAddress = reg'.rewardAddress

def Registration.tail (reg : Registration) : Bytes :=
  reg.vrfKey ++ (toLittleEndian 8 reg.stakePledge.toNat ++ reg.rewardAddress.getD [])

section Payloads

variable {c : CeremonyCoordinator} {reg reg' : Registration}

theorem Registration.length_tail (reg : Registration) : reg.tail.length = shapeLength reg.shape + 8 := by
  have haddress : (reg.rewardAddress.getD []).length = (reg.rewardAddress.map List.length).getD 0 := by
    cases reg.rewardAddress <;> rfl
  rw [tail, List.length_append, List.length_append, length_toLittleEndian, haddress]
  simp only [shapeLength, shape]
  omega

theorem registrationSigningPayload_eq (c : CeremonyCoordinator) (reg : Registration) : c.registrationSigningPayload reg =
    c.params.domain.toUTF8.toList ++ ascii "/register/v1" ++ reg.identityKey ++ reg.tail := by
  rw [registrationSigningPayload, Registration.tail]
  simp only [List.append_assoc]

theorem registrationSigningPayload_eq_iff (hkey : reg'.identityKey = reg.identityKey) :
    c.registrationSigningPayload reg = c.registrationSigningPayload reg' ↔ reg.tail = reg'.tail := by
  rw [registrationSigningPayload_eq, registrationSigningPayload_eq, hkey, List.append_cancel_left_eq]

private theorem sameRegistration_of_tail_eq (hshape : reg.shape = reg'.shape) (h : reg.tail = reg'.tail) :
    SameRegistration reg reg' := by
  obtain ⟨hvrfLength, haddressLength⟩ := Prod.mk.inj hshape
  obtain ⟨hvrf, hrest⟩ := List.append_inj h hvrfLength
  obtain ⟨hstake, haddress⟩ := List.append_inj hrest (by rw [length_toLittleEndian, length_toLittleEndian])
  refine ⟨hvrf, toLittleEndian_u64_inj hstake, ?_⟩
  cases haddr : reg.rewardAddress <;> cases haddr' : reg'.rewardAddress <;> simp_all

/-- The registration of a given shape with the payload of another. -/
def Registration.recut (reg : Registration) (shape : Nat × Option Nat) : Registration :=
  { reg with
    vrfKey := reg.tail.take shape.1
    stakePledge := UInt64.ofNat (ofLittleEndian ((reg.tail.drop shape.1).take 8))
    rewardAddress := shape.2.map fun _ => reg.tail.drop (shape.1 + 8) }

variable {shape : Nat × Option Nat}

theorem Registration.shape_recut (h : shapeLength shape = shapeLength reg.shape) : (reg.recut shape).shape = shape := by
  have hlength := reg.length_tail
  rw [← h, shapeLength] at hlength
  obtain ⟨vrfLength, addressLength⟩ := shape
  have hvrf : (reg.tail.take vrfLength).length = vrfLength := by
    rw [List.length_take]
    dsimp only at hlength
    omega
  refine Prod.ext hvrf ?_
  cases addressLength with
  | none => rfl
  | some addressLength =>
      refine congrArg some ?_
      rw [List.length_drop, hlength]
      dsimp only [Option.getD_some]
      omega

private theorem Registration.tail_recut (h : shapeLength shape = shapeLength reg.shape) :
    (reg.recut shape).tail = reg.tail := by
  have hlength := reg.length_tail
  rw [← h, shapeLength] at hlength
  obtain ⟨vrfLength, addressLength⟩ := shape
  dsimp only at hlength
  have hword : ((reg.tail.drop vrfLength).take 8).length = 8 := by
    rw [List.length_take, List.length_drop]
    omega
  have hlt : ofLittleEndian ((reg.tail.drop vrfLength).take 8) < 2 ^ 64 := by
    have hbound := ofLittleEndian_lt ((reg.tail.drop vrfLength).take 8)
    rw [hword] at hbound
    exact hbound
  have hstake : toLittleEndian 8 (UInt64.ofNat (ofLittleEndian ((reg.tail.drop vrfLength).take 8))).toNat =
      (reg.tail.drop vrfLength).take 8 := by
    have hround := toLittleEndian_ofLittleEndian ((reg.tail.drop vrfLength).take 8)
    rw [hword] at hround
    rw [UInt64.toNat_ofNat', Nat.mod_eq_of_lt hlt, hround]
  have haddress : (addressLength.map fun _ => reg.tail.drop (vrfLength + 8)).getD [] = reg.tail.drop (vrfLength + 8) := by
    cases addressLength with
    | none =>
        rw [Option.map_none, Option.getD_none, List.drop_of_length_le]
        rw [hlength]
        dsimp only [Option.getD_none]
        omega
    | some addressLength => rfl
  rw [recut, tail]
  dsimp only
  rw [hstake, haddress, ← List.drop_drop, List.take_append_drop, List.take_append_drop]

end Payloads

theorem createRegistration_eq_ok [Signing] {level : DilithiumLevel} {secretKey publicKey vrfKey : Bytes}
    {stakePledge : UInt64} {params : CeremonyParams} {reg : Registration} :
    Participant.createRegistration level secretKey publicKey stakePledge vrfKey params.domain = .ok reg ↔
      ∃ signature, reg = ⟨publicKey, vrfKey, stakePledge, none, signature⟩ ∧
        Participant.sign level secretKey ((CeremonyCoordinator.new params).registrationSigningPayload reg) =
          .ok signature := by
  rw [Participant.createRegistration, bind_eq_ok]
  refine exists_congr fun signature => ?_
  rw [pure_eq_ok, eq_comm (b := reg), and_comm]
  refine and_congr_right fun hreg => ?_
  rw [hreg, registrationSigningPayload, Option.getD_none, List.append_nil]
  rfl

/-- A signature of a key verifies for one message only. -/
def SignatureBindsMessage [Crypto] (level : DilithiumLevel) (identityKey signature : Bytes) : Prop :=
  ∀ payload payload', Verifies level identityKey payload signature → Verifies level identityKey payload' signature →
    payload = payload'

/-- No registration of the given shape passes for this one. -/
def RegistrationBound (c : CeremonyCoordinator) (reg : Registration) (shape : Nat × Option Nat) : Prop :=
  ∀ reg' : Registration, reg'.identityKey = reg.identityKey → reg'.shape = shape →
    c.registrationSigningPayload reg = c.registrationSigningPayload reg' → SameRegistration reg reg'

/-- **A registration is bound against exactly its own shape and the shapes of another length.** Where it is bound, a signature that it verifies under gets no other registration accepted. -/
theorem registration_bound_iff [Crypto] (c : CeremonyCoordinator) (reg : Registration) (shape : Nat × Option Nat) :
    (RegistrationBound c reg shape ↔ shape = reg.shape ∨ shapeLength shape ≠ shapeLength reg.shape) ∧
      (RegistrationBound c reg shape → ∀ (reg' : Registration) (c' : CeremonyCoordinator),
        reg'.identityKey = reg.identityKey → reg'.shape = shape → reg'.signature = reg.signature →
        Verifies c.params.dilithiumLevel reg.identityKey (c.registrationSigningPayload reg) reg.signature →
        SignatureBindsMessage c.params.dilithiumLevel reg.identityKey reg.signature →
        (acceptRegistration reg').run c = (.ok (), c') → SameRegistration reg reg') := by
  refine ⟨⟨fun hbound => ?_, fun hcond reg' hkey hshape hpayload => ?_⟩, ?_⟩
  · refine or_iff_not_imp_right.mpr fun hlength => ?_
    rw [ne_eq, not_not] at hlength
    have hkey : (reg.recut shape).identityKey = reg.identityKey := rfl
    have hpayload : c.registrationSigningPayload reg = c.registrationSigningPayload (reg.recut shape) :=
      (registrationSigningPayload_eq_iff hkey).mpr (Registration.tail_recut hlength).symm
    obtain ⟨hvrf, -, haddress⟩ := hbound (reg.recut shape) hkey (Registration.shape_recut hlength) hpayload
    rw [← Registration.shape_recut hlength, Registration.shape, Registration.shape, ← hvrf, ← haddress]
  · rw [registrationSigningPayload_eq_iff hkey] at hpayload
    rcases hcond with hsame | hlength
    · exact sameRegistration_of_tail_eq (hsame.symm.trans hshape.symm) hpayload
    · have htail := congrArg List.length hpayload
      rw [Registration.length_tail, Registration.length_tail, hshape] at htail
      exact absurd (by omega) hlength
  · intro hbound reg' c' hkey hshape hsignature hverifies hbinds haccept
    obtain ⟨-, -, hvalid, -⟩ := acceptRegistration_eq_ok.mp haccept
    have hverifies' := hvalid.signature
    rw [hkey, hsignature] at hverifies'
    exact hbound reg' hkey hshape (hbinds _ _ hverifies hverifies')

/-- A registration as a participant makes it, with a VRF key of 32 bytes. -/
def sampleRegistration : Registration := ⟨List.replicate 1952 1, List.replicate 31 7 ++ [0], 5000000000, none, []⟩

/-- The last byte of the VRF key becomes part of the pledge, and the last byte of the pledge a reward address. -/
def sampleRecutRegistration : Registration := ⟨List.replicate 1952 1, List.replicate 31 7, 1280000000000, some [0], []⟩

theorem registration_not_bound : ¬ ∀ (c : CeremonyCoordinator) (reg reg' : Registration),
    reg'.identityKey = reg.identityKey → c.registrationSigningPayload reg = c.registrationSigningPayload reg' →
      SameRegistration reg reg' := by
  intro hall
  have htail : sampleRegistration.tail = sampleRecutRegistration.tail := by decide
  have hkey : sampleRecutRegistration.identityKey = sampleRegistration.identityKey := rfl
  have hsame := hall (.new .mainnetDefault) sampleRegistration sampleRecutRegistration hkey
    ((registrationSigningPayload_eq_iff hkey).mpr htail)
  exact absurd hsame.2.1 (by decide)

/-! ### Transcripts -/

section Transcripts

variable [Crypto]

/-- **What the check of a transcript covers.** An accepted transcript is the one that its own messages lead to, up to the total stake, the number of participants and the time, which are derived from the registrations but not compared. -/
theorem verifyTranscript_iff (transcript : CeremonyTranscript) (now : UInt64) :
    (verifyTranscript transcript now = .ok true ↔ ∃ c output,
      (replay transcript.registrations transcript.contributions).run (.new transcript.params) = (.ok (), c) ∧
        c.finalize now = .ok output ∧
        output.epochNonce = transcript.epochNonce ∧
        hexEncode output.genesisBlock.header.hash.bytes = transcript.genesisBlockHash ∧
        output.transcript.totalStake.toNat = (transcript.registrations.map fun reg => reg.stakePledge.toNat).sum ∧
        output.transcript.participantCount = transcript.registrations.length ∧
        output.transcript = { transcript with
          totalStake := output.transcript.totalStake
          participantCount := output.transcript.participantCount
          finalizedAt := now }) ∧
    ∀ totalStake participantCount finalizedAt,
      verifyTranscript { transcript with totalStake, participantCount, finalizedAt } now =
        verifyTranscript transcript now := by
  refine ⟨⟨fun h => ?_, fun h => ?_⟩, fun _ _ _ => rfl⟩
  · unfold verifyTranscript at h
    split at h
    · cases h
    · rename_i u c hreplay
      obtain ⟨output, hfinalize, hchecks⟩ := bind_eq_ok.mp h
      simp only [require_bind_eq_ok] at hchecks
      obtain ⟨hnonce, hblock, -⟩ := hchecks
      obtain ⟨hregs, -, -, rfl⟩ := replay_eq_ok.mp hreplay
      obtain ⟨-, -, rfl⟩ := finalize_eq_ok.mp hfinalize
      refine ⟨_, _, hreplay, hfinalize, hnonce, hblock, hregs.totalStake_registered, hregs.size_registered, ?_⟩
      dsimp only at hnonce hblock ⊢
      rw [hnonce, hblock]
      rfl
  · obtain ⟨c, output, hreplay, hfinalize, hnonce, hblock, -⟩ := h
    exact verifyTranscript_of_replay hreplay hfinalize hnonce hblock

end Transcripts

/-! ### A ceremony of one participant -/

def sampleMember : Registration :=
  ⟨List.replicate 1952 1, List.replicate 32 7, 1000, none, List.replicate 3309 2⟩

def sampleEntropy : Contribution := ⟨List.replicate 1952 1, repeatedByte 5, List.replicate 3309 2⟩

section Sample

/-- Primitives under which every signature of the right size verifies. -/
local instance admittingCrypto : Crypto := ⟨fun _ => repeatedByte 1, fun _ => repeatedByte 1, fun _ _ _ _ => true⟩

theorem verifies_sample (payload : Bytes) : Verifies .level3 (List.replicate 1952 1) payload (List.replicate 3309 2) := by
  have hkey : (List.replicate 1952 (1 : UInt8)).length = DilithiumLevel.level3.publicKeyBytes := List.length_replicate
  have hsig : (List.replicate 3309 (2 : UInt8)).length = DilithiumLevel.level3.signatureBytes := List.length_replicate
  refine ⟨List.replicate 3309 2, ?_, ?_⟩
  · rw [PqcSignature.fromBytes, if_neg]
    rw [List.isEmpty_iff_length_eq_zero, hsig]
    decide
  · unfold verifyPqc
    rw [if_neg (not_not.mpr hkey), if_neg (not_not.mpr hsig)]
    rfl

theorem registrable_sample : Registrable .devnetDefault [sampleMember] where
  valid := by
    rw [List.forall_mem_singleton]
    exact ⟨by decide, if_neg (not_not.mpr List.length_replicate), verifies_sample _⟩
  distinct := List.nodup_singleton _
  room := by decide
  budget := by decide

private theorem contributable_sample : Contributable .devnetDefault [sampleMember] [sampleEntropy] where
  valid := by
    rw [List.forall_mem_singleton]
    exact ⟨⟨sampleMember.verified, Std.ExtTreeMap.getElem?_insert_self, verifies_sample _⟩, by decide⟩
  distinct := List.nodup_singleton _

/-- The transcript of the ceremony, with another total stake and another number of participants. -/
def sampleTranscript : CeremonyTranscript :=
  let c := conducted .devnetDefault [sampleMember] [sampleEntropy]
  ⟨.devnetDefault, [sampleMember], [sampleEntropy], c.deriveEpochNonce, hexEncode c.buildGenesisBlock.header.hash.bytes,
    999999, 7, 0⟩

/-- The altered transcript is still accepted. -/
theorem transcript_not_determined : ¬ ∀ (_ : Crypto) (transcript : CeremonyTranscript) (now : UInt64),
    verifyTranscript transcript now = .ok true → ∀ c output,
      (replay transcript.registrations transcript.contributions).run (.new transcript.params) = (.ok (), c) →
      c.finalize now = .ok output → output.epochNonce = transcript.epochNonce ∧
        hexEncode output.genesisBlock.header.hash.bytes = transcript.genesisBlockHash ∧
        output.transcript.totalStake = transcript.totalStake ∧
        output.transcript.participantCount = transcript.participantCount := by
  intro hall
  have hreplay : (replay sampleTranscript.registrations sampleTranscript.contributions).run
      (.new sampleTranscript.params) = (.ok (), conducted .devnetDefault [sampleMember] [sampleEntropy]) :=
    replay_eq_ok.mpr ⟨registrable_sample, by decide, contributable_sample, rfl⟩
  have hsize : (conducted .devnetDefault [sampleMember] [sampleEntropy]).registrations.size = 1 :=
    registrable_sample.size_registered
  have hfinalize : (conducted .devnetDefault [sampleMember] [sampleEntropy]).finalize 0 = .ok _ :=
    finalize_eq_ok.mpr ⟨rfl, hsize.trans_le (by decide), rfl⟩
  have hverify : verifyTranscript sampleTranscript 0 = .ok true :=
    verifyTranscript_of_replay hreplay hfinalize rfl rfl
  obtain ⟨-, -, -, hcount⟩ := hall admittingCrypto sampleTranscript 0 hverify _ _ hreplay hfinalize
  exact absurd (hsize.symm.trans hcount) (by decide)

end Sample

end QuantumVault
