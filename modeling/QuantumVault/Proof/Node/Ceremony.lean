import QuantumVault.Node.Ceremony

/-!
# The genesis ceremony is reproducible

What the coordinator accepts depends on the messages it has accepted so far only as a set: a list of registrations is accepted one after the other exactly when each is valid, no key comes twice, and their number and their pledges are within the bounds. So the messages can come in any order, and the two maps at the end, from which everything else is derived, are the same. A refused message changes nothing, so a coordinator is always the one that its own logs rebuild.
-/

namespace QuantumVault

open Result Update CeremonyCoordinator

variable [Crypto]

/-! ### Entries -/

/-- A signature of the right size that verifies. -/
def Verifies (level : DilithiumLevel) (identityKey payload signature : Bytes) : Prop :=
  ∃ sig, PqcSignature.fromBytes level signature = some sig ∧ verifyPqc level identityKey payload sig = some true

theorem verifySignature_eq_ok {level : DilithiumLevel} {identityKey payload signature : Bytes} {refusal : String}
    {c c' : CeremonyCoordinator} {u : Unit} :
    (verifySignature level identityKey payload signature refusal).run c = (.ok u, c') ↔
      Verifies level identityKey payload signature ∧ c' = c := by
  unfold verifySignature Verifies
  simp only [run_bind_eq_ok, run_lift_eq_ok, okOr_eq_ok, run_check_eq_ok]
  constructor
  · intro h
    obtain ⟨sig, _, ⟨hsig, rfl⟩, verdict, _, ⟨hverdict, rfl⟩, rfl, rfl⟩ := h
    exact ⟨⟨sig, hsig, hverdict⟩, rfl⟩
  · intro h
    obtain ⟨⟨sig, hsig, hverdict⟩, rfl⟩ := h
    exact ⟨sig, _, ⟨hsig, rfl⟩, true, _, ⟨hverdict, rfl⟩, rfl, rfl⟩

def Registration.keyHash (reg : Registration) : Hash256 := sha3_256 reg.identityKey

def Contribution.keyHash (contrib : Contribution) : Hash256 := sha3_256 contrib.identityKey

def Registration.verified (reg : Registration) : VerifiedRegistration :=
  ⟨reg.identityKey, reg.vrfKey, reg.stakePledge, reg.rewardAddress.getD reg.keyHash.bytes⟩

def Contribution.verified (contrib : Contribution) : VerifiedContribution := ⟨contrib.keyHash, contrib.randomness⟩

def Registration.entry (reg : Registration) : Hash256 × VerifiedRegistration := (reg.keyHash, reg.verified)

def Contribution.entry (contrib : Contribution) : Hash256 × VerifiedContribution := (contrib.keyHash, contrib.verified)

/-- A registration that is right in itself. -/
structure Registration.Valid (params : CeremonyParams) (reg : Registration) : Prop where
  stake : params.minStakePerParticipant ≤ reg.stakePledge
  key : PqcPublicKey.fromBytes params.dilithiumLevel reg.identityKey = some reg.identityKey
  signature : Verifies params.dilithiumLevel reg.identityKey ((CeremonyCoordinator.new params).registrationSigningPayload reg)
    reg.signature

/-- A contribution that is right for the given registrations. -/
structure Contribution.Valid (params : CeremonyParams) (registrations : Std.ExtTreeMap Hash256 VerifiedRegistration)
    (contrib : Contribution) : Prop where
  registered : ∃ registration, registrations[contrib.keyHash]? = some registration ∧
    Verifies params.dilithiumLevel registration.identityKey
      ((CeremonyCoordinator.new params).contributionSigningPayload contrib) contrib.signature
  randomness : contrib.randomness ≠ .zero

/-! ### One call -/

section Calls

variable {c c' : CeremonyCoordinator} {reg : Registration} {contrib : Contribution} {u : Unit}

theorem acceptRegistration_eq_ok : (acceptRegistration reg).run c = (.ok u, c') ↔
    c.phase = .registration ∧ c.registrations.size < c.params.maxParticipants ∧ reg.Valid c.params ∧
      c.registrations[reg.keyHash]? = none ∧
      (∃ total, Word.checkedAdd c.totalStake reg.stakePledge = some total ∧ total ≤ c.params.maxTotalStake) ∧
      c' = { c with registrations := c.registrations.insert reg.keyHash reg.verified
                    rawRegistrations := c.rawRegistrations ++ [reg] } := by
  have hkey (bytes : Bytes) (h : PqcPublicKey.fromBytes c.params.dilithiumLevel reg.identityKey = some bytes) :
      bytes = reg.identityKey := by
    unfold PqcPublicKey.fromBytes at h
    split at h
    · cases h
    · exact (Option.some.inj h).symm
  unfold acceptRegistration
  simp only [run_bind_eq_ok, run_read_eq_ok, run_lift_eq_ok, run_check_eq_ok, okOr_eq_ok, run_perform_eq_ok, verifySignature_eq_ok]
  constructor
  · intro h
    obtain ⟨_, _, ⟨rfl, rfl⟩, _, _, ⟨hphase, rfl⟩, _, _, ⟨hroom, rfl⟩, _, _, ⟨hstake, rfl⟩, bytes, _, ⟨hbytes, rfl⟩, _, _,
      ⟨hfresh, rfl⟩, _, _, ⟨hverifies, rfl⟩, total, _, ⟨htotal, rfl⟩, _, _, ⟨hcap, rfl⟩, _, _, rfl, rfl⟩ := h
    obtain rfl := hkey bytes hbytes
    exact ⟨hphase, hroom, ⟨hstake, hbytes, hverifies⟩, hfresh, ⟨total, htotal, hcap⟩, rfl⟩
  · intro h
    obtain ⟨hphase, hroom, hvalid, hfresh, ⟨total, htotal, hcap⟩, rfl⟩ := h
    exact ⟨c, c, ⟨rfl, rfl⟩, (), c, ⟨hphase, rfl⟩, (), c, ⟨hroom, rfl⟩, (), c, ⟨hvalid.stake, rfl⟩, _, c, ⟨hvalid.key, rfl⟩,
      (), c, ⟨hfresh, rfl⟩, (), c, ⟨hvalid.signature, rfl⟩, total, c, ⟨htotal, rfl⟩, (), c, ⟨hcap, rfl⟩, (), _, rfl, rfl⟩

omit [Crypto] in
theorem closeRegistration_eq_ok : closeRegistration.run c = (.ok u, c') ↔
    c.phase = .registration ∧ c.params.minParticipants ≤ c.registrations.size ∧ c' = { c with phase := .contribution } := by
  unfold closeRegistration
  simp only [run_bind_eq_ok, run_read_eq_ok, run_check_eq_ok, run_perform_eq_ok]
  constructor
  · intro h
    obtain ⟨_, _, ⟨rfl, rfl⟩, _, _, ⟨hphase, rfl⟩, _, _, ⟨hmin, rfl⟩, rfl⟩ := h
    exact ⟨hphase, hmin, rfl⟩
  · intro h
    obtain ⟨hphase, hmin, rfl⟩ := h
    exact ⟨c, c, ⟨rfl, rfl⟩, (), c, ⟨hphase, rfl⟩, (), c, ⟨hmin, rfl⟩, rfl⟩

theorem acceptContribution_eq_ok : (acceptContribution contrib).run c = (.ok u, c') ↔
    c.phase = .contribution ∧ contrib.Valid c.params c.registrations ∧ c.contributions[contrib.keyHash]? = none ∧
      c' = { c with contributions := c.contributions.insert contrib.keyHash contrib.verified
                    rawContributions := c.rawContributions ++ [contrib] } := by
  unfold acceptContribution
  simp only [run_bind_eq_ok, run_read_eq_ok, run_lift_eq_ok, run_check_eq_ok, okOr_eq_ok, run_perform_eq_ok, verifySignature_eq_ok]
  constructor
  · intro h
    obtain ⟨_, _, ⟨rfl, rfl⟩, _, _, ⟨hphase, rfl⟩, registration, _, ⟨hregistered, rfl⟩, _, _, ⟨hfresh, rfl⟩, _, _,
      ⟨hverifies, rfl⟩, _, _, ⟨hrandomness, rfl⟩, _, _, rfl, rfl⟩ := h
    exact ⟨hphase, ⟨⟨registration, hregistered, hverifies⟩, hrandomness⟩, hfresh, rfl⟩
  · intro h
    obtain ⟨hphase, ⟨⟨registration, hregistered, hverifies⟩, hrandomness⟩, hfresh, rfl⟩ := h
    exact ⟨c, c, ⟨rfl, rfl⟩, (), c, ⟨hphase, rfl⟩, registration, c, ⟨hregistered, rfl⟩, (), c, ⟨hfresh, rfl⟩, (), c,
      ⟨hverifies, rfl⟩, (), c, ⟨hrandomness, rfl⟩, (), _, rfl, rfl⟩

end Calls

/-! ### Refused calls -/

/-- What a participant or the coordinator asks for while the ceremony is open. -/
inductive CeremonyCall where
  | acceptRegistration (reg : Registration)
  | closeRegistration
  | acceptContribution (contrib : Contribution)

def CeremonyCall.apply : CeremonyCall → Update CeremonyError CeremonyCoordinator Unit
  | .acceptRegistration reg => CeremonyCoordinator.acceptRegistration reg
  | .closeRegistration => CeremonyCoordinator.closeRegistration
  | .acceptContribution contrib => CeremonyCoordinator.acceptContribution contrib

theorem reads_verifySignature (level : DilithiumLevel) (identityKey payload signature : Bytes) (refusal : String) :
    Reads (verifySignature level identityKey payload signature refusal) :=
  (reads_lift _).bind fun _ => (reads_lift _).bind fun _ => reads_check _ _

/-- Every change a call makes comes after its last check. -/
theorem CeremonyCall.transactional (call : CeremonyCall) : Transactional call.apply := by
  have hcommit (f g : CeremonyCoordinator → CeremonyCoordinator) :
      Transactional (perform f >>= fun _ => perform g : Update CeremonyError CeremonyCoordinator Unit) :=
    ((infallible_perform f).bind fun _ => infallible_perform g).transactional
  cases call with
  | acceptRegistration reg =>
      refine reads_read.transactional fun self => ?_
      refine (reads_check _ _).transactional fun _ => ?_
      refine (reads_check _ _).transactional fun _ => ?_
      refine (reads_check _ _).transactional fun _ => ?_
      refine (reads_lift _).transactional fun identityKey => ?_
      refine (reads_check _ _).transactional fun _ => ?_
      refine (reads_verifySignature _ _ _ _ _).transactional fun _ => ?_
      refine (reads_lift _).transactional fun newTotal => ?_
      exact (reads_check _ _).transactional fun _ => hcommit _ _
  | closeRegistration =>
      refine reads_read.transactional fun self => ?_
      refine (reads_check _ _).transactional fun _ => ?_
      exact (reads_check _ _).transactional fun _ => (infallible_perform _).transactional
  | acceptContribution contrib =>
      refine reads_read.transactional fun self => ?_
      refine (reads_check _ _).transactional fun _ => ?_
      refine (reads_lift _).transactional fun registration => ?_
      refine (reads_check _ _).transactional fun _ => ?_
      refine (reads_verifySignature _ _ _ _ _).transactional fun _ => ?_
      exact (reads_check _ _).transactional fun _ => hcommit _ _

/-! ### Lists of accepted messages -/

/-- Registrations that can be accepted one after the other. -/
structure Registrable (params : CeremonyParams) (regs : List Registration) : Prop where
  valid : ∀ reg ∈ regs, reg.Valid params
  distinct : (regs.map Registration.keyHash).Nodup
  room : regs.length ≤ params.maxParticipants
  budget : (regs.map fun reg => reg.stakePledge.toNat).sum ≤ params.maxTotalStake.toNat

/-- The coordinator that has accepted these registrations. -/
def registered (params : CeremonyParams) (regs : List Registration) : CeremonyCoordinator where
  params := params
  phase := .registration
  registrations := TreeMap.insertAll ∅ (regs.map Registration.entry)
  contributions := ∅
  rawRegistrations := regs
  rawContributions := []

section Registered

variable {params : CeremonyParams} {regs regs' : List Registration} {reg : Registration}

theorem keys_entry (regs : List Registration) : (regs.map Registration.entry).map Prod.fst = regs.map Registration.keyHash := by
  rw [List.map_map]
  rfl

theorem Registrable.perm (h : Registrable params regs) (hperm : regs.Perm regs') : Registrable params regs' where
  valid reg hreg := h.valid reg (hperm.mem_iff.mpr hreg)
  distinct := (hperm.map _).nodup_iff.mp h.distinct
  room := hperm.length_eq ▸ h.room
  budget := by
    have hsum := (hperm.map fun reg => reg.stakePledge.toNat).sum_eq
    rw [← hsum]
    exact h.budget

theorem Registrable.toList_registered (h : Registrable params regs) :
    (registered params regs).registrations.toList.Perm (regs.map Registration.entry) := by
  have hnil : (∅ : Std.ExtTreeMap Hash256 VerifiedRegistration).toList = [] := by simp
  have hlist : (registered params regs).registrations.toList.Perm
      (regs.map Registration.entry ++ (∅ : Std.ExtTreeMap Hash256 VerifiedRegistration).toList) :=
    TreeMap.toList_insertAll_perm (keys_entry regs ▸ h.distinct) (fun _ _ => Std.ExtTreeMap.getElem?_empty)
  rwa [hnil, List.append_nil] at hlist

theorem Registrable.size_registered (h : Registrable params regs) :
    (registered params regs).registrations.size = regs.length := by
  rw [← Std.ExtTreeMap.length_toList, h.toList_registered.length_eq, List.length_map]

theorem Registrable.totalStake_registered (h : Registrable params regs) :
    (registered params regs).totalStake.toNat = (regs.map fun reg => reg.stakePledge.toNat).sum := by
  have hsum : ((registered params regs).registrations.toList.map fun entry => entry.2.stakePledge).map UInt64.toNat
      |>.Perm (regs.map fun reg => reg.stakePledge.toNat) := by
    rw [List.map_map]
    refine (h.toList_registered.map _).trans ?_
    rw [List.map_map]
    rfl
  rw [totalStake, Word.toNat_sum, hsum.sum_eq, Nat.mod_eq_of_lt]
  exact lt_of_le_of_lt h.budget (UInt64.toNat_lt _)

theorem getElem?_registered_eq_none :
    (registered params regs).registrations[reg.keyHash]? = none ↔ reg.keyHash ∉ regs.map Registration.keyHash := by
  rw [← TreeMap.notMem_iff, registered, TreeMap.mem_insertAll, keys_entry]
  simp

theorem Registrable.registrations_eq (h : Registrable params regs) (hperm : regs.Perm regs') :
    (registered params regs).registrations = (registered params regs').registrations :=
  TreeMap.insertAll_perm (keys_entry regs ▸ h.distinct) (hperm.map _)

private theorem registered_concat (params : CeremonyParams) (regs : List Registration) (reg : Registration) :
    registered params (regs ++ [reg]) =
      { registered params regs with
        registrations := (registered params regs).registrations.insert reg.keyHash reg.verified
        rawRegistrations := regs ++ [reg] } := by
  simp [registered, TreeMap.insertAll, List.foldl_append, Registration.entry]

private theorem registrable_concat : Registrable params (regs ++ [reg]) ↔
    Registrable params regs ∧ regs.length < params.maxParticipants ∧ reg.Valid params ∧
      reg.keyHash ∉ regs.map Registration.keyHash ∧
      (regs.map fun reg => reg.stakePledge.toNat).sum + reg.stakePledge.toNat ≤ params.maxTotalStake.toNat := by
  constructor
  · intro h
    have hdistinct := h.distinct
    have hroom := h.room
    have hbudget := h.budget
    rw [List.map_append, List.map_singleton, List.nodup_append_comm, List.singleton_append, List.nodup_cons] at hdistinct
    rw [List.length_append, List.length_singleton] at hroom
    rw [List.map_append, List.sum_append, List.map_singleton, List.sum_singleton] at hbudget
    refine ⟨⟨fun r hr => h.valid r (List.mem_append_left _ hr), hdistinct.2, by omega, by omega⟩, by omega, ?_, hdistinct.1,
      hbudget⟩
    exact h.valid reg (List.mem_append_right _ (List.mem_singleton_self reg))
  · intro h
    obtain ⟨h, hroom, hvalid, hfresh, hbudget⟩ := h
    refine ⟨?_, ?_, ?_, ?_⟩
    · exact List.forall_mem_append.mpr ⟨h.valid, by simpa using hvalid⟩
    · rw [List.map_append, List.map_singleton, List.nodup_append_comm, List.singleton_append, List.nodup_cons]
      exact ⟨hfresh, h.distinct⟩
    · rw [List.length_append, List.length_singleton]
      omega
    · rw [List.map_append, List.sum_append, List.map_singleton, List.sum_singleton]
      exact hbudget

/-- **Which registrations are accepted** one after the other, and what they leave behind. -/
theorem accept_registrations {c : CeremonyCoordinator} {u : PUnit} :
    (forM regs acceptRegistration).run (.new params) = (.ok u, c) ↔ Registrable params regs ∧ c = registered params regs := by
  induction regs using List.reverseRecOn generalizing c u with
  | nil =>
      rw [run_forM_nil_eq_ok]
      constructor
      · rintro rfl
        exact ⟨⟨by simp, by simp, by simp, by simp⟩, rfl⟩
      · intro h
        exact h.2
  | append_singleton regs reg ih =>
      rw [run_forM_concat_eq_ok, registrable_concat, registered_concat]
      constructor
      · intro h
        obtain ⟨c', hbefore, hreg⟩ := h
        obtain ⟨hregs, rfl⟩ := ih.mp hbefore
        obtain ⟨-, hroom, hvalid, hfresh, ⟨total, htotal, hcap⟩, rfl⟩ := acceptRegistration_eq_ok.mp hreg
        rw [Word.checkedAdd_eq_some, hregs.totalStake_registered] at htotal
        rw [hregs.size_registered] at hroom
        refine ⟨⟨hregs, hroom, hvalid, getElem?_registered_eq_none.mp hfresh, ?_⟩, rfl⟩
        rw [← htotal]
        exact UInt64.le_iff_toNat_le.mp hcap
      · intro h
        obtain ⟨⟨hregs, hroom, hvalid, hfresh, hbudget⟩, rfl⟩ := h
        refine ⟨registered params regs, ih.mpr ⟨hregs, rfl⟩, acceptRegistration_eq_ok.mpr ⟨rfl, ?_, hvalid,
          getElem?_registered_eq_none.mpr hfresh, ?_, rfl⟩⟩
        · rw [hregs.size_registered]
          exact hroom
        · obtain ⟨total, htotal⟩ := Word.exists_toNat_eq (lt_of_le_of_lt hbudget (UInt64.toNat_lt _))
          refine ⟨total, ?_, ?_⟩
          · rw [Word.checkedAdd_eq_some, hregs.totalStake_registered, htotal]
          · rw [UInt64.le_iff_toNat_le, htotal]
            exact hbudget

end Registered

/-- Contributions that can be accepted one after the other. -/
structure Contributable (params : CeremonyParams) (regs : List Registration) (contribs : List Contribution) : Prop where
  valid : ∀ contrib ∈ contribs, contrib.Valid params (registered params regs).registrations
  distinct : (contribs.map Contribution.keyHash).Nodup

/-- The coordinator that has accepted these registrations, closed the first phase and accepted these contributions. -/
def conducted (params : CeremonyParams) (regs : List Registration) (contribs : List Contribution) : CeremonyCoordinator :=
  { registered params regs with
    phase := .contribution
    contributions := TreeMap.insertAll ∅ (contribs.map Contribution.entry)
    rawContributions := contribs }

section Conducted

variable {params : CeremonyParams} {regs regs' : List Registration} {contribs contribs' : List Contribution}
  {contrib : Contribution} {c : CeremonyCoordinator} {u : PUnit}

theorem keys_contribution_entry (contribs : List Contribution) :
    (contribs.map Contribution.entry).map Prod.fst = contribs.map Contribution.keyHash := by
  rw [List.map_map]
  rfl

theorem Contributable.perm (h : Contributable params regs contribs) (hregs : Registrable params regs)
    (hpermRegs : regs.Perm regs') (hperm : contribs.Perm contribs') : Contributable params regs' contribs' where
  valid contrib hcontrib := by
    rw [← hregs.registrations_eq hpermRegs]
    exact h.valid contrib (hperm.mem_iff.mpr hcontrib)
  distinct := (hperm.map _).nodup_iff.mp h.distinct

private theorem contributable_concat : Contributable params regs (contribs ++ [contrib]) ↔
    Contributable params regs contribs ∧ contrib.Valid params (registered params regs).registrations ∧
      contrib.keyHash ∉ contribs.map Contribution.keyHash := by
  constructor
  · intro h
    have hdistinct := h.distinct
    rw [List.map_append, List.map_singleton, List.nodup_append_comm, List.singleton_append, List.nodup_cons] at hdistinct
    refine ⟨⟨fun r hr => h.valid r (List.mem_append_left _ hr), hdistinct.2⟩, ?_, hdistinct.1⟩
    exact h.valid contrib (List.mem_append_right _ (List.mem_singleton_self contrib))
  · intro h
    obtain ⟨h, hvalid, hfresh⟩ := h
    refine ⟨List.forall_mem_append.mpr ⟨h.valid, by simpa using hvalid⟩, ?_⟩
    rw [List.map_append, List.map_singleton, List.nodup_append_comm, List.singleton_append, List.nodup_cons]
    exact ⟨hfresh, h.distinct⟩

private theorem conducted_concat (params : CeremonyParams) (regs : List Registration) (contribs : List Contribution)
    (contrib : Contribution) :
    conducted params regs (contribs ++ [contrib]) =
      { conducted params regs contribs with
        contributions := (conducted params regs contribs).contributions.insert contrib.keyHash contrib.verified
        rawContributions := contribs ++ [contrib] } := by
  simp [conducted, TreeMap.insertAll, List.foldl_append, Contribution.entry]

theorem getElem?_conducted_eq_none : (conducted params regs contribs).contributions[contrib.keyHash]? = none ↔
    contrib.keyHash ∉ contribs.map Contribution.keyHash := by
  rw [← TreeMap.notMem_iff, conducted, TreeMap.mem_insertAll, keys_contribution_entry]
  simp

theorem accept_contributions : (forM contribs acceptContribution).run (conducted params regs []) = (.ok u, c) ↔
    Contributable params regs contribs ∧ c = conducted params regs contribs := by
  induction contribs using List.reverseRecOn generalizing c u with
  | nil =>
      rw [run_forM_nil_eq_ok]
      constructor
      · rintro rfl
        exact ⟨⟨by simp, by simp⟩, rfl⟩
      · intro h
        exact h.2
  | append_singleton contribs contrib ih =>
      rw [run_forM_concat_eq_ok, contributable_concat, conducted_concat]
      constructor
      · intro h
        obtain ⟨c', hbefore, hcontrib⟩ := h
        obtain ⟨hcontribs, rfl⟩ := ih.mp hbefore
        obtain ⟨-, hvalid, hfresh, rfl⟩ := acceptContribution_eq_ok.mp hcontrib
        exact ⟨⟨hcontribs, hvalid, getElem?_conducted_eq_none.mp hfresh⟩, rfl⟩
      · intro h
        obtain ⟨⟨hcontribs, hvalid, hfresh⟩, rfl⟩ := h
        exact ⟨conducted params regs contribs, ih.mpr ⟨hcontribs, rfl⟩,
          acceptContribution_eq_ok.mpr ⟨rfl, hvalid, getElem?_conducted_eq_none.mpr hfresh, rfl⟩⟩

/-- **Which ceremonies go through**, and where they end. -/
theorem replay_eq_ok : (replay regs contribs).run (.new params) = (.ok u, c) ↔
    Registrable params regs ∧ params.minParticipants ≤ regs.length ∧ Contributable params regs contribs ∧
      c = conducted params regs contribs := by
  unfold replay
  simp only [run_bind_eq_ok, accept_registrations]
  constructor
  · intro h
    obtain ⟨_, _, ⟨hregs, rfl⟩, _, _, hclose, hlast⟩ := h
    obtain ⟨-, hmin, rfl⟩ := closeRegistration_eq_ok.mp hclose
    rw [hregs.size_registered] at hmin
    obtain ⟨hcontribs, rfl⟩ := accept_contributions.mp hlast
    exact ⟨hregs, hmin, hcontribs, rfl⟩
  · intro h
    obtain ⟨hregs, hmin, hcontribs, rfl⟩ := h
    refine ⟨(), _, ⟨hregs, rfl⟩, (), conducted params regs [], closeRegistration_eq_ok.mpr ⟨rfl, ?_, rfl⟩,
      accept_contributions.mpr ⟨hcontribs, rfl⟩⟩
    rw [hregs.size_registered]
    exact hmin

theorem conducted_perm (hregs : Registrable params regs) (hcontribs : Contributable params regs contribs)
    (hpermRegs : regs.Perm regs') (hperm : contribs.Perm contribs') :
    (conducted params regs contribs).registrations = (conducted params regs' contribs').registrations ∧
      (conducted params regs contribs).contributions = (conducted params regs' contribs').contributions :=
  ⟨hregs.registrations_eq hpermRegs,
    TreeMap.insertAll_perm (keys_contribution_entry contribs ▸ hcontribs.distinct) (hperm.map _)⟩

end Conducted

/-! ### The result -/

section Finalize

variable {c c' : CeremonyCoordinator} {now : UInt64} {output : CeremonyOutput}

theorem finalize_eq_ok : c.finalize now = .ok output ↔
    c.phase = .contribution ∧ c.registrations.size ≤ c.contributions.size ∧
      output = ⟨c.buildGenesisBlock, c.deriveEpochNonce, ⟨c.params, c.rawRegistrations, c.rawContributions, c.deriveEpochNonce,
        hexEncode c.buildGenesisBlock.header.hash.bytes, c.totalStake, c.registrations.size, now⟩⟩ := by
  unfold CeremonyCoordinator.finalize
  simp only [require_bind_eq_ok, pure_eq_ok]
  rw [eq_comm (a := output)]

private theorem buildGenesisBlock_congr (hparams : c.params = c'.params) (h : c.registrations = c'.registrations) :
    c.buildGenesisBlock = c'.buildGenesisBlock := by
  rw [CeremonyCoordinator.buildGenesisBlock, CeremonyCoordinator.buildGenesisBlock, genesisOutputs, genesisOutputs, hparams, h]

private theorem deriveEpochNonce_congr (hparams : c.params = c'.params) (h : c.contributions = c'.contributions) :
    c.deriveEpochNonce = c'.deriveEpochNonce := by
  rw [deriveEpochNonce, deriveEpochNonce, hparams, h]

theorem finalize_congr (h : c.finalize now = .ok output) (now' : UInt64) (c' : CeremonyCoordinator)
    (hparams : c.params = c'.params) (hphase : c'.phase = .contribution) (hregs : c.registrations = c'.registrations)
    (hcontribs : c.contributions = c'.contributions) :
    ∃ output', c'.finalize now' = .ok output' ∧ output'.epochNonce = output.epochNonce ∧
      output'.genesisBlock = output.genesisBlock := by
  obtain ⟨-, hall, rfl⟩ := finalize_eq_ok.mp h
  rw [hregs, hcontribs] at hall
  exact ⟨_, finalize_eq_ok.mpr ⟨hphase, hall, rfl⟩, (deriveEpochNonce_congr hparams hcontribs).symm,
    (buildGenesisBlock_congr hparams hregs).symm⟩

end Finalize

/-! ### Runs -/

/-- The coordinator after some calls. A refused call leaves whatever state it has reached. -/
def afterCalls (c : CeremonyCoordinator) (calls : List CeremonyCall) : CeremonyCoordinator :=
  calls.foldl (fun c call => (call.apply.run c).2) c

/-- The calls that are not refused, in order. -/
def acceptedCalls (c : CeremonyCoordinator) : List CeremonyCall → List CeremonyCall
  | [] => []
  | call :: calls =>
      let (result, c') := call.apply.run c
      if result.isOk then call :: acceptedCalls c' calls else acceptedCalls c' calls

def CeremonyCall.registration? : CeremonyCall → Option Registration
  | .acceptRegistration reg => some reg
  | _ => none

def CeremonyCall.contribution? : CeremonyCall → Option Contribution
  | .acceptContribution contrib => some contrib
  | _ => none

def acceptedRegistrations (params : CeremonyParams) (calls : List CeremonyCall) : List Registration :=
  (acceptedCalls (.new params) calls).filterMap CeremonyCall.registration?

def acceptedContributions (params : CeremonyParams) (calls : List CeremonyCall) : List Contribution :=
  (acceptedCalls (.new params) calls).filterMap CeremonyCall.contribution?

/-- A coordinator is what its own logs make of it. -/
inductive Conducted (params : CeremonyParams) : CeremonyCoordinator → Prop where
  | registering (regs : List Registration) (hregs : Registrable params regs) : Conducted params (registered params regs)
  | contributing (regs : List Registration) (contribs : List Contribution) (hregs : Registrable params regs)
      (hmin : params.minParticipants ≤ regs.length) (hcontribs : Contributable params regs contribs) :
      Conducted params (conducted params regs contribs)

section Runs

variable {params : CeremonyParams} {c c' : CeremonyCoordinator} {call : CeremonyCall}

theorem Conducted.step (h : Conducted params c) (hcall : call.apply.run c = (.ok (), c')) :
    Conducted params c' ∧ c'.rawRegistrations = c.rawRegistrations ++ call.registration?.toList ∧
      c'.rawContributions = c.rawContributions ++ call.contribution?.toList := by
  cases h with
  | registering regs hregs =>
      cases call with
      | acceptRegistration reg =>
          have hrun : (forM (regs ++ [reg]) CeremonyCoordinator.acceptRegistration).run (.new params) = (.ok (), c') :=
            run_forM_concat_eq_ok.mpr ⟨_, accept_registrations.mpr ⟨hregs, rfl⟩, hcall⟩
          obtain ⟨hconcat, rfl⟩ := accept_registrations.mp hrun
          exact ⟨.registering _ hconcat, rfl, rfl⟩
      | closeRegistration =>
          obtain ⟨-, hmin, rfl⟩ := closeRegistration_eq_ok.mp hcall
          rw [hregs.size_registered] at hmin
          refine ⟨.contributing regs [] hregs hmin ⟨by simp, by simp⟩, ?_, rfl⟩
          exact (List.append_nil regs).symm
      | acceptContribution contrib =>
          obtain ⟨hphase, -⟩ := acceptContribution_eq_ok.mp hcall
          cases hphase
  | contributing regs contribs hregs hmin hcontribs =>
      cases call with
      | acceptRegistration reg =>
          obtain ⟨hphase, -⟩ := acceptRegistration_eq_ok.mp hcall
          cases hphase
      | closeRegistration =>
          obtain ⟨hphase, -⟩ := closeRegistration_eq_ok.mp hcall
          cases hphase
      | acceptContribution contrib =>
          have hrun : (forM (contribs ++ [contrib]) CeremonyCoordinator.acceptContribution).run (conducted params regs []) =
              (.ok (), c') :=
            run_forM_concat_eq_ok.mpr ⟨_, accept_contributions.mpr ⟨hcontribs, rfl⟩, hcall⟩
          obtain ⟨hconcat, rfl⟩ := accept_contributions.mp hrun
          exact ⟨.contributing regs _ hregs hmin hconcat, (List.append_nil regs).symm, rfl⟩

theorem Conducted.afterCalls (h : Conducted params c) (calls : List CeremonyCall) :
    Conducted params (afterCalls c calls) ∧
      (QuantumVault.afterCalls c calls).rawRegistrations =
        c.rawRegistrations ++ (acceptedCalls c calls).filterMap CeremonyCall.registration? ∧
      (QuantumVault.afterCalls c calls).rawContributions =
        c.rawContributions ++ (acceptedCalls c calls).filterMap CeremonyCall.contribution? := by
  induction calls generalizing c with
  | nil => exact ⟨h, (List.append_nil _).symm, (List.append_nil _).symm⟩
  | cons call calls ih =>
      cases hcall : call.apply.run c with
      | mk result c' =>
          have hafter : QuantumVault.afterCalls c (call :: calls) = QuantumVault.afterCalls c' calls := by
            rw [QuantumVault.afterCalls, List.foldl_cons, hcall]
            rfl
          cases result with
          | ok u =>
              obtain ⟨hstep, hregs, hcontribs⟩ := h.step hcall
              obtain ⟨hrest, hregs', hcontribs'⟩ := ih hstep
              have haccepted : acceptedCalls c (call :: calls) = call :: acceptedCalls c' calls := by
                rw [acceptedCalls, hcall]
                rfl
              rw [hafter, haccepted]
              refine ⟨hrest, ?_, ?_⟩
              · rw [hregs', hregs, List.append_assoc, List.filterMap_cons]
                cases call.registration? <;> rfl
              · rw [hcontribs', hcontribs, List.append_assoc, List.filterMap_cons]
                cases call.contribution? <;> rfl
          | error e =>
              obtain rfl : c' = c := call.transactional _ _ _ hcall
              have haccepted : acceptedCalls c' (call :: calls) = acceptedCalls c' calls := by
                rw [acceptedCalls, hcall]
                rfl
              rw [hafter, haccepted]
              exact ih h

private theorem conducted_afterCalls (params : CeremonyParams) (calls : List CeremonyCall) :
    Conducted params (afterCalls (.new params) calls) ∧
      (afterCalls (.new params) calls).rawRegistrations = acceptedRegistrations params calls ∧
      (afterCalls (.new params) calls).rawContributions = acceptedContributions params calls :=
  Conducted.afterCalls (.registering [] ⟨by simp, by simp, by simp, by simp⟩) calls

theorem afterCalls_of_finalize {calls : List CeremonyCall} {now : UInt64} {output : CeremonyOutput}
    (h : (afterCalls (.new params) calls).finalize now = .ok output) :
    let regs := acceptedRegistrations params calls
    let contribs := acceptedContributions params calls
    Registrable params regs ∧ params.minParticipants ≤ regs.length ∧ Contributable params regs contribs ∧
      afterCalls (.new params) calls = conducted params regs contribs := by
  obtain ⟨hconducted, hregs, hcontribs⟩ := conducted_afterCalls params calls
  obtain ⟨hphase, -⟩ := finalize_eq_ok.mp h
  generalize afterCalls (.new params) calls = c at hconducted hregs hcontribs hphase
  cases hconducted with
  | registering regs hregistrable => cases hphase
  | contributing regs contribs hregistrable hmin hcontributable =>
      obtain rfl : regs = acceptedRegistrations params calls := hregs
      obtain rfl : contribs = acceptedContributions params calls := hcontribs
      exact ⟨hregistrable, hmin, hcontributable, rfl⟩

end Runs

def Registration.output (reg : Registration) : TxOutput := .new reg.stakePledge (p2pkhPqc (sha3_256 reg.identityKey))

section Results

variable {params : CeremonyParams} {regs : List Registration} {contribs : List Contribution}

private theorem genesisOutputs_conducted (contribs : List Contribution) (hregs : Registrable params regs) :
    (conducted params regs contribs).genesisOutputs.Perm (regs.map Registration.output) := by
  refine (hregs.toList_registered.map _).trans ?_
  rw [List.map_map]
  rfl

theorem verifyTranscript_of_replay {transcript : CeremonyTranscript} {c : CeremonyCoordinator} {now : UInt64}
    {output : CeremonyOutput}
    (hreplay : (replay transcript.registrations transcript.contributions).run (.new transcript.params) = (.ok (), c))
    (hfinalize : c.finalize now = .ok output) (hnonce : output.epochNonce = transcript.epochNonce)
    (hblock : hexEncode output.genesisBlock.header.hash.bytes = transcript.genesisBlockHash) :
    verifyTranscript transcript now = .ok true := by
  rw [verifyTranscript, hreplay]
  dsimp only
  rw [hfinalize, ok_bind]
  simp only [require_bind_eq_ok]
  exact ⟨hnonce, hblock, rfl⟩

private theorem verifyTranscript_conducted {now : UInt64} {output : CeremonyOutput} (hregs : Registrable params regs)
    (hmin : params.minParticipants ≤ regs.length) (hcontribs : Contributable params regs contribs)
    (h : (conducted params regs contribs).finalize now = .ok output) (now' : UInt64) :
    verifyTranscript output.transcript now' = .ok true := by
  have hreplay : (replay regs contribs).run (.new params) = (.ok (), conducted params regs contribs) :=
    replay_eq_ok.mpr ⟨hregs, hmin, hcontribs, rfl⟩
  obtain ⟨output', hfinalize, hnonce, hblock⟩ := finalize_congr h now' _ rfl rfl rfl rfl
  obtain ⟨-, -, rfl⟩ := finalize_eq_ok.mp h
  exact verifyTranscript_of_replay hreplay hfinalize hnonce (by rw [hblock])

end Results

/-- **The genesis ceremony is reproducible.** A refused call leaves the coordinator as it was. When a ceremony can be finished, the genesis block pays each participant the pledge, the pledges are within the bound, and the transcript verifies. The accepted messages can be sent again in any order, with the same nonce and the same block, and every other ceremony that has accepted the same messages in another order ends with them. -/
theorem ceremony_reproducible (params : CeremonyParams) (calls : List CeremonyCall) :
    (∀ (call : CeremonyCall) e c', call.apply.run (afterCalls (.new params) calls) = (.error e, c') → c' = afterCalls (.new params) calls) ∧
    ∀ now output, (afterCalls (.new params) calls).finalize now = .ok output →
      (∃ tx, output.genesisBlock.transactions = [tx] ∧
        tx.outputs.Perm ((acceptedRegistrations params calls).map Registration.output) ∧
        ((acceptedRegistrations params calls).map Registration.keyHash).Nodup ∧
        (tx.outputValues.map UInt64.toNat).sum =
          ((acceptedRegistrations params calls).map fun reg => reg.stakePledge.toNat).sum ∧
        (tx.outputValues.map UInt64.toNat).sum ≤ params.maxTotalStake.toNat) ∧
      (∀ now', verifyTranscript output.transcript now' = .ok true) ∧
      (∀ regs contribs now', regs.Perm (acceptedRegistrations params calls) →
        contribs.Perm (acceptedContributions params calls) →
          ∃ c output', (replay regs contribs).run (.new params) = (.ok (), c) ∧ c.finalize now' = .ok output' ∧
            output'.epochNonce = output.epochNonce ∧ output'.genesisBlock = output.genesisBlock) ∧
      ∀ calls' now' output', (acceptedRegistrations params calls').Perm (acceptedRegistrations params calls) →
        (acceptedContributions params calls').Perm (acceptedContributions params calls) →
          (afterCalls (.new params) calls').finalize now' = .ok output' →
            output'.epochNonce = output.epochNonce ∧ output'.genesisBlock = output.genesisBlock := by
  refine ⟨fun call e c' => call.transactional _ e c', ?_⟩
  intro now output hfinalize
  obtain ⟨hregs, hmin, hcontribs, hafter⟩ := afterCalls_of_finalize hfinalize
  rw [hafter] at hfinalize
  refine ⟨?_, fun now' => verifyTranscript_conducted hregs hmin hcontribs hfinalize now', ?_, ?_⟩
  · obtain ⟨-, -, rfl⟩ := finalize_eq_ok.mp hfinalize
    have hperm := genesisOutputs_conducted (acceptedContributions params calls) hregs
    have hsum : (((conducted params (acceptedRegistrations params calls)
        (acceptedContributions params calls)).genesisOutputs.map TxOutput.value).map UInt64.toNat).sum =
          ((acceptedRegistrations params calls).map fun reg => reg.stakePledge.toNat).sum := by
      rw [((hperm.map TxOutput.value).map UInt64.toNat).sum_eq, List.map_map, List.map_map]
      rfl
    refine ⟨_, rfl, hperm, hregs.distinct, hsum, ?_⟩
    exact hsum.trans_le hregs.budget
  · intro regs contribs now' hpermRegs hperm
    have hregs' := hregs.perm hpermRegs.symm
    have hcontribs' := hcontribs.perm hregs hpermRegs.symm hperm.symm
    obtain ⟨hsameRegs, hsameContribs⟩ := conducted_perm hregs hcontribs hpermRegs.symm hperm.symm
    obtain ⟨output', hfinalize', hnonce, hblock⟩ :=
      finalize_congr hfinalize now' (conducted params regs contribs) rfl rfl hsameRegs hsameContribs
    refine ⟨_, output', replay_eq_ok.mpr ⟨hregs', ?_, hcontribs', rfl⟩, hfinalize', hnonce, hblock⟩
    rw [hpermRegs.length_eq]
    exact hmin
  · intro calls' now' output' hpermRegs hperm hfinalize'
    obtain ⟨-, -, -, hafter'⟩ := afterCalls_of_finalize hfinalize'
    obtain ⟨hsameRegs, hsameContribs⟩ := conducted_perm hregs hcontribs hpermRegs.symm hperm.symm
    rw [hafter'] at hfinalize'
    obtain ⟨output'', hfinalize'', hnonce, hblock⟩ := finalize_congr hfinalize now'
      (conducted params (acceptedRegistrations params calls') (acceptedContributions params calls')) rfl rfl
      hsameRegs hsameContribs
    rw [hfinalize', Except.ok.injEq] at hfinalize''
    rw [hfinalize'']
    exact ⟨hnonce, hblock⟩

end QuantumVault
