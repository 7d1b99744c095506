import QuantumVault.Proof.Mempool.Shamir

/-!
# Verifiable shares

A share is compared with the commitments of its issuer in the exponent of the generator, which counts modulo the order `p - 1` of the group. The share and the powers of its point are reduced modulo `p` before they get there, so an honest share is accepted only when that reduction loses nothing: when the quotient by `p` that it throws away is a multiple of `p - 1`. The same holds for the sum of the secrets, which in the end has to be below `p`.
-/

namespace QuantumVault

namespace Threshold

open Polynomial Result

/-! ### The exponent that is checked -/

/-- The sum of the coefficients times the reduced powers of the point, the first of them with the exponent `k`. -/
def exponentFrom (x : Nat) (k : Nat) : List U256 → Nat
  | [] => 0
  | coeff :: coeffs => coeff.toNat * (x ^ k % fieldPrime) + exponentFrom x (k + 1) coeffs

/-- What the product of the commitments has as its exponent. -/
def shareExponent (coeffs : List U256) (x : Nat) : Nat := exponentFrom x 0 coeffs

private theorem cast_exponentFrom (x k : Nat) (coeffs : List U256) :
    (exponentFrom x k coeffs : ZMod fieldPrime) = x ^ k * (polynomialOf coeffs).eval (x : ZMod fieldPrime) := by
  induction coeffs generalizing k with
  | nil => rw [exponentFrom, polynomialOf, eval_zero, mul_zero, Nat.cast_zero]
  | cons coeff coeffs ih =>
      rw [exponentFrom, polynomialOf, Nat.cast_add, Nat.cast_mul, ZMod.natCast_mod, ih, eval_add, eval_mul, eval_C, eval_X,
        Nat.cast_pow, pow_succ, toField]
      ring

/-- Reducing a number modulo the prime keeps it modulo the order exactly when the quotient is a multiple of the order. -/
theorem reduced_modEq_iff (n : Nat) : n % fieldPrime ≡ n [MOD fieldPrime - 1] ↔ fieldPrime - 1 ∣ n / fieldPrime := by
  have hsplit : n = n % fieldPrime + ((fieldPrime - 1) * (n / fieldPrime) + n / fieldPrime) := by
    have hdiv := Nat.mod_add_div n fieldPrime
    have hprime : fieldPrime = fieldPrime - 1 + 1 := by rw [fieldPrime_eq]
    have hmul : fieldPrime * (n / fieldPrime) = (fieldPrime - 1) * (n / fieldPrime) + n / fieldPrime := by
      rw [← Nat.succ_mul]
      exact congrArg (· * (n / fieldPrime)) hprime
    omega
  rw [Nat.modEq_iff_dvd' (Nat.mod_le n fieldPrime)]
  rw [Nat.sub_eq_of_eq_add' hsplit]
  exact Nat.dvd_add_right (Nat.dvd_mul_right _ _)

section Shares

variable {p : FeldmanVssParticipant} {share : DkgShare}

private theorem toField_commitments_loop {x k : Nat} {j power rhs : U256} (hj : toField j = x) (hpower : power < Field.modulus)
    (hvalue : toField power = (x : ZMod fieldPrime) ^ k) (hrhs : rhs < Field.modulus) (coeffs : List U256) :
    let state := (coeffs.map (Field.pow generator)).foldl (fun (state : U256 × U256) commitment =>
      (Field.mul state.1 (Field.pow commitment state.2), Field.mul state.2 j)) (rhs, power)
    state.1 < Field.modulus ∧ toField state.1 = toField rhs * 2 ^ exponentFrom x k coeffs := by
  induction coeffs generalizing k power rhs with
  | nil => exact ⟨hrhs, by rw [exponentFrom, pow_zero, mul_one]; rfl⟩
  | cons coeff coeffs ih =>
      have hstep : toField (Field.mul power j) = (x : ZMod fieldPrime) ^ (k + 1) := by
        rw [Field.toField_mul, hvalue, hj, pow_succ]
      have hnat : power.toNat = x ^ k % fieldPrime := by
        rw [← Field.val_toField hpower, hvalue, ← Nat.cast_pow, ZMod.val_natCast]
      obtain ⟨hlt, hresult⟩ := ih (Field.mul_lt power j) hstep
        (Field.mul_lt rhs (Field.pow (Field.pow generator coeff) power))
      refine ⟨hlt, hresult.trans ?_⟩
      rw [Field.toField_mul, Field.toField_pow, Field.toField_pow, toField_generator, hnat, exponentFrom, ← pow_mul, pow_add,
        mul_assoc]

/-- **The check compares exponents modulo the order of the generator.** -/
theorem verifyShareAgainstCommitments_iff (hrecipient : (share.recipientId + 1).toNat = share.recipientId.toNat + 1) :
    verifyShareAgainstCommitments share p.computeCommitments = true ↔
      share.encryptedShare.toNat ≡ shareExponent p.coefficients (share.recipientId.toNat + 1) [MOD fieldPrime - 1] := by
  have hj : toField (Field.fromU32 (share.recipientId + 1)) = ((share.recipientId.toNat + 1 : Nat) : ZMod fieldPrime) := by
    rw [Field.toField_fromU32, hrecipient]
  have hone : toField (Field.fromU32 1) = ((share.recipientId.toNat + 1 : Nat) : ZMod fieldPrime) ^ 0 := by
    rw [Field.toField_one, pow_zero]
  obtain ⟨hlt, hvalue⟩ := toField_commitments_loop hj (Field.fromU32_lt 1) hone (Field.fromU32_lt 1) p.coefficients
  rw [verifyShareAgainstCommitments, FeldmanVssParticipant.computeCommitments]
  refine beq_iff_eq.trans ((Field.toField_inj (Field.pow_lt _ _) hlt).symm.trans ?_)
  rw [hvalue, Field.toField_one, one_mul, Field.toField_pow, toField_generator, two_pow_eq_two_pow_iff]
  rfl

theorem mem_computeShares : share ∈ p.computeShares ↔ ∃ j < p.total.toNat, UInt32.ofNat j ≠ p.id ∧
    share = ⟨UInt32.ofNat j, p.id, p.evaluateAt (Field.fromU32 (UInt32.ofNat j + 1))⟩ := by
  rw [FeldmanVssParticipant.computeShares, List.mem_filterMap]
  refine exists_congr fun j => and_congr List.mem_range ?_
  rw [Option.ite_none_left_eq_some, Option.some.injEq]
  exact and_congr_right fun _ => eq_comm

theorem of_mem_computeShares (h : share ∈ p.computeShares) :
    share.recipientId.toNat < p.total.toNat ∧ (share.recipientId + 1).toNat = share.recipientId.toNat + 1 ∧
      share.encryptedShare.toNat = shareExponent p.coefficients (share.recipientId.toNat + 1) % fieldPrime := by
  obtain ⟨j, hj, -, rfl⟩ := mem_computeShares.mp h
  have htotal := UInt32.toNat_lt p.total
  have hnat : (UInt32.ofNat j).toNat = j := UInt32.toNat_ofNat_of_lt' (show j < 2 ^ 32 by omega)
  have hsucc : (UInt32.ofNat j + 1).toNat = j + 1 := by
    rw [UInt32.toNat_add, hnat]
    exact Nat.mod_eq_of_lt (show j + 1 < 2 ^ 32 by omega)
  obtain ⟨hlt, hvalue⟩ := toField_polyEval p.reduced (Field.fromU32 (UInt32.ofNat j + 1))
  refine ⟨by rw [hnat]; exact hj, by rw [hnat]; exact hsucc, ?_⟩
  show (polyEval p.coefficients _).toNat = shareExponent p.coefficients ((UInt32.ofNat j).toNat + 1) % fieldPrime
  rw [hnat, ← Field.val_toField hlt, hvalue, Field.toField_fromU32, hsucc, shareExponent, ← ZMod.val_natCast,
    cast_exponentFrom, pow_zero, one_mul]

/-- Nothing is lost when the exponent of the share is reduced. -/
def ReducesExactly (p : FeldmanVssParticipant) (share : DkgShare) : Prop :=
  fieldPrime - 1 ∣ shareExponent p.coefficients (share.recipientId.toNat + 1) / fieldPrime

/-- Every value that differs from the share modulo the order of the generator is rejected in its place. -/
def OthersRejected (p : FeldmanVssParticipant) (share : DkgShare) : Prop :=
  ∀ value : U256, ¬ value.toNat ≡ share.encryptedShare.toNat [MOD fieldPrime - 1] →
    verifyShareAgainstCommitments { share with encryptedShare := value } p.computeCommitments = false

/-- **An honest share is accepted exactly when its reduction loses nothing.** -/
theorem accepted_iff_reducesExactly (h : share ∈ p.computeShares) :
    verifyShareAgainstCommitments share p.computeCommitments = true ↔ ReducesExactly p share := by
  obtain ⟨-, hrecipient, hvalue⟩ := of_mem_computeShares h
  rw [verifyShareAgainstCommitments_iff hrecipient, hvalue, reduced_modEq_iff]
  rfl

private theorem othersRejected_iff_reducesExactly (h : share ∈ p.computeShares) :
    OthersRejected p share ↔ ReducesExactly p share := by
  obtain ⟨-, hrecipient, hvalue⟩ := of_mem_computeShares h
  have hiff (value : U256) : verifyShareAgainstCommitments { share with encryptedShare := value } p.computeCommitments = true ↔
      value.toNat ≡ shareExponent p.coefficients (share.recipientId.toNat + 1) [MOD fieldPrime - 1] :=
    @verifyShareAgainstCommitments_iff p { share with encryptedShare := value } hrecipient
  rw [← accepted_iff_reducesExactly h, verifyShareAgainstCommitments_iff hrecipient]
  refine ⟨fun hothers => ?_, fun hequal value hdiffers => ?_⟩
  · -- the exponent itself, reduced modulo the order, would be accepted
    by_contra hdiffers
    let exponent := shareExponent p.coefficients (share.recipientId.toNat + 1) % (fieldPrime - 1)
    have hlt : exponent < 2 ^ 256 :=
      (Nat.mod_lt _ (by rw [fieldPrime_eq]; decide)).trans (by rw [fieldPrime_eq]; decide)
    have hnat : (BitVec.ofNat 256 exponent).toNat = exponent := by rw [BitVec.toNat_ofNat, Nat.mod_eq_of_lt hlt]
    have haccepted := (hiff (BitVec.ofNat 256 exponent)).mpr (by rw [hnat]; exact Nat.mod_modEq _ _)
    have hrejected := hothers (BitVec.ofNat 256 exponent) fun hsame => hdiffers ?_
    · rw [hrejected] at haccepted
      cases haccepted
    · rw [hnat] at hsame
      exact hsame.symm.trans (Nat.mod_modEq _ _)
  · rw [← Bool.not_eq_true, hiff]
    exact fun hvalue => hdiffers (hvalue.trans hequal.symm)

end Shares

/-! ### A round of key generation -/

theorem forM_run_eq_ok {ε α : Type} {check : α → ExceptT ε Option PUnit} {xs : List α} :
    (xs.forM check).run = some (.ok ()) ↔ ∀ x ∈ xs, (check x).run = some (.ok ()) := by
  induction xs with
  | nil => exact ⟨fun _ => List.forall_mem_nil _, fun _ => rfl⟩
  | cons x xs ih =>
      rw [List.forall_mem_cons, ← ih]
      change (check x >>= fun _ => xs.forM check).run = _ ↔ _
      rw [ExceptT.run_bind]
      rcases (check x).run with _ | (e | ⟨⟩)
      · simp
      · simp [pure]
      · simp

/-- The participants of a round: numbered from zero, as many as each of them expects, with `t` coefficients each. -/
structure HonestCommittee (participants : List FeldmanVssParticipant) (t : UInt32) : Prop where
  one_le : 1 ≤ t
  two_le : 2 ≤ participants.length
  total_eq : ∀ p ∈ participants, p.total.toNat = participants.length
  id_eq : ∀ (i : Nat) (h : i < participants.length), participants[i].id = UInt32.ofNat i
  length_eq : ∀ p ∈ participants, p.coefficients.length = t.toNat

section Round

variable {participants : List FeldmanVssParticipant} {t : UInt32} {result : DkgResult}

private theorem verifyShares_eq_ok :
    (verifyShares participants).run = some (.ok ()) ↔ ∀ p ∈ participants, ∀ share ∈ p.computeShares,
    share.recipientId.toNat < participants.length ∧ verifyShareAgainstCommitments share p.computeCommitments = true := by
  have hcheck (issuer : FeldmanVssParticipant) (issuerIdx : Nat) (share : DkgShare) :
      (do
        let _recipient ← (participants[share.recipientId.toNat]? : Option FeldmanVssParticipant)
        if verifyShareAgainstCommitments share issuer.computeCommitments then return ()
        else throw (.shareVerificationFailed issuerIdx share.recipientId) : ExceptT CryptoError Option Unit).run =
          some (.ok ()) ↔
        share.recipientId.toNat < participants.length ∧
          verifyShareAgainstCommitments share issuer.computeCommitments = true := by
    rcases Nat.lt_or_ge share.recipientId.toNat participants.length with hlt | hge
    · rw [List.getElem?_eq_getElem hlt]
      by_cases hvalid : verifyShareAgainstCommitments share issuer.computeCommitments = true
      · simp only [hvalid, hlt, and_self, iff_true]
        rfl
      · rw [Bool.not_eq_true] at hvalid
        rw [hvalid]
        refine ⟨fun h => ?_, fun h => absurd h.2 (by decide)⟩
        cases h
    · rw [List.getElem?_eq_none hge]
      refine ⟨fun h => ?_, fun h => absurd h.1 (not_lt.mpr hge)⟩
      cases h
  unfold verifyShares
  rw [forM_run_eq_ok]
  refine ⟨fun h p hp => ?_, fun h entry hentry => ?_⟩
  · obtain ⟨i, hi, rfl⟩ := List.getElem_of_mem hp
    have hentry := forM_run_eq_ok.mp (h (participants[i], i) (List.mem_zipIdx_iff_getElem?.mpr (List.getElem?_eq_getElem hi)))
    exact fun share hshare => (hcheck _ _ share).mp (hentry share hshare)
  · obtain ⟨p, i⟩ := entry
    have hp := List.mem_of_getElem? (List.mem_zipIdx_iff_getElem?.mp hentry)
    exact forM_run_eq_ok.mpr fun share hshare => (hcheck p i share).mpr (h p hp share hshare)

theorem runPedersenDkg_eq_ok : (runPedersenDkg participants).run = some (.ok result) ↔ 2 ≤ participants.length ∧
    (verifyShares participants).run = some (.ok ()) ∧ ∃ pk total, aggregatePublicKey participants = some pk ∧
      totalSecret participants = some total ∧ pk = Field.pow generator total ∧
      ⟨pk, (List.range participants.length).map fun j =>
        ⟨UInt32.ofNat j + 1, aggregateShare participants (Field.fromU32 (UInt32.ofNat j + 1))⟩⟩ = result := by
  unfold runPedersenDkg
  by_cases hfew : participants.length < 2
  · rw [if_pos hfew]
    refine ⟨fun h => ?_, fun h => absurd h.1 (not_le.mpr hfew)⟩
    cases h
  · rw [if_neg hfew, ExceptT.run_bind, ← not_lt]
    rcases hverified : (verifyShares participants).run with _ | (e | ⟨⟩)
    · simp
    · simp [pure]
    · cases hpk : aggregatePublicKey participants with
      | none =>
          refine ⟨fun h => ?_, fun h => ?_⟩
          · cases h
          · obtain ⟨-, -, _, _, hnone, -⟩ := h
            cases hnone
      | some pk =>
          cases htotal : totalSecret participants with
          | none =>
              refine ⟨fun h => ?_, fun h => ?_⟩
              · cases h
              · obtain ⟨-, -, _, _, -, hnone, -⟩ := h
                cases hnone
          | some total =>
              refine ⟨fun h => ?_, fun h => ?_⟩
              · change (if pk = Field.pow generator total then _ else _) = _ at h
                split at h
                · rename_i hmatch
                  cases h
                  exact ⟨hfew, rfl, pk, total, rfl, rfl, hmatch, rfl⟩
                · cases h
              · obtain ⟨-, -, _, _, hpk, htotal, hmatch, rfl⟩ := h
                cases hpk
                cases htotal
                exact if_pos hmatch

private theorem exists_totalSecret (h : ∀ p ∈ participants, p.coefficients ≠ []) :
    ∃ total, totalSecret participants = some total ∧ total.toNat = constantSum participants % fieldPrime := by
  induction participants using List.reverseRecOn with
  | nil => exact ⟨_, rfl, rfl⟩
  | append_singleton participants p ih =>
      rw [List.forall_mem_append] at h
      obtain ⟨total, htotal, hvalue⟩ := ih h.1
      obtain ⟨coeff, coeffs, hcoeffs⟩ := List.exists_cons_of_ne_nil (h.2 p (List.mem_singleton_self p))
      have hcoeff : coeff < Field.modulus := p.reduced coeff (hcoeffs ▸ List.mem_cons_self)
      refine ⟨Field.add total coeff, ?_, ?_⟩
      · rw [totalSecret, List.foldlM_append, ← totalSecret, htotal, Option.bind_eq_bind, Option.bind_some,
          List.foldlM_cons, FeldmanVssParticipant.secret, hcoeffs]
        rfl
      · rw [Field.toNat_add (Field.lt_modulus_of_toNat hvalue) hcoeff, hvalue, constantSum, constantSum, List.map_append,
          List.sum_append, List.map_singleton, List.sum_singleton, hcoeffs, Nat.mod_add_mod]
        rfl

private theorem aggregatePublicKey_lt {pk : U256} (h : aggregatePublicKey participants = some pk) : pk < Field.modulus := by
  rcases List.eq_nil_or_concat participants with rfl | ⟨front, p, rfl⟩
  · cases h
    exact Field.fromU32_lt 1
  · rw [aggregatePublicKey, List.concat_eq_append, List.foldlM_append, Option.bind_eq_bind, Option.bind_eq_some_iff] at h
    obtain ⟨front, -, h⟩ := h
    rw [List.foldlM_cons, Option.bind_eq_bind, Option.bind_eq_some_iff] at h
    obtain ⟨last, hlast, h⟩ := h
    cases h
    obtain ⟨commitment, -, rfl⟩ := Option.map_eq_some_iff.mp hlast
    exact Field.mul_lt _ _

private theorem constantSum_reduces_iff (h : participants.length < 2 ^ 32) :
    constantSum participants % fieldPrime ≡ constantSum participants [MOD fieldPrime - 1] ↔
      constantSum participants < fieldPrime := by
  have hle : constantSum participants ≤ participants.length * fieldPrime := by
    rw [constantSum, ← smul_eq_mul, ← List.length_map (f := fun p => (p.coefficients[0]?.getD 0).toNat)]
    refine List.sum_le_card_nsmul _ _ fun n hn => ?_
    obtain ⟨p, -, rfl⟩ := List.mem_map.mp hn
    cases hcoeffs : p.coefficients with
    | nil => exact Nat.zero_le _
    | cons coeff coeffs =>
        exact (Field.lt_modulus_iff.mp (p.reduced coeff (hcoeffs ▸ List.mem_cons_self))).le
  have hquotient : constantSum participants / fieldPrime < fieldPrime - 1 := by
    refine lt_of_le_of_lt (Nat.div_le_of_le_mul (Nat.mul_comm _ _ ▸ hle)) (h.trans ?_)
    rw [fieldPrime_eq]
    decide
  have hpositive : 0 < fieldPrime := by
    rw [fieldPrime_eq]
    decide
  rw [reduced_modEq_iff, ← Nat.div_eq_zero_iff_lt hpositive]
  exact ⟨fun hdvd => Nat.eq_zero_of_dvd_of_lt hdvd hquotient, fun hzero => hzero ▸ Nat.dvd_zero _⟩

namespace HonestCommittee

theorem length_lt (h : HonestCommittee participants t) : participants.length < 2 ^ 32 := by
  obtain ⟨p, hp⟩ := List.exists_mem_of_length_pos (Nat.lt_of_lt_of_le Nat.zero_lt_two h.two_le)
  exact h.total_eq p hp ▸ UInt32.toNat_lt p.total

theorem coefficients_ne_nil (h : HonestCommittee participants t) : ∀ p ∈ participants, p.coefficients ≠ [] := by
  intro p hp
  have hlength := h.length_eq p hp
  have hpositive : 1 ≤ t.toNat := UInt32.le_iff_toNat_le.mp h.one_le
  exact List.ne_nil_of_length_pos (by omega)

theorem verifyShares_iff (h : HonestCommittee participants t) : (verifyShares participants).run = some (.ok ()) ↔
    ∀ p ∈ participants, ∀ share ∈ p.computeShares, ReducesExactly p share := by
  rw [verifyShares_eq_ok]
  refine forall₂_congr fun p hp => forall₂_congr fun share hshare => ?_
  rw [accepted_iff_reducesExactly hshare, ← h.total_eq p hp]
  exact and_iff_right (of_mem_computeShares hshare).1

end HonestCommittee

private theorem reconstructSecret_of_round (h : HonestCommittee participants t) {total : U256}
    (htotal : total.toNat = constantSum participants % fieldPrime) {subset : List ShamirShare}
    (hmem : ∀ share ∈ subset, share ∈ (List.range participants.length).map fun j =>
      (⟨UInt32.ofNat j + 1, aggregateShare participants (Field.fromU32 (UInt32.ofNat j + 1))⟩ : ShamirShare))
    (hnodup : subset.Nodup) (hlength : subset.length = t.toNat) : reconstructSecret subset t = .ok total := by
  have hshares : ∀ share ∈ subset, IsShareOf (aggregateShare participants) share := by
    intro share hshare
    obtain ⟨j, hj, rfl⟩ := List.mem_map.mp (hmem share hshare)
    have hj : j < participants.length := List.mem_range.mp hj
    have hbound := h.length_lt
    refine ⟨fun hzero : UInt32.ofNat j + 1 = 0 => ?_, rfl⟩
    have hnat := congrArg UInt32.toNat hzero
    rw [UInt32.toNat_add, UInt32.toNat_ofNat'] at hnat
    change (j % 2 ^ 32 + 1) % 2 ^ 32 = 0 at hnat
    omega
  have htake : subset.take t.toNat = subset := by rw [← hlength, List.take_length]
  have ht := UInt32.toNat_lt t
  rw [reconstructSecret_eq_ok, htake]
  refine ⟨by rw [hlength, Nat.mod_eq_of_lt ht], nodup_index hshares hnodup, zero_notMem_index hshares, ?_⟩
  refine interpolateAtZero_eq (f := jointPolynomial participants) ?_ (fun x => (toField_aggregateShare participants x).2)
    hshares hnodup (Field.lt_modulus_of_toNat htotal) ?_
  · rw [hlength]
    exact jointPolynomial_mem_degreeLT h.length_eq
  · rw [eval_zero_jointPolynomial, Field.toField_eq_of_toNat htotal]

/-- A round ends with the power of the sum of the secrets as its public key, and any `t` shares give that sum. -/
def DkgSucceeds (participants : List FeldmanVssParticipant) (t : UInt32) : Prop :=
  ∃ result, (runPedersenDkg participants).run = some (.ok result) ∧
    result.publicKey.toNat = 2 ^ constantSum participants % fieldPrime ∧
    ∀ subset : List ShamirShare, (∀ share ∈ subset, share ∈ result.participantShares) → subset.Nodup →
      subset.length = t.toNat → ∃ secret, reconstructSecret subset t = .ok secret ∧ secret.toNat = constantSum participants

private theorem HonestCommittee.dkgSucceeds_iff (h : HonestCommittee participants t) : DkgSucceeds participants t ↔
    (∀ p ∈ participants, ∀ share ∈ p.computeShares, ReducesExactly p share) ∧ constantSum participants < fieldPrime := by
  obtain ⟨pk, hpk, hpkValue⟩ := exists_aggregatePublicKey h.coefficients_ne_nil
  obtain ⟨total, htotal, htotalValue⟩ := exists_totalSecret h.coefficients_ne_nil
  have hpkLt := aggregatePublicKey_lt hpk
  have hmatch : pk = Field.pow generator total ↔ constantSum participants < fieldPrime := by
    rw [← Field.toField_inj hpkLt (Field.pow_lt _ _), hpkValue, Field.toField_pow, toField_generator, htotalValue,
      two_pow_eq_two_pow_iff, ← constantSum_reduces_iff h.length_lt]
    exact ⟨Nat.ModEq.symm, Nat.ModEq.symm⟩
  refine ⟨fun hsucceeds => ?_, fun hcond => ?_⟩
  · obtain ⟨result, hrun, -⟩ := hsucceeds
    obtain ⟨-, hverified, pk', total', hpk', htotal', hequal, -⟩ := runPedersenDkg_eq_ok.mp hrun
    cases hpk.symm.trans hpk'
    cases htotal.symm.trans htotal'
    exact ⟨h.verifyShares_iff.mp hverified, hmatch.mp hequal⟩
  · obtain ⟨hverified, hlt⟩ := hcond
    refine ⟨_, runPedersenDkg_eq_ok.mpr ⟨h.two_le, h.verifyShares_iff.mpr hverified, pk, total, hpk, htotal,
      hmatch.mpr hlt, rfl⟩, ?_, fun subset hmem hnodup hlength => ⟨total, ?_, ?_⟩⟩
    · have hval := congrArg ZMod.val hpkValue
      rw [Field.val_toField hpkLt] at hval
      rw [hval, ← ZMod.val_natCast, Nat.cast_pow, Nat.cast_ofNat]
    · exact reconstructSecret_of_round h htotalValue hmem hnodup hlength
    · rw [htotalValue, Nat.mod_eq_of_lt hlt]

end Round

/-- **When verifiable shares verify.** An honest share is accepted, and all others are rejected in its place, exactly when its reduction loses nothing; a round of honest participants succeeds exactly when this holds of all its shares and the sum of the secrets is below the prime. -/
theorem vss_complete_iff (p : FeldmanVssParticipant) (participants : List FeldmanVssParticipant) (t : UInt32) :
    (∀ share ∈ p.computeShares,
      (verifyShareAgainstCommitments share p.computeCommitments = true ↔ ReducesExactly p share) ∧
        (OthersRejected p share ↔ ReducesExactly p share)) ∧
    (HonestCommittee participants t → (DkgSucceeds participants t ↔
      (∀ p ∈ participants, ∀ share ∈ p.computeShares, ReducesExactly p share) ∧ constantSum participants < fieldPrime)) :=
  ⟨fun _ hshare => ⟨accepted_iff_reducesExactly hshare, othersRejected_iff_reducesExactly hshare⟩, fun h => h.dkgSucceeds_iff⟩

def smallLine : FeldmanVssParticipant := ⟨0, 2, 2, [3, 4], by simp; decide⟩

/-- Two lines with small coefficients, for a threshold of two. -/
def lineCommittee : List FeldmanVssParticipant := [smallLine, ⟨1, 2, 2, [7, 1], by simp; decide⟩]

theorem vss_complete_lines : DkgSucceeds lineCommittee 2 := by
  have hhonest : HonestCommittee lineCommittee 2 := by
    refine ⟨by decide, by decide, by decide, fun i hi => ?_, by decide⟩
    have hi : i < 2 := hi
    interval_cases i <;> rfl
  have hreduces : ∀ p ∈ lineCommittee, ∀ share ∈ p.computeShares, ReducesExactly p share := by
    unfold ReducesExactly
    decide +kernel
  exact ((vss_complete_iff smallLine lineCommittee 2).2 hhonest).mpr ⟨hreduces, by decide +kernel⟩

/-- The polynomial `(p - 1) x`, whose value at two is `p - 2` while the commitments have the exponent `2 (p - 1)`. -/
def lossyParticipant : FeldmanVssParticipant := ⟨0, 2, 2, [0, BitVec.ofNat 256 (2 ^ 256 - 190)], by simp; decide⟩

theorem vss_share_refused : ¬ ∀ (p : FeldmanVssParticipant) (share : DkgShare), p.coefficients ≠ [] →
    share ∈ p.computeShares → verifyShareAgainstCommitments share p.computeCommitments = true := by
  intro hall
  have hshare : (⟨1, 0, lossyParticipant.evaluateAt (Field.fromU32 2)⟩ : DkgShare) ∈ lossyParticipant.computeShares :=
    mem_computeShares.mpr ⟨1, by decide, by decide, rfl⟩
  have hreduces := (accepted_iff_reducesExactly hshare).mp (hall _ _ (by decide) hshare)
  exact absurd hreduces (by rw [ReducesExactly]; decide +kernel)

end Threshold

end QuantumVault
