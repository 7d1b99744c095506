import QuantumVault.Mempool.Envelope
import QuantumVault.Proof.Mempool.Field

/-!
# Combining decryption shares

The shares are values of a polynomial over the field, so the interpolation coefficients belong to the field too. They are used as exponents, however, and exponents count modulo the order of the generator, which is one less than the prime. What the shares give is therefore the power that was masked only if the two sums of the exponents agree modulo that order.
-/

namespace QuantumVault

namespace Threshold

open Polynomial

/-! ### Bytes -/

theorem length_toBigEndian (a : U256) : (toBigEndian a).length = 32 := by
  rw [toBigEndian, List.length_reverse, length_toLittleEndian]

theorem ofBigEndian_toBigEndian (a : U256) : ofBigEndian (toBigEndian a) = a := by
  have hlt : a.toNat < 256 ^ 32 := a.isLt
  rw [ofBigEndian, toBigEndian, List.reverse_reverse, ofLittleEndian_toLittleEndian_of_lt hlt, BitVec.ofNat_toNat,
    BitVec.setWidth_eq]

private theorem zipWith_xor_self {data mask : Bytes} (h : data.length = mask.length) :
    List.zipWith (· ^^^ ·) (List.zipWith (· ^^^ ·) data mask) mask = data := by
  induction data generalizing mask with
  | nil => rfl
  | cons b data ih =>
      cases mask with
      | nil => cases h
      | cons m mask =>
          rw [List.zipWith_cons_cons, List.zipWith_cons_cons, ih (Nat.succ.inj h), UInt8.xor_assoc, UInt8.xor_self,
            UInt8.xor_zero]

/-! ### Polynomials -/

/-- The polynomial with these coefficients, the constant term first. -/
noncomputable def polynomialOf : List U256 → (ZMod fieldPrime)[X]
  | [] => 0
  | coeff :: coeffs => C (toField coeff) + X * polynomialOf coeffs

private theorem polyEval_cons (coeff : U256) (coeffs : List U256) (x : U256) :
    polyEval (coeff :: coeffs) x = Field.add (Field.mul (polyEval coeffs x) x) coeff := by
  rw [polyEval, List.reverse_cons, List.foldl_append]
  rfl

/-- Horner's rule evaluates the polynomial. -/
theorem toField_polyEval {coeffs : List U256} (hreduced : ∀ coeff ∈ coeffs, coeff < Field.modulus) (x : U256) :
    polyEval coeffs x < Field.modulus ∧ toField (polyEval coeffs x) = (polynomialOf coeffs).eval (toField x) := by
  induction coeffs with
  | nil =>
      refine ⟨Field.zero_lt, ?_⟩
      rw [polynomialOf, eval_zero]
      exact Field.toField_zero
  | cons coeff coeffs ih =>
      rw [List.forall_mem_cons] at hreduced
      obtain ⟨hcoeff, hrest⟩ := hreduced
      obtain ⟨-, hvalue⟩ := ih hrest
      have hmul := Field.mul_lt (polyEval coeffs x) x
      rw [polyEval_cons]
      refine ⟨Field.add_lt hmul hcoeff, ?_⟩
      rw [Field.toField_add hmul hcoeff, Field.toField_mul, hvalue, polynomialOf, eval_add, eval_mul, eval_C, eval_X,
        add_comm, mul_comm]

theorem polynomialOf_mem_degreeLT (coeffs : List U256) : polynomialOf coeffs ∈ degreeLT (ZMod fieldPrime) coeffs.length := by
  induction coeffs with
  | nil => exact Submodule.zero_mem _
  | cons coeff coeffs ih =>
      rw [mem_degreeLT] at ih ⊢
      rw [polynomialOf, List.length_cons]
      apply lt_of_le_of_lt (degree_add_le _ _)
      rw [max_lt_iff]
      constructor
      · exact lt_of_le_of_lt degree_C_le (by exact_mod_cast Nat.succ_pos _)
      · rw [degree_mul, degree_X, add_comm]
        by_cases hzero : polynomialOf coeffs = 0
        · rw [hzero, degree_zero, WithBot.bot_add]
          exact WithBot.bot_lt_coe _
        · rw [degree_eq_natDegree hzero] at ih ⊢
          exact_mod_cast Nat.succ_lt_succ (by exact_mod_cast ih)

theorem eval_zero_polynomialOf (coeffs : List U256) : (polynomialOf coeffs).eval 0 = toField (coeffs[0]?.getD 0) := by
  cases coeffs with
  | nil => exact eval_zero
  | cons coeff coeffs =>
      rw [polynomialOf, eval_add, eval_C, eval_mul, eval_X, zero_mul, add_zero]
      rfl

noncomputable def jointPolynomial (participants : List FeldmanVssParticipant) : (ZMod fieldPrime)[X] :=
  (participants.map fun p => polynomialOf p.coefficients).sum

/-- The sum of the constant terms as natural numbers. -/
def constantSum (participants : List FeldmanVssParticipant) : Nat :=
  (participants.map fun p => (p.coefficients[0]?.getD 0).toNat).sum

theorem eval_zero_jointPolynomial (participants : List FeldmanVssParticipant) :
    (jointPolynomial participants).eval 0 = constantSum participants := by
  induction participants with
  | nil => exact eval_zero.trans Nat.cast_zero.symm
  | cons p rest ih =>
      rw [jointPolynomial, List.map_cons, List.sum_cons, eval_add, eval_zero_polynomialOf, constantSum, List.map_cons,
        List.sum_cons, Nat.cast_add]
      exact congrArg _ ih

theorem jointPolynomial_mem_degreeLT {participants : List FeldmanVssParticipant} {t : Nat}
    (h : ∀ p ∈ participants, p.coefficients.length = t) :
    jointPolynomial participants ∈ degreeLT (ZMod fieldPrime) t := by
  apply list_sum_mem
  rw [List.forall_mem_map]
  intro p hp
  exact h p hp ▸ polynomialOf_mem_degreeLT p.coefficients

theorem toField_aggregateShare (participants : List FeldmanVssParticipant) (x : U256) :
    aggregateShare participants x < Field.modulus ∧
      toField (aggregateShare participants x) = (jointPolynomial participants).eval (toField x) := by
  induction participants using List.reverseRecOn with
  | nil =>
      refine ⟨Field.zero_lt, ?_⟩
      rw [jointPolynomial, List.map_nil, List.sum_nil, eval_zero]
      exact Field.toField_zero
  | append_singleton participants p ih =>
      obtain ⟨hlt, hvalue⟩ := ih
      obtain ⟨hshare, hshareValue⟩ := toField_polyEval p.reduced x
      rw [aggregateShare, List.foldl_append, List.foldl_cons, List.foldl_nil]
      refine ⟨Field.add_lt hlt hshare, ?_⟩
      rw [← aggregateShare, FeldmanVssParticipant.evaluateAt, Field.toField_add hlt hshare, hvalue, hshareValue,
        jointPolynomial, jointPolynomial, List.map_append, List.sum_append, eval_add, List.map_cons, List.map_nil,
        List.sum_singleton]

theorem toField_generator : toField generator = 2 := by
  rw [generator, Field.toField_fromU32]
  exact Nat.cast_ofNat

theorem exists_aggregatePublicKey {participants : List FeldmanVssParticipant}
    (h : ∀ p ∈ participants, p.coefficients ≠ []) :
    ∃ pk, aggregatePublicKey participants = some pk ∧ toField pk = 2 ^ constantSum participants := by
  induction participants using List.reverseRecOn with
  | nil => exact ⟨_, rfl, Field.toField_one⟩
  | append_singleton participants p ih =>
      rw [List.forall_mem_append] at h
      obtain ⟨pk, hpk, hvalue⟩ := ih h.1
      obtain ⟨coeff, coeffs, hcoeffs⟩ := List.exists_cons_of_ne_nil (h.2 p (List.mem_singleton_self p))
      refine ⟨Field.mul pk (Field.pow generator coeff), ?_, ?_⟩
      · rw [aggregatePublicKey, List.foldlM_append, ← aggregatePublicKey, hpk, Option.bind_eq_bind, Option.bind_some,
          List.foldlM_cons, FeldmanVssParticipant.computeCommitments, hcoeffs]
        rfl
      · rw [Field.toField_mul, hvalue, Field.toField_pow, toField_generator, ← pow_add, constantSum, constantSum,
          List.map_append, List.sum_append, List.map_cons, List.map_nil, List.sum_singleton, hcoeffs]
        rfl

/-! ### Interpolation -/

theorem map_zipIdx_ofFn {α β : Type} {n : Nat} (f : Fin n → α) (g : α × Nat → β) :
    (List.ofFn f).zipIdx.map g = List.ofFn fun i => g (f i, i) := by
  apply List.ext_getElem
  · simp
  · intro i hi hi'
    simp

theorem prod_map_zipIdx_ofFn {α M : Type} [CommMonoid M] {n : Nat} (f : Fin n → α) (g : α × Nat → M) :
    ((List.ofFn f).zipIdx.map g).prod = ∏ i : Fin n, g (f i, i) := by
  rw [map_zipIdx_ofFn, List.prod_ofFn]

theorem prod_skip {n : Nat} {M : Type} [CommMonoid M] (i : Fin n) (f : Fin n → M) :
    (∏ j : Fin n, if (i : Nat) = j then 1 else f j) = ∏ j ∈ Finset.univ.erase i, f j := by
  refine Eq.trans (Finset.prod_erase Finset.univ (f := fun j : Fin n => if (i : Nat) = j then 1 else f j) (a := i)
    (if_pos rfl)).symm ?_
  apply Finset.prod_congr rfl
  intro j hj
  exact if_neg fun hij => Finset.ne_of_mem_erase hj (Fin.ext hij.symm)

/-- Where the polynomials are evaluated for a participant. -/
def point (id : UInt32) : ZMod fieldPrime := id.toNat

/-- The coefficient of a position in interpolating at zero. -/
noncomputable def weightAtZero {n : Nat} (ids : Fin n → UInt32) (i : Fin n) : ZMod fieldPrime :=
  (Lagrange.basis Finset.univ (fun j => point (ids j)) i).eval 0

/-- The sum of the weighted shares as natural numbers, both factors reduced. -/
noncomputable def weightedSum {n : Nat} (participants : List FeldmanVssParticipant) (ids : Fin n → UInt32) : Nat :=
  ∑ i, (weightAtZero ids i).val * ((jointPolynomial participants).eval (point (ids i))).val

theorem weightAtZero_eq {n : Nat} (ids : Fin n → UInt32) (i : Fin n) : weightAtZero ids i =
    ∏ j ∈ Finset.univ.erase i, (point (ids i) - point (ids j))⁻¹ * (0 - point (ids j)) := by
  simp only [weightAtZero, Lagrange.basis, Lagrange.basisDivisor, eval_prod, eval_mul, eval_C, eval_sub, eval_X]

private theorem point_injective : Function.Injective point := by
  intro a b h
  have ha : a.toNat < 2 ^ 32 := a.toNat_lt
  have hb : b.toNat < 2 ^ 32 := b.toNat_lt
  have hval := congrArg ZMod.val h
  rw [point, point, ZMod.val_cast_of_lt (by rw [fieldPrime_eq]; omega), ZMod.val_cast_of_lt (by rw [fieldPrime_eq]; omega)]
    at hval
  exact UInt32.toNat_inj.mp hval

/-- **Interpolation at zero** of a polynomial of bounded degree, from its values at distinct points. -/
theorem eval_zero_eq_sum {n : Nat} {f : (ZMod fieldPrime)[X]} {ids : Fin n → UInt32}
    (hdegree : f ∈ degreeLT (ZMod fieldPrime) n) (hids : Function.Injective ids) :
    f.eval 0 = ∑ i, weightAtZero ids i * f.eval (point (ids i)) := by
  have hdegree : f.degree < (Finset.univ : Finset (Fin n)).card := by
    rw [Finset.card_univ, Fintype.card_fin]
    exact mem_degreeLT.mp hdegree
  have hinjective : Set.InjOn (fun j => point (ids j)) (Finset.univ : Finset (Fin n)) := (point_injective.comp hids).injOn
  have hinterpolate := congrArg (eval 0) (Lagrange.eq_interpolate hinjective hdegree)
  rw [hinterpolate, Lagrange.interpolate_apply, eval_finsetSum]
  apply Finset.sum_congr rfl
  intro i _
  rw [eval_mul, eval_C, mul_comm]
  rfl

/-- **In the field, and so modulo the prime, the weighted sum is the sum of the constant terms.** -/
theorem weightedSum_modEq {n : Nat} {participants : List FeldmanVssParticipant} {ids : Fin n → UInt32}
    (hlength : ∀ p ∈ participants, p.coefficients.length = n) (hids : Function.Injective ids) :
    weightedSum participants ids ≡ constantSum participants [MOD fieldPrime] := by
  rw [← ZMod.natCast_eq_natCast_iff, ← eval_zero_jointPolynomial,
    eval_zero_eq_sum (jointPolynomial_mem_degreeLT hlength) hids, weightedSum, Nat.cast_sum]
  apply Finset.sum_congr rfl
  intro i _
  rw [Nat.cast_mul, ZMod.natCast_zmod_val, ZMod.natCast_zmod_val]

/-! ### The coefficients that are computed -/

private theorem toField_lagrange_loop {α : Type} (idOf : α → UInt32) (entries : List (α × Nat)) (i : Nat) {xi : U256}
    (hxi : xi < Field.modulus) :
    let state := entries.foldl (fun (state : U256 × U256) (entry : α × Nat) =>
      if i = entry.2 then state
      else
        (Field.mul state.1 (Field.sub Field.zero (Field.fromU32 (idOf entry.1))),
          Field.mul state.2 (Field.sub xi (Field.fromU32 (idOf entry.1))))) (Field.fromU32 1, Field.fromU32 1)
    toField state.1 = (entries.map fun entry => if i = entry.2 then 1 else 0 - point (idOf entry.1)).prod ∧
      toField state.2 =
        (entries.map fun entry => if i = entry.2 then 1 else toField xi - point (idOf entry.1)).prod := by
  induction entries using List.reverseRecOn with
  | nil => exact ⟨Field.toField_one, Field.toField_one⟩
  | append_singleton entries entry ih =>
      obtain ⟨hnum, hden⟩ := ih
      have hpoint : toField (Field.fromU32 (idOf entry.1)) = point (idOf entry.1) := Field.toField_fromU32 _
      simp only [List.foldl_append, List.foldl_cons, List.foldl_nil, List.map_append, List.map_cons, List.map_nil,
        List.prod_append, List.prod_singleton]
      split
      · rw [mul_one, mul_one]
        exact ⟨hnum, hden⟩
      · rw [Field.toField_mul, Field.toField_mul, Field.toField_sub Field.zero_lt (Field.fromU32_lt _),
          Field.toField_sub hxi (Field.fromU32_lt _), Field.toField_zero, hpoint, hnum, hden]
        exact ⟨rfl, rfl⟩

theorem toField_lagrange {α : Type} (idOf : α → UInt32) {n : Nat} (shares : Fin n → α) (i : Fin n) :
    let state := (List.ofFn shares).zipIdx.foldl (fun (state : U256 × U256) (entry : α × Nat) =>
      if (i : Nat) = entry.2 then state
      else
        (Field.mul state.1 (Field.sub Field.zero (Field.fromU32 (idOf entry.1))),
          Field.mul state.2 (Field.sub (Field.fromU32 (idOf (shares i))) (Field.fromU32 (idOf entry.1)))))
      (Field.fromU32 1, Field.fromU32 1)
    toField (Field.mul state.1 (Field.inv state.2)) = weightAtZero (fun j => idOf (shares j)) i := by
  obtain ⟨hnum, hden⟩ := toField_lagrange_loop idOf (List.ofFn shares).zipIdx i (Field.fromU32_lt (idOf (shares i)))
  have hpoint : toField (Field.fromU32 (idOf (shares i))) = point (idOf (shares i)) := Field.toField_fromU32 _
  intro state
  rw [Field.toField_mul, Field.toField_inv, hnum, hden, prod_map_zipIdx_ofFn, prod_map_zipIdx_ofFn, weightAtZero_eq,
    hpoint, prod_skip i fun j => 0 - point (idOf (shares j)),
    prod_skip i fun j => point (idOf (shares i)) - point (idOf (shares j)), Finset.prod_mul_distrib,
    Finset.prod_inv_distrib, mul_comm]

section Shares

variable {n : Nat} (shares : Fin n → DecryptionShare)

private theorem toNat_lagrangeCoefficient (i : Fin n) : (lagrangeCoefficient (List.ofFn shares) i (shares i)).toNat =
    (weightAtZero (fun j => (shares j).participantId) i).val := by
  rw [lagrangeCoefficient, ← Field.val_toField (Field.mul_lt _ _)]
  exact congrArg ZMod.val (toField_lagrange DecryptionShare.participantId shares i)

def combined (used : List DecryptionShare) : U256 :=
  used.zipIdx.foldl (fun combined entry =>
    Field.mul combined (Field.pow entry.1.element (lagrangeCoefficient used entry.2 entry.1))) (Field.fromU32 1)

private theorem toField_combined : toField (combined (List.ofFn shares)) =
    ∏ i, toField (shares i).element ^ (weightAtZero (fun j => (shares j).participantId) i).val := by
  have hloop : ∀ (used : List DecryptionShare) (entries : List (DecryptionShare × Nat)),
      toField (entries.foldl (fun combined entry =>
        Field.mul combined (Field.pow entry.1.element (lagrangeCoefficient used entry.2 entry.1))) (Field.fromU32 1)) =
        (entries.map fun entry => toField entry.1.element ^ (lagrangeCoefficient used entry.2 entry.1).toNat).prod := by
    intro used entries
    induction entries using List.reverseRecOn with
    | nil => exact Field.toField_one
    | append_singleton entries entry ih =>
        rw [List.foldl_append, List.foldl_cons, List.foldl_nil, Field.toField_mul, ih, Field.toField_pow, List.map_append,
          List.prod_append, List.map_cons, List.map_nil, List.prod_singleton]
  rw [combined, hloop, prod_map_zipIdx_ofFn]
  apply Finset.prod_congr rfl
  intro i _
  rw [toNat_lagrangeCoefficient]

end Shares

private theorem combined_lt (used : List DecryptionShare) : combined used < Field.modulus := by
  rw [combined]
  generalize used.zipIdx = entries
  induction entries using List.reverseRecOn with
  | nil => exact Field.fromU32_lt 1
  | append_singleton entries entry ih =>
      rw [List.foldl_append]
      exact Field.mul_lt _ _

/-- **Enough shares are always combined**, whoever they come from. -/
theorem combineShares_of_length {shares : List DecryptionShare} {threshold : UInt32}
    (h : shares.length = threshold.toNat) : combineShares shares threshold = .ok (toBigEndian (combined shares)) := by
  have henough : ¬ UInt32.ofNat shares.length < threshold := by
    rw [h, UInt32.ofNat_toNat]
    exact UInt32.lt_irrefl _
  rw [combineShares, Result.require_bind_eq_ok]
  refine ⟨henough, ?_⟩
  rw [← h, List.take_length]
  rfl

/-! ### Decryption -/

section Decryption

variable [Crypto]

/-- The share that a participant gives for a ciphertext, from its share of the key. -/
def honestShare (participants : List FeldmanVssParticipant) (t : UInt32) (ciphertext : Bytes) (id : UInt32) :
    Except CryptoError DecryptionShare :=
  (DkgThresholdDecryptor.mk id (aggregateShare participants (Field.fromU32 id)) t).createDecryptionShare ciphertext

theorem length_encrypt (pk message randomness : U256) :
    (DkgThresholdDecryptor.encrypt pk message randomness).length = 64 := by
  simp only [DkgThresholdDecryptor.encrypt, List.length_append, List.length_zipWith, length_toBigEndian,
    Hash256.length_eq, Nat.min_self]

theorem honestShare_encrypt (participants : List FeldmanVssParticipant) (t : UInt32) (pk message randomness : U256)
    (id : UInt32) : honestShare participants t (DkgThresholdDecryptor.encrypt pk message randomness) id =
      .ok ⟨id, toBigEndian (Field.pow (Field.pow generator (Field.reduceBytes randomness))
        (aggregateShare participants (Field.fromU32 id)))⟩ := by
  rw [honestShare, DkgThresholdDecryptor.createDecryptionShare, Result.require_bind_eq_ok, length_encrypt]
  refine ⟨by decide, ?_⟩
  rw [DkgThresholdDecryptor.encrypt, List.take_left' (length_toBigEndian _), ofBigEndian_toBigEndian]
  rfl

omit [Crypto] in
private theorem element_toBigEndian (id : UInt32) (a : U256) : (DecryptionShare.mk id (toBigEndian a)).element = a := by
  have hlen := length_toBigEndian a
  rw [DecryptionShare.element, if_pos (ge_of_eq hlen), List.take_of_length_le (le_of_eq hlen), ofBigEndian_toBigEndian]

theorem aesKey_encrypt (pk message randomness : U256) :
    DkgEnvelopeDecryptor.aesKey (DkgThresholdDecryptor.encrypt pk message randomness)
      (toBigEndian (Field.pow pk (Field.reduceBytes randomness))) = toBigEndian message := by
  have hmasked : (List.zipWith (· ^^^ ·) (toBigEndian message)
      (sha3_256 (toBigEndian (Field.pow pk (Field.reduceBytes randomness)))).bytes).length = 32 := by
    rw [List.length_zipWith, length_toBigEndian, Hash256.length_eq, Nat.min_self]
  have hstart : aesKeyBytes = 32 := rfl
  have hlength : envelopeCiphertextBytes - 32 = 32 := rfl
  rw [DkgEnvelopeDecryptor.aesKey, DkgThresholdDecryptor.encrypt, hstart, hlength,
    List.drop_left' (length_toBigEndian _), List.take_of_length_le (le_of_eq hmasked)]
  exact zipWith_xor_self (by rw [length_toBigEndian, Hash256.length_eq])

omit [Crypto] in
/-- The combined value is a power of the generator too: the exponent is the weighted sum instead of the sum of the constant terms. -/
theorem toField_combined_honest {n : Nat} (participants : List FeldmanVssParticipant) (ids : Fin n → UInt32) (r : U256) :
    toField (combined (List.ofFn fun i => DecryptionShare.mk (ids i) (toBigEndian (Field.pow (Field.pow generator r)
      (aggregateShare participants (Field.fromU32 (ids i))))))) = 2 ^ (r.toNat * weightedSum participants ids) := by
  rw [toField_combined, weightedSum, Finset.mul_sum, ← Finset.prod_pow_eq_pow_sum]
  apply Finset.prod_congr rfl
  intro i _
  obtain ⟨hlt, hshare⟩ := toField_aggregateShare participants (Field.fromU32 (ids i))
  have hvalue : (aggregateShare participants (Field.fromU32 (ids i))).toNat =
      ((jointPolynomial participants).eval (point (ids i))).val := by
    rw [← Field.val_toField hlt, hshare, Field.toField_fromU32, point]
  rw [element_toBigEndian, Field.toField_pow, Field.toField_pow, toField_generator, hvalue, ← pow_mul, ← pow_mul]
  congr 1
  ring

/-- The shares that participants give for a ciphertext with this power of the generator. -/
def honestShares {n : Nat} (participants : List FeldmanVssParticipant) (ids : Fin n → UInt32) (r : U256) :
    List DecryptionShare :=
  List.ofFn fun i => ⟨ids i, toBigEndian (Field.pow (Field.pow generator r) (aggregateShare participants (Field.fromU32 (ids i))))⟩

omit [Crypto] in
theorem combined_honest_iff {n : Nat} {participants : List FeldmanVssParticipant} (ids : Fin n → UInt32) {pk : U256}
    (hpk : toField pk = 2 ^ constantSum participants) (r : U256) :
    combined (honestShares participants ids r) = Field.pow pk r ↔
      r.toNat * weightedSum participants ids ≡ r.toNat * constantSum participants [MOD fieldPrime - 1] := by
  have hleft := toField_combined_honest participants ids r
  have hright : toField (Field.pow pk r) = 2 ^ (r.toNat * constantSum participants) := by
    rw [Field.toField_pow, hpk, ← pow_mul, Nat.mul_comm]
  rw [← Field.toField_inj (combined_lt _) (Field.pow_lt pk _), honestShares, hleft, hright]
  exact two_pow_eq_two_pow_iff

/-- **When threshold decryption recovers the message.** The shares of `t` participants always combine, and they give the power that was masked exactly if `r` times the weighted sum and `r` times the sum of the constant terms agree modulo `p - 1`; then the message comes back. The two sums agree modulo `p`, which is not enough. Shares are combined in the same way when a participant occurs twice. -/
theorem combineShares_recovers_iff :
    (∀ (t : UInt32) (participants : List FeldmanVssParticipant) (ids : Fin t.toNat → UInt32) (message randomness : U256),
      1 ≤ t → t.toNat ≤ participants.length → (∀ p ∈ participants, p.coefficients.length = t.toNat) →
      Function.Injective ids → (∀ i, 1 ≤ ids i ∧ (ids i).toNat ≤ participants.length) →
      weightedSum participants ids ≡ constantSum participants [MOD fieldPrime] ∧
        ∃ pk shares value, aggregatePublicKey participants = some pk ∧
          (List.ofFn ids).mapM (honestShare participants t (DkgThresholdDecryptor.encrypt pk message randomness)) =
            .ok shares ∧
          combineShares shares t = .ok (toBigEndian value) ∧
          (value = Field.pow pk (Field.reduceBytes randomness) ↔
            (Field.reduceBytes randomness).toNat * weightedSum participants ids ≡
              (Field.reduceBytes randomness).toNat * constantSum participants [MOD fieldPrime - 1]) ∧
          (value = Field.pow pk (Field.reduceBytes randomness) →
            DkgEnvelopeDecryptor.aesKey (DkgThresholdDecryptor.encrypt pk message randomness) (toBigEndian value) =
              toBigEndian message)) ∧
    ∀ (shares : List DecryptionShare) (t : UInt32), shares.length = t.toNat →
      ∃ value, combineShares shares t = .ok value := by
  constructor
  · intro t participants ids message randomness ht _ hlength hids _
    refine ⟨weightedSum_modEq hlength hids, ?_⟩
    have hcoefficients : ∀ p ∈ participants, p.coefficients ≠ [] := by
      intro p hp hnil
      have hlen := hlength p hp
      rw [hnil, List.length_nil] at hlen
      have htpos : 1 ≤ t.toNat := UInt32.le_iff_toNat_le.mp ht
      omega
    obtain ⟨pk, hpk, hpkValue⟩ := exists_aggregatePublicKey hcoefficients
    have hshares : (List.ofFn ids).mapM (honestShare participants t (DkgThresholdDecryptor.encrypt pk message randomness)) =
        .ok (honestShares participants ids (Field.reduceBytes randomness)) := by
      rw [funext (honestShare_encrypt participants t pk message randomness)]
      refine (List.mapM_pure).trans ?_
      rw [List.map_ofFn]
      rfl
    refine ⟨pk, _, _, hpk, hshares, combineShares_of_length List.length_ofFn, ?_, fun hvalue => ?_⟩
    · exact combined_honest_iff ids hpkValue _
    · rw [hvalue]
      exact aesKey_encrypt pk message randomness
  · intro shares t hlength
    exact ⟨_, combineShares_of_length hlength⟩

end Decryption

/-! ### Two participants -/

/-- One constant polynomial and the zero polynomial, for a threshold of two. -/
def sampleParticipants : List FeldmanVssParticipant :=
  [⟨0, 2, 2, [1, 0], by simp; decide⟩, ⟨1, 2, 2, [0, 0], by simp; decide⟩]

/-- **Two shares of the secret one do not give the power back**, and two shares of one participant are not refused. -/
theorem combineShares_misses :
    (¬ ∀ (_ : Crypto) (t : UInt32) (participants : List FeldmanVssParticipant) (ids : List UInt32)
      (message randomness pk : U256) (shares : List DecryptionShare),
      1 ≤ t → t.toNat ≤ participants.length → (∀ p ∈ participants, p.coefficients.length = t.toNat) →
      ids.length = t.toNat → ids.Nodup → (∀ id ∈ ids, 1 ≤ id ∧ id.toNat ≤ participants.length) →
      aggregatePublicKey participants = some pk →
      ids.mapM (honestShare participants t (DkgThresholdDecryptor.encrypt pk message randomness)) = .ok shares →
        combineShares shares t = .ok (toBigEndian (Field.pow pk (Field.reduceBytes randomness)))) ∧
    ¬ ∀ (shares : List DecryptionShare) (t : UInt32), shares.length = t.toNat →
      ¬ (shares.map DecryptionShare.participantId).Nodup → ∃ e, combineShares shares t = .error e := by
  constructor
  · intro hclaim
    have hcombined := hclaim sampleCrypto 2 sampleParticipants [1, 2] 7 1 2
      [⟨1, toBigEndian 2⟩, ⟨2, toBigEndian 2⟩] (by decide) (by decide) (by decide) (by decide) (by decide) (by simp [sampleParticipants])
      (by decide +kernel) (by decide +kernel)
    exact absurd hcombined (by decide +kernel)
  · intro hclaim
    obtain ⟨e, he⟩ := hclaim [⟨1, []⟩, ⟨1, []⟩] 2 (by decide) (by decide)
    rw [combineShares_of_length (by decide)] at he
    cases he

/-- A line through minus three with slope one, and the zero polynomial. -/
def lineParticipants : List FeldmanVssParticipant :=
  [⟨0, 2, 2, [Field.sub Field.modulus 3, 1], by simp; decide⟩, ⟨1, 2, 2, [0, 0], by simp; decide⟩]

theorem weightAtZero_pair : weightAtZero ![1, 2] 0 = 2 ∧ weightAtZero ![1, 2] 1 = -1 := by
  have hfirst : (Finset.univ : Finset (Fin 2)).erase 0 = {1} := by decide
  have hsecond : (Finset.univ : Finset (Fin 2)).erase 1 = {0} := by decide
  have hone : point 1 = 1 := Nat.cast_one
  have htwo : point 2 = 2 := Nat.cast_ofNat
  rw [weightAtZero_eq, weightAtZero_eq, hfirst, hsecond, Finset.prod_singleton, Finset.prod_singleton]
  simp only [Matrix.cons_val_zero, Matrix.cons_val_one, hone, htwo]
  norm_num

private theorem weightedSum_line : weightedSum lineParticipants ![1, 2] =
    2 * (fieldPrime - 2) + (fieldPrime - 1) * (fieldPrime - 1) := by
  have hshare (id : UInt32) {s : Nat} (h : (aggregateShare lineParticipants (Field.fromU32 id)).toNat = s) :
      ((jointPolynomial lineParticipants).eval (point id)).val = s := by
    obtain ⟨hlt, heval⟩ := toField_aggregateShare lineParticipants (Field.fromU32 id)
    rw [Field.toField_fromU32, ← point] at heval
    rw [← heval, Field.val_toField hlt, h]
  have htwo : (2 : ZMod fieldPrime).val = 2 := ZMod.val_cast_of_lt (n := fieldPrime) (a := 2) (by decide)
  have hminus : (-1 : ZMod fieldPrime).val = fieldPrime - 1 := ZMod.val_neg_one (fieldPrime - 1)
  rw [weightedSum, Fin.sum_univ_two, weightAtZero_pair.1, weightAtZero_pair.2, htwo, hminus]
  have h1 := hshare 1 (s := fieldPrime - 2) (by decide +kernel)
  have h2 := hshare 2 (s := fieldPrime - 1) (by decide +kernel)
  simp only [Matrix.cons_val_zero, Matrix.cons_val_one, h1, h2]

/-- Two shares of a line, with which the message comes back. -/
theorem combineShares_recovers_iff_line :
    ∃ pk shares value, aggregatePublicKey lineParticipants = some pk ∧
      (List.ofFn ![(1 : UInt32), 2]).mapM (honestShare lineParticipants 2
        (@DkgThresholdDecryptor.encrypt sampleCrypto pk 7 3)) = .ok shares ∧
      combineShares shares 2 = .ok (toBigEndian value) ∧
      @DkgEnvelopeDecryptor.aesKey sampleCrypto (@DkgThresholdDecryptor.encrypt sampleCrypto pk 7 3) (toBigEndian value) =
        toBigEndian 7 := by
  obtain ⟨-, pk, shares, value, hpk, hshares, hcombined, hiff, hkey⟩ := (@combineShares_recovers_iff sampleCrypto).1 2
    lineParticipants ![1, 2] 7 3 (by decide) (by decide) (by decide) (by decide) (by decide)
  refine ⟨pk, shares, value, hpk, hshares, hcombined, hkey (hiff.mpr ?_)⟩
  have hconstant : constantSum lineParticipants = fieldPrime - 3 := by decide +kernel
  have hsame : weightedSum lineParticipants ![1, 2] ≡ fieldPrime - 3 [MOD fieldPrime - 1] := by
    rw [weightedSum_line]
    decide +kernel
  rw [hconstant]
  exact hsame.mul_left _

end Threshold

end QuantumVault
