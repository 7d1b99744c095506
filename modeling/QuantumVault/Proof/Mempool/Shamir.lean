import QuantumVault.Proof.Mempool.Threshold

/-!
# Reconstruction of a shared secret

The shares of a secret are values of a polynomial at distinct points, none of them zero, and what is computed from as many shares as the polynomial has coefficients is its value at zero, in whatever order they come. Repeated and zero indices are found by sorting. The number of shares is narrowed to 32 bits before it is compared with the threshold, so enough shares are refused when their number wraps below it.
-/

namespace QuantumVault

namespace Threshold

open Polynomial Result

/-! ### Interpolation -/

private theorem toField_shareBasis {n : Nat} (shares : Fin n → ShamirShare) (i : Fin n) :
    toField (shareBasis (List.ofFn shares) i (shares i)) = weightAtZero (fun j => (shares j).index) i :=
  toField_lagrange ShamirShare.index shares i

private theorem toField_interpolateAtZero {n : Nat} (shares : Fin n → ShamirShare) :
    interpolateAtZero (List.ofFn shares) < Field.modulus ∧
      toField (interpolateAtZero (List.ofFn shares)) =
        ∑ i, weightAtZero (fun j => (shares j).index) i * toField (shares i).value := by
  have hloop : ∀ (used : List ShamirShare) (entries : List (ShamirShare × Nat)),
      let result := entries.foldl (fun result entry =>
        Field.add result (Field.mul entry.1.value (shareBasis used entry.2 entry.1))) Field.zero
      result < Field.modulus ∧
        toField result = (entries.map fun entry => toField (shareBasis used entry.2 entry.1) * toField entry.1.value).sum := by
    intro used entries
    induction entries using List.reverseRecOn with
    | nil => exact ⟨Field.zero_lt, Field.toField_zero⟩
    | append_singleton entries entry ih =>
        obtain ⟨hlt, hvalue⟩ := ih
        have hterm := Field.mul_lt entry.1.value (shareBasis used entry.2 entry.1)
        simp only [List.foldl_append, List.foldl_cons, List.foldl_nil]
        refine ⟨Field.add_lt hlt hterm, ?_⟩
        rw [Field.toField_add hlt hterm, hvalue, Field.toField_mul, List.map_append, List.sum_append, List.map_singleton,
          List.sum_singleton, mul_comm (toField entry.1.value)]
  obtain ⟨hlt, hvalue⟩ := hloop (List.ofFn shares) (List.ofFn shares).zipIdx
  refine ⟨hlt, hvalue.trans ?_⟩
  rw [map_zipIdx_ofFn, List.sum_ofFn]
  exact Finset.sum_congr rfl fun i _ => by rw [toField_shareBasis]

/-- A share that holds the value of a function at a point that is not zero. -/
structure IsShareOf (eval : U256 → U256) (share : ShamirShare) : Prop where
  index_ne_zero : share.index ≠ 0
  value_eq : share.value = eval (Field.fromU32 share.index)

section Interpolation

variable {eval : U256 → U256} {used : List ShamirShare}

theorem nodup_index (hshares : ∀ share ∈ used, IsShareOf eval share) (hnodup : used.Nodup) :
    (used.map ShamirShare.index).Nodup := by
  refine hnodup.map_on fun a ha b hb hab => ?_
  have hvalue : a.value = b.value := by rw [(hshares a ha).value_eq, (hshares b hb).value_eq, hab]
  cases a
  cases b
  cases hab
  cases hvalue
  rfl

theorem zero_notMem_index (hshares : ∀ share ∈ used, IsShareOf eval share) : 0 ∉ used.map ShamirShare.index := by
  intro hzero
  obtain ⟨share, hmem, hindex⟩ := List.mem_map.mp hzero
  exact (hshares share hmem).index_ne_zero hindex

/-- **Interpolation gives the value at zero** of any polynomial with as many coefficients as there are shares. -/
theorem interpolateAtZero_eq {f : (ZMod fieldPrime)[X]} {value : U256}
    (hdegree : f ∈ degreeLT (ZMod fieldPrime) used.length) (heval : ∀ x, toField (eval x) = f.eval (toField x))
    (hshares : ∀ share ∈ used, IsShareOf eval share) (hnodup : used.Nodup) (hvalue : value < Field.modulus)
    (hzero : toField value = f.eval 0) : interpolateAtZero used = value := by
  have hindices := nodup_index hshares hnodup
  have hinjective : Function.Injective fun i => (used.get i).index := by
    intro i j h
    have hget := List.inj_on_of_nodup_map hindices (List.get_mem used i) (List.get_mem used j) h
    exact List.nodup_iff_injective_get.mp hnodup hget
  obtain ⟨hlt, hsum⟩ := toField_interpolateAtZero used.get
  rw [List.ofFn_get] at hlt hsum
  refine (Field.toField_inj hlt hvalue).mp (hsum.trans ?_)
  rw [hzero, eval_zero_eq_sum hdegree hinjective]
  refine Finset.sum_congr rfl fun i _ => ?_
  rw [(hshares _ (List.get_mem used i)).value_eq, heval, Field.toField_fromU32]
  rfl

end Interpolation

/-! ### What is accepted -/

private theorem head_sorted_ne_zero_iff (indices : List UInt32) : (Sorting.sorted indices).head? ≠ some 0 ↔ 0 ∉ indices := by
  have hmem : 0 ∈ Sorting.sorted indices ↔ 0 ∈ indices := (Sorting.perm_sorted indices).mem_iff
  refine not_congr ⟨fun h => hmem.mp (List.mem_of_mem_head? h), fun h => ?_⟩
  have hsorted := Sorting.pairwise_sorted indices
  rw [← hmem] at h
  cases hcases : Sorting.sorted indices with
  | nil => rw [hcases] at h; cases h
  | cons first rest =>
      rw [hcases] at h hsorted
      rcases List.mem_cons.mp h with hfirst | hrest
      · rw [List.head?_cons, hfirst]
      · have hle := (List.pairwise_cons.mp hsorted).1 0 hrest
        rw [Std.isLE_compare] at hle
        have hzero : first.toNat ≤ (0 : UInt32).toNat := UInt32.le_iff_toNat_le.mp hle
        have hfirst : first = 0 := UInt32.toNat_inj.mp (Nat.le_zero.mp hzero)
        rw [List.head?_cons, hfirst]

theorem reconstructSecret_eq_ok {shares : List ShamirShare} {threshold : UInt32} {value : U256} :
    reconstructSecret shares threshold = .ok value ↔ threshold.toNat ≤ shares.length % 2 ^ 32 ∧
      ((shares.take threshold.toNat).map ShamirShare.index).Nodup ∧
      0 ∉ (shares.take threshold.toNat).map ShamirShare.index ∧
      interpolateAtZero (shares.take threshold.toNat) = value := by
  have henough : ¬ UInt32.ofNat shares.length < threshold ↔ threshold.toNat ≤ shares.length % 2 ^ 32 := by
    rw [UInt32.not_lt, UInt32.le_iff_toNat_le, UInt32.toNat_ofNat']
  have hdistinct : Sorting.hasAdjacentEqual (Sorting.sorted ((shares.take threshold.toNat).map ShamirShare.index)) = false ↔
      ((shares.take threshold.toNat).map ShamirShare.index).Nodup := by
    rw [← Bool.not_eq_true, Sorting.hasAdjacentEqual_sorted, not_not]
  rw [reconstructSecret, require_bind_eq_ok, henough]
  refine and_congr_right fun _ => ?_
  dsimp only
  rw [require_bind_eq_ok, require_bind_eq_ok, hdistinct, head_sorted_ne_zero_iff, pure_eq_ok]

/-! ### The shares of a secret -/

section Splitting

variable [Crypto] {secret : U256} {threshold total : UInt32}

private theorem secretCoefficients_lt : ∀ coeff ∈ secretCoefficients secret threshold, coeff < Field.modulus := by
  intro coeff hcoeff
  rcases List.mem_cons.mp hcoeff with rfl | hrest
  · exact Field.reduce_lt secret
  · obtain ⟨i, -, rfl⟩ := List.mem_map.mp hrest
    exact Field.reduce_lt _

private theorem length_secretCoefficients (h : 1 ≤ threshold) :
    (secretCoefficients secret threshold).length = threshold.toNat := by
  have hpositive : 1 ≤ threshold.toNat := UInt32.le_iff_toNat_le.mp h
  rw [secretCoefficients, List.length_cons, List.length_map, List.length_range']
  omega

/-- What the shares of a secret are values of. -/
def sharePolynomial (secret : U256) (threshold : UInt32) (x : U256) : U256 :=
  polyEval (secretCoefficients secret threshold) x

theorem splitSecret_eq_ok (hthreshold : 1 ≤ threshold) (hle : threshold ≤ total) (htotal : total ≤ 255) :
    ∃ shares, splitSecret secret threshold total = .ok shares ∧ shares.length = total.toNat ∧ shares.Nodup ∧
      ∀ share ∈ shares, IsShareOf (sharePolynomial secret threshold) share := by
  have hpositive : 1 ≤ threshold.toNat := UInt32.le_iff_toNat_le.mp hthreshold
  have hbound : total.toNat ≤ 255 := UInt32.le_iff_toNat_le.mp htotal
  have hnonzero : threshold ≠ 0 := by
    rintro rfl
    exact absurd hpositive (by decide)
  have htoNat {idx : Nat} (h : idx ∈ List.range' 1 total.toNat) : (UInt32.ofNat idx).toNat = idx ∧ idx ≠ 0 := by
    rw [List.mem_range'_1] at h
    exact ⟨UInt32.toNat_ofNat_of_lt' (by omega : idx < 2 ^ 32), by omega⟩
  refine ⟨_, require_bind_eq_ok.mpr ⟨?_, require_bind_eq_ok.mpr ⟨UInt32.not_lt.mpr htotal, rfl⟩⟩, ?_, ?_, ?_⟩
  · exact not_or.mpr ⟨hnonzero, UInt32.not_lt.mpr hle⟩
  · rw [List.length_map, List.length_range']
  · refine List.Nodup.map_on (fun i hi j hj hij => ?_) (List.nodup_range' 1)
    have hindex := congrArg (fun share => share.index.toNat) hij
    exact (htoNat hi).1.symm.trans (hindex.trans (htoNat hj).1)
  · intro share hshare
    obtain ⟨idx, hidx, rfl⟩ := List.mem_map.mp hshare
    refine ⟨fun hzero : UInt32.ofNat idx = 0 => (htoNat hidx).2 ?_, rfl⟩
    rw [← (htoNat hidx).1]
    exact congrArg UInt32.toNat hzero

/-- **Any `threshold` distinct shares are interpolated to the secret.** -/
theorem interpolateAtZero_of_shares (hthreshold : 1 ≤ threshold) {used : List ShamirShare}
    (hshares : ∀ share ∈ used, IsShareOf (sharePolynomial secret threshold) share) (hnodup : used.Nodup)
    (hlength : used.length = threshold.toNat) : interpolateAtZero used = Field.reduce secret := by
  refine interpolateAtZero_eq (f := polynomialOf (secretCoefficients secret threshold)) ?_
    (fun x => (toField_polyEval secretCoefficients_lt x).2) hshares hnodup (Field.reduce_lt secret) ?_
  · rw [hlength, ← length_secretCoefficients hthreshold]
    exact polynomialOf_mem_degreeLT _
  · rw [eval_zero_polynomialOf]
    rfl

end Splitting

/-- The shares are taken from those of the secret, and the first ones, as many as are used, are distinct. -/
structure DrawnFrom (shares : List ShamirShare) (threshold : UInt32) (list : List ShamirShare) : Prop where
  mem : ∀ share ∈ list, share ∈ shares
  enough : threshold.toNat ≤ list.length
  distinct : (list.take threshold.toNat).Nodup

theorem DrawnFrom.reconstructSecret_iff [Crypto] {secret : U256} {threshold : UInt32} {shares list : List ShamirShare}
    (hthreshold : 1 ≤ threshold) (hshares : ∀ share ∈ shares, IsShareOf (sharePolynomial secret threshold) share)
    (h : DrawnFrom shares threshold list) :
    reconstructSecret list threshold = .ok (Field.reduce secret) ↔ threshold.toNat ≤ list.length % 2 ^ 32 := by
  have hused : ∀ share ∈ list.take threshold.toNat, IsShareOf (sharePolynomial secret threshold) share :=
    fun share hmem => hshares share (h.mem share (List.mem_of_mem_take hmem))
  rw [reconstructSecret_eq_ok]
  exact and_iff_left ⟨nodup_index hused h.distinct, zero_notMem_index hused,
    interpolateAtZero_of_shares hthreshold hused h.distinct (List.length_take_of_le h.enough)⟩

/-- **A shared secret is reconstructed exactly when the number of shares does not wrap below the threshold.** Too few shares, and a repeated or zero index among those that are used, are always refused. -/
theorem reconstructSecret_exact_iff [Crypto] (secret : U256) (threshold total : UInt32) (hthreshold : 1 ≤ threshold)
    (hle : threshold ≤ total) (htotal : total ≤ 255) :
    (∃ shares, splitSecret secret threshold total = .ok shares ∧ shares.length = total.toNat ∧ shares.Nodup ∧
      ∀ list, DrawnFrom shares threshold list →
        (reconstructSecret list threshold = .ok (Field.reduce secret) ↔ threshold.toNat ≤ list.length % 2 ^ 32)) ∧
    ∀ (list : List ShamirShare) (threshold : UInt32),
      (list.length < threshold.toNat ∨ ¬ ((list.take threshold.toNat).map ShamirShare.index).Nodup ∨
        0 ∈ (list.take threshold.toNat).map ShamirShare.index) →
      ∃ e, reconstructSecret list threshold = .error e := by
  refine ⟨?_, fun list threshold hbad => ?_⟩
  · obtain ⟨shares, hsplit, hlength, hnodup, hshares⟩ := @splitSecret_eq_ok _ secret _ _ hthreshold hle htotal
    exact ⟨shares, hsplit, hlength, hnodup, fun list hdrawn => hdrawn.reconstructSecret_iff hthreshold hshares⟩
  · cases hresult : reconstructSecret list threshold with
    | error e => exact ⟨e, rfl⟩
    | ok value =>
        obtain ⟨henough, hnodup, hzero, -⟩ := reconstructSecret_eq_ok.mp hresult
        rcases hbad with hfew | hrepeated | hmem
        · exact absurd (henough.trans (Nat.mod_le _ _)) (not_le.mpr hfew)
        · exact absurd hnodup hrepeated
        · exact absurd hmem hzero

theorem reconstructSecret_exact_sample : ∃ (_ : Crypto) (shares : List ShamirShare),
    splitSecret 42 2 3 = .ok shares ∧ reconstructSecret shares 2 = .ok (Field.reduce 42) := by
  let _ : Crypto := sampleCrypto
  obtain ⟨⟨shares, hsplit, hlength, hnodup, hexact⟩, -⟩ :=
    reconstructSecret_exact_iff 42 2 3 (by decide) (by decide) (by decide)
  have hlength : shares.length = 3 := hlength
  have hdrawn : DrawnFrom shares 2 shares :=
    ⟨fun _ h => h, hlength ▸ by decide, hnodup.sublist (List.take_sublist _ _)⟩
  exact ⟨sampleCrypto, shares, hsplit, (hexact shares hdrawn).mpr (hlength ▸ by decide)⟩

/-- The only share, `2^32` times over: their number wraps to zero. -/
theorem reconstructSecret_wraps : ¬ ∀ (_ : Crypto) (secret : U256) (threshold total : UInt32) (shares list : List ShamirShare),
    1 ≤ threshold → threshold ≤ total → total ≤ 255 → splitSecret secret threshold total = .ok shares →
    DrawnFrom shares threshold list → reconstructSecret list threshold = .ok (Field.reduce secret) := by
  intro hall
  let _ : Crypto := sampleCrypto
  obtain ⟨shares, hsplit, hlength, -, hshares⟩ :=
    @splitSecret_eq_ok _ 42 1 1 (by decide) (by decide) (by decide)
  obtain ⟨share, rfl⟩ := List.length_eq_one_iff.mp hlength
  have hdrawn : DrawnFrom [share] 1 (List.replicate (2 ^ 32) share) := by
    refine ⟨fun _ h => List.mem_singleton.mpr (List.eq_of_mem_replicate h), ?_, ?_⟩
    · rw [List.length_replicate]
      decide
    · rw [List.take_replicate]
      exact List.nodup_singleton share
  have hok := hall sampleCrypto 42 1 1 [share] _ (by decide) (by decide) (by decide) hsplit hdrawn
  rw [hdrawn.reconstructSecret_iff (by decide) hshares, List.length_replicate] at hok
  exact absurd hok (by decide)

end Threshold

end QuantumVault
