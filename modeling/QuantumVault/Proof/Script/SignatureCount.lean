import QuantumVault.Core.Crypto
import QuantumVault.Lib.Matching

/-!
# What the multi-signature check counts

The check goes through the signatures once and gives each of them the first unused key it verifies under. The keys in use are a set of positions, and a run of the check is a greedy pass over the signatures.
-/

namespace QuantumVault

variable [Crypto] {pks sigs : List Bytes} {msg sig pk : Bytes} {used : Finset ℕ} {keys : List (Bytes × Bool)}

def Signs (pks : List Bytes) (msg : Bytes) (p : ℕ) (sig : Bytes) : Prop :=
  ∃ pk, pks[p]? = some pk ∧ checksigPqc pk sig msg = true

/-! ### One signature -/

private theorem takeMatchingKey_found (h : (takeMatchingKey msg sig keys).2 = true) :
    ∃ p pk, keys[p]? = some (pk, false) ∧ checksigPqc pk sig msg = true ∧
      (takeMatchingKey msg sig keys).1 = keys.set p (pk, true) := by
  induction keys with
  | nil => cases h
  | cons key keys ih =>
      obtain ⟨pk, isUsed⟩ := key
      by_cases hkey : (!isUsed && checksigPqc pk sig msg) = true
      · rw [Bool.and_eq_true, Bool.not_eq_true'] at hkey
        obtain ⟨rfl, hverify⟩ := hkey
        exact ⟨0, pk, rfl, hverify, by simp [takeMatchingKey, hverify]⟩
      · rw [takeMatchingKey, if_neg hkey] at h ⊢
        obtain ⟨p, pk', hget, hverify, hset⟩ := ih h
        exact ⟨p + 1, pk', hget, hverify, congrArg ((pk, isUsed) :: ·) hset⟩

private theorem takeMatchingKey_notFound (h : (takeMatchingKey msg sig keys).2 = false) :
    (takeMatchingKey msg sig keys).1 = keys ∧ ∀ pk, (pk, false) ∈ keys → checksigPqc pk sig msg = false := by
  induction keys with
  | nil => exact ⟨rfl, by simp⟩
  | cons key keys ih =>
      obtain ⟨pk, isUsed⟩ := key
      by_cases hkey : (!isUsed && checksigPqc pk sig msg) = true
      · rw [takeMatchingKey, if_pos hkey] at h
        cases h
      · rw [takeMatchingKey, if_neg hkey] at h ⊢
        obtain ⟨hkeys, hnone⟩ := ih h
        refine ⟨congrArg ((pk, isUsed) :: ·) hkeys, fun pk' hmem => ?_⟩
        obtain heq | hmem := List.mem_cons.mp hmem
        · cases heq
          simpa using hkey
        · exact hnone pk' hmem

/-! ### The keys with their marks -/

/-- The keys, each marked if its position is in use. -/
def markedKeys (pks : List Bytes) (used : Finset ℕ) : List (Bytes × Bool) :=
  pks.zipIdx.map fun key => (key.1, decide (key.2 ∈ used))

omit [Crypto] in
theorem getElem?_markedKeys (p : ℕ) : (markedKeys pks used)[p]? = pks[p]?.map fun pk => (pk, decide (p ∈ used)) := by
  simp [markedKeys, Function.comp_def]

omit [Crypto] in
private theorem markedKeys_empty : markedKeys pks ∅ = pks.map fun pk => (pk, false) := by
  ext1 p
  simp [getElem?_markedKeys]

omit [Crypto] in
private theorem set_markedKeys {p : ℕ} (hget : pks[p]? = some pk) :
    (markedKeys pks used).set p (pk, true) = markedKeys pks (insert p used) := by
  ext1 q
  rw [List.getElem?_set', getElem?_markedKeys, getElem?_markedKeys]
  split
  · next heq => subst heq; simp [hget]
  · next hne => simp [Ne.symm hne]

omit [Crypto] in
private theorem mem_markedKeys_unused {p : ℕ} (hget : pks[p]? = some pk) (hfree : p ∉ used) :
    (pk, false) ∈ markedKeys pks used :=
  List.mem_of_getElem? (i := p) (by simp [getElem?_markedKeys, hget, hfree])

/-! ### All signatures -/

/-- A run of the check is a greedy pass, and counts the positions that it takes. -/
theorem greedyPass_checkmultisig (pks : List Bytes) (msg : Bytes) (sigs : List Bytes) (used : Finset ℕ) (count : ℕ) :
    ∃ used' count', sigs.foldl (fun acc sig =>
        let (keys, found) := takeMatchingKey msg sig acc.1
        (keys, if found then acc.2 + 1 else acc.2)) (markedKeys pks used, count) = (markedKeys pks used', count') ∧
      GreedyPass (Signs pks msg) used sigs used' ∧ count' + used.card = count + used'.card := by
  induction sigs generalizing used count with
  | nil => exact ⟨used, count, rfl, .nil used, rfl⟩
  | cons sig sigs ih =>
      rw [List.foldl_cons]
      dsimp only
      by_cases hfound : (takeMatchingKey msg sig (markedKeys pks used)).2 = true
      · obtain ⟨p, pk, hmarked, hverify, hset⟩ := takeMatchingKey_found hfound
        obtain ⟨hget, hfree⟩ : pks[p]? = some pk ∧ p ∉ used := by simpa [getElem?_markedKeys] using hmarked
        rw [hset, set_markedKeys hget, if_pos hfound]
        obtain ⟨used', count', hfold, hpass, hcount⟩ := ih (insert p used) (count + 1)
        rw [Finset.card_insert_of_notMem hfree] at hcount
        exact ⟨used', count', hfold, .take hfree ⟨pk, hget, hverify⟩ hpass, by omega⟩
      · rw [Bool.not_eq_true] at hfound
        obtain ⟨hkeys, hnone⟩ := takeMatchingKey_notFound hfound
        rw [hkeys, hfound]
        obtain ⟨used', count', hfold, hpass, hcount⟩ := ih used count
        refine ⟨used', count', hfold, .skip ?_ hpass, hcount⟩
        rintro p ⟨pk, hget, hverify⟩
        by_contra hfree
        rw [hnone pk (mem_markedKeys_unused hget hfree)] at hverify
        cases hverify

private theorem checkmultisigPqc_iff_greedyPass (pks sigs : List Bytes) (msg : Bytes) :
    ∃ used, GreedyPass (Signs pks msg) ∅ sigs used ∧
      ∀ threshold, checkmultisigPqc pks sigs msg threshold = true ↔ threshold ≤ used.card := by
  obtain ⟨used, count, hfold, hpass, hcount⟩ := greedyPass_checkmultisig pks msg sigs ∅ 0
  refine ⟨used, hpass, fun threshold => ?_⟩
  obtain ⟨m, -, hcard⟩ := hpass.exists_matching
  have hplaces : ∀ pair ∈ m.pairs, pair.2 ∈ Finset.range pks.length := by
    intro pair hpair
    obtain ⟨sig, -, pk, hget, -⟩ := m.fits_of_mem pair hpair
    exact Finset.mem_range.mpr (List.getElem?_eq_some_iff.mp hget).1
  have hkeys := m.card_le_card hplaces
  have hsigs := m.card_le_length
  rw [Finset.card_empty] at hcard hcount
  rw [Finset.card_range] at hkeys
  rw [checkmultisigPqc]
  split
  · next hguard =>
      simp only [Bool.false_eq_true, false_iff, not_le]
      omega
  · dsimp only
    rw [← markedKeys_empty, hfold, decide_eq_true_iff]
    omega

/-- **The check counts a matching.** If it accepts, then at least the threshold of the signatures verify, each under a key position of its own; and such an assignment is enough if no signature verifies under two different keys. -/
theorem checkmultisigPqc_matching (pks sigs : List Bytes) (msg : Bytes) (threshold : ℕ) :
    (checkmultisigPqc pks sigs msg threshold = true →
      ∃ m : Matching (Signs pks msg) sigs, threshold ≤ m.pairs.card) ∧
    ((∀ sig ∈ sigs, ∀ pk ∈ pks, ∀ pk' ∈ pks, checksigPqc pk sig msg = true → checksigPqc pk' sig msg = true → pk = pk') →
      (∃ m : Matching (Signs pks msg) sigs, threshold ≤ m.pairs.card) →
      checkmultisigPqc pks sigs msg threshold = true) := by
  obtain ⟨used, hpass, haccepts⟩ := checkmultisigPqc_iff_greedyPass pks sigs msg
  refine ⟨fun h => ?_, fun hunique hmatching => ?_⟩
  · obtain ⟨m, -, hcard⟩ := hpass.exists_matching
    rw [Finset.card_empty, Nat.add_zero] at hcard
    exact ⟨m, hcard ▸ (haccepts threshold).mp h⟩
  · obtain ⟨m, hm⟩ := hmatching
    have hclass : ∀ p q, ∀ x ∈ sigs, ∀ y ∈ sigs, Signs pks msg p x → Signs pks msg q x → Signs pks msg p y →
        Signs pks msg q y := by
      rintro p q x hx y - ⟨pk, hp, hpx⟩ ⟨pk', hq, hqx⟩ ⟨pk'', hp', hpy⟩
      cases hp.symm.trans hp'
      have heq := hunique x hx pk (List.mem_of_getElem? hp) pk' (List.mem_of_getElem? hq) hpx hqx
      exact ⟨pk', hq, heq ▸ hpy⟩
    have hlargest := hpass.card_le hclass m (by simp)
    rw [Finset.card_empty, Nat.add_zero] at hlargest
    exact (haccepts threshold).mpr (hm.trans hlargest)

/-- Primitives under which a signature verifies under the keys that begin with the same byte. -/
@[reducible] def leadingByteCrypto : Crypto := ⟨sampleDigest, sampleDigest, fun _ pk _ sig => pk.head? == sig.head?⟩

omit [Crypto] in
/-- Two signatures in the other order than their keys. -/
theorem checkmultisigPqc_matching_crossed :
    @checkmultisigPqc leadingByteCrypto [List.replicate 1312 1, List.replicate 1312 2]
      [List.replicate 2420 2, List.replicate 2420 1] [] 2 = true := by
  let _ : Crypto := leadingByteCrypto
  apply (checkmultisigPqc_matching _ _ _ _).2
  · decide +kernel
  · refine ⟨⟨{(0, 1), (1, 0)}, by simp, by simp, ?_⟩, le_refl 2⟩
    simp only [Finset.mem_insert, Finset.mem_singleton, forall_eq_or_imp, forall_eq]
    exact ⟨⟨_, rfl, _, rfl, by decide +kernel⟩, ⟨_, rfl, _, rfl, by decide +kernel⟩⟩

end QuantumVault
