import QuantumVault.Consensus.ChainSelection

/-!
# When two nodes would swap chains

The selection rule is chosen by the local chain alone, so two nodes that compare the same two chains may use different rules. On each rule by itself at most one of them switches. They both switch exactly when one chain is short enough after the fork point for the length rule and the other is not, and the longer one is the sparser one in the window.
-/

namespace QuantumVault

/-! ### The common prefix -/

theorem commonPrefixLen_cons (x y : ChainEntry) (xs ys : List ChainEntry) :
    commonPrefixLen (x :: xs) (y :: ys) = if x.hash = y.hash then commonPrefixLen xs ys + 1 else 0 := by
  unfold commonPrefixLen
  rw [List.zip_cons_cons, List.takeWhile_cons]
  split <;> simp_all

theorem commonPrefixLen_comm (xs ys : List ChainEntry) : commonPrefixLen xs ys = commonPrefixLen ys xs := by
  induction xs generalizing ys with
  | nil => cases ys <;> rfl
  | cons x xs ih =>
      cases ys with
      | nil => rfl
      | cons y ys =>
          rw [commonPrefixLen_cons, commonPrefixLen_cons, ih ys]
          simp only [eq_comm]

theorem commonPrefixLen_le_length (xs ys : List ChainEntry) : commonPrefixLen xs ys ≤ xs.length := by
  apply (List.takeWhile_sublist _).length_le.trans
  rw [List.length_zip]
  exact Nat.min_le_left _ _

private theorem hash_eq_of_lt_commonPrefixLen {xs ys : List ChainEntry} {i : Nat} (h : i < commonPrefixLen xs ys) :
    xs[i]?.map ChainEntry.hash = ys[i]?.map ChainEntry.hash := by
  induction xs generalizing ys i with
  | nil => exact absurd h (Nat.not_lt_zero i)
  | cons x xs ih =>
      cases ys with
      | nil => exact absurd h (Nat.not_lt_zero i)
      | cons y ys =>
          rw [commonPrefixLen_cons] at h
          split at h
          · rename_i hxy
            cases i with
            | zero => exact congrArg some hxy
            | succ i => exact ih (by omega)
          · omega

theorem lt_commonPrefixLen {xs ys : List ChainEntry} {i : Nat} (hxs : i < xs.length) (hys : i < ys.length)
    (h : ∀ j ≤ i, xs[j]?.map ChainEntry.hash = ys[j]?.map ChainEntry.hash) : i < commonPrefixLen xs ys := by
  induction xs generalizing ys i with
  | nil => exact absurd hxs (Nat.not_lt_zero i)
  | cons x xs ih =>
      cases ys with
      | nil => exact absurd hys (Nat.not_lt_zero i)
      | cons y ys =>
          have hxy : x.hash = y.hash := Option.some.inj (h 0 (Nat.zero_le i))
          rw [commonPrefixLen_cons, if_pos hxy]
          cases i with
          | zero => omega
          | succ i =>
              have hrest := ih (Nat.lt_of_succ_lt_succ hxs) (Nat.lt_of_succ_lt_succ hys) fun j hj =>
                h (j + 1) (Nat.succ_le_succ hj)
              omega

/-! ### The rule, from either side -/

def SharesGenesis (xs ys : List ChainEntry) : Prop := ∃ genesis, xs.head? = some genesis ∧ ys.head? = some genesis

/-- A block hash names one block: entries of the two chains with equal hashes are equal. -/
def HashesIdentify (xs ys : List ChainEntry) : Prop := ∀ x ∈ xs, ∀ y ∈ ys, x.hash = y.hash → x = y

/-- Number of blocks a chain has after its fork point with another one. -/
def divergence (chain other : List ChainEntry) : UInt64 := blocksAfter chain (commonPrefixLen chain other)

/-- Number of blocks a chain has in the `s` slots after its fork point with another one. -/
def forkDensity (chain other : List ChainEntry) (s : UInt64) : UInt64 :=
  match chain[commonPrefixLen chain other - 1]? with
  | none => 0
  | some fork => densityInWindow chain (commonPrefixLen chain other) fork.slot (Word.saturatingAdd fork.slot s)

variable {xs ys : List ChainEntry}

theorem SharesGenesis.symm (h : SharesGenesis xs ys) : SharesGenesis ys xs :=
  let ⟨genesis, hxs, hys⟩ := h
  ⟨genesis, hys, hxs⟩

theorem HashesIdentify.symm (h : HashesIdentify xs ys) : HashesIdentify ys xs :=
  fun y hy x hx hhash => (h x hx y hy hhash.symm).symm

theorem SharesGenesis.commonPrefixLen_pos (h : SharesGenesis xs ys) : 0 < commonPrefixLen xs ys := by
  obtain ⟨genesis, hxs, hys⟩ := h
  obtain ⟨xs, rfl⟩ := List.head?_eq_some_iff.mp hxs
  obtain ⟨ys, rfl⟩ := List.head?_eq_some_iff.mp hys
  rw [commonPrefixLen_cons, if_pos rfl]
  omega

private theorem exists_forkPoint (hshare : SharesGenesis xs ys) (hident : HashesIdentify xs ys) :
    ∃ fork, xs[commonPrefixLen xs ys - 1]? = some fork ∧ ys[commonPrefixLen ys xs - 1]? = some fork := by
  have hpos := hshare.commonPrefixLen_pos
  have hlast : commonPrefixLen xs ys - 1 < commonPrefixLen xs ys := by omega
  have hxs := commonPrefixLen_le_length xs ys
  have hys := commonPrefixLen_le_length ys xs
  have hhash := hash_eq_of_lt_commonPrefixLen hlast
  rw [commonPrefixLen_comm ys xs] at hys ⊢
  rw [List.getElem?_eq_getElem (by omega), List.getElem?_eq_getElem (by omega)] at hhash ⊢
  have hsame := hident _ (List.getElem_mem _) _ (List.getElem_mem _) (Option.some.inj hhash)
  exact ⟨_, rfl, congrArg some hsame.symm⟩

/-- What the rule decides: length up to divergence `k` of the local chain, density of the two chains beyond. -/
theorem maxvalidBg_eq (hshare : SharesGenesis xs ys) (hident : HashesIdentify xs ys) (k s : UInt64) :
    maxvalidBg xs ys k s =
      if divergence xs ys ≤ k then longerChain xs ys
      else if forkDensity xs ys s < forkDensity ys xs s then .adoptCandidate else .keepLocal := by
  obtain ⟨fork, hxs, hys⟩ := exists_forkPoint hshare hident
  have hpos := hshare.commonPrefixLen_pos
  rw [maxvalidBg, if_neg (by omega), forkDensity, forkDensity, hxs, hys, commonPrefixLen_comm ys xs]
  rfl

/-! ### Each rule is antisymmetric -/

theorem Hash256.not_lt_of_lt {a b : Hash256} (h : Hash256.lt a b = true) : ¬ Hash256.lt b a = true := by
  rw [Hash256.lt_iff] at h ⊢
  rw [Std.OrientedCmp.gt_of_lt h]
  decide

private theorem longerChain_of_length_lt (h : xs.length < ys.length) : longerChain xs ys = .adoptCandidate := by
  rw [longerChain, Nat.compare_eq_gt.mpr h]

theorem longerChain_of_length_gt (h : ys.length < xs.length) : longerChain xs ys = .keepLocal := by
  rw [longerChain, Nat.compare_eq_lt.mpr h]

private theorem longerChain_antisymm (h : longerChain xs ys = .adoptCandidate) : longerChain ys xs ≠ .adoptCandidate := by
  obtain hlt | heq | hgt := Nat.lt_trichotomy xs.length ys.length
  · rw [longerChain_of_length_gt hlt]
    exact ChainPreference.noConfusion
  · -- equal lengths: the tip hashes cannot both be the lower one
    unfold longerChain at h ⊢
    rw [Nat.compare_eq_eq.mpr heq.symm] at h
    rw [Nat.compare_eq_eq.mpr heq]
    cases hx : xs.getLast? with
    | none => simp [hx] at h
    | some x =>
        cases hy : ys.getLast? with
        | none => simp [hy] at h
        | some y =>
            simp only [hx, hy, ite_eq_left_iff, reduceCtorEq, imp_false, not_not] at h
            simp [Hash256.not_lt_of_lt h]
  · rw [longerChain_of_length_gt hgt] at h
    cases h

private theorem length_lt_of_divergence_lt (h : divergence xs ys < divergence ys xs) : xs.length < ys.length := by
  have hlt := Word.lt_of_saturatingOfNat_lt h
  have hxs := commonPrefixLen_le_length xs ys
  rw [commonPrefixLen_comm ys xs] at hlt
  omega

/-! ### The two sides together -/

/-- The first chain is within `k` blocks of the fork point, the second is not and has fewer blocks in the window. -/
def OvertakenByDensity (k s : UInt64) (xs ys : List ChainEntry) : Prop :=
  divergence xs ys ≤ k ∧ k < divergence ys xs ∧ forkDensity ys xs s < forkDensity xs ys s

private theorem both_adopt_iff_of_mixed (hshare : SharesGenesis xs ys) (hident : HashesIdentify xs ys) {k s : UInt64}
    (hshort : divergence xs ys ≤ k) (hlong : k < divergence ys xs) :
    (maxvalidBg xs ys k s = .adoptCandidate ∧ maxvalidBg ys xs k s = .adoptCandidate) ↔
      forkDensity ys xs s < forkDensity xs ys s := by
  have hlength := length_lt_of_divergence_lt (UInt64.lt_of_le_of_lt hshort hlong)
  rw [maxvalidBg_eq hshare hident, if_pos hshort, longerChain_of_length_lt hlength,
    maxvalidBg_eq hshare.symm hident.symm, if_neg (UInt64.not_le.mpr hlong)]
  simp

/-- **Both nodes switch exactly when one chain is judged by length, the other by density, and the longer one is the sparser one.** For chains with a common genesis, every `k` and every window: the node with the first chain adopts the second and the node with the second adopts the first if and only if exactly one of the two chains has more than `k` blocks after the fork point and that chain has fewer blocks in the window than the other. -/
theorem maxvalidBg_swap_iff (hshare : SharesGenesis xs ys) (hident : HashesIdentify xs ys) (k s : UInt64) :
    (maxvalidBg xs ys k s = .adoptCandidate ∧ maxvalidBg ys xs k s = .adoptCandidate) ↔
      OvertakenByDensity k s xs ys ∨ OvertakenByDensity k s ys xs := by
  unfold OvertakenByDensity
  by_cases hx : divergence xs ys ≤ k
  · by_cases hy : divergence ys xs ≤ k
    · have hnot : ¬ (maxvalidBg xs ys k s = .adoptCandidate ∧ maxvalidBg ys xs k s = .adoptCandidate) := by
        rw [maxvalidBg_eq hshare hident, maxvalidBg_eq hshare.symm hident.symm, if_pos hx, if_pos hy]
        exact fun h => longerChain_antisymm h.1 h.2
      simp only [hnot, false_iff, not_or]
      exact ⟨fun h => absurd hy (UInt64.not_le.mpr h.2.1), fun h => absurd hx (UInt64.not_le.mpr h.2.1)⟩
    · rw [both_adopt_iff_of_mixed hshare hident hx (UInt64.not_le.mp hy)]
      simp [hx, hy, UInt64.not_le.mp hy]
  · by_cases hy : divergence ys xs ≤ k
    · rw [and_comm, both_adopt_iff_of_mixed hshare.symm hident.symm hy (UInt64.not_le.mp hx)]
      simp [hx, hy, UInt64.not_le.mp hx]
    · have hnot : ¬ (maxvalidBg xs ys k s = .adoptCandidate ∧ maxvalidBg ys xs k s = .adoptCandidate) := by
        rw [maxvalidBg_eq hshare hident, maxvalidBg_eq hshare.symm hident.symm, if_neg hx, if_neg hy]
        intro h
        simp only [ite_eq_left_iff, reduceCtorEq, imp_false, not_not] at h
        exact UInt64.lt_asymm h.1 h.2
      simp [hnot, hx, hy]

def forkBlock (tag parent : UInt8) (height slot : UInt64) : ChainEntry :=
  ⟨⟨List.replicate 32 tag, rfl⟩, ⟨List.replicate 32 parent, rfl⟩, height, slot, .zero⟩

def denseChain : List ChainEntry := [forkBlock 0 0 0 0, forkBlock 1 0 1 5]

def sparseChain : List ChainEntry := [forkBlock 0 0 0 0, forkBlock 2 0 1 20, forkBlock 3 2 2 30]

private theorem forkChains_hashesIdentify : HashesIdentify denseChain sparseChain := by
  unfold HashesIdentify
  decide +kernel

/-- With `k = 1` and a window of ten slots the chain of one early block and the chain of two late ones are each preferred by the node that holds the other. -/
theorem maxvalidBg_swaps_denseChain_sparseChain :
    ∃ (xs ys : List ChainEntry) (k s : UInt64), SharesGenesis xs ys ∧ HashesIdentify xs ys ∧
      maxvalidBg xs ys k s = .adoptCandidate ∧ maxvalidBg ys xs k s = .adoptCandidate :=
  ⟨denseChain, sparseChain, 1, 10, ⟨forkBlock 0 0 0 0, rfl, rfl⟩, forkChains_hashesIdentify, by decide +kernel,
    by decide +kernel⟩

theorem maxvalidBg_swap_iff_denseChain_sparseChain :
    (maxvalidBg denseChain sparseChain 2 10 = .adoptCandidate ∧
      maxvalidBg sparseChain denseChain 2 10 = .adoptCandidate) ↔
      OvertakenByDensity 2 10 denseChain sparseChain ∨ OvertakenByDensity 2 10 sparseChain denseChain :=
  maxvalidBg_swap_iff ⟨forkBlock 0 0 0 0, rfl, rfl⟩ forkChains_hashesIdentify 2 10

end QuantumVault
