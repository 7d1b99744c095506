import QuantumVault.Consensus.Stake

/-!
# Splitting a reward

The operator and the delegators together get the whole reward exactly when the rounded shares fit into the delegators' part. They do whenever the delegated stakes add up within a word, because then the sum they are measured against is their own. Beyond that the sum is clamped, and the shares are measured against the largest word.
-/

namespace QuantumVault

open Result

/-! ### Shares of a whole -/

private theorem sum_map_div_le {α : Type*} (f : α → Nat) (whole : Nat) (xs : List α) :
    (xs.map fun x => f x / whole).sum ≤ (xs.map f).sum / whole := by
  induction xs with
  | nil => simp
  | cons x xs ih =>
      rw [List.map_cons, List.map_cons, List.sum_cons, List.sum_cons]
      exact (Nat.add_le_add_left ih _).trans Nat.div_add_div_le_add_div

private theorem sum_shares_le {α : Type*} (amount : Nat) (part : α → Nat) (xs : List α) {whole : Nat}
    (h : (xs.map part).sum ≤ whole) :
    (xs.map fun x => amount * part x / whole).sum ≤ amount := by
  calc (xs.map fun x => amount * part x / whole).sum
      ≤ (xs.map fun x => amount * part x).sum / whole := sum_map_div_le _ whole xs
    _ = amount * (xs.map part).sum / whole := by rw [List.sum_map_mul_left]
    _ ≤ amount * whole / whole := Nat.div_le_div_right (Nat.mul_le_mul_left amount h)
    _ ≤ amount := Nat.div_le_of_le_mul (mul_comm amount whole).le

theorem toNat_proportion {amount num den : Nat} (hamount : amount < 2 ^ 64) (hnum : num ≤ den) (hden : 0 < den)
    (hsize : num < 2 ^ 64) : (proportion amount num den).toNat = amount * num / den := by
  have hproduct : amount * num < 2 ^ 64 * 2 ^ 64 := Nat.mul_lt_mul'' hamount hsize
  have hle : amount * num / den ≤ amount := by
    rw [Nat.div_le_iff_le_mul_add_pred hden]
    exact (Nat.mul_le_mul_left amount hnum).trans (by rw [mul_comm]; omega)
  rw [proportion, if_neg, min_eq_left (by omega), UInt64.toNat_ofNat', Nat.mod_eq_of_lt (by omega)]
  unfold maxU128
  omega

/-! ### The split -/

/-- What is left of a reward after the fixed cost. -/
def StakePool.afterCost (pool : StakePool) (total : Amount) : Nat := total.toNat - pool.fixedCost.toNat

/-- What is left for the delegators after the margin. -/
def StakePool.delegatorsPart (pool : StakePool) (total : Amount) : Nat :=
  pool.afterCost total - pool.afterCost total * pool.marginNum.toNat / pool.marginDen.toNat

/-- The delegated stakes fit the word, or their shares, measured against the largest word, fit the delegators' part. -/
def StakePool.SharesFit (pool : StakePool) (total : Amount) (stakes : List (Hash256 × Amount)) : Prop :=
  (stakes.map fun stake => stake.2.toNat).sum < 2 ^ 64 ∨
    (stakes.map fun stake => pool.delegatorsPart total * stake.2.toNat / (2 ^ 64 - 1)).sum ≤ pool.delegatorsPart total

private theorem foldl_saturatingAdd (stakes : List (Hash256 × Amount)) (acc : UInt64) :
    (stakes.foldl (fun acc stake => Word.saturatingAdd acc stake.2) acc).toNat =
      min (acc.toNat + (stakes.map fun stake => stake.2.toNat).sum) (2 ^ 64 - 1) := by
  induction stakes generalizing acc with
  | nil =>
      have hacc := UInt64.toNat_lt acc
      simp
      omega
  | cons stake stakes ih =>
      rw [List.foldl_cons, ih, Word.toNat_saturatingAdd, List.map_cons, List.sum_cons]
      omega

private theorem foldl_payShare (delegatorPool totalDelegated : UInt64) (stakes : List (Hash256 × Amount))
    (acc : UInt64 × List RewardShare) :
    (stakes.foldl (payShare delegatorPool totalDelegated) acc).2 =
        acc.2 ++ stakes.map (fun stake =>
          (⟨stake.1, proportion delegatorPool.toNat stake.2.toNat totalDelegated.toNat⟩ : RewardShare)) ∧
      (stakes.foldl (payShare delegatorPool totalDelegated) acc).1.toNat =
        min (acc.1.toNat + (stakes.map fun stake =>
          (proportion delegatorPool.toNat stake.2.toNat totalDelegated.toNat).toNat).sum) (2 ^ 64 - 1) := by
  induction stakes generalizing acc with
  | nil =>
      have hacc := UInt64.toNat_lt acc.1
      simp
      omega
  | cons stake stakes ih =>
      obtain ⟨hshares, hsum⟩ := ih (payShare delegatorPool totalDelegated acc stake)
      rw [List.foldl_cons, hshares, hsum, payShare]
      refine ⟨?_, ?_⟩
      · simp
      · dsimp only
        rw [Word.toNat_saturatingAdd, List.map_cons, List.sum_cons]
        omega

private theorem sum_proportion {part : Nat} (hpart : part < 2 ^ 64) {whole : UInt64} (stakes : List (Hash256 × Amount))
    (hwhole : 0 < whole.toNat) (hle : ∀ stake ∈ stakes, stake.2.toNat ≤ whole.toNat) :
    (stakes.map fun stake => (proportion part stake.2.toNat whole.toNat).toNat).sum =
      (stakes.map fun stake => part * stake.2.toNat / whole.toNat).sum := by
  refine congrArg List.sum (List.map_congr_left ?_)
  intro stake hstake
  exact toNat_proportion hpart (hle stake hstake) hwhole (UInt64.toNat_lt _)

/-- What the delegators are measured against. -/
def totalDelegated (stakes : List (Hash256 × Amount)) : Nat := min (stakes.map fun stake => stake.2.toNat).sum (2 ^ 64 - 1)

def StakePool.handedOut (pool : StakePool) (total : Amount) (stakes : List (Hash256 × Amount)) : Nat :=
  (stakes.map fun stake => pool.delegatorsPart total * stake.2.toNat / totalDelegated stakes).sum

section Split

variable {total : Amount} {pool : StakePool} {stakes : List (Hash256 × Amount)}

theorem StakePool.delegatorsPart_le (pool : StakePool) (total : Amount) : pool.delegatorsPart total ≤ total.toNat :=
  (Nat.sub_le _ _).trans (Nat.sub_le _ _)

private theorem stake_le_totalDelegated {stake : Hash256 × Amount} (hstake : stake ∈ stakes) :
    stake.2.toNat ≤ totalDelegated stakes := by
  have hsum : stake.2.toNat ≤ (stakes.map fun stake => stake.2.toNat).sum :=
    List.le_sum_of_mem (List.mem_map_of_mem hstake)
  have hword := UInt64.toNat_lt stake.2
  exact le_min hsum (by omega)

/-- What the function computes. The operator gets everything but the delegators' part, and what is left of that. -/
theorem distributeReward_eq (total : Amount) (stakes : List (Hash256 × Amount)) (hvalid : pool.validate = .ok ()) :
    ∃ operator shares, distributeReward total pool stakes = .ok (operator, shares) ∧
      (shares.map fun share => share.amount.toNat).sum = pool.handedOut total stakes ∧
      operator.toNat = total.toNat - pool.delegatorsPart total + (pool.delegatorsPart total - pool.handedOut total stakes) := by
  have htotal := UInt64.toNat_lt total
  have hpart := pool.delegatorsPart_le total
  have hmargin : 0 < pool.marginDen.toNat ∧ pool.marginNum.toNat ≤ pool.marginDen.toNat := by
    rw [StakePool.validate, require_eq_ok, not_or, ← UInt32.toNat_inj, UInt32.toNat_zero, gt_iff_lt,
      UInt32.lt_iff_toNat_lt] at hvalid
    omega
  unfold distributeReward
  by_cases hzero : total = 0
  · have hnone : pool.delegatorsPart total = 0 := by
      rw [hzero] at hpart ⊢
      exact Nat.le_zero.mp hpart
    refine ⟨0, [], if_pos hzero, ?_, ?_⟩
    · simp [StakePool.handedOut, hnone]
    · rw [hnone, hzero]
      simp
  · rw [if_neg hzero]
    extract_lets cost afterCost marginShare operatorTotal delegatorPool totalDelegated'
    have hcost : cost.toNat = min pool.fixedCost.toNat total.toNat := UInt64.toNat_min _ _
    have hafterCost : afterCost.toNat = pool.afterCost total := by
      rw [Word.toNat_saturatingSub, hcost, StakePool.afterCost]
      omega
    have hmarginShare : marginShare.toNat = pool.afterCost total * pool.marginNum.toNat / pool.marginDen.toNat := by
      have hden : pool.marginDen > 0 := UInt32.lt_iff_toNat_lt.mpr hmargin.1
      have hnum := UInt32.toNat_lt pool.marginNum
      rw [show marginShare = _ from if_pos hden, hafterCost]
      exact toNat_proportion (by rw [StakePool.afterCost]; omega) hmargin.2 hmargin.1 (by omega)
    have hmarginLe : marginShare.toNat ≤ pool.afterCost total := by
      rw [hmarginShare]
      exact Nat.div_le_of_le_mul (by rw [mul_comm]; exact Nat.mul_le_mul_right _ hmargin.2)
    have hdelegatorPool : delegatorPool.toNat = pool.delegatorsPart total := by
      rw [Word.toNat_saturatingSub, hafterCost, hmarginShare, StakePool.delegatorsPart]
    have hoperatorTotal : operatorTotal.toNat = total.toNat - pool.delegatorsPart total := by
      rw [Word.toNat_saturatingAdd, hcost, StakePool.delegatorsPart, ← hmarginShare]
      rw [StakePool.afterCost] at hmarginLe ⊢
      omega
    have htotalDelegated : totalDelegated'.toNat = totalDelegated stakes := by
      rw [foldl_saturatingAdd, UInt64.toNat_zero, Nat.zero_add, totalDelegated]
    by_cases hpays : totalDelegated' > 0 ∧ delegatorPool > 0
    · rw [if_pos hpays]
      obtain ⟨hshares, hdistributed⟩ := foldl_payShare delegatorPool totalDelegated' stakes (0, [])
      have hwhole : 0 < totalDelegated'.toNat := UInt64.lt_iff_toNat_lt.mp hpays.1
      have hsum := sum_proportion (UInt64.toNat_lt delegatorPool) stakes hwhole
        (fun stake hstake => htotalDelegated ▸ stake_le_totalDelegated hstake)
      refine ⟨_, _, rfl, ?_, ?_⟩
      · rw [hshares, List.nil_append, List.map_map]
        exact hsum.trans (by rw [hdelegatorPool, htotalDelegated, StakePool.handedOut])
      · rw [hdelegatorPool, htotalDelegated, UInt64.toNat_zero, Nat.zero_add] at hdistributed
        rw [hdelegatorPool, htotalDelegated] at hsum
        rw [Word.toNat_saturatingAdd, Word.toNat_saturatingSub, hoperatorTotal, hdelegatorPool, hdistributed, hsum,
          ← StakePool.handedOut]
        omega
    · rw [if_neg hpays]
      have hnone : pool.handedOut total stakes = 0 := by
        rw [not_and_or] at hpays
        rw [StakePool.handedOut, ← hdelegatorPool, ← htotalDelegated]
        rcases hpays with hwhole | hpool
        · have hwhole' : totalDelegated'.toNat = 0 := by
            rw [gt_iff_lt, UInt64.lt_iff_toNat_lt, UInt64.toNat_zero] at hwhole
            omega
          simp [hwhole']
        · have hpool' : delegatorPool.toNat = 0 := by
            rw [gt_iff_lt, UInt64.lt_iff_toNat_lt, UInt64.toNat_zero] at hpool
            omega
          simp [hpool']
      refine ⟨_, _, rfl, hnone.symm, ?_⟩
      rw [Word.toNat_saturatingAdd, Word.toNat_saturatingSub, hoperatorTotal, hdelegatorPool, hnone, UInt64.toNat_zero]
      omega

end Split

/-- **The reward is handed out exactly** when the shares fit, and otherwise too much is. -/
theorem reward_conserved (total : Amount) (pool : StakePool) (stakes : List (Hash256 × Amount))
    (hvalid : pool.validate = .ok ()) :
    (∃ operator shares, distributeReward total pool stakes = .ok (operator, shares) ∧
      operator.toNat + (shares.map fun share => share.amount.toNat).sum = total.toNat) ↔
      pool.SharesFit total stakes := by
  have hpart := pool.delegatorsPart_le total
  obtain ⟨operator, shares, hok, hshares, hoperator⟩ := distributeReward_eq total stakes hvalid
  have hexact : operator.toNat + (shares.map fun share => share.amount.toNat).sum = total.toNat ↔
      pool.handedOut total stakes ≤ pool.delegatorsPart total := by
    rw [hshares, hoperator]
    omega
  have hfit : pool.handedOut total stakes ≤ pool.delegatorsPart total ↔ pool.SharesFit total stakes := by
    rw [StakePool.SharesFit]
    by_cases hsum : (stakes.map fun stake => stake.2.toNat).sum < 2 ^ 64
    · have hwhole : totalDelegated stakes = (stakes.map fun stake => stake.2.toNat).sum := min_eq_left (by omega)
      have hle := sum_shares_le (pool.delegatorsPart total) (fun stake => stake.2.toNat) stakes hwhole.ge
      exact iff_of_true hle (Or.inl hsum)
    · have hwhole : totalDelegated stakes = 2 ^ 64 - 1 := min_eq_right (by omega)
      rw [StakePool.handedOut, hwhole, or_iff_right hsum]
  rw [← hfit, ← hexact]
  constructor
  · intro h
    obtain ⟨operator', shares', hok', hsum⟩ := h
    rw [hok, Except.ok.injEq, Prod.mk.injEq] at hok'
    rw [hok'.1, hok'.2]
    exact hsum
  · intro h
    exact ⟨operator, shares, hok, h⟩

/-- Two delegators with the largest stake each get the one unit there is. -/
theorem reward_paid_twice :
    ∃ (pool : StakePool) (stakes : List (Hash256 × Amount)) (operator : Amount) (shares : List RewardShare),
      pool.validate = .ok () ∧ distributeReward 1 pool stakes = .ok (operator, shares) ∧
        operator.toNat + (shares.map fun share => share.amount.toNat).sum = 2 :=
  ⟨⟨.zero, [], [], 0, 0, 1, 0, true⟩, [(.zero, Word.max), (.zero, Word.max)], 0, [⟨.zero, 1⟩, ⟨.zero, 1⟩], rfl, by decide, by decide⟩

/-- A cost of ten, a margin of one part in twenty, and two delegators. -/
theorem reward_conserved_small :
    ∃ operator shares, distributeReward 1000 ⟨.zero, [], [], 7, 5, 100, 10, true⟩ [(.zero, 3), (.zero, 4)] =
      .ok (operator, shares) ∧ operator.toNat + (shares.map fun share => share.amount.toNat).sum = 1000 :=
  (reward_conserved 1000 _ _ rfl).mpr (Or.inl (by decide))

end QuantumVault
