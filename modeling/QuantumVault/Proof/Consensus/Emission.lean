import QuantumVault.Consensus.Rewards

/-!
# Emission in closed form

The emission loop adds whole halving periods, the subsidy of a height is a shift. Both are the same sum of natural numbers: below the height, the initial reward halved once for every period that has passed. Saturation does not show, because it can only set in above the supply cap. The subsidies that blocks may claim under the cap then telescope.
-/

namespace QuantumVault

open Result

/-! ### Halving sums -/

/-- What the first blocks have emitted if every one is paid the reward halved once for each period before it. -/
def emitted (reward interval blocks : Nat) : Nat := ∑ i ∈ Finset.range blocks, reward / 2 ^ (i / interval)

section Emitted

variable {reward interval blocks more : Nat}

theorem emitted_zero_reward : emitted 0 interval blocks = 0 := by
  simp [emitted]

theorem emitted_succ : emitted reward interval (blocks + 1) = emitted reward interval blocks + reward / 2 ^ (blocks / interval) :=
  Finset.sum_range_succ _ blocks

theorem emitted_of_le (h : blocks ≤ interval) : emitted reward interval blocks = blocks * reward := by
  have hfull : ∀ i ∈ Finset.range blocks, reward / 2 ^ (i / interval) = reward := by
    intro i hi
    have hi' : i < interval := lt_of_lt_of_le (Finset.mem_range.mp hi) h
    rw [Nat.div_eq_of_lt hi', pow_zero, Nat.div_one]
  rw [emitted, Finset.sum_congr rfl hfull, Finset.sum_const, Finset.card_range, smul_eq_mul]

/-- After the first period the schedule starts again with half the reward. -/
theorem emitted_interval_add (hinterval : 0 < interval) :
    emitted reward interval (interval + more) = interval * reward + emitted (reward / 2) interval more := by
  have hlater : ∀ i ∈ Finset.range more, reward / 2 ^ ((interval + i) / interval) = reward / 2 / 2 ^ (i / interval) := by
    intro i _
    rw [Nat.add_div_left i hinterval, pow_succ', Nat.div_div_eq_div_mul]
  rw [emitted, Finset.sum_range_add, ← emitted, emitted_of_le le_rfl, Finset.sum_congr rfl hlater, ← emitted]

private theorem le_emitted (hpaid : reward / 2 ^ (blocks / interval) ≠ 0) : blocks ≤ emitted reward interval blocks := by
  have hone : ∀ i ∈ Finset.range blocks, 1 ≤ reward / 2 ^ (i / interval) := by
    intro i hi
    have hle : i / interval ≤ blocks / interval := Nat.div_le_div_right (Finset.mem_range.mp hi).le
    have hmore : reward / 2 ^ (blocks / interval) ≤ reward / 2 ^ (i / interval) :=
      Nat.div_le_div_left (Nat.pow_le_pow_right Nat.two_pos hle) (Nat.two_pow_pos _)
    exact (Nat.one_le_iff_ne_zero.mpr hpaid).trans hmore
  calc blocks = ∑ _i ∈ Finset.range blocks, 1 := by simp
    _ ≤ emitted reward interval blocks := Finset.sum_le_sum hone

end Emitted

/-! ### The code's subsidy and loop -/

theorem toNat_blockSubsidy (height : Height) (monetary : MonetaryParams) :
    (blockSubsidy height monetary).toNat =
      monetary.initialBlockReward.toNat / 2 ^ (height.toNat / monetary.halvingIntervalBlocks.toNat) := by
  have hreward := UInt64.toNat_lt monetary.initialBlockReward
  have hhalvings : (height / monetary.halvingIntervalBlocks).toNat = height.toNat / monetary.halvingIntervalBlocks.toNat :=
    UInt64.toNat_div _ _
  have hcut : height / monetary.halvingIntervalBlocks ≥ 64 ↔ 64 ≤ (height / monetary.halvingIntervalBlocks).toNat :=
    UInt64.le_iff_toNat_le
  rw [blockSubsidy, ← hhalvings]
  by_cases hlarge : 64 ≤ (height / monetary.halvingIntervalBlocks).toNat
  · rw [if_pos (hcut.mpr hlarge), UInt64.toNat_zero, Nat.div_eq_of_lt]
    exact lt_of_lt_of_le hreward (Nat.pow_le_pow_right Nat.two_pos hlarge)
  · rw [if_neg (mt hcut.mp hlarge), UInt64.toNat_shiftRight, Nat.shiftRight_eq_div_pow, Nat.mod_eq_of_lt (by omega)]

/-- **The loop is the sum**, up to saturation. -/
theorem toNat_emissionLoop {interval : UInt64} (hinterval : 0 < interval.toNat) {rounds : Nat}
    {total reward remaining : UInt64} (hrounds : reward.toNat < 2 ^ rounds) :
    (emissionLoop interval (rounds + 1) total reward remaining).toNat =
      min (total.toNat + emitted reward.toNat interval.toNat remaining.toNat) (2 ^ 64 - 1) := by
  induction rounds generalizing total reward remaining with
  | zero =>
      have hzero : reward = 0 := UInt64.toNat_inj.mp (by simpa using hrounds)
      have htotal := UInt64.toNat_lt total
      rw [emissionLoop, if_pos hzero, hzero, UInt64.toNat_zero, emitted_zero_reward, Nat.add_zero]
      omega
  | succ rounds ih =>
      have htotal := UInt64.toNat_lt total
      rw [emissionLoop]
      by_cases hzero : reward = 0
      · rw [if_pos hzero, hzero, UInt64.toNat_zero, emitted_zero_reward, Nat.add_zero]
        omega
      · have hshift : (reward >>> 1).toNat = reward.toNat / 2 := by
          rw [UInt64.toNat_shiftRight]
          rfl
        have hhalf : (reward >>> 1).toNat < 2 ^ rounds := by
          rw [hshift]
          rw [pow_succ] at hrounds
          omega
        have hsum (b : UInt64) : (Word.saturatingAdd total (Word.saturatingMul b reward)).toNat =
            min (total.toNat + b.toNat * reward.toNat) (2 ^ 64 - 1) := by
          rw [Word.toNat_saturatingAdd, Word.toNat_saturatingMul]
          omega
        rw [if_neg hzero]
        dsimp only
        by_cases hle : remaining ≤ interval
        · -- the blocks run out within this period
          have hle' := UInt64.le_iff_toNat_le.mp hle
          have hnone : Word.saturatingSub remaining remaining = 0 := by
            rw [← UInt64.toNat_inj, Word.toNat_saturatingSub, Nat.sub_self]
            rfl
          have hmin : min remaining interval = remaining := if_pos hle
          rw [hmin, if_pos hnone, hsum, emitted_of_le hle']
        · have hlt : interval.toNat < remaining.toNat := by
            rw [UInt64.le_iff_toNat_le] at hle
            omega
          have hmin : min remaining interval = interval := if_neg hle
          have hsplit : remaining.toNat = interval.toNat + (Word.saturatingSub remaining interval).toNat := by
            rw [Word.toNat_saturatingSub]
            omega
          have hsome : Word.saturatingSub remaining interval ≠ 0 := by
            rw [ne_eq, ← UInt64.toNat_inj, UInt64.toNat_zero]
            omega
          rw [hmin, if_neg hsome, ih hhalf, hsum, hsplit, emitted_interval_add hinterval, hshift]
          omega

/-! ### Under the supply cap -/

section Cap

variable {monetary : MonetaryParams}

def subsidiesBelow (monetary : MonetaryParams) (blocks : Nat) : Nat :=
  emitted monetary.initialBlockReward.toNat monetary.halvingIntervalBlocks.toNat blocks

theorem sum_blockSubsidy {blocks : Nat} (h : blocks ≤ 2 ^ 64) :
    ∑ i ∈ Finset.range blocks, (blockSubsidy (UInt64.ofNat i) monetary).toNat = subsidiesBelow monetary blocks := by
  refine Finset.sum_congr rfl ?_
  intro i hi
  have hi' := Finset.mem_range.mp hi
  rw [toNat_blockSubsidy, UInt64.toNat_ofNat', Nat.mod_eq_of_lt (by omega)]

/-- Emission up to a height is the capped sum. At the last height the loop leaves one block out, whose subsidy is zero or above the cap. -/
theorem toNat_cumulativeEmission (hinterval : monetary.halvingIntervalBlocks ≠ 0) (height : Height) :
    (cumulativeEmission height monetary).toNat =
      min monetary.totalSupply.toNat (subsidiesBelow monetary (height.toNat + 1)) := by
  have hpositive : 0 < monetary.halvingIntervalBlocks.toNat := by
    rw [ne_eq, ← UInt64.toNat_inj, UInt64.toNat_zero] at hinterval
    omega
  have hreward := UInt64.toNat_lt monetary.initialBlockReward
  have hcap := UInt64.toNat_lt monetary.totalSupply
  have hheight := UInt64.toNat_lt height
  have hloop : (cumulativeEmission height monetary).toNat =
      min (subsidiesBelow monetary (min (height.toNat + 1) (2 ^ 64 - 1))) monetary.totalSupply.toNat := by
    rw [cumulativeEmission, UInt64.toNat_min, toNat_emissionLoop hpositive hreward, Word.toNat_saturatingAdd, UInt64.toNat_zero,
      Nat.zero_add]
    change min (min (subsidiesBelow monetary (min (height.toNat + 1) (2 ^ 64 - 1))) (2 ^ 64 - 1)) _ = _
    omega
  rw [hloop]
  by_cases hlast : height.toNat + 1 < 2 ^ 64
  · rw [min_eq_left (by omega : height.toNat + 1 ≤ 2 ^ 64 - 1), min_comm]
  · have hmax : height.toNat = 2 ^ 64 - 1 := by omega
    have hsucc : subsidiesBelow monetary (height.toNat + 1) = subsidiesBelow monetary height.toNat +
        monetary.initialBlockReward.toNat / 2 ^ (height.toNat / monetary.halvingIntervalBlocks.toNat) := emitted_succ
    rw [min_eq_right (by omega : 2 ^ 64 - 1 ≤ height.toNat + 1), ← hmax, hsucc, min_comm]
    by_cases hpaid : monetary.initialBlockReward.toNat / 2 ^ (height.toNat / monetary.halvingIntervalBlocks.toNat) = 0
    · rw [hpaid, Nat.add_zero]
    · have hfull : height.toNat ≤ subsidiesBelow monetary height.toNat := le_emitted hpaid
      generalize monetary.initialBlockReward.toNat / 2 ^ (height.toNat / monetary.halvingIntervalBlocks.toNat) = last
      omega

private theorem toNat_cappedSubsidy (hinterval : monetary.halvingIntervalBlocks ≠ 0) (height : Height) :
    min monetary.totalSupply.toNat (subsidiesBelow monetary height.toNat) + (cappedSubsidy height monetary).toNat =
      min monetary.totalSupply.toNat (subsidiesBelow monetary (height.toNat + 1)) := by
  have hprev : (if height = 0 then 0 else cumulativeEmission (Word.saturatingSub height 1) monetary).toNat =
      min monetary.totalSupply.toNat (subsidiesBelow monetary height.toNat) := by
    by_cases hzero : height = 0
    · rw [if_pos hzero, hzero]
      exact (Nat.min_zero _).symm
    · have hpositive : height.toNat ≠ 0 := fun h => hzero (UInt64.toNat_inj.mp h)
      have hback : (Word.saturatingSub height 1).toNat + 1 = height.toNat := by
        rw [Word.toNat_saturatingSub, UInt64.toNat_one]
        omega
      rw [if_neg hzero, toNat_cumulativeEmission hinterval, hback]
  have hsucc : subsidiesBelow monetary (height.toNat + 1) =
      subsidiesBelow monetary height.toNat + (blockSubsidy height monetary).toNat := by
    rw [toNat_blockSubsidy]
    exact emitted_succ
  rw [cappedSubsidy, UInt64.toNat_min, Word.toNat_saturatingSub, hprev, hsucc]
  omega

theorem sum_cappedSubsidy (hinterval : monetary.halvingIntervalBlocks ≠ 0) {blocks : Nat} (h : blocks ≤ 2 ^ 64) :
    ∑ i ∈ Finset.range blocks, (cappedSubsidy (UInt64.ofNat i) monetary).toNat =
      min monetary.totalSupply.toNat (subsidiesBelow monetary blocks) := by
  induction blocks with
  | zero => exact (Nat.min_zero _).symm
  | succ blocks ih =>
      have hheight : (UInt64.ofNat blocks).toNat = blocks := by
        rw [UInt64.toNat_ofNat', Nat.mod_eq_of_lt (by omega)]
      have hstep := toNat_cappedSubsidy hinterval (UInt64.ofNat blocks)
      rw [hheight] at hstep
      rw [Finset.sum_range_succ, ih (by omega), hstep]

/-- **Closed-form emission is the sum of the subsidies**, capped at the total supply. The subsidies that blocks may claim add up to the capped sum too, so over all heights they never exceed the cap. -/
theorem emission_closed_form (monetary : MonetaryParams) (hvalid : monetary.validate = .ok ()) :
    (∀ height : Height, (cumulativeEmission height monetary).toNat =
      min monetary.totalSupply.toNat
        (∑ i ∈ Finset.range (height.toNat + 1), (blockSubsidy (UInt64.ofNat i) monetary).toNat)) ∧
    (∀ blocks ≤ 2 ^ 64, ∑ i ∈ Finset.range blocks, (cappedSubsidy (UInt64.ofNat i) monetary).toNat =
      min monetary.totalSupply.toNat (∑ i ∈ Finset.range blocks, (blockSubsidy (UInt64.ofNat i) monetary).toNat)) ∧
    ∑ i ∈ Finset.range (2 ^ 64), (totalBlockReward (UInt64.ofNat i) 0 monetary).toNat ≤ monetary.totalSupply.toNat := by
  have hinterval : monetary.halvingIntervalBlocks ≠ 0 := by
    unfold MonetaryParams.validate at hvalid
    simp only [require_bind_eq_ok, require_eq_ok] at hvalid
    exact hvalid.2.2
  refine ⟨?_, ?_, ?_⟩
  · intro height
    have hheight := UInt64.toNat_lt height
    rw [toNat_cumulativeEmission hinterval, sum_blockSubsidy (by omega)]
  · intro blocks hblocks
    rw [sum_cappedSubsidy hinterval hblocks, sum_blockSubsidy hblocks]
  · have hfree (height : Height) : totalBlockReward height 0 monetary = cappedSubsidy height monetary := by
      have hsubsidy := UInt64.toNat_lt (cappedSubsidy height monetary)
      rw [← UInt64.toNat_inj, totalBlockReward, Word.toNat_saturatingAdd, UInt64.toNat_zero]
      omega
    simp only [hfree]
    rw [sum_cappedSubsidy hinterval le_rfl]
    exact Nat.min_le_left _ _

theorem emission_closed_form_mainnet :
    (cumulativeEmission 210000 .mainnet).toNat =
      min 2100000000000000 (∑ i ∈ Finset.range 210001, (blockSubsidy (UInt64.ofNat i) .mainnet).toNat) :=
  (emission_closed_form .mainnet rfl).1 210000

end Cap

end QuantumVault
