import QuantumVault.Consensus.LeaderSchedule

/-!
# The leader threshold in fixed point

The terms of the series shrink, so the running sum stays between zero and one and no step of the loop saturates. Every term is cut off to a whole number, and the cuts of two terms that are subtracted can fall on the same step of the argument: more stake can then lose a unit or two in the last place. Four steps of the argument make up for all cuts, and a total stake of up to a quarter of the scaled logarithm, far above the supply, leaves that much between any two stakes.
-/

namespace QuantumVault

/-! ### The terms -/

section Terms

/-- A term of the series, cut off where the loop cuts it off. -/
def expTerm (m : Nat) : (k : Nat) → Nat
  | 0 => leaderFixedScale
  | k + 1 => expTerm m k * m / 2 ^ 64 / (k + 1)

variable {m m' : Nat}

theorem expTerm_succ (m k : Nat) : expTerm m (k + 1) = expTerm m k * m / (2 ^ 64 * (k + 1)) :=
  Nat.div_div_eq_div_mul _ _ _

theorem expTerm_one (m : Nat) : expTerm m 1 = m := by
  simp [expTerm, leaderFixedScale]

theorem expTerm_succ_le (hm : m ≤ 2 ^ 64) (k : Nat) : expTerm m (k + 1) ≤ expTerm m k := by
  have hproduct : expTerm m k * m / 2 ^ 64 ≤ expTerm m k :=
    Nat.div_le_of_le_mul (by rw [Nat.mul_comm (2 ^ 64)]; exact Nat.mul_le_mul_left _ hm)
  exact (Nat.div_le_self _ _).trans hproduct

private theorem expTerm_le_scale (hm : m ≤ 2 ^ 64) (k : Nat) : expTerm m k ≤ leaderFixedScale := by
  induction k with
  | zero => exact le_rfl
  | succ k ih => exact (expTerm_succ_le hm k).trans ih

private theorem expTerm_succ_le_arg (hm : m ≤ 2 ^ 64) (k : Nat) : expTerm m (k + 1) ≤ m := by
  induction k with
  | zero => exact (expTerm_one m).le
  | succ k ih => exact (expTerm_succ_le hm (k + 1)).trans ih

private theorem expTerm_mono (h : m ≤ m') (k : Nat) : expTerm m k ≤ expTerm m' k := by
  induction k with
  | zero => exact le_rfl
  | succ k ih => exact Nat.div_le_div_right (Nat.div_le_div_right (Nat.mul_le_mul ih h))

private theorem add_div_le (a b c : Nat) : (a + b) / c ≤ a / c + b / c + 1 := by
  rcases Nat.eq_zero_or_pos c with rfl | hc
  · simp
  · rw [Nat.add_div hc]
    split_ifs <;> omega

private theorem div_le_div_of_mul_le {a b c d : Nat} (hc : 0 < c) (hb : 0 < b) (h : a * c ≤ d * b) : a / b ≤ d / c := by
  rw [Nat.le_div_iff_mul_le hc]
  refine Nat.le_of_mul_le_mul_left ?_ hb
  calc b * (a / b * c) = b * (a / b) * c := (Nat.mul_assoc _ _ _).symm
    _ ≤ a * c := Nat.mul_le_mul_right _ (Nat.mul_div_le a b)
    _ ≤ b * d := h.trans_eq (Nat.mul_comm d b)

private theorem nineteen_lnOneMinusFMag : 19 * lnOneMinusFMag ≤ 2 ^ 64 := by decide

theorem expTerm_growth_step {d k : Nat} (hm : m + d ≤ lnOneMinusFMag)
    (hgrowth : expTerm (m + d) (k + 1) ≤ expTerm m (k + 1) + d) :
    expTerm (m + d) (k + 2) ≤ expTerm m (k + 2) + d / 19 + 1 := by
  have hln := nineteen_lnOneMinusFMag
  have hterm : expTerm m (k + 1) ≤ m := expTerm_succ_le_arg (by omega) k
  have hproduct : expTerm (m + d) (k + 1) * (m + d) ≤ expTerm m (k + 1) * m + d * (expTerm m (k + 1) + (m + d)) := by
    calc expTerm (m + d) (k + 1) * (m + d) ≤ (expTerm m (k + 1) + d) * (m + d) := Nat.mul_le_mul_right _ hgrowth
      _ = expTerm m (k + 1) * m + d * (expTerm m (k + 1) + (m + d)) := by ring
  have hslope : d * (expTerm m (k + 1) + (m + d)) / (2 ^ 64 * (k + 2)) ≤ d / 19 := by
    refine div_le_div_of_mul_le (by decide) (by omega) ?_
    calc d * (expTerm m (k + 1) + (m + d)) * 19 = d * (19 * (expTerm m (k + 1) + (m + d))) := by ring
      _ ≤ d * (2 ^ 64 * 2) := Nat.mul_le_mul_left _ (by omega)
      _ ≤ d * (2 ^ 64 * (k + 2)) := Nat.mul_le_mul_left _ (Nat.mul_le_mul_left _ (by omega))
  rw [expTerm_succ (m + d) (k + 1), expTerm_succ m (k + 1)]
  calc expTerm (m + d) (k + 1) * (m + d) / (2 ^ 64 * (k + 2))
      ≤ (expTerm m (k + 1) * m + d * (expTerm m (k + 1) + (m + d))) / (2 ^ 64 * (k + 2)) := Nat.div_le_div_right hproduct
    _ ≤ expTerm m (k + 1) * m / (2 ^ 64 * (k + 2)) +
          d * (expTerm m (k + 1) + (m + d)) / (2 ^ 64 * (k + 2)) + 1 := add_div_le _ _ _
    _ ≤ expTerm m (k + 1) * m / (2 ^ 64 * (k + 2)) + d / 19 + 1 :=
        Nat.add_le_add_right (Nat.add_le_add_left hslope _) _

/-- No term but the first grows faster than the argument, and those after the second grow slowly. -/
theorem expTerm_growth {d : Nat} (hm : m + d ≤ lnOneMinusFMag) (hd : 0 < d) (k : Nat) :
    expTerm (m + d) (k + 1) ≤ expTerm m (k + 1) + d := by
  induction k with
  | zero => rw [expTerm_one, expTerm_one]
  | succ k ih =>
      have hstep : expTerm (m + d) (k + 1 + 1) ≤ expTerm m (k + 1 + 1) + d / 19 + 1 := expTerm_growth_step hm ih
      omega

end Terms

/-! ### The loop -/

section Loop

def expState (m rounds : Nat) : ExpState :=
  (List.range' 1 rounds).foldl (expStep m) ⟨leaderFixedScale, leaderFixedScale, true⟩

theorem expNegFixed_eq (m : Nat) : expNegFixed m = (expState m leaderExpTerms).acc := rfl

private theorem expState_succ (m rounds : Nat) : expState m (rounds + 1) = expStep m (expState m rounds) (rounds + 1) := by
  rw [expState, List.range'_1_concat, List.foldl_append, ← expState, Nat.add_comm 1 rounds]
  rfl

structure ExpExact (m : Nat) (st : ExpState) (k : Nat) : Prop where
  product : st.term * m ≤ maxU128
  difference : st.subtract = true → (expStep m st k).term ≤ st.acc
  sum : st.subtract = false → st.acc + (expStep m st k).term ≤ maxU128

/-- The loop is at a term of the series, its sum is the alternating sum so far, and there is room for the next term. -/
structure ExpInv (m k : Nat) (st : ExpState) : Prop where
  term_eq : st.term = expTerm m k
  acc_eq : (st.acc : Int) = ∑ i ∈ Finset.range (k + 1), (-1) ^ i * (expTerm m i : Int)
  sign : (-1 : Int) ^ (k + 1) = if st.subtract then -1 else 1
  below : st.subtract = true → st.term ≤ st.acc ∧ st.acc ≤ leaderFixedScale
  above : st.subtract = false → st.acc + st.term ≤ leaderFixedScale

variable {m k : Nat} {st : ExpState}

theorem ExpInv.init (m : Nat) : ExpInv m 0 ⟨leaderFixedScale, leaderFixedScale, true⟩ where
  term_eq := rfl
  acc_eq := by simp [expTerm]
  sign := rfl
  below _ := ⟨le_rfl, le_rfl⟩
  above h := by cases h

theorem ExpInv.next (hinv : ExpInv m k st) (hm : m ≤ lnOneMinusFMag) :
    st.term * m ≤ maxU128 ∧ (expStep m st (k + 1)).term = expTerm m (k + 1) ∧ (expStep m st (k + 1)).term ≤ st.term := by
  have hln : lnOneMinusFMag ≤ 2 ^ 60 := by decide
  have hscale : expTerm m k ≤ 2 ^ 64 := expTerm_le_scale (by omega) k
  have hproduct : st.term * m ≤ maxU128 := by
    rw [hinv.term_eq]
    calc expTerm m k * m ≤ 2 ^ 64 * 2 ^ 60 := Nat.mul_le_mul hscale (hm.trans hln)
      _ ≤ maxU128 := by decide
  have hterm : (expStep m st (k + 1)).term = expTerm m (k + 1) := by
    rw [expStep, min_eq_left hproduct, hinv.term_eq, expTerm]
  refine ⟨hproduct, hterm, ?_⟩
  rw [hterm, hinv.term_eq]
  exact expTerm_succ_le (by omega) k

private theorem acc_of_subtract (hsubtract : st.subtract = true) : (expStep m st k).acc = st.acc - (expStep m st k).term :=
  if_pos hsubtract

private theorem acc_of_add (hadd : st.subtract = false) (hfits : st.acc + (expStep m st k).term ≤ maxU128) :
    (expStep m st k).acc = st.acc + (expStep m st k).term :=
  (if_neg (by simp [hadd])).trans (min_eq_left hfits)

private theorem ExpInv.step_subtract (hinv : ExpInv m k st) (hm : m ≤ lnOneMinusFMag) (hsubtract : st.subtract = true) :
    ExpExact m st (k + 1) ∧ ExpInv m (k + 1) (expStep m st (k + 1)) := by
  obtain ⟨hproduct, hterm, hshrinks⟩ := hinv.next hm
  obtain ⟨hroom, hscale⟩ := hinv.below hsubtract
  have hacc : (expStep m st (k + 1)).acc = st.acc - (expStep m st (k + 1)).term := acc_of_subtract hsubtract
  have hflip : (expStep m st (k + 1)).subtract = false := congrArg not hsubtract
  have hsign : (-1 : Int) ^ (k + 1) = -1 := hinv.sign.trans (if_pos hsubtract)
  refine ⟨⟨hproduct, fun _ => hshrinks.trans hroom, fun hadd => absurd (hsubtract.symm.trans hadd) (by decide)⟩, hterm, ?_, ?_,
    fun hsub => absurd (hflip.symm.trans hsub) (by decide), fun _ => by omega⟩
  · rw [Finset.sum_range_succ, ← hinv.acc_eq, hsign, ← hterm, hacc, Nat.cast_sub (hshrinks.trans hroom)]
    ring
  · rw [pow_succ, hsign, hflip]
    rfl

private theorem ExpInv.step_add (hinv : ExpInv m k st) (hm : m ≤ lnOneMinusFMag) (hadd : st.subtract = false) :
    ExpExact m st (k + 1) ∧ ExpInv m (k + 1) (expStep m st (k + 1)) := by
  obtain ⟨hproduct, hterm, hshrinks⟩ := hinv.next hm
  have hroom := hinv.above hadd
  have hmax : leaderFixedScale ≤ maxU128 := by decide
  have hfits : st.acc + (expStep m st (k + 1)).term ≤ maxU128 := by omega
  have hacc : (expStep m st (k + 1)).acc = st.acc + (expStep m st (k + 1)).term := acc_of_add hadd hfits
  have hflip : (expStep m st (k + 1)).subtract = true := congrArg not hadd
  have hsign : (-1 : Int) ^ (k + 1) = 1 := hinv.sign.trans (if_neg (by simp [hadd]))
  refine ⟨⟨hproduct, fun hsub => absurd (hadd.symm.trans hsub) (by decide), fun _ => hfits⟩, hterm, ?_, ?_,
    fun _ => ⟨by omega, by omega⟩, fun hadd' => absurd (hflip.symm.trans hadd') (by decide)⟩
  · rw [Finset.sum_range_succ, ← hinv.acc_eq, hsign, ← hterm, hacc]
    push_cast
    ring
  · rw [pow_succ, hsign, hflip]
    rfl

/-- **Step lemma.** A round saturates nowhere and keeps the invariant. -/
theorem ExpInv.step (hinv : ExpInv m k st) (hm : m ≤ lnOneMinusFMag) :
    ExpExact m st (k + 1) ∧ ExpInv m (k + 1) (expStep m st (k + 1)) := by
  cases hsubtract : st.subtract with
  | true => exact hinv.step_subtract hm hsubtract
  | false => exact hinv.step_add hm hsubtract

/-- **Run lemma.** -/
theorem expInv_expState (hm : m ≤ lnOneMinusFMag) (rounds : Nat) : ExpInv m rounds (expState m rounds) := by
  induction rounds with
  | zero => exact .init m
  | succ rounds ih =>
      rw [expState_succ]
      exact (ih.step hm).2

private theorem expExact_expState (hm : m ≤ lnOneMinusFMag) (rounds : Nat) : ExpExact m (expState m rounds) (rounds + 1) :=
  ((expInv_expState hm rounds).step hm).1

end Loop

/-! ### The threshold -/

section Threshold

variable {m m' : Nat}

theorem expNegFixed_le_scale (hm : m ≤ lnOneMinusFMag) : expNegFixed m ≤ leaderFixedScale := by
  have hinv := expInv_expState hm leaderExpTerms
  rw [expNegFixed_eq]
  cases hsubtract : (expState m leaderExpTerms).subtract with
  | true => exact (hinv.below hsubtract).2
  | false => exact (Nat.le_add_right _ _).trans (hinv.above hsubtract)

def thresholdAt (m : Nat) : Nat := leaderFixedScale - expNegFixed m

theorem thresholdAt_add_eq (hm : m ≤ lnOneMinusFMag) :
    thresholdAt m + (expTerm m 2 + expTerm m 4 + expTerm m 6 + expTerm m 8) =
      m + (expTerm m 3 + expTerm m 5 + expTerm m 7 + expTerm m 9) := by
  have hle := expNegFixed_le_scale hm
  have hacc := (expInv_expState hm leaderExpTerms).acc_eq
  rw [← expNegFixed_eq, leaderExpTerms] at hacc
  simp only [Finset.sum_range_succ, Finset.sum_range_zero, expTerm_one] at hacc
  have hzero : expTerm m 0 = leaderFixedScale := rfl
  rw [hzero] at hacc
  rw [thresholdAt]
  norm_num at hacc
  omega

/-- Steps of the argument against the cuts: four of the terms that are subtracted can lose a unit each. -/
theorem thresholdAt_growth (hm : m ≤ lnOneMinusFMag) {d : Nat} (hd : m + d ≤ lnOneMinusFMag) (hpos : 0 < d) :
    thresholdAt m + d ≤ thresholdAt (m + d) + 4 * (d / 19 + 1) := by
  have heq := thresholdAt_add_eq hm
  have heq' := thresholdAt_add_eq hd
  have heven : ∀ k, expTerm (m + d) (k + 2) ≤ expTerm m (k + 2) + d / 19 + 1 := fun k =>
    expTerm_growth_step hd (expTerm_growth hd hpos k)
  have hodd : ∀ k, expTerm m k ≤ expTerm (m + d) k := expTerm_mono (Nat.le_add_right m d)
  have h2 := heven 0
  have h4 := heven 2
  have h6 := heven 4
  have h8 := heven 6
  have h3 := hodd 3
  have h5 := hodd 5
  have h7 := hodd 7
  have h9 := hodd 9
  simp only [Nat.zero_add, Nat.reduceAdd] at h2 h4 h6 h8
  omega

theorem thresholdAt_mono (h : m = m' ∨ m + 4 ≤ m') (hm' : m' ≤ lnOneMinusFMag) : thresholdAt m ≤ thresholdAt m' := by
  rcases h with rfl | hgap
  · exact le_rfl
  · obtain ⟨d, rfl⟩ := Nat.exists_eq_add_of_le (Nat.le_of_add_right_le hgap)
    have hgrowth := thresholdAt_growth (by omega) hm' (by omega)
    omega

private theorem thresholdAt_le_add_three (h : m ≤ m') (hm' : m' ≤ lnOneMinusFMag) : thresholdAt m ≤ thresholdAt m' + 3 := by
  obtain ⟨d, rfl⟩ := Nat.exists_eq_add_of_le h
  rcases Nat.eq_zero_or_pos d with rfl | hpos
  · exact Nat.le_add_right _ _
  · have hgrowth := thresholdAt_growth (by omega) hm' hpos
    omega

private theorem thresholdAt_le_last (hm : m ≤ lnOneMinusFMag) : thresholdAt m ≤ thresholdAt lnOneMinusFMag := by
  by_cases hgap : m + 4 ≤ lnOneMinusFMag
  · exact thresholdAt_mono (Or.inr hgap) le_rfl
  · obtain ⟨d, hd⟩ := Nat.exists_eq_add_of_le hm
    have hcases : m = lnOneMinusFMag - d := by omega
    have hsmall : d < 4 := by omega
    rw [hcases]
    interval_cases d <;> decide

end Threshold

/-! ### Stakes -/

section Stakes

def scaledStake (stakeNum stakeDen : UInt64) : Nat := stakeNum.toNat * lnOneMinusFMag / stakeDen.toNat

variable {stakeNum stakeNum' stakeDen : UInt64}

theorem stake_product_fits (stakeNum : UInt64) : stakeNum.toNat * lnOneMinusFMag ≤ maxU128 := by
  calc stakeNum.toNat * lnOneMinusFMag ≤ 2 ^ 64 * 2 ^ 60 := Nat.mul_le_mul (UInt64.toNat_lt stakeNum).le (by decide)
    _ ≤ maxU128 := by decide

theorem leaderThresholdFixed_eq (stakeNum stakeDen : UInt64) :
    leaderThresholdFixed stakeNum stakeDen = thresholdAt (scaledStake stakeNum stakeDen) := by
  rw [leaderThresholdFixed, min_eq_left (stake_product_fits stakeNum), ← scaledStake, ← thresholdAt]

private theorem scaledStake_le (h : stakeNum ≤ stakeDen) : scaledStake stakeNum stakeDen ≤ lnOneMinusFMag :=
  Nat.div_le_of_le_mul (Nat.mul_le_mul_right _ (UInt64.le_iff_toNat_le.mp h))

private theorem scaledStake_mono (h : stakeNum ≤ stakeNum') : scaledStake stakeNum stakeDen ≤ scaledStake stakeNum' stakeDen :=
  Nat.div_le_div_right (Nat.mul_le_mul_right _ (UInt64.le_iff_toNat_le.mp h))

private theorem scaledStake_gap (htotal : 4 * stakeDen.toNat ≤ lnOneMinusFMag) (h : stakeNum.toNat < stakeNum'.toNat)
    (hden : 0 < stakeDen.toNat) : scaledStake stakeNum stakeDen + 4 ≤ scaledStake stakeNum' stakeDen := by
  calc scaledStake stakeNum stakeDen + 4 = (stakeNum.toNat * lnOneMinusFMag + 4 * stakeDen.toNat) / stakeDen.toNat :=
        (Nat.add_mul_div_right _ _ hden).symm
    _ ≤ (stakeNum.toNat * lnOneMinusFMag + lnOneMinusFMag) / stakeDen.toNat :=
        Nat.div_le_div_right (Nat.add_le_add_left htotal _)
    _ = (stakeNum.toNat + 1) * lnOneMinusFMag / stakeDen.toNat := by rw [Nat.succ_mul]
    _ ≤ scaledStake stakeNum' stakeDen := Nat.div_le_div_right (Nat.mul_le_mul_right _ h)

/-- **The threshold grows with the stake**, for a total stake of up to a quarter of the scaled logarithm. For a larger one it can lose three units at most. It is bounded by the threshold of the whole stake, zero for none, and computed without saturation. -/
theorem leaderThreshold_monotone (hle : stakeNum ≤ stakeNum') (hden : stakeNum' ≤ stakeDen) :
    (4 * stakeDen.toNat ≤ lnOneMinusFMag →
        leaderThresholdFixed stakeNum stakeDen ≤ leaderThresholdFixed stakeNum' stakeDen) ∧
      leaderThresholdFixed stakeNum stakeDen ≤ leaderThresholdFixed stakeNum' stakeDen + 3 ∧
      leaderThresholdFixed stakeNum' stakeDen ≤ leaderThresholdFixed 1 1 ∧
      leaderThresholdFixed 0 stakeDen = 0 ∧
      stakeNum'.toNat * lnOneMinusFMag ≤ maxU128 ∧
      expNegFixed (scaledStake stakeNum' stakeDen) ≤ leaderFixedScale ∧
      ∀ rounds, ExpExact (scaledStake stakeNum' stakeDen) (expState (scaledStake stakeNum' stakeDen) rounds) (rounds + 1) := by
  have hlast : scaledStake stakeNum' stakeDen ≤ lnOneMinusFMag := scaledStake_le hden
  have hwhole : scaledStake 1 1 = lnOneMinusFMag := by decide
  have hnone : scaledStake 0 stakeDen = 0 := by simp [scaledStake]
  rw [leaderThresholdFixed_eq, leaderThresholdFixed_eq, leaderThresholdFixed_eq, leaderThresholdFixed_eq, hwhole, hnone]
  refine ⟨fun htotal => thresholdAt_mono ?_ hlast, thresholdAt_le_add_three (scaledStake_mono hle) hlast,
    thresholdAt_le_last hlast, by decide, stake_product_fits stakeNum', expNegFixed_le_scale hlast, expExact_expState hlast⟩
  rw [UInt64.le_iff_toNat_le] at hle hden
  rcases Nat.eq_or_lt_of_le hle with heq | hlt
  · exact Or.inl (by rw [scaledStake, heq, ← scaledStake])
  · exact Or.inr (scaledStake_gap htotal hlt (by omega))

/-- The supply of the main network is far below the limit. -/
theorem leaderThreshold_monotone_mainnet :
    leaderThresholdFixed 5000000000 2100000000000000 ≤ leaderThresholdFixed 5000000001 2100000000000000 :=
  (leaderThreshold_monotone (by decide) (by decide)).1 (by decide)

/-- **One unit of stake more can lose a unit of the threshold**, in a total stake of 10^18. -/
theorem leaderThreshold_drops :
    ¬ ∀ stakeNum stakeNum' stakeDen : UInt64, stakeDen ≠ 0 → stakeNum ≤ stakeNum' → stakeNum' ≤ stakeDen →
      leaderThresholdFixed stakeNum stakeDen ≤ leaderThresholdFixed stakeNum' stakeDen := by
  intro hclaim
  have hle := hclaim 999999999998946509 999999999998946510 1000000000000000000 (by decide) (by decide) (by decide)
  exact absurd hle (by decide)

end Stakes

end QuantumVault
