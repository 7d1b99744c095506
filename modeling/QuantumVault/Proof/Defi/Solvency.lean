import QuantumVault.Proof.Defi.Amm
import QuantumVault.Proof.Defi.Lending

/-!
# Solvency and utilization

Three tests compare a debt with a weighted collateral, and each is one inequality of natural numbers next to the others. The borrowing limit is exact. The ratio test cuts its quotient to 16 bits, and the health factor overflows on a large weighted collateral. The utilization of a pool cuts its quotient to 16 bits in the same way before it is capped.
-/

namespace QuantumVault

open Result

variable {collateral debt : UInt64} {ltv : UInt16} {position : LendingPosition}

/-! ### Three tests -/

private theorem le_computeMaxBorrow_iff (hltv : ltv ≤ 10000) :
    debt ≤ computeMaxBorrow collateral ltv ↔ debt.toNat * 10000 ≤ collateral.toNat * ltv.toNat := by
  rw [UInt64.le_iff_toNat_le, toNat_computeMaxBorrow collateral hltv]
  exact Nat.le_div_iff_mul_le (by norm_num)

/-- The ratio test compares what is left of the quotient in 16 bits. -/
theorem isCollateralized_iff (position : LendingPosition) (hltv : ltv ≤ 10000) :
    position.isCollateralized collateral debt ltv = true ↔ debt.toNat = 0 ∨
      (0 < collateral.toNat ∧ debt.toNat * 10000 / collateral.toNat % 2 ^ 16 ≤ ltv.toNat) := by
  have hltv' : ltv.toNat ≤ 10000 := UInt16.le_iff_toNat_le.mp hltv
  rw [LendingPosition.isCollateralized, UInt64.toNat_eq_zero_iff]
  split
  · rename_i hdebt
    exact iff_of_true rfl (Or.inl hdebt)
  · rename_i hdebt
    rw [Wide.checkedMul_of_lt debt.toNat_lt (by norm_num), Option.bind_some, decide_eq_true_iff, UInt16.le_iff_toNat_le,
      UInt16.toNat_ofNat', or_iff_right hdebt]
    by_cases hempty : collateral.toNat = 0
    · -- the missing quotient stands for the largest one, whose last 16 bits are all set
      have hcut : Wide.max % 2 ^ 16 = 65535 := rfl
      rw [hempty, Wide.checkedDiv, if_pos rfl, Option.getD_none, hcut]
      omega
    · rw [Wide.checkedDiv_of_pos (by omega), Option.getD_some]
      omega

private theorem healthFactor_ge_one_iff (hltv : ltv ≤ 10000) :
    (∃ factor, position.healthFactor collateral ltv = .ok factor ∧ 2 ^ 64 ≤ factor) ↔ position.debt.toNat = 0 ∨
      (collateral.toNat * ltv.toNat < 2 ^ 64 ∧ position.debt.toNat * 10000 ≤ collateral.toNat * ltv.toNat) := by
  have hltv' : ltv.toNat ≤ 10000 := UInt16.le_iff_toNat_le.mp hltv
  rw [LendingPosition.healthFactor, UInt64.toNat_eq_zero_iff]
  split
  · rename_i hdebt
    exact iff_of_true ⟨Wide.max, rfl, by decide⟩ (Or.inl hdebt)
  · rename_i hdebt
    have hpos : 0 < position.debt.toNat := Nat.pos_of_ne_zero (mt UInt64.toNat_eq_zero_iff.mp hdebt)
    have hscale : 1 <<< 64 = 2 ^ 64 := rfl
    rw [Wide.checkedMul_of_lt collateral.toNat_lt (by omega), okOr_some, ok_bind, or_iff_right hdebt, hscale]
    by_cases hwide : collateral.toNat * ltv.toNat < 2 ^ 64
    · have hquotient : 2 ^ 64 ≤ collateral.toNat * ltv.toNat * 2 ^ 64 / 10000 / position.debt.toNat ↔
          position.debt.toNat * 10000 ≤ collateral.toNat * ltv.toNat := by
        rw [Nat.le_div_iff_mul_le hpos, Nat.le_div_iff_mul_le (by norm_num)]
        omega
      rw [Wide.checkedMul, if_pos (by omega), okOr_some, ok_bind, Wide.checkedDiv_of_pos (by norm_num), Option.bind_some,
        Wide.checkedDiv_of_pos hpos, okOr_some, ← hquotient, and_iff_right hwide]
      refine ⟨fun h => ?_, fun hle => ⟨_, rfl, hle⟩⟩
      obtain ⟨factor, heq, hle⟩ := h
      cases heq
      exact hle
    · rw [Wide.checkedMul, if_neg (by omega)]
      refine iff_of_false (fun h => ?_) fun h => hwide h.1
      obtain ⟨factor, heq, -⟩ := h
      cases heq

/-- The ratio test answers as the borrowing limit and as the health factor do. -/
def SolvencyTestsAgree (self position : LendingPosition) (collateral : UInt64) (ltv : UInt16) : Prop :=
  (self.isCollateralized collateral position.debt ltv = true ↔ position.debt ≤ computeMaxBorrow collateral ltv) ∧
    (self.isCollateralized collateral position.debt ltv = true ↔
      ∃ factor, position.healthFactor collateral ltv = .ok factor ∧ 2 ^ 64 ≤ factor)

/-- **When the three tests agree.** On no debt; within the limit as long as the weighted collateral is below the word; and over the limit when there is no collateral or the last 16 bits of the quotient are over the ratio. -/
theorem solvency_tests_agree_iff (self position : LendingPosition) (collateral : UInt64) (ltv : UInt16)
    (hltv : ltv ≤ 10000) :
    SolvencyTestsAgree self position collateral ltv ↔
    (position.debt.toNat = 0 ∨
      (position.debt.toNat * 10000 ≤ collateral.toNat * ltv.toNat ∧ collateral.toNat * ltv.toNat < 2 ^ 64) ∨
      (collateral.toNat * ltv.toNat < position.debt.toNat * 10000 ∧
        (collateral.toNat = 0 ∨ ltv.toNat < position.debt.toNat * 10000 / collateral.toNat % 2 ^ 16))) := by
  have hltv' : ltv.toNat ≤ 10000 := UInt16.le_iff_toNat_le.mp hltv
  rw [SolvencyTestsAgree, isCollateralized_iff self hltv, le_computeMaxBorrow_iff hltv, healthFactor_ge_one_iff hltv]
  have hwithin : position.debt.toNat * 10000 ≤ collateral.toNat * ltv.toNat →
      position.debt.toNat * 10000 / collateral.toNat % 2 ^ 16 ≤ ltv.toNat := by
    intro hle
    have hquotient := Nat.div_le_of_le_mul hle
    exact (Nat.mod_le _ _).trans hquotient
  have hempty : collateral.toNat = 0 → collateral.toNat * ltv.toNat = 0 := fun hzero => by rw [hzero, Nat.zero_mul]
  generalize position.debt.toNat * 10000 / collateral.toNat % 2 ^ 16 = cut at *
  generalize collateral.toNat * ltv.toNat = weighted at *
  omega

/-- The tests agree on a position within its limit. -/
theorem solvency_tests_agree_sample : SolvencyTestsAgree ⟨0, 0, 0⟩ ⟨1000000, 750000, 0⟩ 1000000 7500 :=
  (solvency_tests_agree_iff ⟨0, 0, 0⟩ ⟨1000000, 750000, 0⟩ 1000000 7500 (by decide)).mpr (by decide)

/-- A debt 6.5536 times the collateral passes the ratio test. -/
theorem solvency_tests_differ : ¬ ∀ (self position : LendingPosition) (collateral : UInt64) (ltv : UInt16), ltv ≤ 10000 →
    SolvencyTestsAgree self position collateral ltv :=
  fun h => absurd (h ⟨0, 0, 0⟩ ⟨10000, 65536, 0⟩ 10000 7500 (by decide)).1 (by decide)

/-! ### Utilization -/

def exactUtilizationBps (pool : LendingPoolDatum) : Nat :=
  if pool.totalCollateral.toNat = 0 then 0
  else min 10000 (pool.totalDebt.toNat * 10000 / pool.totalCollateral.toNat)

theorem toNat_computeUtilizationBps (pool : LendingPoolDatum) : (computeUtilizationBps pool).toNat =
    if pool.totalCollateral.toNat = 0 then 0
    else min 10000 (pool.totalDebt.toNat * 10000 / pool.totalCollateral.toNat % 2 ^ 16) := by
  have hmin : ∀ a b : UInt16, (min a b).toNat = min b.toNat a.toNat := by
    intro a b
    show (if a ≤ b then a else b).toNat = min b.toNat a.toNat
    split <;> rename_i hle <;> rw [UInt16.le_iff_toNat_le] at hle <;> omega
  rw [computeUtilizationBps]
  by_cases hempty : pool.totalCollateral = 0
  · rw [if_pos hempty, if_pos (UInt64.toNat_eq_zero_iff.mpr hempty)]
    rfl
  · have hpos := mt UInt64.toNat_eq_zero_iff.mp hempty
    rw [if_neg hempty, if_neg hpos, Wide.checkedMul_of_lt pool.totalDebt.toNat_lt (by norm_num), Option.bind_some,
      Wide.checkedDiv_of_pos (by omega), Option.getD_some, hmin, UInt16.toNat_ofNat']
    rfl

theorem computeUtilizationBps_le (pool : LendingPoolDatum) :
    (computeUtilizationBps pool).toNat ≤ exactUtilizationBps pool := by
  rw [toNat_computeUtilizationBps, exactUtilizationBps]
  split
  · exact le_rfl
  · exact min_le_min_left _ (Nat.mod_le _ _)

private theorem computeUtilizationBps_eq_exact_iff (pool : LendingPoolDatum) :
    (computeUtilizationBps pool).toNat = exactUtilizationBps pool ↔ pool.totalCollateral.toNat = 0 ∨
      pool.totalDebt.toNat * 10000 / pool.totalCollateral.toNat < 2 ^ 16 ∨
      10000 ≤ pool.totalDebt.toNat * 10000 / pool.totalCollateral.toNat % 2 ^ 16 := by
  rw [toNat_computeUtilizationBps, exactUtilizationBps]
  split
  · rename_i hempty
    exact iff_of_true rfl (Or.inl hempty)
  · rename_i hpos
    rw [or_iff_right hpos]
    generalize pool.totalDebt.toNat * 10000 / pool.totalCollateral.toNat = quotient
    omega

private theorem exactUtilizationBps_mono {pool pool' : LendingPoolDatum}
    (hcollateral : pool'.totalCollateral = pool.totalCollateral)
    (hdebt : pool'.totalDebt ≤ pool.totalDebt) : exactUtilizationBps pool' ≤ exactUtilizationBps pool := by
  rw [exactUtilizationBps, exactUtilizationBps, hcollateral]
  split
  · exact le_rfl
  · have hproduct := Nat.mul_le_mul_right 10000 (UInt64.le_iff_toNat_le.mp hdebt)
    exact min_le_min_left _ (Nat.div_le_div_right hproduct)

theorem toNat_computeBorrowRateBps (util base slope : UInt16) :
    (computeBorrowRateBps util base slope).toNat = base.toNat + util.toNat * slope.toNat / 10000 := by
  have hutil := util.toNat_lt
  have hslope := slope.toNat_lt
  have hbase := base.toNat_lt
  have hproduct : util.toNat * slope.toNat ≤ 65535 * 65535 := Nat.mul_le_mul (by omega) (by omega)
  have hmul : (util.toUInt32 * slope.toUInt32).toNat = util.toNat * slope.toNat := by
    rw [UInt32.toNat_mul, UInt16.toNat_toUInt32, UInt16.toNat_toUInt32, Nat.mod_eq_of_lt (by omega)]
  have hten : (10000 : UInt32).toNat = 10000 := rfl
  rw [computeBorrowRateBps, HalfWord.checkedMul, UInt16.toNat_toUInt32, UInt16.toNat_toUInt32, if_pos (by omega),
    Option.bind_some, HalfWord.checkedDiv, if_neg (by decide), Option.getD_some, UInt32.toNat_add, UInt32.toNat_div,
    hmul, hten, UInt16.toNat_toUInt32, Nat.mod_eq_of_lt (by omega)]

private theorem computeBorrowRateBps_mono {util util' base slope : UInt16} (h : util'.toNat ≤ util.toNat) :
    computeBorrowRateBps util' base slope ≤ computeBorrowRateBps util base slope := by
  rw [UInt32.le_iff_toNat_le, toNat_computeBorrowRateBps, toNat_computeBorrowRateBps]
  exact Nat.add_le_add_left (Nat.div_le_div_right (Nat.mul_le_mul_right _ h)) _

/-- The utilization is the exact one, and with the same collateral no smaller debt has a higher utilization or rate. -/
structure UtilizationSound (pool : LendingPoolDatum) : Prop where
  exact : (computeUtilizationBps pool).toNat = exactUtilizationBps pool
  monotone (pool' : LendingPoolDatum) (hcollateral : pool'.totalCollateral = pool.totalCollateral)
    (hdebt : pool'.totalDebt ≤ pool.totalDebt) : computeUtilizationBps pool' ≤ computeUtilizationBps pool ∧
      ∀ baseRateBps slopeBps, computeBorrowRateBps (computeUtilizationBps pool') baseRateBps slopeBps ≤
        computeBorrowRateBps (computeUtilizationBps pool) baseRateBps slopeBps

/-- **Utilization is exact, and no smaller debt has a higher utilization or rate, exactly when nothing of the quotient below the cap is cut off.** -/
theorem utilizationSound_iff (pool : LendingPoolDatum) : UtilizationSound pool ↔ pool.totalCollateral.toNat = 0 ∨
    pool.totalDebt.toNat * 10000 / pool.totalCollateral.toNat < 2 ^ 16 ∨
    10000 ≤ pool.totalDebt.toNat * 10000 / pool.totalCollateral.toNat % 2 ^ 16 := by
  rw [← computeUtilizationBps_eq_exact_iff]
  refine ⟨UtilizationSound.exact, fun hexact => ⟨hexact, fun pool' hcollateral hdebt => ?_⟩⟩
  have hle : (computeUtilizationBps pool').toNat ≤ (computeUtilizationBps pool).toNat := by
    rw [hexact]
    exact (computeUtilizationBps_le pool').trans (exactUtilizationBps_mono hcollateral hdebt)
  exact ⟨UInt16.le_iff_toNat_le.mpr hle, fun _ _ => computeBorrowRateBps_mono hle⟩

/-- A debt 6.5536 times the collateral counts as no utilization. -/
theorem utilization_not_sound : ¬ ∀ pool : LendingPoolDatum, UtilizationSound pool :=
  fun h => absurd (h (.new .zero .zero 10000 65536)).exact (by decide)

end QuantumVault
