import QuantumVault.Proof.Defi.Lending
import QuantumVault.Proof.Defi.Solvency

/-!
# Accruing interest

The product of the multiplier and the factor is formed before it is scaled back, so it needs 64 bits more than the result. A new pool starts with the multiplier one and every factor is at least one, which makes the product one bit too long at the first accrual. No operation touches the multiplier, hence no pool that comes from a new one ever accrues anything.
-/

namespace QuantumVault

open Result

/-! ### One accrual -/

/-- The interest of one slot as a 64.64 fixed-point number. -/
def ratePerSlotQ64 (pool : LendingPoolDatum) (slotsPerYear : UInt64) : Nat :=
  (computeBorrowRateBps (computeUtilizationBps pool) pool.baseRateBps pool.slopeBps).toNat * 2 ^ 64 / 10000 /
    slotsPerYear.toNat

def accrualFactor (pool : LendingPoolDatum) (currentSlot slotsPerYear : UInt64) : Nat :=
  2 ^ 64 + ratePerSlotQ64 pool slotsPerYear * (currentSlot.toNat - pool.lastAccrualSlot.toNat)

/-- The multiplier after an accrual, on exact numbers. -/
def exactMultiplier (pool : LendingPoolDatum) (currentSlot slotsPerYear : UInt64) : Nat :=
  pool.interestMultiplierQ64.toNat * accrualFactor pool currentSlot slotsPerYear / 2 ^ 64

variable {pool : LendingPoolDatum} {currentSlot slotsPerYear : UInt64}

/-- **An accrual is exact when the factor and the product fit, and fails otherwise.** -/
theorem accruedMultiplier_eq (hyear : 0 < slotsPerYear.toNat) (hslot : pool.lastAccrualSlot.toNat ≤ currentSlot.toNat) :
    accruedMultiplier pool currentSlot slotsPerYear =
      if accrualFactor pool currentSlot slotsPerYear < 2 ^ 128 ∧
          pool.interestMultiplierQ64.toNat * accrualFactor pool currentSlot slotsPerYear < 2 ^ 128 then
        .ok (BitVec.ofNat 128 (exactMultiplier pool currentSlot slotsPerYear))
      else .error .interestAccrualOverflow := by
  obtain ⟨elapsed, helapsed⟩ := Word.exists_toNat_eq (n := currentSlot.toNat - pool.lastAccrualSlot.toNat)
    (lt_of_le_of_lt (Nat.sub_le _ _) currentSlot.toNat_lt)
  have hsub : Word.checkedSub currentSlot pool.lastAccrualSlot = some elapsed :=
    Word.checkedSub_eq_some.mpr (by omega)
  rw [accruedMultiplier, hsub, okOr_some, ok_bind]
  dsimp only
  rw [Wide.checkedDiv_of_pos (by norm_num), okOr_some, ok_bind, Wide.checkedDiv_of_pos hyear, okOr_some, ok_bind,
    helapsed, Nat.shiftLeft_eq, Nat.one_shiftLeft, ← ratePerSlotQ64, Wide.checkedMul]
  split
  · rw [okOr_some, ok_bind, Wide.checkedAdd, ← accrualFactor]
    split
    · rename_i hfactor
      rw [okOr_some, ok_bind, Wide.checkedMul]
      split
      · rename_i hproduct
        rw [okOr_some, ok_bind, Wide.checkedDiv_of_pos (by norm_num), okOr_some, ok_bind, if_pos ⟨hfactor, hproduct⟩]
        rfl
      · rename_i hproduct
        rw [if_neg fun h => hproduct h.2]
        rfl
    · rename_i hfactor
      rw [if_neg fun h => hfactor h.1]
      rfl
  · rename_i hinterest
    have hfactor : ¬ accrualFactor pool currentSlot slotsPerYear < 2 ^ 128 := by
      rw [accrualFactor]
      omega
    rw [if_neg fun h => hfactor h.1]
    rfl

/-! ### What operations leave of a pool -/

def SameButTotals (pool pool' : LendingPoolDatum) : Prop :=
  pool' = { pool with totalCollateral := pool'.totalCollateral, totalDebt := pool'.totalDebt }

private theorem sameButTotals_deposit (pool : LendingPoolDatum) (amount : UInt64) :
    SameButTotals pool (deposit pool amount).2 := by
  obtain ⟨e, heq⟩ | ⟨totalCollateral, -, heq⟩ := deposit_cases pool amount <;> rw [heq] <;> rfl

private theorem sameButTotals_borrow (pool : LendingPoolDatum) (position : LendingPosition) (amount : UInt64) :
    SameButTotals pool (borrow pool position amount).2.1 := by
  rw [(moves_borrow pool position amount).params]
  rfl

private theorem sameButTotals_repay (pool : LendingPoolDatum) (position : LendingPosition) (amount : UInt64) :
    SameButTotals pool (repay pool position amount).2.1 := by
  obtain ⟨-, heq⟩ | ⟨debt, -, ⟨-, heq⟩ | ⟨totalDebt, -, heq⟩⟩ := repay_outcomes pool position amount <;> rw [heq] <;> rfl

private theorem sameButTotals_withdraw (pool : LendingPoolDatum) (position : LendingPosition) (amount : UInt64) :
    SameButTotals pool (withdraw pool position amount).2.1 := by
  rw [withdraw]
  split
  · rfl
  · split
    · rfl
    · dsimp only
      split
      · rfl
      · split <;> rfl

private theorem sameButTotals_liquidate (pool : LendingPoolDatum) (position : LendingPosition) (amount : UInt64) :
    SameButTotals pool (liquidate pool position amount).2.1 := by
  obtain ⟨-, e, -, heq⟩ | ⟨-, repaid, seized, shares, debt, -, -, -, -, ⟨-, heq⟩ | ⟨totalCollateral, -, ⟨-, heq⟩ |
    ⟨totalDebt, -, heq⟩⟩⟩ := liquidate_outcomes pool position amount <;> rw [heq] <;> rfl

/-! ### Pools that come from a new one -/

/-- What can happen to a pool. Positions are kept by the callers, so any position may come with an operation. -/
inductive LendingPoolOp where
  | accrueInterest (currentSlot slotsPerYear : UInt64)
  | deposit (amount : UInt64)
  | borrow (position : LendingPosition) (amount : UInt64)
  | repay (position : LendingPosition) (amount : UInt64)
  | withdraw (position : LendingPosition) (collateralAmount : UInt64)
  | liquidate (position : LendingPosition) (repayAmount : UInt64)

namespace LendingPoolDatum

def step (pool : LendingPoolDatum) : LendingPoolOp → LendingPoolDatum
  | .accrueInterest currentSlot slotsPerYear => (QuantumVault.accrueInterest pool currentSlot slotsPerYear).2
  | .deposit amount => (QuantumVault.deposit pool amount).2
  | .borrow position amount => (QuantumVault.borrow pool position amount).2.1
  | .repay position amount => (QuantumVault.repay pool position amount).2.1
  | .withdraw position collateralAmount => (QuantumVault.withdraw pool position collateralAmount).2.1
  | .liquidate position repayAmount => (QuantumVault.liquidate pool position repayAmount).2.1

def run (pool : LendingPoolDatum) (ops : List LendingPoolOp) : LendingPoolDatum := ops.foldl step pool

/-- What an accrual reads besides the totals is as in a new pool. -/
structure Unaccrued (pool : LendingPoolDatum) : Prop where
  multiplier : pool.interestMultiplierQ64.toNat = 2 ^ 64
  slot : pool.lastAccrualSlot = 0
  base : pool.baseRateBps = 100
  slope : pool.slopeBps = 5000

private theorem unaccrued_new (collateralTokenId debtTokenId : Hash256) (totalCollateral totalDebt : UInt64) :
    (new collateralTokenId debtTokenId totalCollateral totalDebt).Unaccrued := ⟨rfl, rfl, rfl, rfl⟩

theorem Unaccrued.of_sameButTotals {pool' : LendingPoolDatum} (h : pool.Unaccrued) (hsame : SameButTotals pool pool') :
    pool'.Unaccrued := by
  rw [hsame]
  exact ⟨h.multiplier, h.slot, h.base, h.slope⟩

theorem Unaccrued.accruedMultiplier_eq_error (h : pool.Unaccrued) (currentSlot slotsPerYear : UInt64) :
    ∃ e, accruedMultiplier pool currentSlot slotsPerYear = .error e := by
  have hslot : pool.lastAccrualSlot.toNat ≤ currentSlot.toNat := by
    rw [h.slot]
    exact Nat.zero_le _
  by_cases hyear : 0 < slotsPerYear.toNat
  · refine ⟨_, (accruedMultiplier_eq hyear hslot).trans (if_neg fun hfits => ?_)⟩
    have hproduct := hfits.2
    rw [h.multiplier, accrualFactor] at hproduct
    omega
  · have hzero : slotsPerYear.toNat = 0 := by omega
    have hsub : Word.checkedSub currentSlot pool.lastAccrualSlot = some currentSlot := by
      rw [h.slot, Word.checkedSub_eq_some, UInt64.toNat_zero, Nat.zero_add]
    refine ⟨.overflow, ?_⟩
    rw [accruedMultiplier, hsub, okOr_some, ok_bind, hzero]
    rfl

theorem Unaccrued.accrueInterest_eq_self (h : pool.Unaccrued) (currentSlot slotsPerYear : UInt64) :
    (accrueInterest pool currentSlot slotsPerYear).2 = pool := by
  obtain ⟨e, he⟩ := h.accruedMultiplier_eq_error currentSlot slotsPerYear
  rw [accrueInterest, he]
  split <;> rfl

/-- **One operation of any kind leaves the multiplier of a new pool alone.** -/
theorem Unaccrued.step (h : pool.Unaccrued) (op : LendingPoolOp) : (pool.step op).Unaccrued := by
  cases op with
  | accrueInterest currentSlot slotsPerYear =>
      rw [LendingPoolDatum.step, h.accrueInterest_eq_self]
      exact h
  | deposit amount => exact h.of_sameButTotals (sameButTotals_deposit pool amount)
  | borrow position amount => exact h.of_sameButTotals (sameButTotals_borrow pool position amount)
  | repay position amount => exact h.of_sameButTotals (sameButTotals_repay pool position amount)
  | withdraw position collateralAmount => exact h.of_sameButTotals (sameButTotals_withdraw pool position collateralAmount)
  | liquidate position repayAmount => exact h.of_sameButTotals (sameButTotals_liquidate pool position repayAmount)

theorem Unaccrued.run (h : pool.Unaccrued) (ops : List LendingPoolOp) : (pool.run ops).Unaccrued := by
  induction ops generalizing pool with
  | nil => exact h
  | cons op ops ih => exact ih (h.step op)

private theorem Unaccrued.exactMultiplier_lt (h : pool.Unaccrued) (currentSlot slotsPerYear : UInt64) :
    exactMultiplier pool currentSlot slotsPerYear < 2 ^ 128 := by
  have hutil : (computeUtilizationBps pool).toNat ≤ 10000 := by
    refine (computeUtilizationBps_le pool).trans ?_
    rw [exactUtilizationBps]
    split <;> omega
  have hbase : (100 : UInt16).toNat = 100 := rfl
  have hslope : (5000 : UInt16).toNat = 5000 := rfl
  have hrate : (computeBorrowRateBps (computeUtilizationBps pool) pool.baseRateBps pool.slopeBps).toNat ≤ 5100 := by
    rw [toNat_computeBorrowRateBps, h.base, h.slope, hbase, hslope]
    omega
  have hslots : currentSlot.toNat - pool.lastAccrualSlot.toNat ≤ 2 ^ 64 - 1 := by
    have hlt := currentSlot.toNat_lt
    omega
  have hperSlot : ratePerSlotQ64 pool slotsPerYear ≤ 2 ^ 64 - 1 := by
    refine (Nat.div_le_self _ _).trans ?_
    omega
  have hinterest := Nat.mul_le_mul hperSlot hslots
  rw [exactMultiplier, h.multiplier, Nat.mul_div_cancel_left _ (by norm_num), accrualFactor]
  omega

end LendingPoolDatum

/-! ### What an accrual promises -/

/-- An accrual whose exact result fits succeeds with it, does not lower the multiplier, and is no better for the debtor when it is split. -/
def AccrualSound (pool : LendingPoolDatum) (currentSlot slotsPerYear : UInt64) : Prop :=
  exactMultiplier pool currentSlot slotsPerYear < 2 ^ 128 →
    (accrueInterest pool currentSlot slotsPerYear).1 = .ok () ∧
    (accrueInterest pool currentSlot slotsPerYear).2.interestMultiplierQ64.toNat =
      exactMultiplier pool currentSlot slotsPerYear ∧
    pool.interestMultiplierQ64 ≤ (accrueInterest pool currentSlot slotsPerYear).2.interestMultiplierQ64 ∧
    ∀ midSlot, pool.lastAccrualSlot ≤ midSlot → midSlot ≤ currentSlot →
      (accrueInterest pool currentSlot slotsPerYear).2.interestMultiplierQ64 ≤
        (accrueInterest (accrueInterest pool midSlot slotsPerYear).2 currentSlot slotsPerYear).2.interestMultiplierQ64

/-- **A pool that comes from a new one accrues interest only over no time at all.** -/
theorem accrueInterest_sound_iff (collateralTokenId debtTokenId : Hash256) (totalCollateral totalDebt : UInt64)
    (ops : List LendingPoolOp) (currentSlot slotsPerYear : UInt64) :
    AccrualSound ((LendingPoolDatum.new collateralTokenId debtTokenId totalCollateral totalDebt).run ops) currentSlot
        slotsPerYear ↔
      currentSlot =
        ((LendingPoolDatum.new collateralTokenId debtTokenId totalCollateral totalDebt).run ops).lastAccrualSlot := by
  have h := (LendingPoolDatum.unaccrued_new collateralTokenId debtTokenId totalCollateral totalDebt).run ops
  generalize (LendingPoolDatum.new collateralTokenId debtTokenId totalCollateral totalDebt).run ops = pool at h ⊢
  refine ⟨fun hsound => ?_, fun hsame _ => ?_⟩
  · by_contra hne
    obtain ⟨e, he⟩ := h.accruedMultiplier_eq_error currentSlot slotsPerYear
    have hok := (hsound (h.exactMultiplier_lt currentSlot slotsPerYear)).1
    rw [accrueInterest, if_neg hne, he] at hok
    cases hok
  · subst hsame
    have hself : accrueInterest pool pool.lastAccrualSlot slotsPerYear = (.ok (), pool) := if_pos rfl
    refine ⟨?_, ?_, ?_, fun midSlot _ _ => ?_⟩
    · rw [hself]
    · rw [hself, exactMultiplier, accrualFactor, Nat.sub_self, Nat.mul_zero, Nat.add_zero,
        Nat.mul_div_cancel _ (by norm_num)]
    · rw [hself]
      exact BitVec.le_refl _
    · rw [hself, h.accrueInterest_eq_self, hself]
      exact BitVec.le_refl _

/-- A new pool does not survive its first hundred slots. -/
theorem accrueInterest_not_sound : ¬ ∀ (ops : List LendingPoolOp) (currentSlot slotsPerYear : UInt64), 0 < slotsPerYear →
    ((LendingPoolDatum.new .zero .zero 1000000 0).run ops).lastAccrualSlot ≤ currentSlot →
    AccrualSound ((LendingPoolDatum.new .zero .zero 1000000 0).run ops) currentSlot slotsPerYear := by
  intro hall
  have hsound := hall [] 100 525600 (by decide) (by decide)
  exact absurd (hsound (by decide)).1 (by decide)

end QuantumVault
