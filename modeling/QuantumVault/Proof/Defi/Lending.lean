import QuantumVault.Defi.Lending

/-!
# The books of a lending pool

The pool keeps only totals, the positions are kept apart. Every operation moves a total and a position by the same amount or leaves both alone, so the totals stay the sums over the positions, and because each position is part of its sum no subtraction on a total can fail.
-/

namespace QuantumVault

open Result

/-! ### The borrowing limit -/

theorem toNat_computeMaxBorrow (collateral : UInt64) {ltv : UInt16} (hltv : ltv ≤ 10000) :
    (computeMaxBorrow collateral ltv).toNat = collateral.toNat * ltv.toNat / 10000 := by
  have hc := collateral.toNat_lt
  have hl : ltv.toNat ≤ 10000 := UInt16.le_iff_toNat_le.mp hltv
  have hproduct : collateral.toNat * ltv.toNat ≤ collateral.toNat * 10000 := Nat.mul_le_mul_left _ hl
  rw [computeMaxBorrow, Wide.checkedMul_of_lt hc (by omega), Option.bind_some, Wide.checkedDiv_of_pos (by omega),
    Option.getD_some, UInt64.toNat_ofNat', Nat.mod_eq_of_lt (by omega)]

private theorem computeMaxBorrow_mono {c c' : UInt64} {ltv : UInt16} (hltv : ltv ≤ 10000) (h : c.toNat ≤ c'.toNat) :
    (computeMaxBorrow c ltv).toNat ≤ (computeMaxBorrow c' ltv).toNat := by
  rw [toNat_computeMaxBorrow c hltv, toNat_computeMaxBorrow c' hltv]
  exact Nat.div_le_div_right (Nat.mul_le_mul_right _ h)

private theorem LendingPoolDatum.ltvMaxBps_le {pool : LendingPoolDatum} (h : pool.validate = .ok ()) :
    pool.ltvMaxBps ≤ 10000 := by
  rw [validate] at h
  obtain ⟨hltv, -⟩ := require_bind_eq_ok.mp h
  exact UInt16.not_lt.mp hltv

/-! ### What one operation does -/

/-- The position is part of the pool's totals. -/
structure Covered (pool : LendingPoolDatum) (position : LendingPosition) : Prop where
  debt_le : position.debt.toNat ≤ pool.totalDebt.toNat
  collateral_le : position.collateralShares.toNat ≤ pool.totalCollateral.toNat

/-- The totals and the position move together, and nothing else of the pool changes. -/
structure Moves (pool : LendingPoolDatum) (position : LendingPosition) (pool' : LendingPoolDatum)
    (position' : LendingPosition) : Prop where
  params : pool' = { pool with totalCollateral := pool'.totalCollateral, totalDebt := pool'.totalDebt }
  debt : position'.debt.toNat + pool.totalDebt.toNat = position.debt.toNat + pool'.totalDebt.toNat
  collateral : position'.collateralShares.toNat + pool.totalCollateral.toNat =
    position.collateralShares.toNat + pool'.totalCollateral.toNat

theorem Moves.refl (pool : LendingPoolDatum) (position : LendingPosition) : Moves pool position pool position :=
  ⟨rfl, rfl, rfl⟩

def Healthy (pool : LendingPoolDatum) (position : LendingPosition) : Prop :=
  position.debt.toNat ≤ (computeMaxBorrow position.collateralShares pool.ltvMaxBps).toNat

variable {pool pool' : LendingPoolDatum} {position position' : LendingPosition} {amount : UInt64}

theorem toNat_min_le (a b : UInt64) : (min a b).toNat ≤ b.toNat := by
  show (if a ≤ b then a else b).toNat ≤ b.toNat
  split
  · rename_i hle
    exact UInt64.le_iff_toNat_le.mp hle
  · exact le_rfl

theorem borrow_cases (pool : LendingPoolDatum) (position : LendingPosition) (amount : UInt64) :
    (borrow pool position amount).2 = (pool, position) ∨
      ∃ newDebt totalDebt : UInt64, newDebt.toNat = position.debt.toNat + amount.toNat ∧
        totalDebt.toNat = pool.totalDebt.toNat + amount.toNat ∧
        newDebt.toNat ≤ (computeMaxBorrow position.collateralShares pool.ltvMaxBps).toNat ∧
        borrow pool position amount = (.ok (), { pool with totalDebt }, { position with debt := newDebt }) := by
  unfold borrow
  split
  · exact .inl rfl
  · dsimp only
    split
    · exact .inl rfl
    · rename_i newDebt hnew
      split
      · exact .inl rfl
      · rename_i hlimit
        split
        · exact .inl rfl
        · rename_i totalDebt htotal
          exact .inr ⟨newDebt, totalDebt, Word.checkedAdd_eq_some.mp hnew, Word.checkedAdd_eq_some.mp htotal,
            UInt64.le_iff_toNat_le.mp (UInt64.not_lt.mp hlimit), rfl⟩

/-- A repayment fails for lack of debt, or takes the same amount off the debt and the total. It has already changed the position when the total is short. -/
theorem repay_outcomes (pool : LendingPoolDatum) (position : LendingPosition) (amount : UInt64) :
    (position.debt = 0 ∧ repay pool position amount = (.error .noDebt, pool, position)) ∨
      ∃ debt : UInt64, position.debt.toNat = (min amount position.debt).toNat + debt.toNat ∧
        ((pool.totalDebt.toNat < (min amount position.debt).toNat ∧
            repay pool position amount = (.error .underflow, pool, { position with debt })) ∨
          ∃ totalDebt : UInt64, pool.totalDebt.toNat = (min amount position.debt).toNat + totalDebt.toNat ∧
            repay pool position amount =
              (.ok (min amount position.debt), { pool with totalDebt }, { position with debt })) := by
  have hle := toNat_min_le amount position.debt
  rw [repay]
  split
  · rename_i hdebt
    exact .inl ⟨hdebt, rfl⟩
  · dsimp only
    split
    · rename_i hsub
      rw [Word.checkedSub_eq_none] at hsub
      omega
    · rename_i debt hsub
      refine .inr ⟨debt, Word.checkedSub_eq_some.mp hsub, ?_⟩
      split
      · rename_i htotal
        exact .inl ⟨Word.checkedSub_eq_none.mp htotal, rfl⟩
      · rename_i totalDebt htotal
        exact .inr ⟨totalDebt, Word.checkedSub_eq_some.mp htotal, rfl⟩

theorem repay_cases (h : Covered pool position) (amount : UInt64) :
    repay pool position amount = (.error .noDebt, pool, position) ∨
      ∃ repaid debt totalDebt : UInt64, position.debt.toNat = repaid.toNat + debt.toNat ∧
        pool.totalDebt.toNat = repaid.toNat + totalDebt.toNat ∧
        repay pool position amount = (.ok repaid, { pool with totalDebt }, { position with debt }) := by
  obtain ⟨-, heq⟩ | ⟨debt, hdebt, ⟨hshort, -⟩ | ⟨totalDebt, htotal, heq⟩⟩ := repay_outcomes pool position amount
  · exact .inl heq
  · have hle := h.debt_le
    omega
  · exact .inr ⟨_, debt, totalDebt, hdebt, htotal, heq⟩

theorem withdraw_cases (h : Covered pool position) (amount : UInt64) :
    (∃ e, withdraw pool position amount = (.error e, pool, position) ∧
        (e = .underflow → position.collateralShares.toNat < amount.toNat)) ∨
      ∃ newCollateral totalCollateral : UInt64,
        position.collateralShares.toNat = amount.toNat + newCollateral.toNat ∧
        pool.totalCollateral.toNat = amount.toNat + totalCollateral.toNat ∧
        position.debt.toNat ≤ (computeMaxBorrow newCollateral pool.ltvMaxBps).toNat ∧
        withdraw pool position amount =
          (.ok (), { pool with totalCollateral }, { position with collateralShares := newCollateral }) := by
  have hcollateral := h.collateral_le
  unfold withdraw
  split
  · exact .inl ⟨_, rfl, fun h => by cases h⟩
  · split
    · rename_i hsub
      exact .inl ⟨_, rfl, fun _ => Word.checkedSub_eq_none.mp hsub⟩
    · rename_i newCollateral hsub
      rw [Word.checkedSub_eq_some] at hsub
      dsimp only
      split
      · exact .inl ⟨_, rfl, fun h => by cases h⟩
      · rename_i hlimit
        split
        · rename_i htotal
          rw [Word.checkedSub_eq_none] at htotal
          omega
        · rename_i totalCollateral htotal
          exact .inr ⟨newCollateral, totalCollateral, hsub, Word.checkedSub_eq_some.mp htotal,
            UInt64.le_iff_toNat_le.mp (UInt64.not_lt.mp hlimit), rfl⟩

/-- The collateral that goes with a repaid debt. -/
def seizedFor (pool : LendingPoolDatum) (repaid : UInt64) : Nat :=
  repaid.toNat + repaid.toNat * pool.liquidationBonusBps.toNat / 10000

private theorem computeLiquidationBonus_cases (repaid : UInt64) (bonusBps : UInt16) :
    (2 ^ 64 ≤ repaid.toNat * bonusBps.toNat / 10000 ∧ computeLiquidationBonus repaid bonusBps = .error .overflow) ∨
      ∃ bonus : UInt64, bonus.toNat = repaid.toNat * bonusBps.toNat / 10000 ∧
        computeLiquidationBonus repaid bonusBps = .ok bonus := by
  have hbps := bonusBps.toNat_lt
  rw [computeLiquidationBonus, Wide.checkedMul_of_lt repaid.toNat_lt (by omega), okOr_some, ok_bind,
    Wide.checkedDiv_of_pos (by omega), okOr_some, ok_bind, Wide.maxWord]
  by_cases hwide : repaid.toNat * bonusBps.toNat / 10000 > 2 ^ 64 - 1
  · rw [require, if_neg (not_not.mpr hwide)]
    exact .inl ⟨by omega, rfl⟩
  · rw [require, if_pos hwide]
    exact .inr ⟨_, (Word.ofNat_eq_iff (by omega)).mp rfl, rfl⟩

/-- The checks of a liquidation before it writes: the debt is over the limit, and the shares cover what is seized. -/
def Liquidatable (pool : LendingPoolDatum) (position : LendingPosition) (repayAmount : UInt64) : Prop :=
  ¬ Healthy pool position ∧ seizedFor pool (min repayAmount position.debt) ≤ position.collateralShares.toNat

/-- A liquidation fails before it writes, or the repaid debt and the seized collateral come off the position, whatever becomes of the totals. -/
theorem liquidate_outcomes (pool : LendingPoolDatum) (position : LendingPosition) (amount : UInt64) :
    (¬ Liquidatable pool position amount ∧ ∃ e ≠ .underflow, liquidate pool position amount = (.error e, pool, position)) ∨
      Liquidatable pool position amount ∧
      ∃ repaid seized collateralShares debt : UInt64, repaid = min amount position.debt ∧
        seized.toNat = seizedFor pool repaid ∧
        position.collateralShares.toNat = seized.toNat + collateralShares.toNat ∧
        position.debt.toNat = repaid.toNat + debt.toNat ∧
        ((pool.totalCollateral.toNat < seized.toNat ∧
            liquidate pool position amount = (.error .underflow, pool, { position with collateralShares, debt })) ∨
          ∃ totalCollateral : UInt64, pool.totalCollateral.toNat = seized.toNat + totalCollateral.toNat ∧
            ((pool.totalDebt.toNat < repaid.toNat ∧ liquidate pool position amount =
                (.error .underflow, { pool with totalCollateral }, { position with collateralShares, debt })) ∨
              ∃ totalDebt : UInt64, pool.totalDebt.toNat = repaid.toNat + totalDebt.toNat ∧
                liquidate pool position amount = (.ok seized, { pool with totalCollateral, totalDebt },
                  { position with collateralShares, debt }))) := by
  have hle := toNat_min_le amount position.debt
  have hshares := position.collateralShares.toNat_lt
  rw [liquidate]
  split
  · rename_i hdebt
    refine .inl ⟨fun h => h.1 ?_, .noDebt, by decide, rfl⟩
    rw [Healthy, hdebt]
    exact Nat.zero_le _
  dsimp only
  split
  · rename_i hlimit
    exact .inl ⟨fun h => h.1 (UInt64.le_iff_toNat_le.mp hlimit), .invalidParams, by decide, rfl⟩
  rename_i hlimit
  have hover : ¬ Healthy pool position := fun hhealthy => hlimit (UInt64.le_iff_toNat_le.mpr hhealthy)
  rw [Liquidatable, and_iff_right hover]
  generalize min amount position.debt = repaid at *
  obtain ⟨hwide, hbonus⟩ | ⟨bonus, hexact, hbonus⟩ := computeLiquidationBonus_cases repaid pool.liquidationBonusBps
  · rw [hbonus, seizedFor]
    exact .inl ⟨by omega, .overflow, by decide, rfl⟩
  rw [hbonus]
  dsimp only
  split
  · rename_i hadd
    rw [Word.checkedAdd_eq_none] at hadd
    rw [seizedFor]
    exact .inl ⟨by omega, .overflow, by decide, rfl⟩
  rename_i seized hadd
  have hseized : seized.toNat = seizedFor pool repaid := by
    rw [seizedFor, ← hexact]
    exact Word.checkedAdd_eq_some.mp hadd
  rw [← hseized]
  split
  · rename_i hshort
    exact .inl ⟨Nat.not_le.mpr (UInt64.lt_iff_toNat_lt.mp hshort), .overflow, by decide, rfl⟩
  rename_i hcovers
  have hcovers' : seized.toNat ≤ position.collateralShares.toNat := UInt64.le_iff_toNat_le.mp (UInt64.not_lt.mp hcovers)
  split
  · rename_i hsub
    rw [Word.checkedSub_eq_none] at hsub
    omega
  rename_i collateralShares hcollateral
  split
  · rename_i hsub
    rw [Word.checkedSub_eq_none] at hsub
    omega
  rename_i debt hdebt
  refine .inr ⟨hcovers', repaid, seized, collateralShares, debt, rfl, hseized, Word.checkedSub_eq_some.mp hcollateral,
    Word.checkedSub_eq_some.mp hdebt, ?_⟩
  split
  · rename_i htotal
    exact .inl ⟨Word.checkedSub_eq_none.mp htotal, rfl⟩
  rename_i totalCollateral htotal
  refine .inr ⟨totalCollateral, Word.checkedSub_eq_some.mp htotal, ?_⟩
  split
  · rename_i htotal'
    exact .inl ⟨Word.checkedSub_eq_none.mp htotal', rfl⟩
  · rename_i totalDebt htotal'
    exact .inr ⟨totalDebt, Word.checkedSub_eq_some.mp htotal', rfl⟩

/-- A liquidation of a covered position fails without an underflow and without any change, or it is over its limit and the repaid debt and the seized collateral come off the position and the totals. -/
theorem liquidate_cases (h : Covered pool position) (amount : UInt64) :
    (∃ e ≠ .underflow, liquidate pool position amount = (.error e, pool, position)) ∨
      ¬ Healthy pool position ∧
      ∃ repaid seized collateralShares debt totalCollateral totalDebt : UInt64,
        position.collateralShares.toNat = seized.toNat + collateralShares.toNat ∧
        position.debt.toNat = repaid.toNat + debt.toNat ∧
        pool.totalCollateral.toNat = seized.toNat + totalCollateral.toNat ∧
        pool.totalDebt.toNat = repaid.toNat + totalDebt.toNat ∧
        liquidate pool position amount =
          (.ok seized, { pool with totalCollateral, totalDebt }, { position with collateralShares, debt }) := by
  have hcollateral := h.collateral_le
  have hdebt := h.debt_le
  obtain ⟨-, hfail⟩ | ⟨hchecks, repaid, seized, shares, debt, -, -, hshares, hdebt', houtcome⟩ :=
    liquidate_outcomes pool position amount
  · exact .inl hfail
  · obtain ⟨hshort, -⟩ | ⟨totalCollateral, htotal, ⟨hshort, -⟩ | ⟨totalDebt, htotal', heq⟩⟩ := houtcome
    · omega
    · omega
    · exact .inr ⟨hchecks.1, repaid, seized, shares, debt, totalCollateral, totalDebt, hshares, hdebt', htotal, htotal', heq⟩

theorem deposit_cases (pool : LendingPoolDatum) (amount : UInt64) :
    (∃ e, deposit pool amount = (.error e, pool)) ∨
      ∃ totalCollateral : UInt64, totalCollateral.toNat = pool.totalCollateral.toNat + amount.toNat ∧
        deposit pool amount = (.ok (), { pool with totalCollateral }) := by
  unfold deposit
  split
  · exact .inl ⟨_, rfl⟩
  · split
    · exact .inl ⟨_, rfl⟩
    · rename_i totalCollateral htotal
      exact .inr ⟨totalCollateral, Word.checkedAdd_eq_some.mp htotal, rfl⟩

/-! ### A pool and its positions -/

structure LendingBook (ι : Type*) where
  pool : LendingPoolDatum
  positions : ι → LendingPosition

inductive LendingOp (ι : Type*) where
  | deposit (i : ι) (amount : UInt64)
  | borrow (i : ι) (amount : UInt64)
  | repay (i : ι) (amount : UInt64)
  | withdraw (i : ι) (amount : UInt64)
  | liquidate (i : ι) (repayAmount : UInt64)

namespace LendingBook

variable {ι : Type*} [DecidableEq ι] {b : LendingBook ι} {i j : ι}

def set (b : LendingBook ι) (i : ι) (result : LendingPoolDatum × LendingPosition) : LendingBook ι :=
  ⟨result.1, Function.update b.positions i result.2⟩

/-- One operation, with whatever it leaves behind when it fails. A deposit that succeeds is credited to the depositor's shares. -/
def step (b : LendingBook ι) : LendingOp ι → LendingBook ι
  | .deposit i amount =>
      match QuantumVault.deposit b.pool amount with
      | (.ok (), pool) =>
          let position := b.positions i
          b.set i (pool, { position with collateralShares := position.collateralShares + amount })
      | (.error _, pool) => { b with pool }
  | .borrow i amount => b.set i (QuantumVault.borrow b.pool (b.positions i) amount).2
  | .repay i amount => b.set i (QuantumVault.repay b.pool (b.positions i) amount).2
  | .withdraw i amount => b.set i (QuantumVault.withdraw b.pool (b.positions i) amount).2
  | .liquidate i repayAmount => b.set i (QuantumVault.liquidate b.pool (b.positions i) repayAmount).2

def run (b : LendingBook ι) (ops : List (LendingOp ι)) : LendingBook ι := ops.foldl step b

end LendingBook

namespace LendingBook

variable {ι : Type*} [Fintype ι]

/-- The parameters are valid and the totals are the sums over the positions. -/
structure Balanced (b : LendingBook ι) : Prop where
  valid : b.pool.validate = .ok ()
  debt : b.pool.totalDebt.toNat = ∑ i, (b.positions i).debt.toNat
  collateral : b.pool.totalCollateral.toNat = ∑ i, (b.positions i).collateralShares.toNat

variable {b : LendingBook ι}

theorem Balanced.covered (h : b.Balanced) (i : ι) : Covered b.pool (b.positions i) where
  debt_le := by
    rw [h.debt]
    exact Finset.single_le_sum (f := fun j => (b.positions j).debt.toNat) (fun j _ => Nat.zero_le _) (Finset.mem_univ i)
  collateral_le := by
    rw [h.collateral]
    exact Finset.single_le_sum (f := fun j => (b.positions j).collateralShares.toNat) (fun j _ => Nat.zero_le _)
      (Finset.mem_univ i)

variable [DecidableEq ι]

private theorem sum_update (positions : ι → LendingPosition) (field : LendingPosition → Nat) (i : ι)
    (position : LendingPosition) :
    (∑ j, field (Function.update positions i position j)) + field (positions i) =
      (∑ j, field (positions j)) + field position := by
  rw [← Finset.add_sum_erase _ (fun j => field (Function.update positions i position j)) (Finset.mem_univ i),
    ← Finset.add_sum_erase _ (fun j => field (positions j)) (Finset.mem_univ i), Function.update_self]
  have hrest : ∑ j ∈ Finset.univ.erase i, field (Function.update positions i position j) =
      ∑ j ∈ Finset.univ.erase i, field (positions j) := by
    apply Finset.sum_congr rfl
    intro j hj
    rw [Function.update_of_ne (Finset.ne_of_mem_erase hj)]
  omega

/-- **A move of one position together with the totals keeps the books balanced.** -/
theorem Balanced.set {result : LendingPoolDatum × LendingPosition} (h : b.Balanced) (i : ι)
    (hmoves : Moves b.pool (b.positions i) result.1 result.2) : (b.set i result).Balanced where
  valid := by
    show result.1.validate = .ok ()
    rw [hmoves.params]
    exact h.valid
  debt := by
    have hsum := sum_update b.positions (fun position => position.debt.toNat) i result.2
    have hmove := hmoves.debt
    have hdebt := h.debt
    dsimp only [LendingBook.set] at hsum ⊢
    omega
  collateral := by
    have hsum := sum_update b.positions (fun position => position.collateralShares.toNat) i result.2
    have hmove := hmoves.collateral
    have hcollateral := h.collateral
    dsimp only [LendingBook.set] at hsum ⊢
    omega

end LendingBook

/-! ### Every operation is such a move -/

theorem moves_borrow (pool : LendingPoolDatum) (position : LendingPosition) (amount : UInt64) :
    Moves pool position (borrow pool position amount).2.1 (borrow pool position amount).2.2 := by
  obtain heq | ⟨newDebt, totalDebt, hdebt, htotal, -, heq⟩ := borrow_cases pool position amount
  · rw [heq]
    exact .refl pool position
  · rw [heq]
    exact ⟨rfl, by dsimp only; omega, rfl⟩

theorem moves_repay (h : Covered pool position) (amount : UInt64) :
    Moves pool position (repay pool position amount).2.1 (repay pool position amount).2.2 := by
  obtain heq | ⟨repaid, debt, totalDebt, hdebt, htotal, heq⟩ := repay_cases h amount
  · rw [heq]
    exact .refl pool position
  · rw [heq]
    exact ⟨rfl, by dsimp only; omega, rfl⟩

theorem moves_withdraw (h : Covered pool position) (amount : UInt64) :
    Moves pool position (withdraw pool position amount).2.1 (withdraw pool position amount).2.2 := by
  obtain ⟨e, heq, -⟩ | ⟨newCollateral, totalCollateral, hshares, htotal, -, heq⟩ := withdraw_cases h amount
  · rw [heq]
    exact .refl pool position
  · rw [heq]
    exact ⟨rfl, rfl, by dsimp only; omega⟩

theorem moves_liquidate (h : Covered pool position) (amount : UInt64) :
    Moves pool position (liquidate pool position amount).2.1 (liquidate pool position amount).2.2 := by
  obtain ⟨e, -, heq⟩ | ⟨-, repaid, seized, shares, debt, totalCollateral, totalDebt, hshares, hdebt, hcollateral,
    htotal, heq⟩ := liquidate_cases h amount
  · rw [heq]
    exact .refl pool position
  · rw [heq]
    exact ⟨rfl, by dsimp only; omega, by dsimp only; omega⟩

theorem moves_deposit (h : Covered pool position) {totalCollateral : UInt64}
    (htotal : totalCollateral.toNat = pool.totalCollateral.toNat + amount.toNat) :
    Moves pool position { pool with totalCollateral }
      { position with collateralShares := position.collateralShares + amount } := by
  have hle := h.collateral_le
  have hlt := totalCollateral.toNat_lt
  have hshares : (position.collateralShares + amount).toNat = position.collateralShares.toNat + amount.toNat := by
    rw [UInt64.toNat_add, Nat.mod_eq_of_lt (by omega)]
  exact ⟨rfl, rfl, by dsimp only; omega⟩

/-! ### A healthy position stays healthy -/

private theorem healthy_borrow (h : Healthy pool position) (amount : UInt64) :
    Healthy (borrow pool position amount).2.1 (borrow pool position amount).2.2 := by
  obtain heq | ⟨newDebt, totalDebt, -, -, hlimit, heq⟩ := borrow_cases pool position amount
  · rw [heq]
    exact h
  · rw [heq]
    exact hlimit

private theorem healthy_repay (hcovered : Covered pool position) (h : Healthy pool position) (amount : UInt64) :
    Healthy (repay pool position amount).2.1 (repay pool position amount).2.2 := by
  obtain heq | ⟨repaid, debt, totalDebt, hdebt, -, heq⟩ := repay_cases hcovered amount
  · rw [heq]
    exact h
  · rw [heq]
    exact le_trans (by dsimp only; omega) h

private theorem healthy_withdraw (hcovered : Covered pool position) (h : Healthy pool position) (amount : UInt64) :
    Healthy (withdraw pool position amount).2.1 (withdraw pool position amount).2.2 := by
  obtain ⟨e, heq, -⟩ | ⟨newCollateral, totalCollateral, -, -, hlimit, heq⟩ := withdraw_cases hcovered amount
  · rw [heq]
    exact h
  · rw [heq]
    exact hlimit

theorem liquidate_of_healthy (hcovered : Covered pool position) (h : Healthy pool position) (amount : UInt64) :
    ∃ e, liquidate pool position amount = (.error e, pool, position) := by
  obtain ⟨e, -, heq⟩ | ⟨hnot, -⟩ := liquidate_cases hcovered amount
  · exact ⟨e, heq⟩
  · exact absurd h hnot

private theorem healthy_deposit (hltv : pool.ltvMaxBps ≤ 10000) (hcovered : Covered pool position) (h : Healthy pool position)
    {totalCollateral : UInt64} (htotal : totalCollateral.toNat = pool.totalCollateral.toNat + amount.toNat) :
    Healthy { pool with totalCollateral }
      { position with collateralShares := position.collateralShares + amount } := by
  have hmove := (moves_deposit hcovered htotal).collateral
  dsimp only at hmove
  exact le_trans h (computeMaxBorrow_mono hltv (by dsimp only; omega))

/-! ### Whole runs -/

namespace LendingBook

variable {ι : Type*} [Fintype ι] [DecidableEq ι] {b : LendingBook ι}

/-- **One operation keeps the books balanced.** -/
theorem Balanced.step (h : b.Balanced) (op : LendingOp ι) : (b.step op).Balanced := by
  cases op with
  | deposit i amount =>
      obtain ⟨e, heq⟩ | ⟨totalCollateral, htotal, heq⟩ := deposit_cases b.pool amount
      · simp only [LendingBook.step, heq]
        exact h
      · simp only [LendingBook.step, heq]
        exact h.set i (moves_deposit (h.covered i) htotal)
  | borrow i amount => exact h.set i (moves_borrow b.pool (b.positions i) amount)
  | repay i amount => exact h.set i (moves_repay (h.covered i) amount)
  | withdraw i amount => exact h.set i (moves_withdraw (h.covered i) amount)
  | liquidate i repayAmount => exact h.set i (moves_liquidate (h.covered i) repayAmount)

theorem Balanced.run (h : b.Balanced) (ops : List (LendingOp ι)) : (b.run ops).Balanced := by
  induction ops generalizing b with
  | nil => exact h
  | cons op ops ih => exact ih (h.step op)

omit [Fintype ι] in
private theorem healthy_set {result : LendingPoolDatum × LendingPosition} {i j : ι}
    (hltv : result.1.ltvMaxBps = b.pool.ltvMaxBps) (hself : i = j → Healthy result.1 result.2)
    (h : Healthy b.pool (b.positions j)) : Healthy (b.set i result).pool ((b.set i result).positions j) := by
  dsimp only [LendingBook.set]
  by_cases hij : i = j
  · subst hij
    rw [Function.update_self]
    exact hself rfl
  · rw [Function.update_of_ne (Ne.symm hij)]
    unfold Healthy at h ⊢
    rwa [hltv]

omit [DecidableEq ι] [Fintype ι] in
private theorem ltvMaxBps_eq {position : LendingPosition} {result : LendingPoolDatum × LendingPosition}
    (h : Moves b.pool position result.1 result.2) : result.1.ltvMaxBps = b.pool.ltvMaxBps := by
  rw [h.params]

/-- **One operation, on whatever position, keeps a healthy position healthy.** -/
theorem healthy_step (hb : b.Balanced) {j : ι} (h : Healthy b.pool (b.positions j)) (op : LendingOp ι) :
    Healthy (b.step op).pool ((b.step op).positions j) := by
  cases op with
  | deposit i amount =>
      obtain ⟨e, heq⟩ | ⟨totalCollateral, htotal, heq⟩ := deposit_cases b.pool amount
      · simp only [LendingBook.step, heq]
        exact h
      · simp only [LendingBook.step, heq]
        apply healthy_set rfl _ h
        rintro rfl
        exact healthy_deposit (LendingPoolDatum.ltvMaxBps_le hb.valid) (hb.covered i) h htotal
  | borrow i amount =>
      apply healthy_set (ltvMaxBps_eq (moves_borrow b.pool (b.positions i) amount)) _ h
      rintro rfl
      exact healthy_borrow h amount
  | repay i amount =>
      apply healthy_set (ltvMaxBps_eq (moves_repay (hb.covered i) amount)) _ h
      rintro rfl
      exact healthy_repay (hb.covered i) h amount
  | withdraw i amount =>
      apply healthy_set (ltvMaxBps_eq (moves_withdraw (hb.covered i) amount)) _ h
      rintro rfl
      exact healthy_withdraw (hb.covered i) h amount
  | liquidate i repayAmount =>
      apply healthy_set (ltvMaxBps_eq (moves_liquidate (hb.covered i) repayAmount)) _ h
      rintro rfl
      obtain ⟨e, heq⟩ := liquidate_of_healthy (hb.covered i) h repayAmount
      rw [heq]
      exact h

private theorem healthy_run (hb : b.Balanced) {j : ι} (h : Healthy b.pool (b.positions j)) (ops : List (LendingOp ι)) :
    Healthy (b.run ops).pool ((b.run ops).positions j) := by
  induction ops generalizing b with
  | nil => exact h
  | cons op ops ih => exact ih (hb.step op) (healthy_step hb h op)

end LendingBook

/-- **The books of a lending pool balance, and healthy positions stay healthy.** From a valid pool whose totals are the sums over any finite family of positions, and for every interleaving of deposits, borrows, repayments, withdrawals and liquidations on any of them: the totals stay the sums; no subtraction on a total fails, so the only underflow left is a withdrawal of more than the position has; and a position within its limit stays there whatever follows and every attempt to liquidate it fails without effect. -/
theorem lendingBook_balanced {ι : Type*} [Fintype ι] [DecidableEq ι] (b : LendingBook ι)
    (hvalid : b.pool.validate = .ok ()) (hdebt : b.pool.totalDebt.toNat = ∑ i, (b.positions i).debt.toNat)
    (hcollateral : b.pool.totalCollateral.toNat = ∑ i, (b.positions i).collateralShares.toNat)
    (ops : List (LendingOp ι)) :
    (b.run ops).pool.totalDebt.toNat = ∑ i, ((b.run ops).positions i).debt.toNat ∧
      (b.run ops).pool.totalCollateral.toNat = ∑ i, ((b.run ops).positions i).collateralShares.toNat ∧
      (∀ (i : ι) (amount : UInt64),
        (repay (b.run ops).pool ((b.run ops).positions i) amount).1 ≠ .error .underflow ∧
        (liquidate (b.run ops).pool ((b.run ops).positions i) amount).1 ≠ .error .underflow ∧
        ((withdraw (b.run ops).pool ((b.run ops).positions i) amount).1 = .error .underflow →
          ((b.run ops).positions i).collateralShares < amount)) ∧
      (∀ i : ι, Healthy (b.run ops).pool ((b.run ops).positions i) →
        (∀ later : List (LendingOp ι),
          Healthy ((b.run ops).run later).pool (((b.run ops).run later).positions i)) ∧
        ∀ amount : UInt64, ∃ e, liquidate (b.run ops).pool ((b.run ops).positions i) amount =
          (.error e, (b.run ops).pool, (b.run ops).positions i)) := by
  have hb : (b.run ops).Balanced := LendingBook.Balanced.run ⟨hvalid, hdebt, hcollateral⟩ ops
  refine ⟨hb.debt, hb.collateral, fun i amount => ⟨?_, ?_, ?_⟩, fun i hhealthy => ⟨?_, ?_⟩⟩
  · obtain heq | ⟨_, _, _, _, _, heq⟩ := repay_cases (hb.covered i) amount <;> rw [heq]
    · exact fun h => by cases h
    · exact fun h => by cases h
  · obtain ⟨e, hne, heq⟩ | ⟨-, _, _, _, _, _, _, _, _, _, _, heq⟩ := liquidate_cases (hb.covered i) amount <;> rw [heq]
    · exact fun h => hne (Except.error.inj h)
    · exact fun h => by cases h
  · obtain ⟨e, heq, hshort⟩ | ⟨_, _, _, _, _, heq⟩ := withdraw_cases (hb.covered i) amount <;> rw [heq]
    · exact fun h => UInt64.lt_iff_toNat_lt.mpr (hshort (Except.error.inj h))
    · exact fun h => by cases h
  · exact fun later => LendingBook.healthy_run hb hhealthy later
  · exact fun amount => liquidate_of_healthy (hb.covered i) hhealthy amount

/-- Two positions, one of them with a debt. -/
def sampleLendingBook : LendingBook (Fin 2) :=
  ⟨.new .zero .zero 300 50, ![⟨100, 50, 0⟩, ⟨200, 0, 0⟩]⟩

theorem lendingBook_balanced_sample :
    sampleLendingBook.pool.validate = .ok () ∧
      (sampleLendingBook.run [.borrow 1 20, .repay 0 10, .withdraw 1 30]).pool.totalDebt.toNat =
        ∑ i, ((sampleLendingBook.run [.borrow 1 20, .repay 0 10, .withdraw 1 30]).positions i).debt.toNat :=
  ⟨rfl, (lendingBook_balanced sampleLendingBook rfl (by decide +kernel) (by decide +kernel) _).1⟩

end QuantumVault
