import QuantumVault.Proof.Defi.Amm
import QuantumVault.Proof.Defi.Lending

/-!
# Which operations leave no trace when they fail

An operation returns its result next to the state it leaves behind. Deposits, borrows, withdrawals and the accrual of interest check everything before they write. A swap, a repayment and a liquidation write first, and this module says for which inputs one of their later checks fails after a write.
-/

namespace QuantumVault

open Result

/-- If the operation fails, the state is the one before it. -/
def KeptOnError {ε α σ : Type*} (outcome : Except ε α × σ) (before : σ) : Prop :=
  ∀ e, outcome.1 = .error e → outcome.2 = before

section KeptOnError

variable {ε α σ : Type*} {outcome : Except ε α × σ} {before after : σ}

theorem keptOnError_self (result : Except ε α) (before : σ) : KeptOnError (result, before) before := fun _ _ => rfl

theorem keptOnError_ok (a : α) (before after : σ) : KeptOnError ((.ok a : Except ε α), after) before :=
  fun _ h => by cases h

theorem keptOnError_error_iff (e : ε) : KeptOnError ((.error e : Except ε α), after) before ↔ after = before :=
  ⟨fun h => h e rfl, fun h _ _ => h⟩

end KeptOnError

/-! ### Swaps -/

private theorem checkedAddAmount_eq_error {a b : UInt64} {e : AmmError} (h : checkedAddAmount a b = .error e) :
    2 ^ 64 ≤ a.toNat + b.toNat := by
  rw [checkedAddAmount] at h
  cases hadd : Word.checkedAdd a b with
  | none => exact Word.checkedAdd_eq_none.mp hadd
  | some c =>
      rw [hadd] at h
      cases h

private theorem checkedSubAmount_eq_error {a b : UInt64} {e : AmmError} (h : checkedSubAmount a b = .error e) :
    a.toNat < b.toNat := by
  rw [checkedSubAmount] at h
  cases hsub : Word.checkedSub a b with
  | none => exact Word.checkedSub_eq_none.mp hsub
  | some c =>
      rw [hsub] at h
      cases h

namespace PoolDatum

def setReserveIn (d : PoolDatum) (direction : SwapDirection) (reserve : UInt64) : PoolDatum :=
  match direction with
  | .aToB => { d with reserveA := reserve }
  | .bToA => { d with reserveB := reserve }

private theorem setReserveIn_eq_self_iff {d : PoolDatum} {direction : SwapDirection} {reserve : UInt64} :
    d.setReserveIn direction reserve = d ↔ reserve = d.reserveIn direction := by
  cases direction <;> cases d <;> simp [setReserveIn, reserveIn]

end PoolDatum

private theorem PoolState.with_datum_eq_iff {s : PoolState} {datum : PoolDatum} : { s with datum } = s ↔ datum = s.datum := by
  cases s
  simp

/-- A swap that fails on its second reserve has already replaced the first one. -/
theorem PoolState.applySwap_cases (s : PoolState) (direction : SwapDirection) (amountIn amountOut : UInt64) :
    (∃ e, checkedAddAmount (s.datum.reserveIn direction) amountIn = .error e ∧
      s.applySwap direction amountIn amountOut = (.error e, s)) ∨
    (∃ reserve e, checkedAddAmount (s.datum.reserveIn direction) amountIn = .ok reserve ∧
      checkedSubAmount (s.datum.reserveOut direction) amountOut = .error e ∧
      s.applySwap direction amountIn amountOut = (.error e, { s with datum := s.datum.setReserveIn direction reserve })) ∨
    (∃ reserve s', checkedSubAmount (s.datum.reserveOut direction) amountOut = .ok reserve ∧
      s.applySwap direction amountIn amountOut = (.ok (), s')) := by
  cases direction
  all_goals
    simp only [applySwap, PoolDatum.reserveIn, PoolDatum.reserveOut, PoolDatum.setReserveIn]
    split
    · rename_i e hadd
      exact .inl ⟨e, hadd, rfl⟩
    · rename_i reserve hadd
      split
      · rename_i e hsub
        exact .inr (.inl ⟨reserve, e, hadd, hsub, rfl⟩)
      · rename_i reserve' hsub
        exact .inr (.inr ⟨reserve', _, hsub, rfl⟩)

/-- The pool can pay the swap out, or cannot take it in, or takes nothing in. -/
def SwapKept (s : PoolState) (direction : SwapDirection) (amountIn amountOut : UInt64) : Prop :=
  amountOut ≤ s.datum.reserveOut direction ∨ 2 ^ 64 ≤ (s.datum.reserveIn direction).toNat + amountIn.toNat ∨ amountIn = 0

private theorem applySwap_keptOnError_iff (s : PoolState) (direction : SwapDirection) (amountIn amountOut : UInt64) :
    KeptOnError (s.applySwap direction amountIn amountOut) s ↔ SwapKept s direction amountIn amountOut := by
  obtain ⟨e, hadd, heq⟩ | ⟨reserve, e, hadd, hsub, heq⟩ | ⟨reserve, s', hsub, heq⟩ :=
    s.applySwap_cases direction amountIn amountOut
  · rw [heq]
    exact iff_of_true (keptOnError_self _ _) (Or.inr (Or.inl (checkedAddAmount_eq_error hadd)))
  · have hreserve := checkedAddAmount_eq_ok.mp hadd
    have hlt := reserve.toNat_lt
    have hshort := checkedSubAmount_eq_error hsub
    rw [heq, keptOnError_error_iff, PoolState.with_datum_eq_iff, PoolDatum.setReserveIn_eq_self_iff, SwapKept,
      ← UInt64.toNat_inj, ← UInt64.toNat_eq_zero_iff, UInt64.le_iff_toNat_le]
    omega
  · rw [heq, SwapKept, UInt64.le_iff_toNat_le]
    have hpaid := checkedSubAmount_eq_ok.mp hsub
    exact iff_of_true (keptOnError_ok _ _ _) (Or.inl (by omega))

/-! ### Lending operations -/

private theorem deposit_keptOnError (pool : LendingPoolDatum) (amount : UInt64) : KeptOnError (deposit pool amount) pool := by
  obtain ⟨e, heq⟩ | ⟨totalCollateral, -, heq⟩ := deposit_cases pool amount
  · rw [heq]
    exact keptOnError_self _ _
  · rw [heq]
    exact keptOnError_ok _ _ _

private theorem borrow_keptOnError (pool : LendingPoolDatum) (position : LendingPosition) (amount : UInt64) :
    KeptOnError (borrow pool position amount) (pool, position) := by
  obtain heq | ⟨newDebt, totalDebt, -, -, -, heq⟩ := borrow_cases pool position amount
  · exact fun _ _ => heq
  · rw [heq]
    exact keptOnError_ok _ _ _

private theorem withdraw_keptOnError (pool : LendingPoolDatum) (position : LendingPosition) (collateralAmount : UInt64) :
    KeptOnError (withdraw pool position collateralAmount) (pool, position) := by
  rw [withdraw]
  split
  · exact keptOnError_self _ _
  · split
    · exact keptOnError_self _ _
    · dsimp only
      split
      · exact keptOnError_self _ _
      · split
        · exact keptOnError_self _ _
        · exact keptOnError_ok _ _ _

private theorem accrueInterest_keptOnError (pool : LendingPoolDatum) (currentSlot slotsPerYear : UInt64) :
    KeptOnError (accrueInterest pool currentSlot slotsPerYear) pool := by
  rw [accrueInterest]
  split
  · exact keptOnError_self _ _
  · split
    · exact keptOnError_self _ _
    · exact keptOnError_ok _ _ _

/-- The position is written before the pool's total is checked. -/
theorem repay_keptOnError_iff (pool : LendingPoolDatum) (position : LendingPosition) (amount : UInt64) :
    KeptOnError (repay pool position amount) (pool, position) ↔ min amount position.debt ≤ pool.totalDebt := by
  have hle := toNat_min_le amount position.debt
  rw [UInt64.le_iff_toNat_le]
  obtain ⟨hdebt, heq⟩ | ⟨debt, hdebt, ⟨hshort, heq⟩ | ⟨totalDebt, htotal, heq⟩⟩ :=
    repay_outcomes pool position amount
  · rw [heq]
    rw [hdebt, UInt64.toNat_zero, ← hdebt] at hle
    exact iff_of_true (keptOnError_self _ _) (by omega)
  · rw [heq, keptOnError_error_iff]
    refine iff_of_false (fun hsame => ?_) (by omega)
    have hsame' : debt = position.debt := congrArg (fun state => state.2.debt) hsame
    rw [← UInt64.toNat_inj] at hsame'
    omega
  · rw [heq]
    exact iff_of_true (keptOnError_ok _ _ _) (by omega)

private theorem liquidate_keptOnError_iff (pool : LendingPoolDatum) (position : LendingPosition) (repayAmount : UInt64) :
    KeptOnError (liquidate pool position repayAmount) (pool, position) ↔
      (Liquidatable pool position repayAmount →
        seizedFor pool (min repayAmount position.debt) ≤ pool.totalCollateral.toNat ∧
          min repayAmount position.debt ≤ pool.totalDebt) := by
  rw [UInt64.le_iff_toNat_le]
  obtain ⟨hchecks, e, -, heq⟩ | ⟨hchecks, repaid, seized, shares, debt, rfl, hseized, hshares, hdebt, houtcome⟩ :=
    liquidate_outcomes pool position repayAmount
  · rw [heq]
    exact iff_of_true (keptOnError_self _ _) fun h => absurd h hchecks
  rw [imp_iff_right hchecks, ← hseized]
  obtain ⟨hshort, heq⟩ | ⟨totalCollateral, htotal, ⟨hshort, heq⟩ | ⟨totalDebt, htotal', heq⟩⟩ := houtcome
  · rw [heq, keptOnError_error_iff]
    refine iff_of_false (fun hsame => ?_) (by omega)
    have hsame' : shares = position.collateralShares := congrArg (fun state => state.2.collateralShares) hsame
    rw [← UInt64.toNat_inj] at hsame'
    omega
  · rw [heq, keptOnError_error_iff]
    refine iff_of_false (fun hsame => ?_) (by omega)
    have hsame' : debt = position.debt := congrArg (fun state => state.2.debt) hsame
    rw [← UInt64.toNat_inj] at hsame'
    omega
  · rw [heq]
    exact iff_of_true (keptOnError_ok _ _ _) (by omega)

/-! ### All operations -/

/-- **When an operation that fails leaves its state as it was.** Deposits, borrows, withdrawals and the accrual of interest always do. A swap does unless it can take the input in and cannot pay the output, a repayment as long as the pool's total covers it, and a liquidation that passes its checks as long as both totals cover it. -/
theorem operations_keptOnError_iff (s : PoolState) (direction : SwapDirection) (amountIn amountOut : UInt64)
    (pool : LendingPoolDatum) (position : LendingPosition) (amount currentSlot slotsPerYear : UInt64) :
    (KeptOnError (s.applySwap direction amountIn amountOut) s ↔ SwapKept s direction amountIn amountOut) ∧
    KeptOnError (deposit pool amount) pool ∧
    KeptOnError (borrow pool position amount) (pool, position) ∧
    (KeptOnError (repay pool position amount) (pool, position) ↔ min amount position.debt ≤ pool.totalDebt) ∧
    KeptOnError (withdraw pool position amount) (pool, position) ∧
    (KeptOnError (liquidate pool position amount) (pool, position) ↔
      (Liquidatable pool position amount →
        seizedFor pool (min amount position.debt) ≤ pool.totalCollateral.toNat ∧
          min amount position.debt ≤ pool.totalDebt)) ∧
    KeptOnError (accrueInterest pool currentSlot slotsPerYear) pool :=
  ⟨applySwap_keptOnError_iff s direction amountIn amountOut, deposit_keptOnError pool amount,
    borrow_keptOnError pool position amount, repay_keptOnError_iff pool position amount,
    withdraw_keptOnError pool position amount, liquidate_keptOnError_iff pool position amount,
    accrueInterest_keptOnError pool currentSlot slotsPerYear⟩

/-- A swap that cannot be paid out, a repayment over the pool's total, and a liquidation over it each leave a trace. -/
theorem operations_leave_traces :
    (¬ ∀ (s : PoolState) (direction : SwapDirection) (amountIn amountOut : UInt64),
      KeptOnError (s.applySwap direction amountIn amountOut) s) ∧
    (¬ ∀ (pool : LendingPoolDatum) (position : LendingPosition) (amount : UInt64),
      KeptOnError (repay pool position amount) (pool, position)) ∧
    (¬ ∀ (pool : LendingPoolDatum) (position : LendingPosition) (repayAmount : UInt64),
      KeptOnError (liquidate pool position repayAmount) (pool, position)) := by
  refine ⟨fun h => ?_, fun h => ?_, fun h => ?_⟩
  · exact absurd (h ⟨.zero, ⟨.zero, .zero, 1000, 1000, 1000, 30⟩⟩ .aToB 100 2000 .overflow rfl) (by decide)
  · exact absurd (h (.new .zero .zero 1000 50) ⟨1000, 100, 0⟩ 100 .underflow rfl) (by decide)
  · exact absurd (h (.new .zero .zero 1000 50) ⟨500, 600, 0⟩ 100 .underflow rfl) (by decide)

end QuantumVault
