import QuantumVault.Core.Types
import QuantumVault.Lib.Encoding
import QuantumVault.Lib.Wide
import QuantumVault.Lib.Result

/-!
# Lending pool

A pool that lends against deposited collateral. The pool keeps two totals, and every borrower has a position of its own. Operations change the pool and one position in place; they are modelled as functions that return both next to their result, also when they fail.
-/

namespace QuantumVault

open Result

inductive LendingError where
  | underflow
  | overflow
  | underCollateralized (collateralValue debt : UInt64)
  | noDebt
  | invalidParams
  | interestAccrualOverflow
  | zeroAmount
deriving DecidableEq

/-- The data of a pool. Rates and ratios are in basis points; the interest multiplier is a 64.64 fixed-point number. -/
structure LendingPoolDatum where
  poolId : Hash256
  collateralTokenId : Hash256
  debtTokenId : Hash256
  totalCollateral : UInt64
  totalDebt : UInt64
  baseRateBps : UInt16
  slopeBps : UInt16
  ltvMaxBps : UInt16
  liquidationThresholdBps : UInt16
  liquidationBonusBps : UInt16
  interestMultiplierQ64 : BitVec 128
  lastAccrualSlot : UInt64
deriving DecidableEq

namespace LendingPoolDatum

def new (collateralTokenId debtTokenId : Hash256) (totalCollateral totalDebt : UInt64) : LendingPoolDatum :=
  ⟨.zero, collateralTokenId, debtTokenId, totalCollateral, totalDebt, 100, 5000, 7500, 8000, 1000, 1 <<< 64, 0⟩

def validate (pool : LendingPoolDatum) : Except LendingError Unit := do
  require (¬ pool.ltvMaxBps > 10000) .invalidParams
  require (¬ pool.liquidationThresholdBps > 10000) .invalidParams
  require (¬ (pool.baseRateBps > 10000 ∨ pool.slopeBps > 10000)) .invalidParams

/-- The layout the lending pool lock reads: three ids, the two totals, the five parameters, and the two fields that interest accrual changes, without any length prefix. -/
def toCanonicalBytes (pool : LendingPoolDatum) : Bytes :=
  pool.poolId.bytes ++ pool.collateralTokenId.bytes ++ pool.debtTokenId.bytes ++
    toLittleEndian 8 pool.totalCollateral.toNat ++ toLittleEndian 8 pool.totalDebt.toNat ++
    toLittleEndian 2 pool.baseRateBps.toNat ++ toLittleEndian 2 pool.slopeBps.toNat ++
    toLittleEndian 2 pool.ltvMaxBps.toNat ++ toLittleEndian 2 pool.liquidationThresholdBps.toNat ++
    toLittleEndian 2 pool.liquidationBonusBps.toNat ++ toLittleEndian 16 pool.interestMultiplierQ64.toNat ++
    toLittleEndian 8 pool.lastAccrualSlot.toNat

end LendingPoolDatum

structure LendingPosition where
  collateralShares : UInt64
  debt : UInt64
  lastInterestUpdate : UInt64
deriving DecidableEq

namespace LendingPosition

/-- Whether a debt is within its ratio to a collateral. The quotient is cut to 16 bits before it is compared; the position itself is not read. -/
def isCollateralized (_position : LendingPosition) (collateralValue debt : UInt64) (ltvMaxBps : UInt16) : Bool :=
  if debt = 0 then true
  else
    let debtRatio :=
      ((Wide.checkedMul debt.toNat 10000).bind fun d => Wide.checkedDiv d collateralValue.toNat).getD Wide.max
    decide (UInt16.ofNat debtRatio ≤ ltvMaxBps)

/-- The weighted collateral over the debt as a 64.64 fixed-point number. -/
def healthFactor (position : LendingPosition) (collateralValue : UInt64) (ltvThresholdBps : UInt16) :
    Except LendingError Nat :=
  if position.debt = 0 then .ok Wide.max
  else do
    let weighted ← okOr (Wide.checkedMul collateralValue.toNat ltvThresholdBps.toNat) .overflow
    let numerator ← okOr (Wide.checkedMul weighted (1 <<< 64)) .overflow
    okOr ((Wide.checkedDiv numerator 10000).bind fun n => Wide.checkedDiv n position.debt.toNat) .overflow

end LendingPosition

/-- The part of the collateral that is lent out, in basis points. The quotient is cut to 16 bits before it is capped. -/
def computeUtilizationBps (pool : LendingPoolDatum) : UInt16 :=
  if pool.totalCollateral = 0 then 0
  else
    let util :=
      ((Wide.checkedMul pool.totalDebt.toNat 10000).bind fun d => Wide.checkedDiv d pool.totalCollateral.toNat).getD 10000
    min (UInt16.ofNat util) 10000

def computeBorrowRateBps (utilBps baseBps slopeBps : UInt16) : UInt32 :=
  let additional :=
    ((HalfWord.checkedMul utilBps.toUInt32 slopeBps.toUInt32).bind fun a => HalfWord.checkedDiv a 10000).getD 0
  baseBps.toUInt32 + additional

/-- The interest multiplier after the slots since the last accrual, at the rate of the pool's utilization. -/
def accruedMultiplier (pool : LendingPoolDatum) (currentSlot slotsPerYear : UInt64) : Except LendingError (BitVec 128) := do
  let slotsElapsed ← okOr (Word.checkedSub currentSlot pool.lastAccrualSlot) .underflow
  let utilBps := computeUtilizationBps pool
  let rateBps := computeBorrowRateBps utilBps pool.baseRateBps pool.slopeBps
  let yearlyQ64 ← okOr (Wide.checkedDiv (rateBps.toNat <<< 64) 10000) .overflow
  let ratePerSlotQ64 ← okOr (Wide.checkedDiv yearlyQ64 slotsPerYear.toNat) .overflow
  let interest ← okOr (Wide.checkedMul ratePerSlotQ64 slotsElapsed.toNat) .interestAccrualOverflow
  let factor ← okOr (Wide.checkedAdd (1 <<< 64) interest) .interestAccrualOverflow
  let product ← okOr (Wide.checkedMul pool.interestMultiplierQ64.toNat factor) .interestAccrualOverflow
  let multiplier ← okOr (Wide.checkedDiv product (1 <<< 64)) .interestAccrualOverflow
  return BitVec.ofNat 128 multiplier

/-- Accrue interest up to a slot. Both fields are written after the last check. -/
def accrueInterest (pool : LendingPoolDatum) (currentSlot slotsPerYear : UInt64) :
    Except LendingError Unit × LendingPoolDatum :=
  if currentSlot = pool.lastAccrualSlot then (.ok (), pool)
  else
    match accruedMultiplier pool currentSlot slotsPerYear with
    | .error e => (.error e, pool)
    | .ok interestMultiplierQ64 => (.ok (), { pool with interestMultiplierQ64, lastAccrualSlot := currentSlot })

/-- The debt a collateral allows. The quotient is cut to 64 bits. -/
def computeMaxBorrow (collateral : UInt64) (ltvMaxBps : UInt16) : UInt64 :=
  UInt64.ofNat (((Wide.checkedMul collateral.toNat ltvMaxBps.toNat).bind fun c => Wide.checkedDiv c 10000).getD 0)

def computeLiquidationBonus (repayAmount : UInt64) (bonusBps : UInt16) : Except LendingError UInt64 := do
  let product ← okOr (Wide.checkedMul repayAmount.toNat bonusBps.toNat) .overflow
  let bonus ← okOr (Wide.checkedDiv product 10000) .overflow
  require (¬ bonus > Wide.maxWord) .overflow
  return UInt64.ofNat bonus

/-! ### Operations -/

/-- Deposit collateral. The shares of the depositor are kept by the caller. -/
def deposit (pool : LendingPoolDatum) (amount : UInt64) : Except LendingError Unit × LendingPoolDatum :=
  if amount = 0 then (.error .zeroAmount, pool)
  else
    match Word.checkedAdd pool.totalCollateral amount with
    | none => (.error .overflow, pool)
    | some totalCollateral => (.ok (), { pool with totalCollateral })

def borrow (pool : LendingPoolDatum) (position : LendingPosition) (amount : UInt64) :
    Except LendingError Unit × LendingPoolDatum × LendingPosition :=
  if amount = 0 then (.error .zeroAmount, pool, position)
  else
    let maxBorrow := computeMaxBorrow position.collateralShares pool.ltvMaxBps
    match Word.checkedAdd position.debt amount with
    | none => (.error .overflow, pool, position)
    | some newDebt =>
        if newDebt > maxBorrow then (.error (.underCollateralized position.collateralShares newDebt), pool, position)
        else
          match Word.checkedAdd pool.totalDebt amount with
          | none => (.error .overflow, pool, position)
          | some totalDebt => (.ok (), { pool with totalDebt }, { position with debt := newDebt })

/-- Repay up to the whole debt. The position is already changed when the pool's total fails. -/
def repay (pool : LendingPoolDatum) (position : LendingPosition) (amount : UInt64) :
    Except LendingError UInt64 × LendingPoolDatum × LendingPosition :=
  if position.debt = 0 then (.error .noDebt, pool, position)
  else
    let repaid := min amount position.debt
    match Word.checkedSub position.debt repaid with
    | none => (.error .underflow, pool, position)
    | some debt =>
        match Word.checkedSub pool.totalDebt repaid with
        | none => (.error .underflow, pool, { position with debt })
        | some totalDebt => (.ok repaid, { pool with totalDebt }, { position with debt })

def withdraw (pool : LendingPoolDatum) (position : LendingPosition) (collateralAmount : UInt64) :
    Except LendingError Unit × LendingPoolDatum × LendingPosition :=
  if collateralAmount = 0 then (.error .zeroAmount, pool, position)
  else
    match Word.checkedSub position.collateralShares collateralAmount with
    | none => (.error .underflow, pool, position)
    | some newCollateral =>
        let maxBorrow := computeMaxBorrow newCollateral pool.ltvMaxBps
        if position.debt > maxBorrow then
          (.error (.underCollateralized newCollateral position.debt), pool, position)
        else
          match Word.checkedSub pool.totalCollateral collateralAmount with
          | none => (.error .underflow, pool, position)
          | some totalCollateral =>
              (.ok (), { pool with totalCollateral }, { position with collateralShares := newCollateral })

/-- Repay the debt of a position that is over its limit and take collateral for it, with a bonus. The position is already changed when one of the pool's totals fails. -/
def liquidate (pool : LendingPoolDatum) (position : LendingPosition) (repayAmount : UInt64) :
    Except LendingError UInt64 × LendingPoolDatum × LendingPosition :=
  if position.debt = 0 then (.error .noDebt, pool, position)
  else
    let maxBorrow := computeMaxBorrow position.collateralShares pool.ltvMaxBps
    if position.debt ≤ maxBorrow then (.error .invalidParams, pool, position)
    else
      let repaid := min repayAmount position.debt
      match computeLiquidationBonus repaid pool.liquidationBonusBps with
      | .error e => (.error e, pool, position)
      | .ok bonus =>
          match Word.checkedAdd repaid bonus with
          | none => (.error .overflow, pool, position)
          | some collateralSeized =>
              if collateralSeized > position.collateralShares then (.error .overflow, pool, position)
              else
                match Word.checkedSub position.collateralShares collateralSeized with
                | none => (.error .underflow, pool, position)
                | some collateralShares =>
                    match Word.checkedSub position.debt repaid with
                    | none => (.error .underflow, pool, { position with collateralShares })
                    | some debt =>
                        match Word.checkedSub pool.totalCollateral collateralSeized with
                        | none => (.error .underflow, pool, { position with collateralShares, debt })
                        | some totalCollateral =>
                            match Word.checkedSub pool.totalDebt repaid with
                            | none =>
                                (.error .underflow, { pool with totalCollateral }, { position with collateralShares, debt })
                            | some totalDebt =>
                                (.ok collateralSeized, { pool with totalCollateral, totalDebt },
                                  { position with collateralShares, debt })

end QuantumVault
