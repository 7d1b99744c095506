import QuantumVault.Core.Transaction
import QuantumVault.Defi.Amm
import QuantumVault.Defi.Lending

/-!
# Building pool transactions

What a wallet computes off the chain: the transaction that swaps against a pool output, the one that creates a pool, and the four that change a lending pool. All are returned unsigned. The pool is input 0 of a transaction on it and the pool after it is output 0. The pool input of a swap needs no witness; that of a lending pool carries the selector of the branch and, to borrow or withdraw, a price that the oracle has signed.
-/

namespace QuantumVault

open Result

/-- Position of the input that the wallet signs, in a transaction on a pool and in the creation of a pool. -/
def userInputIndex : Nat := 1

def createPoolUserInputIndex : Nat := 0

inductive TxBuildError where
  | swapComputation
  | slippage (minReceive amountOut : UInt64)
  | insufficientInput (inputValue fee : UInt64)
  | insufficientFunding (inputValue poolValue fee : UInt64)
  | amm (source : AmmError)
  | lending (source : LendingError)
  | template (source : TemplateError)
  | priceForWrongPool
  | collateralShortfall (debt collateral priceScaled factor : UInt64)
  | zeroAmount
deriving DecidableEq

def TxOutput.withDatum (output : TxOutput) (datum : Bytes) : TxOutput := { output with datum := some datum }

def Transaction.withFee (tx : Transaction) (fee : Amount) : Transaction := { tx with fee }

/-! ### Swaps -/

structure SwapRequest where
  poolOutpoint : OutPoint
  poolDatum : PoolDatum
  poolValue : Amount
  userOutpoint : OutPoint
  userInputValue : Amount
  userLockingScript : Bytes
  direction : SwapDirection
  amountIn : UInt64
  minReceive : UInt64
  txFee : Amount
deriving DecidableEq

structure SwapTxBundle where
  tx : Transaction
  newPoolDatum : PoolDatum
  amountOut : UInt64
  poolFeePaid : UInt64
  inputsToSign : List Nat
deriving DecidableEq

/-- The reserves that a swap pays into and out of. -/
def PoolDatum.swapReserves (d : PoolDatum) : SwapDirection → UInt64 × UInt64
  | .aToB => (d.reserveA, d.reserveB)
  | .bToA => (d.reserveB, d.reserveA)

variable [Crypto]

def buildSwapTx (req : SwapRequest) : Except TxBuildError SwapTxBundle := do
  req.poolDatum.validate.mapError .amm
  let (reserveIn, reserveOut) := req.poolDatum.swapReserves req.direction
  let (amountOut, poolFeePaid) ← okOr
    (computeSwapOutput reserveIn reserveOut req.amountIn req.poolDatum.feeBps) .swapComputation
  require (¬ amountOut < req.minReceive) (.slippage req.minReceive amountOut)
  let change ← okOr (Word.checkedSub req.userInputValue req.txFee) (.insufficientInput req.userInputValue req.txFee)
  let poolScript := ammPoolLock req.poolDatum.tokenAId req.poolDatum.tokenBId req.poolDatum.feeBps
  let poolId := sha3_256 poolScript
  let (result, poolState) := (PoolState.mk poolId req.poolDatum).applySwap req.direction req.amountIn amountOut
  result.mapError .amm
  let newPoolDatum := poolState.datum
  let poolOutput := (TxOutput.new req.poolValue poolScript).withDatum newPoolDatum.toCanonicalBytes
  let userOutput := TxOutput.new change req.userLockingScript
  let tx := (Transaction.new [⟨req.poolOutpoint, []⟩, ⟨req.userOutpoint, []⟩] [poolOutput, userOutput]).withFee req.txFee
  return ⟨tx, newPoolDatum, amountOut, poolFeePaid, [userInputIndex]⟩

/-! ### New pools -/

structure CreatePoolRequest where
  tokenAId : Hash256
  tokenBId : Hash256
  feeBps : UInt16
  reserveA : UInt64
  reserveB : UInt64
  poolValue : Amount
  userOutpoint : OutPoint
  userInputValue : Amount
  userLockingScript : Bytes
  txFee : Amount
deriving DecidableEq

structure CreatePoolTxBundle where
  tx : Transaction
  poolDatum : PoolDatum
  lpTotal : UInt64
  inputsToSign : List Nat
deriving DecidableEq

omit [Crypto] in
def buildCreatePoolTx (req : CreatePoolRequest) : Except TxBuildError CreatePoolTxBundle := do
  let (lpIssued, seeded) ← (computeAddLiquidity 0 0 0 req.reserveA req.reserveB).mapError .amm
  let poolDatum : PoolDatum :=
    ⟨req.tokenAId, req.tokenBId, seeded.reserveA, seeded.reserveB, seeded.lpTotal, req.feeBps⟩
  poolDatum.validate.mapError .amm
  let outflow := Word.checkedAdd req.poolValue req.txFee
  let change ← okOr (outflow.bind (Word.checkedSub req.userInputValue))
    (.insufficientFunding req.userInputValue req.poolValue req.txFee)
  let poolScript := ammPoolLock req.tokenAId req.tokenBId req.feeBps
  let poolOutput := (TxOutput.new req.poolValue poolScript).withDatum poolDatum.toCanonicalBytes
  let userOutput := TxOutput.new change req.userLockingScript
  let tx := (Transaction.new [⟨req.userOutpoint, []⟩] [poolOutput, userOutput]).withFee req.txFee
  return ⟨tx, poolDatum, lpIssued, [createPoolUserInputIndex]⟩

/-! ### Lending pools -/

structure OracleSignedPrice where
  poolId : Hash256
  priceScaled : UInt64
  slot : UInt64
  oraclePubkey : Bytes
  signature : Bytes
deriving DecidableEq

/-- The bytes that the oracle signs. -/
def oraclePriceMessage (poolId : Hash256) (priceScaled slot : UInt64) : Bytes :=
  lendingOracleDomainTag ++ poolId.bytes ++ toLittleEndian 8 priceScaled.toNat ++ toLittleEndian 8 slot.toNat

structure LendingRequestCore where
  poolOutpoint : OutPoint
  poolDatum : LendingPoolDatum
  poolValue : Amount
  oraclePkHash : Hash256
  maxPriceAgeSlots : UInt64
  userOutpoint : OutPoint
  userInputValue : Amount
  userLockingScript : Bytes
  txFee : Amount
deriving DecidableEq

structure LendingTxBundle where
  tx : Transaction
  newPoolDatum : LendingPoolDatum
  inputsToSign : List Nat
deriving DecidableEq

omit [Crypto]

/-- The parameters of a pool that its lock pins. -/
def LendingPoolDatum.scriptParams (datum : LendingPoolDatum) : LendingPoolScriptParams :=
  ⟨datum.baseRateBps, datum.slopeBps, datum.ltvMaxBps, datum.liquidationThresholdBps, datum.liquidationBonusBps⟩

def lendingPoolScript (datum : LendingPoolDatum) (oraclePkHash : Hash256) (maxPriceAgeSlots : UInt64) :
    Except TxBuildError Bytes :=
  (lendingPoolLock datum.poolId datum.collateralTokenId datum.debtTokenId datum.scriptParams oraclePkHash
    maxPriceAgeSlots).mapError .template

def lendingPath0Witness : Bytes := encodeInstructions [ScriptBuilder.pushInt 0]

def lendingPath1Witness (price : OracleSignedPrice) : Bytes :=
  encodeInstructions [.pushBytes price.signature, .pushBytes price.oraclePubkey,
    .pushBytes (toLittleEndian 8 price.priceScaled.toNat), .pushBytes (toLittleEndian 8 price.slot.toNat),
    ScriptBuilder.pushInt 1]

/-- The wallet's own collateral check. The products are taken modulo `2^128`. -/
def checkLendingCollateral (debt collateral priceScaled : UInt64) (ltvMaxBps : UInt16) : Except TxBuildError Unit := do
  let factor ← (lendingLtvFactor ltvMaxBps).mapError .template
  let lhs := debt.toNat * factor.toNat % 2 ^ 128
  let rhs := collateral.toNat * priceScaled.toNat % 2 ^ 128
  require (¬ lhs > rhs) (.collateralShortfall debt collateral priceScaled factor)

def assembleLendingTx (req : LendingRequestCore) (newPoolDatum : LendingPoolDatum) (poolWitness : Bytes) :
    Except TxBuildError LendingTxBundle := do
  newPoolDatum.validate.mapError .lending
  let change ← okOr (Word.checkedSub req.userInputValue req.txFee) (.insufficientInput req.userInputValue req.txFee)
  let script ← lendingPoolScript req.poolDatum req.oraclePkHash req.maxPriceAgeSlots
  let poolOutput := (TxOutput.new req.poolValue script).withDatum newPoolDatum.toCanonicalBytes
  let userOutput := TxOutput.new change req.userLockingScript
  let tx := (Transaction.new [⟨req.poolOutpoint, poolWitness⟩, ⟨req.userOutpoint, []⟩] [poolOutput, userOutput]).withFee
    req.txFee
  return ⟨tx, newPoolDatum, [userInputIndex]⟩

def buildLendingDepositTx (req : LendingRequestCore) (depositAmount : UInt64) : Except TxBuildError LendingTxBundle := do
  require (depositAmount ≠ 0) .zeroAmount
  let totalCollateral ← okOr (Word.checkedAdd req.poolDatum.totalCollateral depositAmount) (.lending .overflow)
  assembleLendingTx req { req.poolDatum with totalCollateral } lendingPath0Witness

/-- Repays at most the whole debt. -/
def buildLendingRepayTx (req : LendingRequestCore) (repayAmount : UInt64) : Except TxBuildError LendingTxBundle := do
  require (repayAmount ≠ 0) .zeroAmount
  require (req.poolDatum.totalDebt ≠ 0) (.lending .noDebt)
  let repaid := min repayAmount req.poolDatum.totalDebt
  let totalDebt ← okOr (Word.checkedSub req.poolDatum.totalDebt repaid) (.lending .underflow)
  assembleLendingTx req { req.poolDatum with totalDebt } lendingPath0Witness

def buildLendingBorrowTx (req : LendingRequestCore) (borrowAmount : UInt64) (price : OracleSignedPrice) :
    Except TxBuildError LendingTxBundle := do
  require (borrowAmount ≠ 0) .zeroAmount
  require (price.poolId = req.poolDatum.poolId) .priceForWrongPool
  let totalDebt ← okOr (Word.checkedAdd req.poolDatum.totalDebt borrowAmount) (.lending .overflow)
  let newDatum := { req.poolDatum with totalDebt }
  checkLendingCollateral newDatum.totalDebt newDatum.totalCollateral price.priceScaled newDatum.ltvMaxBps
  assembleLendingTx req newDatum (lendingPath1Witness price)

def buildLendingWithdrawTx (req : LendingRequestCore) (withdrawAmount : UInt64) (price : OracleSignedPrice) :
    Except TxBuildError LendingTxBundle := do
  require (withdrawAmount ≠ 0) .zeroAmount
  require (price.poolId = req.poolDatum.poolId) .priceForWrongPool
  let totalCollateral ← okOr (Word.checkedSub req.poolDatum.totalCollateral withdrawAmount) (.lending .underflow)
  let newDatum := { req.poolDatum with totalCollateral }
  checkLendingCollateral newDatum.totalDebt newDatum.totalCollateral price.priceScaled newDatum.ltvMaxBps
  assembleLendingTx req newDatum (lendingPath1Witness price)

end QuantumVault
