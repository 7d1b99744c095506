import QuantumVault.Script.Interpreter

/-!
# Script templates

Locking scripts as the builder composes them.
-/

namespace QuantumVault

open Result

/-- The builder's push of an integer constant: zero and one have opcodes of their own. -/
def ScriptBuilder.pushInt (n : Int64) : Instruction :=
  if n = 0 then .simple .op0 else if n = 1 then .simple .op1 else .pushInt n

/-- One call on the builder. `op` is for the opcodes without inline data. -/
inductive ScriptBuilder.Call where
  | op (code : OpCode) (plain : code.isPush = false)
  | pushInt (n : Int64)
  | pushBytes (data : Bytes)

def ScriptBuilder.Call.instruction : ScriptBuilder.Call → Instruction
  | .op code _ => .simple code
  | .pushInt n => ScriptBuilder.pushInt n
  | .pushBytes data => .pushBytes data

/-- The builder's list of instructions after a sequence of calls. -/
def ScriptBuilder.instructions (calls : List ScriptBuilder.Call) : List Instruction :=
  calls.foldl (fun instructions call => instructions ++ [call.instruction]) []

def ScriptBuilder.build (calls : List ScriptBuilder.Call) : Bytes :=
  encodeInstructions (ScriptBuilder.instructions calls)

/-- The instructions of the pay-to-public-key-hash lock. The spender is meant to push a signature and a public key. -/
def p2pkhInstructions (pubkeyHash : Hash256) : List Instruction :=
  [.simple .dup, .simple .hashSha3, .pushBytes pubkeyHash.bytes, .simple .eq, .simple .verify,
    .simple .sigHash, .simple .rot, .simple .rot, .simple .checkSigPqc]

def p2pkhPqc (pubkeyHash : Hash256) : Bytes := encodeInstructions (p2pkhInstructions pubkeyHash)

/-- Domain of the stealth commitment, a copy of the constant that senders and recipients use. -/
def Templates.stealthKdfTag : Bytes := ascii "QuantumVault-Stealth-v1"

/-- The instructions of the stealth lock. The spender is meant to push a signature, the spend key and the shared secret. -/
def stealthP2pkhInstructions (onetimePkHash : Hash256) : List Instruction :=
  [.simple .over, .simple .cat, .pushBytes Templates.stealthKdfTag, .simple .swap, .simple .cat, .simple .hashSha3,
    .pushBytes onetimePkHash.bytes, .simple .eq, .simple .verify, .simple .sigHash, .simple .rot, .simple .rot,
    .simple .checkSigPqc]

def stealthP2pkh (onetimePkHash : Hash256) : Bytes := encodeInstructions (stealthP2pkhInstructions onetimePkHash)

/-- The instructions of the M-of-N lock: the two numbers and the check. Of the key hashes only their number is used. -/
def multisigInstructions (threshold : UInt32) (pubkeyHashes : List Hash256) : List Instruction :=
  [ScriptBuilder.pushInt threshold.toUInt64.toInt64, ScriptBuilder.pushInt (Int64.ofNat pubkeyHashes.length),
    .simple .checkMultiSigPqc]

def multisigPqc (threshold : UInt32) (pubkeyHashes : List Hash256) : Bytes :=
  encodeInstructions (multisigInstructions threshold pubkeyHashes)

/-! ### The pool lock -/

/-- Length of the canonical pool datum: two token ids of 32 bytes, two reserves and the total of liquidity shares of 8 bytes, and the fee of 2 bytes. -/
def poolDatumLen : Nat := 90

def poolDatumTokenAOffset : Nat := 0

def poolDatumTokenBOffset : Nat := 32

def poolDatumReserveAOffset : Nat := 64

def poolDatumReserveBOffset : Nat := 72

def poolDatumLpTotalOffset : Nat := 80

def poolDatumFeeBpsOffset : Nat := 88

def poolDatumReserveLen : Nat := 8

/-- Convention: the pool output that is spent is input 0, and its successor is output 0. -/
def poolInputIndex : Int64 := 0

def poolOutputIndex : Int64 := 0

/-- The datum read at index 0 has the length of a pool datum. -/
def assertPoolDatumLen (readOp : OpCode) : List Instruction :=
  [ScriptBuilder.pushInt poolInputIndex, .simple readOp, .simple .len, ScriptBuilder.pushInt (Int64.ofNat poolDatumLen),
    .simple .eq, .simple .verify]

/-- The datum read at index 0 has the given bytes at an offset. -/
def assertPoolDatumField (readOp : OpCode) (offset : Nat) (expected : Bytes) : List Instruction :=
  [ScriptBuilder.pushInt poolInputIndex, .simple readOp, ScriptBuilder.pushInt (Int64.ofNat offset),
    ScriptBuilder.pushInt (Int64.ofNat expected.length), .simple .slice, .pushBytes expected, .simple .eq, .simple .verify]

/-- The reserve at an offset of the datum read at index 0, as an integer on the stack. -/
def pushPoolReserve (readOp : OpCode) (offset : Nat) : List Instruction :=
  [ScriptBuilder.pushInt poolInputIndex, .simple readOp, ScriptBuilder.pushInt (Int64.ofNat offset),
    ScriptBuilder.pushInt (Int64.ofNat poolDatumReserveLen), .simple .slice,
    ScriptBuilder.pushInt (Int64.ofNat poolDatumReserveLen), .simple .bytesToInt]

/-- The instructions of the pool lock: shape, token ids and fee of both datums, the product of the reserves, and the script of output 0. -/
def ammPoolInstructions (tokenAId tokenBId : Hash256) (feeBps : UInt16) : List Instruction :=
  assertPoolDatumLen .readInputDatum ++ assertPoolDatumLen .readOutputDatum ++
    assertPoolDatumField .readInputDatum poolDatumTokenAOffset tokenAId.bytes ++
    assertPoolDatumField .readOutputDatum poolDatumTokenAOffset tokenAId.bytes ++
    assertPoolDatumField .readInputDatum poolDatumTokenBOffset tokenBId.bytes ++
    assertPoolDatumField .readOutputDatum poolDatumTokenBOffset tokenBId.bytes ++
    assertPoolDatumField .readInputDatum poolDatumFeeBpsOffset (toLittleEndian 2 feeBps.toNat) ++
    assertPoolDatumField .readOutputDatum poolDatumFeeBpsOffset (toLittleEndian 2 feeBps.toNat) ++
    pushPoolReserve .readOutputDatum poolDatumReserveAOffset ++
    pushPoolReserve .readOutputDatum poolDatumReserveBOffset ++ [.simple .mulU128] ++
    pushPoolReserve .readInputDatum poolDatumReserveAOffset ++
    pushPoolReserve .readInputDatum poolDatumReserveBOffset ++ [.simple .mulU128] ++
    [.simple .geU128, .simple .verify] ++
    [ScriptBuilder.pushInt poolOutputIndex, .simple .selfScriptHash, .simple .assertOutputScriptHash, .simple .op1]

def ammPoolLock (tokenAId tokenBId : Hash256) (feeBps : UInt16) : Bytes :=
  encodeInstructions (ammPoolInstructions tokenAId tokenBId feeBps)

/-! ### The lending pool lock -/

inductive TemplateError where
  | invalidLtv (ltvMaxBps : UInt16)
  | maxAgeTooLarge (maxPriceAgeSlots : UInt64)
deriving DecidableEq

/-- Length of the canonical datum of a lending pool: three ids of 32 bytes, the two totals, five parameters of 2 bytes, and the interest multiplier and the last accrual slot in 24 bytes. -/
def lendingDatumLen : Nat := 146

def lendingDatumPoolIdOffset : Nat := 0

def lendingDatumTotalCollateralOffset : Nat := 96

def lendingDatumTotalDebtOffset : Nat := 104

def lendingDatumParamsOffset : Nat := 112

def lendingDatumInterestBlockOffset : Nat := 122

def lendingDatumInterestBlockLen : Nat := 24

def lendingOracleDomainTag : Bytes := ascii "QuantumVault-Lending-Oracle-v1"

/-- A price is in debt units per collateral unit, times this scale. -/
def lendingPriceScale : UInt64 := 1000000

structure LendingPoolScriptParams where
  baseRateBps : UInt16
  slopeBps : UInt16
  ltvMaxBps : UInt16
  liquidationThresholdBps : UInt16
  liquidationBonusBps : UInt16
deriving DecidableEq

def LendingPoolScriptParams.toLeBytes (params : LendingPoolScriptParams) : Bytes :=
  toLittleEndian 2 params.baseRateBps.toNat ++ toLittleEndian 2 params.slopeBps.toNat ++
    toLittleEndian 2 params.ltvMaxBps.toNat ++ toLittleEndian 2 params.liquidationThresholdBps.toNat ++
    toLittleEndian 2 params.liquidationBonusBps.toNat

/-- The factor that debt is multiplied with in the collateral check, rounded up. -/
def lendingLtvFactor (ltvMaxBps : UInt16) : Except TemplateError UInt64 := do
  require (¬ (ltvMaxBps = 0 ∨ ltvMaxBps > 10000)) (.invalidLtv ltvMaxBps)
  let numerator := 10000 * lendingPriceScale
  let quotient := numerator / ltvMaxBps.toUInt64
  return if numerator % ltvMaxBps.toUInt64 > 0 then quotient + 1 else quotient

def assertLendingDatumLen (readOp : OpCode) : List Instruction :=
  [ScriptBuilder.pushInt poolInputIndex, .simple readOp, .simple .len, ScriptBuilder.pushInt (Int64.ofNat lendingDatumLen),
    .simple .eq, .simple .verify]

/-- The same check as on the datum of the other kind of pool. -/
def assertLendingDatumRegion (readOp : OpCode) (offset : Nat) (expected : Bytes) : List Instruction :=
  assertPoolDatumField readOp offset expected

/-- An eight-byte field extended to sixteen bytes by zeros. -/
def pushLendingU64AsU128 (readOp : OpCode) (offset : Nat) : List Instruction :=
  [ScriptBuilder.pushInt poolInputIndex, .simple readOp, ScriptBuilder.pushInt (Int64.ofNat offset), ScriptBuilder.pushInt 8,
    .simple .slice, .pushBytes (List.replicate 8 0), .simple .cat]

/-- An eight-byte field as an integer, as for a reserve of the other kind of pool. -/
def pushLendingU64AsInt (readOp : OpCode) (offset : Nat) : List Instruction := pushPoolReserve readOp offset

/-- The interest block is the same in both datums. -/
def lendingInterestInstructions : List Instruction :=
  [ScriptBuilder.pushInt poolInputIndex, .simple .readInputDatum,
    ScriptBuilder.pushInt (Int64.ofNat lendingDatumInterestBlockOffset),
    ScriptBuilder.pushInt (Int64.ofNat lendingDatumInterestBlockLen), .simple .slice,
    ScriptBuilder.pushInt poolOutputIndex, .simple .readOutputDatum,
    ScriptBuilder.pushInt (Int64.ofNat lendingDatumInterestBlockOffset),
    ScriptBuilder.pushInt (Int64.ofNat lendingDatumInterestBlockLen), .simple .slice, .simple .eq, .simple .verify]

/-- The value of the pool does not decrease, as a comparison of integers. -/
def lendingValueInstructions : List Instruction :=
  [ScriptBuilder.pushInt poolOutputIndex, .simple .readOutputValue, ScriptBuilder.pushInt poolInputIndex,
    .simple .readInputValue, .simple .ge, .simple .verify]

/-- What both ways of spending check: shape, ids and parameters of both datums, the interest block, and the value of the pool. -/
def lendingCommonInstructions (ids params : Bytes) : List Instruction :=
  assertLendingDatumLen .readInputDatum ++ assertLendingDatumLen .readOutputDatum ++
    assertLendingDatumRegion .readInputDatum lendingDatumPoolIdOffset ids ++
    assertLendingDatumRegion .readInputDatum lendingDatumParamsOffset params ++
    assertLendingDatumRegion .readOutputDatum lendingDatumPoolIdOffset ids ++
    assertLendingDatumRegion .readOutputDatum lendingDatumParamsOffset params ++
    lendingInterestInstructions ++ lendingValueInstructions

/-- The price and its slot as integers, and the age of the price. -/
def lendingFreshnessInstructions (maxAge : Int64) : List Instruction :=
  [.simple .over, ScriptBuilder.pushInt 8, .simple .bytesToInt, .simple .over, ScriptBuilder.pushInt 8, .simple .bytesToInt,
    .simple .dup, .simple .slotNumber, .simple .le, .simple .verify, .simple .slotNumber, .simple .swap, .simple .sub,
    ScriptBuilder.pushInt maxAge, .simple .le, .simple .verify]

/-- The new debt times the factor is at most the new collateral times the price. -/
def lendingCollateralInstructions (factor : Int64) : List Instruction :=
  pushLendingU64AsInt .readOutputDatum lendingDatumTotalDebtOffset ++ ScriptBuilder.pushInt factor :: .simple .mulU128 ::
    (pushLendingU64AsInt .readOutputDatum lendingDatumTotalCollateralOffset ++
      [.simple .rot, .simple .mulU128, .simple .swap, .simple .geU128, .simple .verify])

/-- The signed message, the hash of the oracle's key, and the signature. -/
def lendingSignatureInstructions (oraclePrefix : Bytes) (oraclePkHash : Hash256) : List Instruction :=
  [.simple .swap, .pushBytes oraclePrefix, .simple .swap, .simple .cat, .simple .swap, .simple .cat, .simple .over,
    .simple .hashSha3, .pushBytes oraclePkHash.bytes, .simple .eq, .simple .verify, .simple .rot, .simple .rot,
    .simple .checkSigPqc, .simple .verify]

/-- Borrowing and withdrawing, with a signed price on the stack. -/
def lendingOracleInstructions (factor maxAge : Int64) (oraclePrefix : Bytes) (oraclePkHash : Hash256) : List Instruction :=
  lendingFreshnessInstructions maxAge ++ lendingCollateralInstructions factor ++
    lendingSignatureInstructions oraclePrefix oraclePkHash

/-- Depositing and repaying: collateral does not fall and debt does not rise. -/
def lendingRepayInstructions : List Instruction :=
  pushLendingU64AsU128 .readOutputDatum lendingDatumTotalCollateralOffset ++
    (pushLendingU64AsU128 .readInputDatum lendingDatumTotalCollateralOffset ++ .simple .geU128 :: .simple .verify ::
      (pushLendingU64AsU128 .readInputDatum lendingDatumTotalDebtOffset ++
        (pushLendingU64AsU128 .readOutputDatum lendingDatumTotalDebtOffset ++ [.simple .geU128, .simple .verify])))

/-- The script of output 0, and the mark of success. -/
def lendingFinalInstructions : List Instruction :=
  [ScriptBuilder.pushInt poolOutputIndex, .simple .selfScriptHash, .simple .assertOutputScriptHash, .simple .op1]

/-- The instructions of the lending pool lock. The top of the witness selects the branch. -/
def lendingPoolInstructions (ids params oraclePrefix : Bytes) (factor maxAge : Int64) (oraclePkHash : Hash256) :
    List Instruction :=
  lendingCommonInstructions ids params ++
    .simple .opIf :: (lendingOracleInstructions factor maxAge oraclePrefix oraclePkHash ++
      .simple .opElse :: (lendingRepayInstructions ++ [.simple .endIf])) ++ lendingFinalInstructions

def lendingPoolLock (poolId collateralTokenId debtTokenId : Hash256) (params : LendingPoolScriptParams)
    (oraclePkHash : Hash256) (maxPriceAgeSlots : UInt64) : Except TemplateError Bytes := do
  let factor ← lendingLtvFactor params.ltvMaxBps
  require (maxPriceAgeSlots.toNat < 2 ^ 63) (.maxAgeTooLarge maxPriceAgeSlots)
  let ids := poolId.bytes ++ collateralTokenId.bytes ++ debtTokenId.bytes
  let oraclePrefix := lendingOracleDomainTag ++ poolId.bytes
  return encodeInstructions (lendingPoolInstructions ids params.toLeBytes oraclePrefix factor.toInt64
    maxPriceAgeSlots.toInt64 oraclePkHash)

end QuantumVault
