import QuantumVault.Core.Types
import QuantumVault.Lib.Loop
import QuantumVault.Lib.Wide
import QuantumVault.Lib.Result
import QuantumVault.Script.Templates

/-!
# Constant-product market maker

The accounting of a pool of two tokens: swaps against the reserves, and shares of the pool that are issued for deposits and burned for withdrawals. All divisions round down, and products of two 64-bit amounts are taken in 128 bits.
-/

namespace QuantumVault

open Result

inductive AmmError where
  | insufficientLiquidity (poolId : Hash256)
  | datumError (message : String)
  | lpTokenMismatch (expected actual : UInt64)
  | overflow
  | invalidFee (feeBps : UInt16)
deriving DecidableEq

/-- The data a pool output carries. -/
structure PoolDatum where
  tokenAId : Hash256
  tokenBId : Hash256
  reserveA : UInt64
  reserveB : UInt64
  lpTotal : UInt64
  feeBps : UInt16
deriving DecidableEq

namespace PoolDatum

def validate (d : PoolDatum) : Except AmmError Unit :=
  require (¬ d.feeBps > 10000) (.invalidFee d.feeBps)

/-- The product of the reserves. -/
def invariant (d : PoolDatum) : Nat := d.reserveA.toNat * d.reserveB.toNat

/-- The layout the pool lock reads: two token ids, two reserves, the total of shares and the fee, without any length prefix. -/
def toCanonicalBytes (d : PoolDatum) : Bytes :=
  d.tokenAId.bytes ++ d.tokenBId.bytes ++ toLittleEndian 8 d.reserveA.toNat ++ toLittleEndian 8 d.reserveB.toNat ++
    toLittleEndian 8 d.lpTotal.toNat ++ toLittleEndian 2 d.feeBps.toNat

/-- The 32 bytes at an offset. -/
def read32 (bytes : Bytes) (offset : Nat) : Except AmmError Hash256 :=
  if h : ((bytes.drop offset).take 32).length = 32 then .ok ⟨(bytes.drop offset).take 32, h⟩
  else .error (.datumError "token id slice out of range")

def readU64 (bytes : Bytes) (offset : Nat) : Except AmmError UInt64 := do
  require (offset + 8 ≤ bytes.length) (.datumError "u64 slice out of range")
  return UInt64.ofNat (ofLittleEndian ((bytes.drop offset).take 8))

def readU16 (bytes : Bytes) (offset : Nat) : Except AmmError UInt16 := do
  require (offset + 2 ≤ bytes.length) (.datumError "u16 slice out of range")
  return UInt16.ofNat (ofLittleEndian ((bytes.drop offset).take 2))

def fromCanonicalBytes (bytes : Bytes) : Except AmmError PoolDatum := do
  require (bytes.length = poolDatumLen)
    (.datumError s!"canonical pool datum must be {poolDatumLen} bytes, got {bytes.length}")
  let tokenAId ← read32 bytes poolDatumTokenAOffset
  let tokenBId ← read32 bytes poolDatumTokenBOffset
  let reserveA ← readU64 bytes poolDatumReserveAOffset
  let reserveB ← readU64 bytes poolDatumReserveBOffset
  let lpTotal ← readU64 bytes poolDatumLpTotalOffset
  let feeBps ← readU16 bytes poolDatumFeeBpsOffset
  return ⟨tokenAId, tokenBId, reserveA, reserveB, lpTotal, feeBps⟩

end PoolDatum

structure PoolState where
  poolId : Hash256
  datum : PoolDatum
deriving DecidableEq

inductive SwapDirection where
  | aToB
  | bToA
deriving DecidableEq

/-! ### Swaps -/

/-- A sum of amounts, or the overflow error. -/
def checkedAddAmount (a b : UInt64) : Except AmmError UInt64 := okOr (Word.checkedAdd a b) .overflow

def checkedSubAmount (a b : UInt64) : Except AmmError UInt64 := okOr (Word.checkedSub a b) .overflow

/-- Move the amounts of a swap through the reserves. The first reserve is already changed when the second one fails. -/
def PoolState.applySwap (s : PoolState) (direction : SwapDirection) (amountIn amountOut : UInt64) :
    Except AmmError Unit × PoolState :=
  match direction with
  | .aToB =>
      match checkedAddAmount s.datum.reserveA amountIn with
      | .error e => (.error e, s)
      | .ok reserveA =>
          match checkedSubAmount s.datum.reserveB amountOut with
          | .error e => (.error e, { s with datum := { s.datum with reserveA } })
          | .ok reserveB => (.ok (), { s with datum := { s.datum with reserveA, reserveB } })
  | .bToA =>
      match checkedAddAmount s.datum.reserveB amountIn with
      | .error e => (.error e, s)
      | .ok reserveB =>
          match checkedSubAmount s.datum.reserveA amountOut with
          | .error e => (.error e, { s with datum := { s.datum with reserveB } })
          | .ok reserveA => (.ok (), { s with datum := { s.datum with reserveA, reserveB } })

/-- What a swap pays out and the fee it takes. The fee is cut off the input before the product rule is applied. -/
def computeSwapOutput (reserveIn reserveOut amountIn : UInt64) (feeBps : UInt16) : Option (UInt64 × UInt64) :=
  if reserveIn = 0 ∨ reserveOut = 0 ∨ amountIn = 0 then none
  else do
    let charged ← Wide.checkedMul amountIn.toNat feeBps.toNat
    let fee ← Wide.checkedDiv charged 10000
    if fee > amountIn.toNat then none
    else
      let amountInNet ← Wide.checkedSub amountIn.toNat fee
      let numerator ← Wide.checkedMul reserveOut.toNat amountInNet
      let denominator ← Wide.checkedAdd reserveIn.toNat amountInNet
      if denominator = 0 then none
      else
        let amountOut ← Wide.checkedDiv numerator denominator
        if amountOut > Wide.maxWord then none
        else some (UInt64.ofNat amountOut, UInt64.ofNat fee)

/-! ### Liquidity -/

/-- Newton's iteration on the current and the next guess. The sum of a guess and the quotient is a 128-bit word. Every round lowers the current guess, so the first guess bounds their number. -/
def sqrtLoop (n : Nat) : (rounds : Nat) → (x y : Nat) → Nat
  | 0, x, _ => x
  | rounds + 1, x, y => if y < x then sqrtLoop n rounds y ((y + n / y) % 2 ^ 128 / 2) else x

def sqrtU128 (n : Nat) : Nat := if n = 0 then 0 else sqrtLoop n n n ((n + 1) / 2)

/-- A quotient of 128-bit words, or the overflow error. -/
def checkedShare (a b c : Nat) : Except AmmError Nat := do
  let product ← okOr (Wide.checkedMul a b) .overflow
  okOr (Wide.checkedDiv product c) .overflow

/-- The shares issued for a deposit: the root of the product for the first one, afterwards the smaller of the two proportional parts. -/
def lpIssued (currentReserveA currentReserveB currentLpTotal amountA amountB : UInt64) : Except AmmError UInt64 :=
  if currentLpTotal = 0 then do
    let product ← okOr (Wide.checkedMul amountA.toNat amountB.toNat) .overflow
    return UInt64.ofNat (sqrtU128 product)
  else do
    let shareA ← checkedShare currentLpTotal.toNat amountA.toNat currentReserveA.toNat
    let shareB ← checkedShare currentLpTotal.toNat amountB.toNat currentReserveB.toNat
    let lp := min shareA shareB
    require (¬ lp > Wide.maxWord) .overflow
    return UInt64.ofNat lp

/-- The shares issued for a deposit and the pool after it. The token ids and the fee of the returned datum are placeholders for the caller to fill in. -/
def computeAddLiquidity (currentReserveA currentReserveB currentLpTotal amountA amountB : UInt64) :
    Except AmmError (UInt64 × PoolDatum) := do
  require (¬ (amountA = 0 ∨ amountB = 0)) (.insufficientLiquidity .zero)
  let issued ← lpIssued currentReserveA currentReserveB currentLpTotal amountA amountB
  let newReserveA ← checkedAddAmount currentReserveA amountA
  let newReserveB ← checkedAddAmount currentReserveB amountB
  let newLpTotal ← checkedAddAmount currentLpTotal issued
  return (issued, ⟨.zero, .zero, newReserveA, newReserveB, newLpTotal, 30⟩)

/-- The amounts paid out for burned shares and the pool after it, with the same placeholders. -/
def computeRemoveLiquidity (currentReserveA currentReserveB currentLpTotal lpBurned : UInt64) :
    Except AmmError (UInt64 × UInt64 × PoolDatum) := do
  require (¬ (currentLpTotal = 0 ∨ lpBurned = 0)) (.insufficientLiquidity .zero)
  require (¬ lpBurned > currentLpTotal) (.lpTokenMismatch currentLpTotal lpBurned)
  let amountA ← checkedShare currentReserveA.toNat lpBurned.toNat currentLpTotal.toNat
  let amountB ← checkedShare currentReserveB.toNat lpBurned.toNat currentLpTotal.toNat
  require (¬ (amountA > Wide.maxWord ∨ amountB > Wide.maxWord)) .overflow
  let newReserveA ← checkedSubAmount currentReserveA (UInt64.ofNat amountA)
  let newReserveB ← checkedSubAmount currentReserveB (UInt64.ofNat amountB)
  let newLpTotal ← checkedSubAmount currentLpTotal lpBurned
  return (UInt64.ofNat amountA, UInt64.ofNat amountB, ⟨.zero, .zero, newReserveA, newReserveB, newLpTotal, 30⟩)

end QuantumVault
