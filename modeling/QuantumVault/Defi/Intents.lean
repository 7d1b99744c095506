import QuantumVault.Defi.Amm

/-!
# Order intents

What a user asks the pools for, and the check a batcher makes of it: the deadline lies ahead, and no amount that has to move is zero. A swap is built in two ways, by a builder that derives the least amount to receive from a slippage in basis points, and by a function that is given both amounts.
-/

namespace QuantumVault

open Result

inductive IntentError where
  | expired (deadline : UInt64)
  | invalidAmount (amount : UInt64)
  /-- Arithmetic is checked in every build profile, and the process ends where a difference is negative. -/
  | abort
deriving DecidableEq

inductive OrderKind where
  | swap (poolId : Hash256) (side : SwapDirection) (offer minReceive : UInt64)
  | limitOrder (poolId : Hash256) (side : SwapDirection) (limitPriceQ64 : BitVec 128) (size : UInt64)
  | liquidityAdd (poolId : Hash256) (depositA depositB minLp : UInt64)
  | liquidityRemove (poolId : Hash256) (lpBurn minA minB : UInt64)
  | lendingDeposit (poolId : Hash256) (amount : UInt64)
  | lendingBorrow (poolId : Hash256) (amount : UInt64)
  | lendingRepay (poolId : Hash256) (amount : UInt64)
  | lendingWithdraw (poolId : Hash256) (amount : UInt64)
deriving DecidableEq

structure OrderIntent where
  kind : OrderKind
  deadlineSlot : UInt64
  ownerStealthPk : Option Bytes
  nonce : UInt64
  offerAmount : UInt64
  minReceive : UInt64
deriving DecidableEq

namespace OrderIntent

/-- A swap from the first token to the second. The order id and the slippage are not kept. -/
def newSwap (_orderId : TxId) (poolId : Hash256) (offerAmount minReceive : UInt64) (_slippageBps : UInt16)
    (deadlineSlot : UInt64) : OrderIntent :=
  ⟨.swap poolId .aToB offerAmount minReceive, deadlineSlot, none, 0, offerAmount, minReceive⟩

def validate (intent : OrderIntent) (currentSlot : UInt64) : Except IntentError Unit := do
  require (¬ intent.deadlineSlot ≤ currentSlot) (.expired intent.deadlineSlot)
  match intent.kind with
  | .swap _ _ offer minReceive => require (¬ (offer = 0 ∨ minReceive = 0)) (.invalidAmount 0)
  | .limitOrder _ _ _ size => require (¬ size = 0) (.invalidAmount 0)
  | .liquidityAdd _ depositA depositB _ => require (¬ (depositA = 0 ∨ depositB = 0)) (.invalidAmount 0)
  | .liquidityRemove _ lpBurn _ _ => require (¬ lpBurn = 0) (.invalidAmount 0)
  | .lendingDeposit _ amount | .lendingBorrow _ amount | .lendingRepay _ amount | .lendingWithdraw _ amount =>
      require (¬ amount = 0) (.invalidAmount 0)

end OrderIntent

structure SwapIntentBuilder where
  orderId : Option TxId
  poolId : Option Hash256
  offerAmount : Option UInt64
  maxSlippageBps : Option UInt16
  deadlineSlot : Option UInt64
  ownerPkHash : Option Hash256
  nonce : UInt64
deriving DecidableEq

namespace SwapIntentBuilder

/-- The slippage that is used when none is set. -/
def defaultSlippageBps : UInt16 := 100

def build (b : SwapIntentBuilder) : Except IntentError OrderIntent := do
  let offer ← okOr b.offerAmount (.invalidAmount 0)
  let poolId ← okOr b.poolId (.invalidAmount 0)
  let deadline ← okOr b.deadlineSlot (.invalidAmount 0)
  let slippageBps := b.maxSlippageBps.getD defaultSlippageBps
  let keptBps ← okOr (Wide.checkedSub 10000 slippageBps.toNat) .abort
  let minReceiveAmount := min (offer.toNat * keptBps) Wide.max / 10000
  let minReceive := UInt64.ofNat (min minReceiveAmount Wide.maxWord)
  let intent := OrderIntent.newSwap (b.orderId.getD .zero) poolId offer minReceive slippageBps deadline
  return { intent with
    ownerStealthPk := (b.ownerPkHash.map Hash256.bytes).or intent.ownerStealthPk
    nonce := b.nonce }

end SwapIntentBuilder

def buildSwapIntent (poolId : Hash256) (side : SwapDirection) (offer minReceive deadlineSlot : UInt64)
    (ownerPkHash : Hash256) (nonce : UInt64) : Except IntentError OrderIntent := do
  require (¬ (offer = 0 ∨ minReceive = 0)) (.invalidAmount 0)
  let intent : OrderIntent :=
    ⟨.swap poolId side offer minReceive, deadlineSlot, some ownerPkHash.bytes, nonce, offer, minReceive⟩
  intent.validate 0
  return intent

end QuantumVault
