import QuantumVault.Lib.TreeMap
import QuantumVault.Lib.Wide
import QuantumVault.Mempool.ClearPool
import QuantumVault.Mempool.Ordering

/-!
# Batches of swap orders

The slot leader executes the swap orders for one pool in canonical order. The batcher has its own copy of the pool's reserves and of the swap formula. An order that cannot be filled against the reserves at its turn is skipped.
-/

namespace QuantumVault

namespace Batcher

inductive SwapDirection where
  | aToB
  | bToA
deriving DecidableEq

structure OrderIntent where
  orderTxId : TxId
  poolId : Hash256
  direction : SwapDirection
  offerAmount : Amount
  minReceive : Amount
  feeDensity : UInt64
  timestampMs : UInt64
deriving DecidableEq

def OrderIntent.orderKey (order : OrderIntent) : OrderKey :=
  .new order.feeDensity order.timestampMs order.orderTxId

structure BatchResult where
  poolId : Hash256
  matchedOrders : List TxId
  newReserveA : Amount
  newReserveB : Amount
  totalFees : Amount
deriving DecidableEq

structure PoolState where
  poolId : Hash256
  reserveA : Amount
  reserveB : Amount
deriving DecidableEq

/-- What a swap pays out and the fee it takes. The fee is computed in 64 bits, the product rule in 128. -/
def computeSwapOutput (reserveIn reserveOut dx : UInt64) : Option (UInt64 × UInt64) :=
  if reserveIn = 0 ∨ reserveOut = 0 ∨ dx = 0 then none
  else do
    let tripled ← Word.checkedMul dx 3
    let dxFee ← Word.checkedDiv tripled 1000
    let dxNet ← Word.checkedSub dx dxFee
    let numerator ← Wide.checkedMul reserveOut.toNat dxNet.toNat
    let denominator ← Wide.checkedAdd reserveIn.toNat dxNet.toNat
    if denominator = 0 then none
    else
      let dy ← Wide.checkedDiv numerator denominator
      if dy > Wide.maxWord then none
      else some (UInt64.ofNat dy, dxFee)

structure BatchState where
  reserveA : UInt64
  reserveB : UInt64
  matched : List TxId
  totalFees : UInt64
deriving DecidableEq

/-- The body of the batch loop for an order that was found, `none` where it continues with the next key. -/
def executeOrder (poolId : Hash256) (s : BatchState) (order : OrderIntent) : Option BatchState :=
  if order.poolId ≠ poolId then none
  else do
    let (output, fee) ← match order.direction with
      | .aToB => computeSwapOutput s.reserveA s.reserveB order.offerAmount
      | .bToA => computeSwapOutput s.reserveB s.reserveA order.offerAmount
    if output < order.minReceive then none
    else
      let (reserveA, reserveB) := match order.direction with
        | .aToB => (Word.saturatingAdd s.reserveA order.offerAmount, Word.saturatingSub s.reserveB output)
        | .bToA => (Word.saturatingSub s.reserveA output, Word.saturatingAdd s.reserveB order.offerAmount)
      some ⟨reserveA, reserveB, s.matched ++ [order.orderTxId], Word.saturatingAdd s.totalFees fee⟩

/-- The orders by id. Of two orders with one id the map keeps the later one. -/
def orderMap (orders : List OrderIntent) : Std.ExtTreeMap TxId OrderIntent :=
  TreeMap.insertAll ∅ (orders.map fun order => (order.orderTxId, order))

/-- One round of the batch loop. There is one key for every order of the list. -/
def batchStep (poolId : Hash256) (orders : Std.ExtTreeMap TxId OrderIntent) (s : BatchState) (key : OrderKey) : BatchState :=
  match orders[key.txId]? with
  | none => s
  | some order => (executeOrder poolId s order).getD s

/-- Execute the orders for a pool in canonical order. The source's result type has an error that this function never returns. -/
def buildAmmBatch (pool : PoolState) (orders : List OrderIntent) : Except MempoolError BatchResult :=
  let keys := deterministicSort (orders.map OrderIntent.orderKey)
  let s := keys.foldl (batchStep pool.poolId (orderMap orders)) ⟨pool.reserveA, pool.reserveB, [], 0⟩
  .ok ⟨pool.poolId, s.matched, s.reserveA, s.reserveB, s.totalFees⟩

end Batcher

end QuantumVault
