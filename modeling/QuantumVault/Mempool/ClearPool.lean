import QuantumVault.Core.Transaction
import QuantumVault.Lib.Loop
import QuantumVault.Lib.TreeMap

/-!
# The clear mempool

Unconfirmed transactions, indexed by id, by priority and by the outpoints they spend. Reading the wall clock is an argument here. Sizes are machine words of 64 bits, as the source's `usize` is, and the operations that change the pool in place return the new pool next to their result, also when they fail.
-/

namespace QuantumVault

open TreeMap

structure ClearPoolConfig where
  maxTxCount : UInt64
  maxPoolBytes : UInt64
  minFee : UInt64
  maxAgeSecs : UInt64
deriving DecidableEq

/-- The preset a node starts with on every network. -/
def ClearPoolConfig.testnet : ClearPoolConfig where
  maxTxCount := 100000
  maxPoolBytes := 134217728
  minFee := 0
  maxAgeSecs := 7200

structure MempoolEntry where
  tx : Transaction
  txId : TxId
  fee : Amount
  size : UInt64
  feeDensity : UInt64
  addedAt : UInt64
deriving DecidableEq

/-- A new entry with its fee density in thousandths. -/
def MempoolEntry.new (tx : Transaction) (txId : TxId) (fee : Amount) (size now : UInt64) : MempoolEntry where
  tx := tx
  txId := txId
  fee := fee
  size := size
  feeDensity := if size > 0 then Word.saturatingMul fee 1000 / size else fee
  addedAt := now

/-- Sort key of the priority index: the densest first, then the oldest, then the smallest id. -/
structure PriorityKey where
  negFeeDensity : UInt64
  addedAt : UInt64
  txId : TxId
deriving DecidableEq

namespace PriorityKey

instance : Ord PriorityKey :=
  ⟨compareLex (compareOn PriorityKey.negFeeDensity)
    (compareLex (compareOn PriorityKey.addedAt) (compareOn PriorityKey.txId))⟩

instance : Std.TransOrd PriorityKey :=
  inferInstanceAs (Std.TransCmp (compareLex (compareOn PriorityKey.negFeeDensity)
    (compareLex (compareOn PriorityKey.addedAt) (compareOn PriorityKey.txId))))

instance : Std.LawfulEqOrd PriorityKey where
  eq_of_compare {a b} h := by
    obtain ⟨hdensity, hrest⟩ := compareLex_eq_eq.mp h
    obtain ⟨hadded, htx⟩ := compareLex_eq_eq.mp hrest
    cases a
    cases b
    cases Std.LawfulEqOrd.eq_of_compare hdensity
    cases Std.LawfulEqOrd.eq_of_compare hadded
    cases Std.LawfulEqOrd.eq_of_compare htx
    rfl

def fromEntry (entry : MempoolEntry) : PriorityKey where
  negFeeDensity := Word.max - entry.feeDensity
  addedAt := entry.addedAt
  txId := entry.txId

end PriorityKey

inductive MempoolError where
  | duplicateTx (txId : TxId)
  | feeTooLow (fee min : UInt64)
  | doubleSpend (outpoint : OutPoint) (existingTx : TxId)
  | poolFull
deriving DecidableEq

structure ClearPool where
  config : ClearPoolConfig
  byId : Std.ExtTreeMap TxId MempoolEntry
  byPriority : Std.ExtTreeMap PriorityKey TxId
  spentOutpoints : Std.ExtTreeMap OutPoint TxId
  totalBytes : UInt64

namespace ClearPool

def new (config : ClearPoolConfig) : ClearPool := ⟨config, ∅, ∅, ∅, 0⟩

/-! ### Removing -/

/-- Take an entry out of every index. Nothing happens when the id is unknown. -/
def remove (pool : ClearPool) (txId : TxId) : Option MempoolEntry × ClearPool :=
  match pool.byId[txId]? with
  | none => (none, pool)
  | some entry =>
      (some entry,
        { pool with
          byId := pool.byId.erase txId
          byPriority := pool.byPriority.erase (.fromEntry entry)
          spentOutpoints := eraseAll pool.spentOutpoints entry.tx.spends
          totalBytes := Word.saturatingSub pool.totalBytes entry.size })

def removeAll (pool : ClearPool) (txIds : List TxId) : List TxId × ClearPool :=
  txIds.foldl
    (fun acc txId =>
      match acc.2.remove txId with
      | (some _, pool') => (acc.1 ++ [txId], pool')
      | (none, pool') => (acc.1, pool'))
    ([], pool)

/-- Drop every transaction that spends one of the outpoints a block has spent. The ids are looked up before the first of them is removed. -/
def removeConfirmed (pool : ClearPool) (spent : Std.ExtTreeSet OutPoint) : List TxId × ClearPool :=
  pool.removeAll (spent.toList.filterMap fun outpoint => pool.spentOutpoints[outpoint]?)

/-- Drop every transaction that was added before the age limit, and count them. -/
def evictExpired (pool : ClearPool) (now : UInt64) : Nat × ClearPool :=
  let cutoff := Word.saturatingSub now pool.config.maxAgeSecs
  let expiredIds := (pool.byId.values.filter fun entry => decide (entry.addedAt < cutoff)).map MempoolEntry.txId
  (expiredIds.length, (pool.removeAll expiredIds).2)

/-- Drop the last transaction of the priority index and say whether there was one. -/
def evictLowestFee (pool : ClearPool) : Bool × ClearPool :=
  match pool.byPriority.maxKey? with
  | none => (false, pool)
  | some key => (true, (pool.remove key.txId).2)

/-! ### Adding -/

/-- One round of the capacity loop: stop when there is room or nothing is left to evict. -/
def makeRoomStep (size : UInt64) (pool : ClearPool) : ClearPool ⊕ (Except MempoolError Unit × ClearPool) :=
  if pool.byId.size ≥ pool.config.maxTxCount.toNat ∨
      Word.saturatingAdd pool.totalBytes size > pool.config.maxPoolBytes then
    match pool.evictLowestFee with
    | (true, pool') => .inl pool'
    | (false, pool') => .inr (.error .poolFull, pool')
  else .inr (.ok (), pool)

/-- The capacity loop. There is no result when it does not end, which an id that only the priority index knows would cause. -/
def makeRoom (pool : ClearPool) (size : UInt64) : Option (Except MempoolError Unit × ClearPool) :=
  Loop.run (makeRoomStep size) (pool.byPriority.size + 1) pool

def insertEntry (pool : ClearPool) (entry : MempoolEntry) : ClearPool :=
  { pool with
    byId := pool.byId.insert entry.txId entry
    byPriority := pool.byPriority.insert (.fromEntry entry) entry.txId
    spentOutpoints := insertAll pool.spentOutpoints (entry.tx.spends.map fun outpoint => (outpoint, entry.txId))
    totalBytes := Word.saturatingAdd pool.totalBytes entry.size }

/-- The pooled transaction that already spends one of the outpoints, the first in input order. -/
def findDoubleSpend (pool : ClearPool) (tx : Transaction) : Option (OutPoint × TxId) :=
  tx.spends.findSome? fun outpoint => pool.spentOutpoints[outpoint]?.map fun txId => (outpoint, txId)

/-- Add an entry, evicting expired transactions first and then the cheapest ones until it fits. -/
def add (pool : ClearPool) (now : UInt64) (entry : MempoolEntry) : Option (Except MempoolError TxId × ClearPool) :=
  if entry.txId ∈ pool.byId then some (.error (.duplicateTx entry.txId), pool)
  else if entry.fee < pool.config.minFee then some (.error (.feeTooLow entry.fee pool.config.minFee), pool)
  else
    match pool.findDoubleSpend entry.tx with
    | some (outpoint, existingTx) => some (.error (.doubleSpend outpoint existingTx), pool)
    | none =>
        match (pool.evictExpired now).2.makeRoom entry.size with
        | none => none
        | some (.error e, pool') => some (.error e, pool')
        | some (.ok (), pool') => some (.ok entry.txId, pool'.insertEntry entry)

/-! ### Reading -/

def getBatch (pool : ClearPool) (n : Nat) : List MempoolEntry :=
  ((pool.byPriority.toList.map Prod.snd).take n).filterMap fun txId => pool.byId[txId]?

def allSorted (pool : ClearPool) : List MempoolEntry :=
  (pool.byPriority.toList.map Prod.snd).filterMap fun txId => pool.byId[txId]?

end ClearPool

end QuantumVault
