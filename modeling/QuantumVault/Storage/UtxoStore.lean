import QuantumVault.Core.UtxoSet
import QuantumVault.Lib.TreeMap
import QuantumVault.Storage.BlockStore

/-!
# The UTXO store

The persistent set of unspent outputs with its three side tables: the creation heights of live coinbase outputs, one undo log per applied block, and named snapshots. Each table has its own key prefix in the key-value store, so each is a map of its own here. A block is staged in memory first and written in one batch, so a block that is refused leaves the store as it was.
-/

namespace QuantumVault

open Result TreeMap

/-- What is needed to take one applied block back. -/
structure UndoLog where
  spent : List (OutPoint × TxOutput)
  spentCoinbaseHeights : List (OutPoint × UInt64)
deriving DecidableEq

@[ext] structure UtxoStore where
  entries : UtxoMap
  coinbaseHeights : Std.ExtTreeMap OutPoint UInt64
  undo : Std.ExtTreeMap BlockHash UndoLog
  snapshots : Std.ExtTreeMap Bytes (List (OutPoint × TxOutput))

namespace UtxoStore

def new : UtxoStore := ⟨∅, ∅, ∅, ∅⟩

def get (s : UtxoStore) (outpoint : OutPoint) : Option TxOutput := s.entries[outpoint]?

def len (s : UtxoStore) : Nat := s.entries.size

/-- Creation height of a live coinbase output. -/
def coinbaseHeight (s : UtxoStore) (outpoint : OutPoint) : Option UInt64 := s.coinbaseHeights[outpoint]?

/-! ### Snapshots -/

def createSnapshot (s : UtxoStore) (id : Bytes) : Except StorageError UtxoStore := do
  require (id ≠ []) (.invalidInput "snapshot id must not be empty")
  require (id ∉ s.snapshots) (.alreadyExists "utxo snapshot id")
  return { s with snapshots := s.snapshots.insert id s.entries.toList }

/-- Put the entries of a snapshot in place of the current ones. No other table is touched. -/
def restoreSnapshot (s : UtxoStore) (id : Bytes) : Except StorageError UtxoStore := do
  require (id ≠ []) (.invalidInput "snapshot id must not be empty")
  let snapshot ← okOr s.snapshots[id]? (.notFound "utxo snapshot")
  return { s with entries := insertAll (eraseAll s.entries s.entries.keys) snapshot }

/-! ### Staging a block -/

/-- The pending effects of the transactions seen so far. -/
structure Staging where
  spent : List (OutPoint × TxOutput)
  consumed : List OutPoint
  stagedNew : UtxoMap
  coinbaseOutpoints : List OutPoint

def Staging.empty : Staging := ⟨[], [], ∅, []⟩

def consumeInput (entries : UtxoMap) (st : Staging) (input : TxInput) : Except StorageError Staging :=
  let outpoint := input.prevOutput
  if outpoint ∈ st.consumed then .error (.invalidInput "double spend inside block")
  else
    let st := { st with consumed := outpoint :: st.consumed }
    if outpoint ∈ st.stagedNew then .ok { st with stagedNew := st.stagedNew.erase outpoint }
    else
      match entries[outpoint]? with
      | none => .error (.notFound "input outpoint")
      | some prevOutput => .ok { st with spent := st.spent ++ [(outpoint, prevOutput)] }

/-- Stage one output. An outpoint that is live, staged or already consumed by this block is a collision. -/
def produceOutput (entries : UtxoMap) (txId : TxId) (st : Staging) (output : TxOutput × Nat) :
    Except StorageError Staging := do
  let outpoint ← okOr (OutPoint.ofPosition txId output.2) (.invalidInput "output index overflow")
  require (¬ (outpoint ∈ st.consumed ∨ outpoint ∈ st.stagedNew)) (.alreadyExists "new utxo outpoint collision")
  require (outpoint ∉ entries) (.alreadyExists "new utxo outpoint collision")
  return { st with stagedNew := st.stagedNew.insert outpoint output.1 }

/-- Whether the transaction at a position of a block is its coinbase. -/
def isCoinbaseAt (height : Height) (tx : Transaction) (index : Nat) : Bool :=
  index == 0 && decide (height > 0) && tx.inputs.isEmpty

/-- Delete one output of a block that is being reverted, and its creation height if it belongs to the coinbase. -/
def deleteOutput (txId : TxId) (isCoinbase : Bool) (s : UtxoStore) (output : TxOutput × Nat) :
    Except StorageError UtxoStore := do
  let outpoint ← okOr (OutPoint.ofPosition txId output.2) (.invalidInput "output index overflow")
  return { s with
    entries := s.entries.erase outpoint
    coinbaseHeights := if isCoinbase then s.coinbaseHeights.erase outpoint else s.coinbaseHeights }

variable [Crypto]

/-- Commitment root of the persistent set: the scanned entries are sorted once more and hashed. -/
def commitmentRoot (s : UtxoStore) : UtxoCommitment :=
  commitmentRootOfSortedEntries (insertAll (∅ : UtxoMap) s.entries.toList).toList

def stageTransaction (entries : UtxoMap) (height : Height) (st : Staging) (tx : Transaction × Nat) :
    Except StorageError Staging := do
  let st ← tx.1.inputs.foldlM (consumeInput entries) st
  let st ← tx.1.outputs.zipIdx.foldlM (produceOutput entries tx.1.id) st
  if isCoinbaseAt height tx.1 tx.2 then
    let outpoints ← tx.1.outputs.zipIdx.mapM fun output =>
      okOr (OutPoint.ofPosition tx.1.id output.2) (.invalidInput "output index overflow")
    return { st with coinbaseOutpoints := st.coinbaseOutpoints ++ outpoints }
  else return st

def stageBlock (entries : UtxoMap) (block : Block) : Except StorageError Staging :=
  block.transactions.zipIdx.foldlM (stageTransaction entries block.header.height) .empty

/-! ### Applying and reverting -/

/-- The batch of an accepted block: spent outputs and their creation heights go, staged outputs come, the coinbase outputs that are still staged get a creation height, and the undo log is written. -/
def writeBlock (s : UtxoStore) (block : Block) (st : Staging) : UtxoStore :=
  let spentCoinbaseHeights := st.spent.filterMap fun entry =>
    (s.coinbaseHeight entry.1).map fun height => (entry.1, height)
  let created := st.coinbaseOutpoints.filter fun outpoint => decide (outpoint ∈ st.stagedNew)
  { s with
    entries := insertAll (eraseAll s.entries (st.spent.map Prod.fst)) st.stagedNew.toList
    coinbaseHeights := insertAll (eraseAll s.coinbaseHeights (spentCoinbaseHeights.map Prod.fst))
      (created.map fun outpoint => (outpoint, block.header.height))
    undo := s.undo.insert block.hash ⟨st.spent, spentCoinbaseHeights⟩ }

def applyBlock (s : UtxoStore) (block : Block) : Except StorageError UtxoStore := do
  block.validateStructure.mapError .block
  let st ← stageBlock s.entries block
  return s.writeBlock block st

def deleteOutputs (height : Height) (s : UtxoStore) (tx : Transaction × Nat) : Except StorageError UtxoStore :=
  tx.1.outputs.zipIdx.foldlM (deleteOutput tx.1.id (isCoinbaseAt height tx.1 tx.2)) s

/-- Take an applied block back with the help of its undo log. -/
def revertBlock (s : UtxoStore) (block : Block) : Except StorageError UtxoStore := do
  let undo ← okOr s.undo[block.hash]? (.notFound "utxo undo log")
  let s ← block.transactions.zipIdx.foldlM (deleteOutputs block.header.height) s
  return { s with
    entries := insertAll s.entries undo.spent
    coinbaseHeights := insertAll s.coinbaseHeights undo.spentCoinbaseHeights
    undo := s.undo.erase block.hash }

end UtxoStore

end QuantumVault
