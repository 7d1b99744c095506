import QuantumVault.Core.Decode
import QuantumVault.Storage.Kv
import QuantumVault.Storage.UtxoStore

/-!
# The UTXO store on bytes

The UTXO store as it is kept: every outpoint, undo log, snapshot and creation height is a key of one key-value store, and every value is a byte string that is read back when it is needed.
-/

namespace QuantumVault

open Result TreeMap

/-! ### Records -/

namespace UndoLog

def encodeEntry (entry : OutPoint × TxOutput) : Bytes := entry.1.encode ++ entry.2.encode

def decodeEntry (input : Bytes) : Option ((OutPoint × TxOutput) × Bytes) := do
  let (outpoint, rest) ← OutPoint.decode input
  let (output, rest) ← TxOutput.decode rest
  return ((outpoint, output), rest)

def encodeHeight (entry : OutPoint × UInt64) : Bytes := entry.1.encode ++ Encode.u64 entry.2

def decodeHeight (input : Bytes) : Option ((OutPoint × UInt64) × Bytes) := do
  let (outpoint, rest) ← OutPoint.decode input
  let (height, rest) ← Decode.u64 rest
  return ((outpoint, height), rest)

def encode (undo : UndoLog) : Bytes :=
  Encode.seq encodeEntry undo.spent ++ Encode.seq encodeHeight undo.spentCoinbaseHeights

def decode (input : Bytes) : Option (UndoLog × Bytes) := do
  let (spent, rest) ← Decode.seq decodeEntry input
  let (spentCoinbaseHeights, rest) ← Decode.seq decodeHeight rest
  return (⟨spent, spentCoinbaseHeights⟩, rest)

end UndoLog

namespace KvUtxoStore

/-! ### Keys -/

def utxoEntryPrefix : Bytes := ascii "utxo:entry:"

def utxoUndoPrefix : Bytes := ascii "utxo:undo:"

def utxoSnapshotPrefix : Bytes := ascii "utxo:snapshot:"

def utxoCoinbaseHeightPrefix : Bytes := ascii "utxo:cbh:"

def keyOutpoint (outpoint : OutPoint) : Bytes := utxoEntryPrefix ++ outpoint.canonicalBytes

def keyUndo (blockHash : BlockHash) : Bytes := utxoUndoPrefix ++ blockHash.bytes

def keyCoinbaseHeight (outpoint : OutPoint) : Bytes := utxoCoinbaseHeightPrefix ++ outpoint.canonicalBytes

def keySnapshot (snapshotId : Bytes) : Bytes := utxoSnapshotPrefix ++ snapshotId

def outpointFromKey (key : Bytes) : Except KvError OutPoint := do
  require (utxoEntryPrefix <+: key) (.corrupted "invalid utxo key prefix")
  let raw := key.drop utxoEntryPrefix.length
  if h : raw.length = 36 then
    return ⟨⟨raw.take 32, by rw [List.length_take, h]; rfl⟩, UInt32.ofNat (ofLittleEndian (raw.drop 32))⟩
  else .error (.corrupted "invalid utxo key length")

/-! ### Reading -/

def get (kv : KvStore) (outpoint : OutPoint) : Except KvError (Option TxOutput) :=
  match kv.get (keyOutpoint outpoint) with
  | none => return none
  | some bytes => do
      let output ← KvStore.decode TxOutput.decode bytes
      return some output

def contains (kv : KvStore) (outpoint : OutPoint) : Except KvError Bool := do
  let output ← get kv outpoint
  return output.isSome

def len (kv : KvStore) : Nat := (kv.scanPrefix utxoEntryPrefix).length

def isEmpty (kv : KvStore) : Bool := len kv == 0

/-- One scanned pair. -/
def entry (pair : Bytes × Bytes) : Except KvError (OutPoint × TxOutput) := do
  let outpoint ← outpointFromKey pair.1
  let output ← KvStore.decode TxOutput.decode pair.2
  return (outpoint, output)

def entries (kv : KvStore) : Except KvError (List (OutPoint × TxOutput)) :=
  (kv.scanPrefix utxoEntryPrefix).mapM entry

def commitmentRoot [Crypto] (kv : KvStore) : Except KvError UtxoCommitment := do
  let found ← entries kv
  return commitmentRootOfSortedEntries (insertAll (∅ : UtxoMap) found).toList

def coinbaseHeight (kv : KvStore) (outpoint : OutPoint) : Except KvError (Option UInt64) :=
  match kv.get (keyCoinbaseHeight outpoint) with
  | none => return none
  | some bytes => do
      let height ← KvStore.decode Decode.u64 bytes
      return some height

/-! ### Single entries -/

def insert (kv : KvStore) (outpoint : OutPoint) (output : TxOutput) : Except KvError KvStore := do
  require (kv.get (keyOutpoint outpoint) = none) (.storage (.alreadyExists "utxo outpoint"))
  return kv.put (keyOutpoint outpoint) output.encode

/-- The entry is gone before its bytes are read, so a value that cannot be read is lost with the error. -/
def remove (kv : KvStore) (outpoint : OutPoint) : KvStore × Except KvError (Option TxOutput) :=
  match kv.get (keyOutpoint outpoint) with
  | none => (kv, .ok none)
  | some bytes => (kv.delete (keyOutpoint outpoint), some <$> KvStore.decode TxOutput.decode bytes)

/-! ### Staging a block -/

open UtxoStore (Staging isCoinbaseAt)

def consumeInput (kv : KvStore) (st : Staging) (input : TxInput) : Except KvError Staging :=
  let outpoint := input.prevOutput
  if outpoint ∈ st.consumed then .error (.storage (.invalidInput "double spend inside block"))
  else
    let st := { st with consumed := outpoint :: st.consumed }
    if outpoint ∈ st.stagedNew then .ok { st with stagedNew := st.stagedNew.erase outpoint }
    else
      match kv.get (keyOutpoint outpoint) with
      | none => .error (.storage (.notFound "input outpoint"))
      | some bytes => do
          let prevOutput ← KvStore.decode TxOutput.decode bytes
          return { st with spent := st.spent ++ [(outpoint, prevOutput)] }

def produceOutput (kv : KvStore) (txId : TxId) (st : Staging) (output : TxOutput × Nat) : Except KvError Staging := do
  let outpoint ← okOr (OutPoint.ofPosition txId output.2) (.storage (.invalidInput "output index overflow"))
  require (¬ (outpoint ∈ st.consumed ∨ outpoint ∈ st.stagedNew)) (.storage (.alreadyExists "new utxo outpoint collision"))
  require (kv.get (keyOutpoint outpoint) = none) (.storage (.alreadyExists "new utxo outpoint collision"))
  return { st with stagedNew := st.stagedNew.insert outpoint output.1 }

variable [Crypto]

def stageTransaction (kv : KvStore) (height : Height) (st : Staging) (tx : Transaction × Nat) : Except KvError Staging := do
  let st ← tx.1.inputs.foldlM (consumeInput kv) st
  let st ← tx.1.outputs.zipIdx.foldlM (produceOutput kv tx.1.id) st
  if isCoinbaseAt height tx.1 tx.2 then
    let outpoints ← tx.1.outputs.zipIdx.mapM fun output =>
      okOr (OutPoint.ofPosition tx.1.id output.2) (.storage (.invalidInput "output index overflow"))
    return { st with coinbaseOutpoints := st.coinbaseOutpoints ++ outpoints }
  else return st

def stageBlock (kv : KvStore) (block : Block) : Except KvError Staging :=
  block.transactions.zipIdx.foldlM (stageTransaction kv block.header.height) .empty

/-! ### Applying and reverting -/

/-- Delete a spent entry, and its creation height if it has one. The heights are kept for the undo log. -/
def deleteSpent (kv : KvStore) (acc : List BatchOp × List (OutPoint × UInt64)) (spent : OutPoint × TxOutput) :
    Except KvError (List BatchOp × List (OutPoint × UInt64)) :=
  let batch := acc.1 ++ [.delete (keyOutpoint spent.1)]
  match kv.get (keyCoinbaseHeight spent.1) with
  | none => return (batch, acc.2)
  | some bytes => do
      let height ← KvStore.decode Decode.u64 bytes
      return (batch ++ [.delete (keyCoinbaseHeight spent.1)], acc.2 ++ [(spent.1, height)])

def putEntry (entry : OutPoint × TxOutput) : BatchOp := .put (keyOutpoint entry.1) entry.2.encode

def putHeight (entry : OutPoint × UInt64) : BatchOp := .put (keyCoinbaseHeight entry.1) (Encode.u64 entry.2)

def applyBlock (kv : KvStore) (block : Block) : Except KvError KvStore := do
  block.validateStructure.mapError fun e => .storage (.block e)
  let st ← stageBlock kv block
  let (batch, spentCoinbaseHeights) ← st.spent.foldlM (deleteSpent kv) ([], [])
  let created := st.coinbaseOutpoints.filter fun outpoint => decide (outpoint ∈ st.stagedNew)
  let undo : UndoLog := ⟨st.spent, spentCoinbaseHeights⟩
  return kv.writeBatch (batch ++ st.stagedNew.toList.map putEntry ++
    created.map (fun outpoint => putHeight (outpoint, block.header.height)) ++ [.put (keyUndo block.hash) undo.encode])

def deleteOutput (txId : TxId) (isCoinbase : Bool) (batch : List BatchOp) (output : TxOutput × Nat) :
    Except KvError (List BatchOp) := do
  let outpoint ← okOr (OutPoint.ofPosition txId output.2) (.storage (.invalidInput "output index overflow"))
  let batch := batch ++ [.delete (keyOutpoint outpoint)]
  return if isCoinbase then batch ++ [.delete (keyCoinbaseHeight outpoint)] else batch

def deleteOutputs (height : Height) (batch : List BatchOp) (tx : Transaction × Nat) : Except KvError (List BatchOp) :=
  tx.1.outputs.zipIdx.foldlM (deleteOutput tx.1.id (isCoinbaseAt height tx.1 tx.2)) batch

def revertBlock (kv : KvStore) (block : Block) : Except KvError KvStore := do
  let undoBytes ← okOr (kv.get (keyUndo block.hash)) (.storage (.notFound "utxo undo log"))
  let undo ← KvStore.decode UndoLog.decode undoBytes
  let batch ← block.transactions.zipIdx.foldlM (deleteOutputs block.header.height) []
  return kv.writeBatch (batch ++ undo.spent.map putEntry ++ undo.spentCoinbaseHeights.map putHeight ++
    [.delete (keyUndo block.hash)])

/-! ### Snapshots -/

omit [Crypto]

def createSnapshot (kv : KvStore) (snapshotId : Bytes) : Except KvError KvStore := do
  require (snapshotId ≠ []) (.storage (.invalidInput "snapshot id must not be empty"))
  require (kv.get (keySnapshot snapshotId) = none) (.storage (.alreadyExists "utxo snapshot id"))
  let found ← entries kv
  return kv.put (keySnapshot snapshotId) (Encode.seq UndoLog.encodeEntry found)

def restoreSnapshot (kv : KvStore) (snapshotId : Bytes) : Except KvError KvStore := do
  require (snapshotId ≠ []) (.storage (.invalidInput "snapshot id must not be empty"))
  let bytes ← okOr (kv.get (keySnapshot snapshotId)) (.storage (.notFound "utxo snapshot"))
  let kept ← KvStore.decode (Decode.seq UndoLog.decodeEntry) bytes
  return kv.writeBatch ((kv.scanPrefix utxoEntryPrefix).map (fun pair => .delete pair.1) ++ kept.map putEntry)

def rollbackToSnapshot (kv : KvStore) (snapshotId : Bytes) : Except KvError KvStore := restoreSnapshot kv snapshotId

end KvUtxoStore

end QuantumVault
