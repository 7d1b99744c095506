import QuantumVault.Storage.KvUtxoStore
import QuantumVault.Storage.StateStore

/-!
# All stores of a node

The UTXO store, the block store and the state store, once as tables and once as views of one key-value store, and their mutating calls. A call that fails leaves the stores as they were.
-/

namespace QuantumVault

open Result

namespace UtxoStore

def insertEntry (s : UtxoStore) (outpoint : OutPoint) (output : TxOutput) : Except StorageError UtxoStore := do
  require (outpoint ∉ s.entries) (.alreadyExists "utxo outpoint")
  return { s with entries := s.entries.insert outpoint output }

def removeEntry (s : UtxoStore) (outpoint : OutPoint) : UtxoStore × Option TxOutput :=
  ({ s with entries := s.entries.erase outpoint }, s.get outpoint)

end UtxoStore

/-- The records of the state store. -/
structure StateRecords where
  chainEntries : Std.ExtTreeMap BlockHash ChainEntry
  tipHash : Option BlockHash
  ledgerState : Option LedgerState
  epochSnapshots : Std.ExtTreeMap Epoch EpochSnapshot

structure Stores where
  utxo : UtxoStore
  blocks : BlockStore
  state : StateRecords

def Stores.new : Stores := ⟨.new, .new, ⟨∅, none, none, ∅⟩⟩

inductive StoreCall where
  | insert (outpoint : OutPoint) (output : TxOutput)
  | remove (outpoint : OutPoint)
  | applyBlock (block : Block)
  | revertBlock (block : Block)
  | createSnapshot (snapshotId : Bytes)
  | restoreSnapshot (snapshotId : Bytes)
  | rollbackToSnapshot (snapshotId : Bytes)
  | putBlock (block : Block)
  | putChainEntry (entry : ChainEntry)
  | setTipHash (hash : BlockHash)
  | putLedgerState (state : LedgerState)
  | putEpochSnapshot (snapshot : EpochSnapshot)

/-- What a call returns besides its effect. -/
inductive StoreReply where
  | done
  | removed (output : Option TxOutput)
  | stored (hash : BlockHash)
deriving DecidableEq

/-- The state after a call that either fails or gives a new state. -/
def answer {σ ε : Type} (before : σ) (reply : StoreReply) : Except ε σ → σ × Except ε StoreReply
  | .ok after => (after, .ok reply)
  | .error e => (before, .error e)

variable [Crypto]

namespace Stores

def call (s : Stores) : StoreCall → Stores × Except StorageError StoreReply
  | .insert outpoint output =>
      answer s .done ((s.utxo.insertEntry outpoint output).map fun utxo => { s with utxo })
  | .remove outpoint => ({ s with utxo := (s.utxo.removeEntry outpoint).1 }, .ok (.removed (s.utxo.removeEntry outpoint).2))
  | .applyBlock block => answer s .done ((s.utxo.applyBlock block).map fun utxo => { s with utxo })
  | .revertBlock block => answer s .done ((s.utxo.revertBlock block).map fun utxo => { s with utxo })
  | .createSnapshot snapshotId => answer s .done ((s.utxo.createSnapshot snapshotId).map fun utxo => { s with utxo })
  | .restoreSnapshot snapshotId => answer s .done ((s.utxo.restoreSnapshot snapshotId).map fun utxo => { s with utxo })
  | .rollbackToSnapshot snapshotId => answer s .done ((s.utxo.restoreSnapshot snapshotId).map fun utxo => { s with utxo })
  | .putBlock block => answer s (.stored block.hash) ((s.blocks.putBlock block).map fun blocks => { s with blocks })
  | .putChainEntry entry =>
      ({ s with state.chainEntries := s.state.chainEntries.insert entry.hash entry }, .ok .done)
  | .setTipHash hash => ({ s with state.tipHash := some hash }, .ok .done)
  | .putLedgerState state => ({ s with state.ledgerState := some state }, .ok .done)
  | .putEpochSnapshot snapshot =>
      ({ s with state.epochSnapshots := s.state.epochSnapshots.insert snapshot.epoch snapshot }, .ok .done)

/-- The calls in turn, with what each of them answers. -/
def calls (s : Stores) : List StoreCall → Stores × List (Except StorageError StoreReply)
  | [] => (s, [])
  | c :: cs =>
      let (s, reply) := s.call c
      let (s, replies) := s.calls cs
      (s, reply :: replies)

end Stores

namespace KvStore

def call (kv : KvStore) : StoreCall → KvStore × Except KvError StoreReply
  | .insert outpoint output => answer kv .done (KvUtxoStore.insert kv outpoint output)
  | .remove outpoint =>
      let (kv, output) := KvUtxoStore.remove kv outpoint
      (kv, output.map .removed)
  | .applyBlock block => answer kv .done (KvUtxoStore.applyBlock kv block)
  | .revertBlock block => answer kv .done (KvUtxoStore.revertBlock kv block)
  | .createSnapshot snapshotId => answer kv .done (KvUtxoStore.createSnapshot kv snapshotId)
  | .restoreSnapshot snapshotId => answer kv .done (KvUtxoStore.restoreSnapshot kv snapshotId)
  | .rollbackToSnapshot snapshotId => answer kv .done (KvUtxoStore.rollbackToSnapshot kv snapshotId)
  | .putBlock block => answer kv (.stored block.hash) (KvBlockStore.putBlock kv block)
  | .putChainEntry entry => (StateStore.putChainEntry kv entry, .ok .done)
  | .setTipHash hash => (StateStore.setTipHash kv hash, .ok .done)
  | .putLedgerState state => (StateStore.putLedgerState kv state, .ok .done)
  | .putEpochSnapshot snapshot => (StateStore.putEpochSnapshot kv snapshot, .ok .done)

def calls (kv : KvStore) : List StoreCall → KvStore × List (Except KvError StoreReply)
  | [] => (kv, [])
  | c :: cs =>
      let (kv, reply) := kv.call c
      let (kv, replies) := kv.calls cs
      (kv, reply :: replies)

end KvStore

end QuantumVault
