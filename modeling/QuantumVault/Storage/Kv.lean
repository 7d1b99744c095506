import QuantumVault.Lib.Encoding
import QuantumVault.Lib.Result
import QuantumVault.Storage.BlockStore

/-!
# The key-value store

An ordered map of byte strings, with batches of writes and scans of the keys that start with given bytes. Every store of the node is a view of one such map. The lock around it has no counterpart in a sequential model, and serialisation in memory cannot fail.
-/

namespace QuantumVault

open Result

/-- Failures of a store that keeps bytes: those of the store above it, a value that cannot be read back, and a key or a value of the wrong shape. -/
inductive KvError where
  | storage (source : StorageError)
  | decode
  | corrupted (what : String)
deriving DecidableEq

inductive BatchOp where
  | put (key value : Bytes)
  | delete (key : Bytes)
deriving DecidableEq

/-- The in-memory backend. -/
abbrev KvStore := Std.ExtTreeMap Bytes Bytes

namespace KvStore

def get (kv : KvStore) (key : Bytes) : Option Bytes := kv[key]?

def put (kv : KvStore) (key value : Bytes) : KvStore := kv.insert key value

def delete (kv : KvStore) (key : Bytes) : KvStore := kv.erase key

def apply (kv : KvStore) : BatchOp → KvStore
  | .put key value => kv.put key value
  | .delete key => kv.delete key

/-- The operations of a batch, in their order. -/
def writeBatch (kv : KvStore) (batch : List BatchOp) : KvStore := batch.foldl apply kv

/-- The entries from the given bytes on, up to the first key that does not start with them. -/
def scanPrefix (kv : KvStore) (start : Bytes) : List (Bytes × Bytes) :=
  (kv.toList.dropWhile fun entry => compare entry.1 start == .lt).takeWhile fun entry => start.isPrefixOf entry.1

/-- Read a value back. Bytes after it are ignored. -/
def decode {α : Type} (read : Bytes → Option (α × Bytes)) (bytes : Bytes) : Except KvError α :=
  okOr ((read bytes).map Prod.fst) .decode

end KvStore

end QuantumVault
