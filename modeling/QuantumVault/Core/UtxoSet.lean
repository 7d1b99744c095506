import QuantumVault.Core.Block

/-!
# The UTXO set

The reference set is a sorted map from outpoints to outputs, so that iterating over it needs no further sorting. Its commitment is the Merkle root over one leaf per entry, in key order.
-/

namespace QuantumVault

/-- Sorted map from outpoints to unspent outputs. -/
abbrev UtxoMap := Std.ExtTreeMap OutPoint TxOutput

inductive UtxoError where
  | duplicateOutPoint
  | notFound
deriving DecidableEq

namespace InMemoryUtxoSet

def insert (set : UtxoMap) (outpoint : OutPoint) (output : TxOutput) : Except UtxoError UtxoMap :=
  if outpoint ∈ set then .error .duplicateOutPoint else .ok (set.insert outpoint output)

def remove (set : UtxoMap) (outpoint : OutPoint) : Except UtxoError (TxOutput × UtxoMap) :=
  match set[outpoint]? with
  | some output => .ok (output, set.erase outpoint)
  | none => .error .notFound

end InMemoryUtxoSet

variable [Crypto]

def commitmentLeaf (entry : OutPoint × TxOutput) : Hash256 :=
  sha3_256 (entry.1.canonicalBytes ++ entry.2.encode)

def commitmentRootOfSortedEntries (entries : List (OutPoint × TxOutput)) : UtxoCommitment :=
  merkleRootOf (entries.map commitmentLeaf)

def commitmentRoot (set : UtxoMap) : UtxoCommitment :=
  commitmentRootOfSortedEntries set.toList

end QuantumVault
