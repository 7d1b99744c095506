import QuantumVault.Core.Transaction

/-!
# Blocks

Headers, bodies, the Bitcoin-style Merkle root over transaction ids, and the structural validation of a block, which needs no chain state.
-/

namespace QuantumVault

open Result

def blockVersion : UInt32 := 1

structure BlockHeader where
  version : UInt32
  prevHash : BlockHash
  height : Height
  slot : Slot
  timestamp : Timestamp
  merkleRoot : MerkleRoot
  utxoCommitment : UtxoCommitment
  vrfProof : Bytes
  kesSig : Bytes
  producerKeyHash : Hash256
deriving DecidableEq

/-- Header of a block at height 0, before its Merkle root is filled in. -/
def BlockHeader.genesisTemplate : BlockHeader where
  version := blockVersion
  prevHash := .zero
  height := 0
  slot := 0
  timestamp := 0
  merkleRoot := .zero
  utxoCommitment := .zero
  vrfProof := []
  kesSig := []
  producerKeyHash := .zero

def BlockHeader.canonicalBytes (h : BlockHeader) : Bytes :=
  Encode.u32 h.version ++ h.prevHash.bytes ++ Encode.u64 h.height ++ Encode.u64 h.slot ++
    Encode.u64 h.timestamp ++ h.merkleRoot.bytes ++ h.utxoCommitment.bytes ++ Encode.bytes h.vrfProof ++
    Encode.bytes h.kesSig ++ h.producerKeyHash.bytes

structure Block where
  header : BlockHeader
  transactions : List Transaction
deriving DecidableEq

inductive BlockError where
  | invalidTransaction (index : Nat) (source : TransactionError)
  | duplicateTx
  | merkleRootMismatch
deriving DecidableEq

variable [Crypto]

def BlockHeader.hash (h : BlockHeader) : BlockHash := sha3_256 h.canonicalBytes

/-! ### Merkle root -/

/-- One level of the tree: neighbours are hashed together, and an odd last node is hashed with itself. -/
def merkleLevel : List Hash256 → List Hash256
  | [] => []
  | [last] => [sha3_256 (last.bytes ++ last.bytes)]
  | left :: right :: rest => sha3_256 (left.bytes ++ right.bytes) :: merkleLevel rest

/-- Levels are built until one node is left. Each level is at most half as long, rounded up, so the length of the first level bounds the number of rounds. -/
def merkleReduce : (rounds : Nat) → List Hash256 → List Hash256
  | 0, level => level
  | rounds + 1, level => if level.length > 1 then merkleReduce rounds (merkleLevel level) else level

def merkleRootOf (ids : List Hash256) : Hash256 :=
  if ids.isEmpty then .zero else (merkleReduce ids.length ids).headD .zero

/-! ### Structural validation -/

namespace Block

def hash (b : Block) : BlockHash := b.header.hash

def txIds (b : Block) : List TxId := b.transactions.map Transaction.id

/-- The rules for the transaction at one position of a block: without inputs it is an allocation at height 0, a coinbase at position 0 and an error elsewhere. -/
def validateTransactionAt (height : Height) (index : Nat) (tx : Transaction) : Except TransactionError Unit :=
  if tx.inputs.isEmpty then
    if height = 0 then require (tx.outputs ≠ []) .noOutputs
    else if index = 0 then tx.validateCoinbaseStructure height
    else .error .noInputs
  else tx.validateStructure

def validateStructure (b : Block) : Except BlockError Unit := do
  b.transactions.zipIdx.forM fun (tx, index) =>
    (validateTransactionAt b.header.height index tx).mapError (.invalidTransaction index)
  require (¬ Sorting.hasAdjacentEqual (Sorting.sorted b.txIds)) .duplicateTx
  require (merkleRootOf b.txIds = b.header.merkleRoot) .merkleRootMismatch

end Block

end QuantumVault
