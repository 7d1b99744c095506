import QuantumVault.Core.Kes
import QuantumVault.Node.Node

/-!
# Block production

The producer takes transactions from the mempool, runs them on an in-memory copy of the UTXO set to learn the fees and the resulting commitment, puts a coinbase in front if it has a reward to claim, and builds a header on the current tip. The finished block is handed to the node's event loop like any block from a peer. The producer has its own fee sum and its own Merkle code.
-/

namespace QuantumVault

open Result

inductive SlotTickerError where
  | transactionError
  | blockValidation
  | storage
  | kesSignFailed
  /-- The process stops here: the height after the tip does not fit its word. -/
  | abort
deriving DecidableEq

/-- What the producer needs to mint its reward. -/
structure CoinbaseConfig where
  rewardPubkeyHash : Hash256
  monetary : MonetaryParams
deriving DecidableEq

/-- The producer's own settings. The signing key is a function from the bytes to sign to the encoded signature, which may fail. -/
structure SlotTicker where
  poolId : Hash256
  kesSk : Option (Bytes → Option Bytes)
  coinbase : Option CoinbaseConfig

/-- Result of running transactions on a copy of the UTXO set. -/
structure SpeculativeApplyOutcome where
  set : UtxoMap
  totalFees : Amount

namespace SlotTicker

/-! ### Speculative application -/

def snapshot (utxoStore : UtxoStore) : Except SlotTickerError UtxoMap :=
  utxoStore.entries.toList.foldlM
    (fun set entry => (InMemoryUtxoSet.insert set entry.1 entry.2).mapError fun _ => .storage) ∅

def removeInput (acc : UtxoMap × Amount) (input : TxInput) : Except SlotTickerError (UtxoMap × Amount) := do
  let (prev, set) ← (InMemoryUtxoSet.remove acc.1 input.prevOutput).mapError fun _ => .transactionError
  let inputSum ← okOr (Word.checkedAdd acc.2 prev.value) .transactionError
  return (set, inputSum)

def insertOutput (txId : TxId) (set : UtxoMap) (output : TxOutput × Nat) : Except SlotTickerError UtxoMap := do
  let outpoint ← okOr (OutPoint.ofPosition txId output.2) .transactionError
  (InMemoryUtxoSet.insert set outpoint output.1).mapError fun _ => .transactionError

/-- The fees with the fee of one more transaction; a transaction without inputs pays none. -/
def addFee (tx : Transaction) (inputSum totalFees : Amount) : Except SlotTickerError Amount :=
  if tx.inputs.isEmpty then .ok totalFees
  else do
    let outputSum ← okOr (Word.checkedSum tx.outputValues) .transactionError
    let fee ← okOr (Word.checkedSub inputSum outputSum) .transactionError
    okOr (Word.checkedAdd totalFees fee) .transactionError

variable [Crypto]

def applyTransaction (outcome : SpeculativeApplyOutcome) (tx : Transaction) :
    Except SlotTickerError SpeculativeApplyOutcome := do
  let (set, inputSum) ← tx.inputs.foldlM removeInput (outcome.set, 0)
  let set ← tx.outputs.zipIdx.foldlM (insertOutput tx.id) set
  let totalFees ← addFee tx inputSum outcome.totalFees
  return ⟨set, totalFees⟩

def speculativeApply (utxoStore : UtxoStore) (transactions : List Transaction) :
    Except SlotTickerError SpeculativeApplyOutcome := do
  let set ← snapshot utxoStore
  transactions.foldlM applyTransaction ⟨set, 0⟩

def speculativeUtxoCommitment (utxoStore : UtxoStore) (transactions : List Transaction) :
    Except SlotTickerError UtxoCommitment := do
  let outcome ← speculativeApply utxoStore transactions
  return commitmentRoot outcome.set

/-! ### The producer's Merkle code -/

/-- The parent of the nodes at a position and the next one, which is missing for an odd last node. -/
def parentAt (level : List Hash256) (i : Nat) : Hash256 :=
  let left := level.getD i .zero
  let right := if i + 1 < level.length then level.getD (i + 1) .zero else left
  sha3_256 (left.bytes ++ right.bytes)

/-- The parents of the even positions, in order. -/
def nextLevel (level : List Hash256) : List Hash256 :=
  (List.range ((level.length + 1) / 2)).map fun i => parentAt level (2 * i)

def reduceLevels : (rounds : Nat) → List Hash256 → List Hash256
  | 0, level => level
  | rounds + 1, level => if level.length > 1 then reduceLevels rounds (nextLevel level) else level

def merkleRootOf (txIds : List TxId) : MerkleRoot :=
  if txIds.isEmpty then .zero else (reduceLevels txIds.length txIds).headD .zero

/-! ### Producing a block -/

def batchSize : Nat := 100

/-- Put the reward claim in front, unless there is nothing to claim. -/
def prependCoinbase (ticker : SlotTicker) (utxoStore : UtxoStore) (newHeight : Height)
    (transactions : List Transaction) : Except SlotTickerError (List Transaction) :=
  match ticker.coinbase with
  | none => .ok transactions
  | some cb => do
      let outcome ← speculativeApply utxoStore transactions
      let reward := totalBlockReward newHeight outcome.totalFees cb.monetary
      if reward > 0 then
        return .newCoinbase newHeight [.new reward (p2pkhPqc cb.rewardPubkeyHash)] :: transactions
      else return transactions

/-- Sign the header bytes, where there is a key, and attach the signature. -/
def signHeader (ticker : SlotTicker) (header : BlockHeader) : Except SlotTickerError BlockHeader :=
  match ticker.kesSk with
  | none => .ok header
  | some sign => do
      let kesSig ← okOr (sign header.canonicalBytes) .kesSignFailed
      return { header with kesSig := kesSig }

/-- The block for a slot this producer leads, at the wall-clock time given. -/
def produceBlock (ticker : SlotTicker) (s : NodeState) (slot : Slot) (vrfProof : Bytes) (now : Timestamp) :
    Except SlotTickerError Block := do
  let tip := s.chainState.tip
  let newHeight ← okOr (Word.checkedAdd tip.height 1) .abort
  let batch := (s.clearPool.getBatch batchSize).map MempoolEntry.tx
  let transactions ← ticker.prependCoinbase s.utxoStore newHeight batch
  let utxoCommitment ← speculativeUtxoCommitment s.utxoStore transactions
  let header : BlockHeader :=
    { version := blockVersion
      prevHash := tip.hash
      height := newHeight
      slot := slot
      timestamp := now
      merkleRoot := merkleRootOf (transactions.map Transaction.id)
      utxoCommitment := utxoCommitment
      vrfProof := vrfProof
      kesSig := []
      producerKeyHash := sha3_256 ticker.poolId.bytes }
  let header ← ticker.signHeader header
  let block : Block := ⟨header, transactions⟩
  block.validateStructure.mapError fun _ => .blockValidation
  return block

/-- The producer a node starts, with the node's own monetary parameters. -/
def spawn (s : NodeState) (poolId : Hash256) (kesSk : Option (Bytes → Option Bytes))
    (rewardPubkeyHash : Option Hash256) : SlotTicker where
  poolId := poolId
  kesSk := kesSk
  coinbase := rewardPubkeyHash.map fun pkh => ⟨pkh, s.params.monetary⟩

/-- Sign headers with a key-evolving key. -/
def withKesSigning [Signing] (ticker : SlotTicker) (sk : KesSecretKey) : SlotTicker :=
  { ticker with kesSk := some fun bytes => (Kes.sign sk bytes).map KesSignature.encode }

end SlotTicker

end QuantumVault
