import QuantumVault.Consensus.ChainState
import QuantumVault.Node.Genesis
import QuantumVault.Node.Validation

/-!
# The node

The state a node keeps and the events that change it: a block from the network or from the node's own producer, a transaction from the network, and a transaction from an RPC client. Every step that writes returns the state it leaves behind next to its result, so that what a failed step has already done stays visible. Gossip, metrics and logging have no effect on this state and are left out.
-/

namespace QuantumVault

open Result

structure NodeConfig where
  network : NetworkId
  minFeeRate : UInt64
  enforceUtxoCommitment : Bool
deriving DecidableEq

inductive BlockRejection where
  | structure (source : BlockError)
  | prevHashMismatch (expected actual : BlockHash)
  | slotNotIncreasing (tipSlot blockSlot : Slot)
  | heightMismatch (expected actual : UInt64)
  | rewardRules (source : TxValidationError)
  | utxoCommitmentMismatch (header computed : UtxoCommitment)
deriving DecidableEq

inductive NodeError where
  | blockValidation (reason : BlockRejection)
  | storage (source : StorageError)
  | consensus (source : ChainError)
  /-- The process stops here: the height after the tip does not fit its word. -/
  | abort
deriving DecidableEq

/-- A node. Its parameters have passed their own check, as they do when they are loaded. -/
structure NodeState where
  config : NodeConfig
  params : ProtocolParams
  valid_params : params.validate = .ok ()
  utxoStore : UtxoStore
  blockStore : BlockStore
  chainState : ChainState
  clearPool : ClearPool

variable [Crypto]

def Block.chainEntry (block : Block) : ChainEntry where
  hash := block.hash
  parentHash := block.header.prevHash
  height := block.header.height
  slot := block.header.slot
  producerKeyHash := block.header.producerKeyHash

def Block.spentOutpoints (block : Block) : Std.ExtTreeSet OutPoint :=
  .ofList (block.transactions.flatMap Transaction.spends)

namespace NodeState

/-! ### Starting up -/

def applyGenesis (network : NetworkId) (keys : GenesisKeys) (utxoStore : UtxoStore) (blockStore : BlockStore) :
    Except StorageError (UtxoStore × BlockStore) :=
  if utxoStore.len > 0 then .ok (utxoStore, blockStore)
  else do
    let utxoStore ← utxoStore.applyBlock (genesisBlock network keys)
    let blockStore ← blockStore.putBlock (genesisBlock network keys)
    return (utxoStore, blockStore)

/-- A fresh node. The chain state starts from the all-zero placeholder entry, not from the genesis block. -/
def new (config : NodeConfig) (params : ProtocolParams) (hparams : params.validate = .ok ()) (keys : GenesisKeys) :
    Except StorageError NodeState := do
  let stores ← applyGenesis config.network keys .new .new
  return { config := config
           params := params
           valid_params := hparams
           utxoStore := stores.1
           blockStore := stores.2
           chainState := .genesis params.consensus
           clearPool := .new .testnet }

/-! ### Blocks -/

def validateChainLinkage (s : NodeState) (block : Block) : Except NodeError Unit := do
  let tip := s.chainState.tip
  require (block.header.prevHash = tip.hash) (.blockValidation (.prevHashMismatch tip.hash block.header.prevHash))
  require (¬ block.header.slot ≤ tip.slot) (.blockValidation (.slotNotIncreasing tip.slot block.header.slot))
  let expectedHeight ← okOr (Word.checkedAdd tip.height 1) .abort
  require (block.header.height = expectedHeight)
    (.blockValidation (.heightMismatch expectedHeight block.header.height))

def precheck (s : NodeState) (block : Block) : Except NodeError Unit := do
  block.validateStructure.mapError fun e => .blockValidation (.structure e)
  s.validateChainLinkage block
  let _ ← (validateBlockRewards block s.utxoStore s.params.monetary s.params.consensus.kFinality).mapError
    fun e => .blockValidation (.rewardRules e)
  return ()

/-- Take the effects of a block back. A failure to do so is only logged. -/
def revertUtxo (s : NodeState) (block : Block) : NodeState :=
  match s.utxoStore.revertBlock block with
  | .ok utxoStore => { s with utxoStore := utxoStore }
  | .error _ => s

/-- Drop the pooled transactions that the block confirms or conflicts with. -/
def evictConfirmed (s : NodeState) (block : Block) : NodeState :=
  if block.spentOutpoints.isEmpty then s
  else { s with clearPool := (s.clearPool.removeConfirmed block.spentOutpoints).2 }

/-- The last steps, once the chain state has taken the block. A block the store refuses is reported, but nothing is taken back. -/
def persistBlock (s : NodeState) (block : Block) : Except NodeError Unit × NodeState :=
  match s.blockStore.putBlock block with
  | .error e => (.error (.storage e), s)
  | .ok blockStore => (.ok (), { s with blockStore := blockStore }.evictConfirmed block)

def commitBlock (s : NodeState) (block : Block) : Except NodeError Unit × NodeState :=
  match s.chainState.addBlock block.chainEntry with
  | (.error e, chainState) => (.error (.consensus e), { s with chainState := chainState }.revertUtxo block)
  | (.ok _, chainState) => { s with chainState := chainState }.persistBlock block

def commitmentMatches (s : NodeState) (block : Block) : Bool :=
  !s.config.enforceUtxoCommitment || commitmentRoot s.utxoStore.entries == block.header.utxoCommitment

def handleBlock (s : NodeState) (block : Block) : Except NodeError Unit × NodeState :=
  match s.precheck block with
  | .error e => (.error e, s)
  | .ok () =>
      match s.utxoStore.applyBlock block with
      | .error e => (.error (.storage e), s)
      | .ok utxoStore =>
          let s := { s with utxoStore := utxoStore }
          if s.commitmentMatches block then s.commitBlock block
          else
            (.error (.blockValidation (.utxoCommitmentMismatch block.header.utxoCommitment
              (commitmentRoot s.utxoStore.entries))), s.revertUtxo block)

/-! ### Transactions -/

/-- Process one transaction. Whatever fails, the transaction is dropped; there is no result when the pool's capacity loop does not end. -/
def handleTx (s : NodeState) (now : UInt64) (tx : Transaction) : Option (Except TxValidationError TxId × NodeState) :=
  let tip := s.chainState.tip
  match checkCoinbaseMaturity tx s.utxoStore tip.height.next s.params.consensus.kFinality with
  | .error e => some (.error e, s)
  | .ok () =>
      match validateTransaction tx s.utxoStore tip.slot s.config.minFeeRate with
      | .error e => some (.error e, s)
      | .ok validated =>
          (insertValidatedTx s.clearPool now tx validated).map fun (result, pool) =>
            (result, { s with clearPool := pool })

/-! ### Submissions over RPC -/

/-- Process a decoded transaction from an RPC client. Only its structure is checked: nothing is resolved, and the entry carries a fee of zero. -/
def sendTransaction (s : NodeState) (now : UInt64) (tx : Transaction) : Option (Except TxValidationError TxId × NodeState) :=
  match tx.validateStructure with
  | .error e => some (.error (.structureInvalid e), s)
  | .ok () =>
      let size := UInt64.ofNat tx.canonicalBytes.length
      (s.clearPool.add now (.new tx tx.id 0 size now)).map fun (result, pool) =>
        (result.mapError .mempool, { s with clearPool := pool })

end NodeState

/-! ### The event loop -/

/-- What reaches a running node. A transaction comes with the time at which the pool looks at it. -/
inductive NodeEvent where
  | blockReceived (block : Block)
  | txReceived (now : UInt64) (tx : Transaction)
  | sendTransaction (now : UInt64) (tx : Transaction)

def NodeState.handleEvent (s : NodeState) : NodeEvent → Option NodeState
  | .blockReceived block => some (s.handleBlock block).2
  | .txReceived now tx => (s.handleTx now tx).map Prod.snd
  | .sendTransaction now tx => (s.sendTransaction now tx).map Prod.snd

end QuantumVault
