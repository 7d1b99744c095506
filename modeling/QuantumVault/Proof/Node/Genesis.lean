import QuantumVault.Proof.Ledger.Structure
import QuantumVault.Proof.Node.Step

/-!
# A fresh node

Start-up always succeeds: the genesis block of every network is well formed and applies to the empty set. The stores then hold that block, while the chain state knows only its all-zero placeholder.
-/

namespace QuantumVault

open Result TreeMap Ledger

variable [Crypto]

def genesisAllocations (network : NetworkId) (keys : GenesisKeys) : List (Bytes × UInt64) :=
  match network with
  | .devnet => (List.finRange devnetAccounts).map fun i => (keys.devnetAccount i, devnetTokensPerAccount)
  | .ephemeral => (List.finRange devnetAccounts).map fun i => (keys.devnetAccount i, devnetTokensPerAccount)
  | .mainnet => [(keys.foundation, 2100000000000000)]
  | .testnet => [(keys.foundation, 2100000000000000)]

def genesisTransaction (network : NetworkId) (keys : GenesisKeys) : Transaction :=
  .genesis ((genesisAllocations network keys).map fun allocation =>
    .new allocation.2 (p2pkhPqc (sha3_256 allocation.1)))

variable {network : NetworkId} {keys : GenesisKeys}

theorem genesisBlock_eq (network : NetworkId) (keys : GenesisKeys) :
    genesisBlock network keys = buildGenesisBlock (genesisAllocations network keys) := by
  cases network <;> rfl

theorem genesisBlock_transactions : (genesisBlock network keys).transactions = [genesisTransaction network keys] := by
  rw [genesisBlock_eq]
  rfl

theorem genesisBlock_height : (genesisBlock network keys).header.height = 0 := by
  rw [genesisBlock_eq]
  rfl

theorem genesisTransaction_inputs : (genesisTransaction network keys).inputs = [] := rfl

theorem length_genesisTransaction_outputs :
    0 < (genesisTransaction network keys).outputs.length ∧ (genesisTransaction network keys).outputs.length ≤ 10 := by
  change 0 < ((genesisAllocations network keys).map _).length ∧ ((genesisAllocations network keys).map _).length ≤ 10
  rw [List.length_map]
  cases network <;> simp [genesisAllocations, devnetAccounts]

theorem genesisTransaction_fits : (genesisTransaction network keys).IndexFits := by
  have hlen : (genesisTransaction network keys).outputs.length ≤ 10 := length_genesisTransaction_outputs.2
  unfold Transaction.IndexFits
  omega

theorem genesisBlock_validateStructure : (genesisBlock network keys).validateStructure = .ok () := by
  rw [Block.validateStructure_eq_ok, genesisBlock_transactions, genesisBlock_height, Block.txIds,
    genesisBlock_transactions]
  refine ⟨?_, List.nodup_singleton _, ?_⟩
  · intro tx htx
    rw [List.zipIdx_singleton, List.mem_singleton] at htx
    subst htx
    have hne : (genesisTransaction network keys).outputs ≠ [] :=
      List.length_pos_iff.mp length_genesisTransaction_outputs.1
    simp [Block.validateTransactionAt, genesisTransaction_inputs, hne]
  · rw [genesisBlock_eq]
    rfl

theorem genesis_admissible :
    Admissible (∅ : UtxoMap) [] (genesisTransaction network keys).move where
  spends_nodup := List.nodup_nil
  spends_mem := by
    intro k hk
    simp [Transaction.spends, genesisTransaction_inputs] at hk
  created_nodup := Transaction.created_nodup genesisTransaction_fits
  created_fresh := by simp

theorem genesis_valid : Valid Transaction.move ∅ [] (genesisBlock network keys).transactions := by
  rw [genesisBlock_transactions]
  exact ⟨genesis_admissible, trivial⟩

namespace NodeState

variable {config : NodeConfig} {params : ProtocolParams} {hparams : params.validate = .ok ()} {s : NodeState}

/-- What a fresh node holds. -/
structure Fresh (config : NodeConfig) (params : ProtocolParams) (keys : GenesisKeys) (s : NodeState) : Prop where
  config_eq : s.config = config
  params_eq : s.params = params
  applied : UtxoStore.new.applyBlock (genesisBlock config.network keys) = .ok s.utxoStore
  blockStore_eq : s.blockStore =
    ⟨(∅ : Std.ExtTreeMap BlockHash Block).insert (genesisBlock config.network keys).hash
        (genesisBlock config.network keys),
      (∅ : Std.ExtTreeMap Height BlockHash).insert 0 (genesisBlock config.network keys).hash⟩
  chainState_eq : s.chainState = .genesis params.consensus
  clearPool_eq : s.clearPool = .new .testnet

theorem putBlock_genesis :
    BlockStore.new.putBlock (genesisBlock network keys) =
      .ok ⟨(∅ : Std.ExtTreeMap BlockHash Block).insert (genesisBlock network keys).hash (genesisBlock network keys),
        (∅ : Std.ExtTreeMap Height BlockHash).insert 0 (genesisBlock network keys).hash⟩ := by
  rw [BlockStore.putBlock, genesisBlock_validateStructure, mapError_ok, ok_bind]
  have hblock : BlockStore.new.getBlock (genesisBlock network keys).hash = none := by
    simp [BlockStore.getBlock, BlockStore.new]
  have hheight : BlockStore.new.getHashByHeight (genesisBlock network keys).header.height = none := by
    simp [BlockStore.getHashByHeight, BlockStore.new]
  rw [require, if_pos hblock, ok_bind, hheight, genesisBlock_height]
  rfl

/-- **Start-up succeeds on every network.** -/
theorem new_isOk (config : NodeConfig) (params : ProtocolParams) (hparams : params.validate = .ok ())
    (keys : GenesisKeys) : ∃ s, new config params hparams keys = .ok s := by
  obtain ⟨utxo, hutxo⟩ : ∃ utxo, UtxoStore.new.applyBlock (genesisBlock config.network keys) = .ok utxo := by
    refine UtxoStore.applyBlock_isOk.mpr ⟨genesisBlock_validateStructure, genesis_valid, ?_⟩
    rw [genesisBlock_transactions]
    simpa using genesisTransaction_fits
  have hlen : ¬ UtxoStore.new.len > 0 := by simp [UtxoStore.len, UtxoStore.new]
  simp only [new, applyGenesis, if_neg hlen, hutxo, ok_bind, putBlock_genesis]
  exact ⟨_, rfl⟩

/-- The node that start-up gives. -/
def start (config : NodeConfig) (params : ProtocolParams) (hparams : params.validate = .ok ()) (keys : GenesisKeys) :
    NodeState :=
  match hnew : new config params hparams keys with
  | .ok s => s
  | .error e => False.elim (by
      obtain ⟨s, hs⟩ := new_isOk config params hparams keys
      cases hnew.symm.trans hs)

private theorem new_eq_start : new config params hparams keys = .ok (start config params hparams keys) := by
  unfold start
  split
  · assumption
  · rename_i e hnew
    obtain ⟨s, hs⟩ := new_isOk config params hparams keys
    cases hnew.symm.trans hs

private theorem Fresh.of_new (hnew : new config params hparams keys = .ok s) : Fresh config params keys s := by
  have hlen : ¬ UtxoStore.new.len > 0 := by simp [UtxoStore.len, UtxoStore.new]
  rw [new, applyGenesis, if_neg hlen, putBlock_genesis] at hnew
  obtain ⟨stores, hstores, hs⟩ := bind_eq_ok.mp hnew
  obtain ⟨utxo, hutxo, hrest⟩ := bind_eq_ok.mp hstores
  rw [ok_bind, pure_eq_ok] at hrest
  subst hrest
  rw [pure_eq_ok] at hs
  subst hs
  exact ⟨rfl, rfl, hutxo, rfl, rfl, rfl⟩

theorem fresh_start (config : NodeConfig) (params : ProtocolParams) (hparams : params.validate = .ok ())
    (keys : GenesisKeys) : Fresh config params keys (start config params hparams keys) :=
  Fresh.of_new new_eq_start

/-- A fresh node with the built-in parameters of its network. -/
def startPreset (config : NodeConfig) (keys : GenesisKeys) : NodeState :=
  start config (.preset config.network) (ProtocolParams.validate_preset config.network) keys

end NodeState

/-! ### Small examples -/

def sampleKeys : GenesisKeys := ⟨fun i => [UInt8.ofNat i.val], [255]⟩

def sampleNode (network : NetworkId) : NodeState :=
  @NodeState.startPreset sampleCrypto ⟨network, 1, true⟩ sampleKeys

omit [Crypto] in
theorem sampleNode_eq (network : NetworkId) :
    sampleNode network = @NodeState.start sampleCrypto ⟨network, 1, true⟩ (.preset network)
      (ProtocolParams.validate_preset network) sampleKeys := rfl

def NodeState.childBlock (s : NodeState) (slot : Slot) (utxoCommitment : UtxoCommitment)
    (transactions : List Transaction) : Block where
  header :=
    { version := blockVersion
      prevHash := s.chainState.tip.hash
      height := s.chainState.tip.height + 1
      slot := slot
      timestamp := 0
      merkleRoot := merkleRootOf (transactions.map Transaction.id)
      utxoCommitment := utxoCommitment
      vrfProof := []
      kesSig := []
      producerKeyHash := .zero }
  transactions := transactions

/-- A spend of the foundation's genesis output with nothing in its witness. -/
def sampleSpend : Transaction :=
  .new [⟨⟨@Transaction.id sampleCrypto (@genesisTransaction sampleCrypto .mainnet sampleKeys), 0⟩, []⟩]
    [.new 2099999999999993 [1]]

/-- A second transaction that spends the output of the first. -/
def sampleChained : Transaction :=
  .new [⟨⟨@Transaction.id sampleCrypto sampleSpend, 0⟩, []⟩] [.new 2099999999999990 [2]]

/-- A correctly committed block of the given transactions on a fresh node. -/
def sampleFirstBlock (transactions : List Transaction) : Block :=
  @NodeState.childBlock sampleCrypto (sampleNode .mainnet) 1
    (@commitmentRoot sampleCrypto
      (advanceAll (@Transaction.move sampleCrypto) (sampleNode .mainnet).utxoStore.entries transactions))
    transactions

/-- A block with a full reward claim and the two chained spends, which pay fees of 7 and 3. -/
def sampleBlock : Block :=
  sampleFirstBlock [.newCoinbase 1 [.new 5000000010 [3]], sampleSpend, sampleChained]

/-- A block that pays a fee and claims nothing. -/
def feeBlock : Block := sampleFirstBlock [sampleSpend]

omit [Crypto] in
theorem sampleBlock_accepted : (@NodeState.handleBlock sampleCrypto (sampleNode .mainnet) sampleBlock).1 = .ok () := by
  decide +kernel

omit [Crypto] in
theorem feeBlock_accepted : (@NodeState.handleBlock sampleCrypto (sampleNode .mainnet) feeBlock).1 = .ok () := by
  decide +kernel

end QuantumVault
