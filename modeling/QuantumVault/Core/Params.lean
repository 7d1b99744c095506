import QuantumVault.Core.Types
import QuantumVault.Lib.Result

/-!
# Protocol parameters

The parameter bundle of a network, its consistency checks and the built-in presets. The ledger limits are checked for consistency with each other; no validation rule reads them.
-/

namespace QuantumVault

open Result

inductive NetworkId where
  | mainnet
  | testnet
  | devnet
  | ephemeral
deriving DecidableEq

structure ConsensusParams where
  slotDurationMs : UInt64
  epochSlots : UInt64
  kFinality : UInt64
  honestStakeNum : UInt32
  honestStakeDen : UInt32
deriving DecidableEq

structure LedgerParams where
  maxBlockBytes : UInt32
  maxTxBytes : UInt32
  maxTxInputs : UInt32
  maxTxOutputs : UInt32
  maxBlockTxs : UInt32
  maxScriptBytes : UInt32
  maxDatumBytes : UInt32
deriving DecidableEq

structure MonetaryParams where
  totalSupply : Amount
  initialBlockReward : Amount
  halvingIntervalBlocks : UInt64
  minFeePerByte : UInt64
deriving DecidableEq

structure ProtocolParams where
  network : NetworkId
  genesisSlot : Slot
  genesisTime : UInt64
  consensus : ConsensusParams
  ledger : LedgerParams
  monetary : MonetaryParams
deriving DecidableEq

/-- A parameter that fails its consistency check, with the text of the refusal. -/
inductive ParamsError where
  | invalid (reason : String)
deriving DecidableEq

def ConsensusParams.validate (p : ConsensusParams) : Except ParamsError Unit := do
  require (p.slotDurationMs ≠ 0) (.invalid "slot_duration_ms must be > 0")
  require (p.epochSlots ≠ 0) (.invalid "epoch_slots must be > 0")
  require (p.kFinality ≠ 0) (.invalid "k_finality must be > 0")
  require (p.honestStakeDen ≠ 0) (.invalid "honest_stake_den must be > 0")
  require (p.honestStakeNum ≠ 0) (.invalid "honest_stake_num must be > 0")
  require (p.honestStakeNum ≤ p.honestStakeDen) (.invalid "honest_stake_num must not exceed honest_stake_den")

def LedgerParams.validate (p : LedgerParams) : Except ParamsError Unit := do
  require (p.maxBlockBytes ≠ 0) (.invalid "max_block_bytes must be > 0")
  require (p.maxTxBytes ≠ 0) (.invalid "max_tx_bytes must be > 0")
  require (p.maxTxBytes ≤ p.maxBlockBytes) (.invalid "max_tx_bytes must not exceed max_block_bytes")
  require (p.maxTxInputs ≠ 0 ∧ p.maxTxOutputs ≠ 0) (.invalid "tx input/output limits must be > 0")
  require (p.maxBlockTxs ≠ 0) (.invalid "max_block_txs must be > 0")

def MonetaryParams.validate (p : MonetaryParams) : Except ParamsError Unit := do
  require (p.totalSupply ≠ 0) (.invalid "total_supply must be > 0")
  require (p.initialBlockReward ≤ p.totalSupply) (.invalid "initial_block_reward must not exceed total_supply")
  require (p.halvingIntervalBlocks ≠ 0) (.invalid "halving_interval_blocks must be > 0")

def ProtocolParams.validate (p : ProtocolParams) : Except ParamsError Unit := do
  p.consensus.validate
  p.ledger.validate
  p.monetary.validate

def ConsensusParams.mainnet : ConsensusParams where
  slotDurationMs := 2000
  epochSlots := 21600
  kFinality := 50
  honestStakeNum := 51
  honestStakeDen := 100

def LedgerParams.mainnet : LedgerParams where
  maxBlockBytes := 7500000
  maxTxBytes := 200000
  maxTxInputs := 1024
  maxTxOutputs := 1024
  maxBlockTxs := 10000
  maxScriptBytes := 65536
  maxDatumBytes := 16384

def MonetaryParams.mainnet : MonetaryParams where
  totalSupply := 2100000000000000
  initialBlockReward := 5000000000
  halvingIntervalBlocks := 210000
  minFeePerByte := 1

namespace ProtocolParams

def mainnet : ProtocolParams where
  network := .mainnet
  genesisSlot := 0
  genesisTime := 0
  consensus := .mainnet
  ledger := .mainnet
  monetary := .mainnet

def testnet : ProtocolParams :=
  { mainnet with network := .testnet, consensus := { ConsensusParams.mainnet with epochSlots := 1000 } }

def ephemeral : ProtocolParams :=
  { mainnet with
    network := .ephemeral
    consensus := ⟨100, 50, 3, 2, 3⟩
    ledger := ⟨1048576, 65536, 8, 8, 32, 4096, 1024⟩
    monetary := ⟨1000000, 100, 10, 0⟩ }

/-- The built-in parameters of a network, used when it has no parameter file. -/
def preset : NetworkId → ProtocolParams
  | .mainnet => mainnet
  | .testnet => testnet
  | .devnet => ephemeral
  | .ephemeral => ephemeral

theorem validate_preset (network : NetworkId) : (preset network).validate = .ok () := by
  cases network <;> rfl

end ProtocolParams

end QuantumVault
