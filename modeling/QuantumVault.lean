import QuantumVault.Core.Block
import QuantumVault.Core.UtxoSet
import QuantumVault.Core.Params
import QuantumVault.Consensus.ChainState
import QuantumVault.Consensus.Rewards
import QuantumVault.Consensus.BlockValidator
import QuantumVault.Script.Gas
import QuantumVault.Script.Templates
import QuantumVault.Storage.UtxoStore
import QuantumVault.Node.Node
import QuantumVault.Node.SlotTicker
import QuantumVault.Proof.Script.P2pkh
import QuantumVault.Proof.Script.AmmPool
import QuantumVault.Proof.Script.Multisig
import QuantumVault.Proof.Chain.ForkChoice
import QuantumVault.Proof.Consensus.HeaderSignature
import QuantumVault.Proof.Ledger.RewardsPass
import QuantumVault.Proof.Ledger.Agreement
import QuantumVault.Proof.Ledger.Restore
import QuantumVault.Proof.Ledger.Commitment
import QuantumVault.Proof.Node.Atomicity
import QuantumVault.Proof.Node.Supply
import QuantumVault.Proof.Node.Authorization
import QuantumVault.Proof.Node.Convergence
import QuantumVault.Proof.Node.Production
import QuantumVault.Proof.Node.Validity
import QuantumVault.Proof.Script.LendingPool
import QuantumVault.Proof.Chain.HeaderSync
import QuantumVault.Proof.Defi.SwapCovenant
import QuantumVault.Proof.Defi.Amm
import QuantumVault.Proof.Defi.Lending
import QuantumVault.Proof.Defi.Atomicity
import QuantumVault.Proof.Defi.Solvency
import QuantumVault.Proof.Mempool.Batch
import QuantumVault.Proof.Mempool.Eviction
import QuantumVault.Proof.Mempool.Representation
import QuantumVault.Proof.Wallet.Signing
import QuantumVault.Proof.Miner.Canonical
import QuantumVault.Proof.Miner.Decryption
import QuantumVault.Proof.Miner.Keys
import QuantumVault.Proof.Consensus.KesRun
import QuantumVault.Proof.Script.Gas
import QuantumVault.Proof.Script.Safety
import QuantumVault.Proof.Script.Structured
import QuantumVault.Proof.Defi.LendingCovenant
import QuantumVault.Proof.Mempool.Threshold
import QuantumVault.Proof.Net.Admission
import QuantumVault.Proof.Net.Agreement
import QuantumVault.Proof.Net.Gossip
import QuantumVault.Proof.Net.Peers
import QuantumVault.Proof.Node.Ceremony
import QuantumVault.Proof.Consensus.Emission
import QuantumVault.Proof.Consensus.RewardShares
import QuantumVault.Proof.Consensus.Snapshot
import QuantumVault.Proof.Consensus.Time
import QuantumVault.Proof.Consensus.LeaderThreshold
import QuantumVault.Proof.Chain.Equivocation
import QuantumVault.Proof.Wallet.Sighash
import QuantumVault.Proof.Node.Fee
import QuantumVault.Proof.Script.Memory
import QuantumVault.Proof.Script.SignatureCount
import QuantumVault.Proof.Defi.Oracle
import QuantumVault.Proof.Defi.Accrual
import QuantumVault.Proof.Defi.Intents
import QuantumVault.Proof.Defi.Twap
import QuantumVault.Proof.Node.CeremonyBinding
import QuantumVault.Proof.Privacy.Disclosure
import QuantumVault.Proof.Wallet.CoinSelect
import QuantumVault.Proof.Wallet.Address
import QuantumVault.Proof.Wallet.StealthBinding
import QuantumVault.Proof.Wallet.Fingerprint
import QuantumVault.Proof.Mempool.Shamir
import QuantumVault.Proof.Mempool.Vss
import QuantumVault.Proof.Mempool.Draining
import QuantumVault.Lib.FixedWindow
import QuantumVault.Lib.Matching
import QuantumVault.Lib.Run
import QuantumVault.Lib.Window
import QuantumVault.Defi.Intents
import QuantumVault.Miner.Keys
import QuantumVault.Miner.Keystore
import QuantumVault.Net.Gossip
import QuantumVault.Net.Peer
import QuantumVault.Proof.Storage.Refinement
import QuantumVault.Proof.Mempool.LimbField
import QuantumVault.Proof.Node.Relay
import QuantumVault.Proof.Node.Participants
import QuantumVault.Proof.Mempool.Envelope
