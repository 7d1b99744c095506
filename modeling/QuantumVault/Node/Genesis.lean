import QuantumVault.Core.Block
import QuantumVault.Core.Params
import QuantumVault.Script.Templates

/-!
# Genesis

The block a fresh node starts from: one transaction without inputs whose outputs are the initial allocations. The development networks fund ten accounts, the others a single foundation key. The keys themselves come from key generation and wallet derivation, which are outside this development.
-/

namespace QuantumVault

variable [Crypto]

def buildGenesisBlock (allocations : List (Bytes × UInt64)) : Block :=
  let outputs := allocations.map fun allocation =>
    TxOutput.new allocation.2 (p2pkhPqc (sha3_256 allocation.1))
  let genesisTx := Transaction.genesis outputs
  { header := { BlockHeader.genesisTemplate with merkleRoot := merkleRootOf [genesisTx.id] }
    transactions := [genesisTx] }

def devnetAccounts : Nat := 10

def devnetTokensPerAccount : UInt64 := 1000000000

/-- The public keys a genesis block pays to. -/
structure GenesisKeys where
  devnetAccount : Fin devnetAccounts → Bytes
  foundation : Bytes

def devnetGenesis (keys : GenesisKeys) : Block :=
  buildGenesisBlock ((List.finRange devnetAccounts).map fun i => (keys.devnetAccount i, devnetTokensPerAccount))

/-- The genesis block of a network. -/
def genesisBlock (network : NetworkId) (keys : GenesisKeys) : Block :=
  match network with
  | .devnet => devnetGenesis keys
  | .ephemeral => devnetGenesis keys
  | .mainnet => buildGenesisBlock [(keys.foundation, 2100000000000000)]
  | .testnet => buildGenesisBlock [(keys.foundation, 2100000000000000)]

end QuantumVault
