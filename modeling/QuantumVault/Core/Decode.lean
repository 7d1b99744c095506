import QuantumVault.Core.Block
import QuantumVault.Core.Kes
import QuantumVault.Core.Transaction

/-!
# Reading transactions and blocks back

The readers of the canonical encodings. Like the source's, the reader of a transaction ignores bytes after it. A block is written as its header, then its transactions.
-/

namespace QuantumVault

/-! ### Readers -/

def OutPoint.decode (input : Bytes) : Option (OutPoint × Bytes) := do
  let (txId, rest) ← Hash256.decode input
  let (index, rest) ← Decode.u32 rest
  return (⟨txId, index⟩, rest)

def TxInput.decode (input : Bytes) : Option (TxInput × Bytes) := do
  let (prevOutput, rest) ← OutPoint.decode input
  let (witness, rest) ← Decode.bytes rest
  return (⟨prevOutput, witness⟩, rest)

def StealthInfo.decode (input : Bytes) : Option (StealthInfo × Bytes) := do
  let (ephemeralPubkey, rest) ← Decode.bytes input
  let (kyberLevel, rest) ← Decode.u8 rest
  let (viewTag, rest) ← Decode.u8 rest
  return (⟨ephemeralPubkey, kyberLevel, viewTag⟩, rest)

def TxOutput.decode (input : Bytes) : Option (TxOutput × Bytes) := do
  let (value, rest) ← Decode.u64 input
  let (lockingScript, rest) ← Decode.bytes rest
  let (datum, rest) ← Decode.option Decode.bytes rest
  let (stealthInfo, rest) ← Decode.option StealthInfo.decode rest
  return (⟨value, lockingScript, datum, stealthInfo⟩, rest)

def ValidityInterval.decode (input : Bytes) : Option (ValidityInterval × Bytes) := do
  let (notBefore, rest) ← Decode.option Decode.u64 input
  let (notAfter, rest) ← Decode.option Decode.u64 rest
  return (⟨notBefore, notAfter⟩, rest)

def Transaction.decode (input : Bytes) : Option Transaction := do
  let (version, rest) ← Decode.u32 input
  let (inputs, rest) ← Decode.seq TxInput.decode rest
  let (outputs, rest) ← Decode.seq TxOutput.decode rest
  let (validityInterval, rest) ← ValidityInterval.decode rest
  let (lockTime, rest) ← Decode.u64 rest
  let (fee, _) ← Decode.u64 rest
  return ⟨version, inputs, outputs, validityInterval, lockTime, fee⟩

/-! ### Blocks -/

/-- A transaction off the front of the input. -/
def Transaction.read (input : Bytes) : Option (Transaction × Bytes) := do
  let (version, rest) ← Decode.u32 input
  let (inputs, rest) ← Decode.seq TxInput.decode rest
  let (outputs, rest) ← Decode.seq TxOutput.decode rest
  let (validityInterval, rest) ← ValidityInterval.decode rest
  let (lockTime, rest) ← Decode.u64 rest
  let (fee, rest) ← Decode.u64 rest
  return (⟨version, inputs, outputs, validityInterval, lockTime, fee⟩, rest)

def BlockHeader.decode (input : Bytes) : Option (BlockHeader × Bytes) := do
  let (version, rest) ← Decode.u32 input
  let (prevHash, rest) ← Hash256.decode rest
  let (height, rest) ← Decode.u64 rest
  let (slot, rest) ← Decode.u64 rest
  let (timestamp, rest) ← Decode.u64 rest
  let (merkleRoot, rest) ← Hash256.decode rest
  let (utxoCommitment, rest) ← Hash256.decode rest
  let (vrfProof, rest) ← Decode.bytes rest
  let (kesSig, rest) ← Decode.bytes rest
  let (producerKeyHash, rest) ← Hash256.decode rest
  return (⟨version, prevHash, height, slot, timestamp, merkleRoot, utxoCommitment, vrfProof, kesSig, producerKeyHash⟩, rest)

namespace Block

def encode (b : Block) : Bytes :=
  b.header.canonicalBytes ++ Encode.seq Transaction.canonicalBytes b.transactions

def decode (input : Bytes) : Option (Block × Bytes) := do
  let (header, rest) ← BlockHeader.decode input
  let (transactions, rest) ← Decode.seq Transaction.read rest
  return (⟨header, transactions⟩, rest)

end Block

end QuantumVault
