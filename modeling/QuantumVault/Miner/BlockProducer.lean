import QuantumVault.Consensus.Rewards
import QuantumVault.Core.Block
import QuantumVault.Core.Decode
import QuantumVault.Mempool.EncryptedPool
import QuantumVault.Script.Templates

/-!
# The block producer of a committee member

A leader on the decryption committee appends the decrypted transactions to those of the clear pool. The identifiers that go into the Merkle root are the ones the two pools report, for a decrypted transaction the one its envelope claims.
-/

namespace QuantumVault

open Result

inductive MinerError where
  | blockProduction (reason : String)
deriving DecidableEq

structure BlockProductionContext where
  slot : Slot
  parentHash : Hash256
  height : Height
  timestamp : Timestamp
  protocolParams : ProtocolParams
  rewardPubkeyHash : Option Hash256
deriving DecidableEq

/-- The reward claim, unless there is no address or nothing to claim. -/
def buildCoinbase (ctx : BlockProductionContext) (fees : Amount) : Option Transaction := do
  let pkh ← ctx.rewardPubkeyHash
  let reward := totalBlockReward ctx.height fees ctx.protocolParams.monetary
  if reward = 0 then none
  else return .newCoinbase ctx.height [.new reward (p2pkhPqc pkh)]

/-- The plaintexts that are transactions, each with the identifier of its envelope. -/
def deserializeBatch (decryptedBatch : List (TxId × Bytes)) : List (TxId × Transaction) :=
  decryptedBatch.filterMap fun (txId, plaintext) => (Transaction.decode plaintext).map fun tx => (txId, tx)

/-- The clear transactions by priority, then the decrypted ones. -/
def mergeBatches (clearEntries : List MempoolEntry) (decryptedTxs : List (TxId × Transaction)) :
    List (TxId × Transaction) :=
  clearEntries.map (fun entry => (entry.txId, entry.tx)) ++ decryptedTxs

variable [Crypto]

def insertCoinbase (coinbase : Option Transaction) (merged : List (TxId × Transaction)) : List (TxId × Transaction) :=
  match coinbase with
  | some coinbase => (coinbase.id, coinbase) :: merged
  | none => merged

/-- The block, and the encrypted pool after it has been drained. -/
def produceBlockWithDecryption (ctx : BlockProductionContext) (clearPool : ClearPool) (encryptedPool : EncryptedPool)
    (order : encryptedPool.DrainOrder) (decryptor : ThresholdDecryptor) (shares : List DecryptionShare)
    (vrfProof kesSignature : Bytes) : Except MinerError Block × EncryptedPool :=
  let clearEntries := clearPool.allSorted
  let (decryptedBatch, drained) := encryptedPool.decryptBatch order decryptor shares
  let decryptedTxs := deserializeBatch decryptedBatch
  let result : Except MinerError Block := do
    let fees ← okOr (Word.checkedSum (clearEntries.map MempoolEntry.fee)) (.blockProduction "fee sum overflow")
    let body := insertCoinbase (buildCoinbase ctx fees) (mergeBatches clearEntries decryptedTxs)
    let header : BlockHeader :=
      { version := blockVersion
        prevHash := ctx.parentHash
        height := ctx.height
        slot := ctx.slot
        timestamp := ctx.timestamp
        merkleRoot := merkleRootOf (body.map Prod.fst)
        utxoCommitment := .zero
        vrfProof := vrfProof
        kesSig := kesSignature
        producerKeyHash := .zero }
    return ⟨header, body.map Prod.snd⟩
  (result, drained)

end QuantumVault
