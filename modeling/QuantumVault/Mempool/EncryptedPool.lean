import QuantumVault.Consensus.Slot
import QuantumVault.Lib.Result
import QuantumVault.Mempool.ClearPool

/-!
# The encrypted mempool

Transactions that wait for a committee to decrypt them. An envelope carries an identifier that its sender chose, and the pool knows it by that identifier only. Decryption is behind an interface, and envelopes that do not decrypt are dropped.
-/

namespace QuantumVault

open Result

structure EncryptedTx where
  id : TxId
  kemCiphertext : Bytes
  encryptedBody : Bytes
  targetEpoch : Epoch
  receivedAt : UInt64
deriving DecidableEq

def EncryptedTx.estimatedSize (etx : EncryptedTx) : UInt64 :=
  UInt64.ofNat (etx.kemCiphertext.length + etx.encryptedBody.length + 40)

structure DecryptionShare where
  memberIndex : UInt32
  shareBytes : Bytes
deriving DecidableEq

/-- The errors of the mempool that the encrypted side returns. -/
inductive EncryptedPoolError where
  | duplicateTx (txId : TxId)
  | poolFull
  | wrongEpoch (got expected : Epoch)
  | decryption (reason : String)
  | insufficientShares (got need : UInt32)
deriving DecidableEq

/-! ### Decryptors -/

/-- What the pool asks of a decryptor. -/
structure ThresholdDecryptor where
  decrypt : EncryptedTx → List DecryptionShare → Except EncryptedPoolError Bytes

/-- The decryptor of the tests: the body is combined with the bytes of the first share, repeated. -/
structure MockThresholdDecryptor where
  t : UInt32
  n : UInt32
deriving DecidableEq

namespace MockThresholdDecryptor

def decrypt (mock : MockThresholdDecryptor) (encryptedTx : EncryptedTx) (shares : List DecryptionShare) :
    Except EncryptedPoolError Bytes := do
  require (shares.length < 2 ^ 32) (.decryption "share count overflow")
  let shareCount := UInt32.ofNat shares.length
  require (mock.t ≤ shareCount) (.insufficientShares shareCount mock.t)
  -- with a threshold of zero and no shares the source stops here
  let share ← okOr shares.head? (.decryption "no shares")
  let key := share.shareBytes
  require (key ≠ []) (.decryption "empty share")
  return encryptedTx.encryptedBody.zipIdx.map fun (b, i) => b ^^^ key.getD (i % key.length) 0

def toThresholdDecryptor (mock : MockThresholdDecryptor) : ThresholdDecryptor := ⟨mock.decrypt⟩

end MockThresholdDecryptor

/-! ### The pool -/

structure EncryptedPoolConfig where
  maxTxCount : UInt64
  maxPoolBytes : UInt64
  maxAgeSecs : UInt64
deriving DecidableEq

structure EncryptedPool where
  config : EncryptedPoolConfig
  byId : Std.ExtTreeMap TxId EncryptedTx
  currentEpoch : Epoch
  totalBytes : UInt64

namespace EncryptedPool

def new (config : EncryptedPoolConfig) (epoch : Epoch) : EncryptedPool := ⟨config, ∅, epoch, 0⟩

/-- Flush the pool and move to another epoch. -/
def advanceEpoch (pool : EncryptedPool) (newEpoch : Epoch) : EncryptedPool :=
  { pool with byId := ∅, totalBytes := 0, currentEpoch := newEpoch }

def add (pool : EncryptedPool) (etx : EncryptedTx) : Except EncryptedPoolError (TxId × EncryptedPool) := do
  require (etx.targetEpoch = pool.currentEpoch) (.wrongEpoch etx.targetEpoch pool.currentEpoch)
  require (etx.id ∉ pool.byId) (.duplicateTx etx.id)
  let etxSize := etx.estimatedSize
  require (pool.byId.size < pool.config.maxTxCount.toNat) .poolFull
  require (Word.saturatingAdd pool.totalBytes etxSize ≤ pool.config.maxPoolBytes) .poolFull
  return (etx.id,
    { pool with totalBytes := Word.saturatingAdd pool.totalBytes etxSize, byId := pool.byId.insert etx.id etx })

def remove (pool : EncryptedPool) (id : TxId) : Option EncryptedTx × EncryptedPool :=
  match pool.byId[id]? with
  | none => (none, pool)
  | some etx =>
      (some etx, { pool with
        byId := pool.byId.erase id
        totalBytes := Word.saturatingSub pool.totalBytes etx.estimatedSize })

/-- An order in which the hash map of a pool may hand out its values. -/
structure DrainOrder (pool : EncryptedPool) where
  txs : List EncryptedTx
  perm : txs.Perm pool.byId.values

def drainAll (pool : EncryptedPool) (order : DrainOrder pool) : List EncryptedTx × EncryptedPool :=
  (order.txs, { pool with totalBytes := 0, byId := ∅ })

/-- Remove what was received too long before now. The number of removals comes with the pool. -/
def evictExpired (pool : EncryptedPool) (order : DrainOrder pool) (now : UInt64) : Nat × EncryptedPool :=
  let cutoff := Word.saturatingSub now pool.config.maxAgeSecs
  let expired := (order.txs.filter fun etx => etx.receivedAt < cutoff).map EncryptedTx.id
  (expired.length, expired.foldl (fun pool id => (pool.remove id).2) pool)

/-- Empty the pool and decrypt what was in it. Each plaintext is returned with the identifier of its envelope. -/
def decryptBatch (pool : EncryptedPool) (order : DrainOrder pool) (decryptor : ThresholdDecryptor)
    (shares : List DecryptionShare) : List (TxId × Bytes) × EncryptedPool :=
  let (all, drained) := pool.drainAll order
  let results := all.filterMap fun etx =>
    match decryptor.decrypt etx shares with
    | .ok plaintext => some (etx.id, plaintext)
    | .error _ => none
  (results, drained)

end EncryptedPool

end QuantumVault
