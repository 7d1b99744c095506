import QuantumVault.Consensus.ChainState
import QuantumVault.Consensus.Stake
import QuantumVault.Lib.TreeMap
import QuantumVault.Storage.KvBlockStore

/-!
# The state store

Chain entries, the tip, the ledger state and the snapshots of the epochs, as records in the key-value store. Writing never fails; reading fails on bytes that are no record.
-/

namespace QuantumVault

open Result TreeMap

/-- Accounts of the consensus layer. -/
structure LedgerState where
  pools : List StakePool
  delegations : List Delegation
  rewardBalances : Std.ExtTreeMap Hash256 Amount

/-- What is kept of an epoch for a restart. -/
structure EpochSnapshot where
  epoch : Epoch
  stakeDistribution : StakeDistribution
  tipHash : BlockHash

/-! ### Records -/

def Encode.bool (b : Bool) : Bytes := [if b then 1 else 0]

def Decode.bool : Bytes → Option (Bool × Bytes)
  | [] => none
  | tag :: rest => if tag = 0 then some (false, rest) else if tag = 1 then some (true, rest) else none

/-- A map is written as the sequence of its pairs in key order, and read by inserting them in turn. -/
def Encode.balances (m : Std.ExtTreeMap Hash256 UInt64) : Bytes :=
  Encode.seq (fun pair => pair.1.bytes ++ Encode.u64 pair.2) m.toList

def Decode.balance (input : Bytes) : Option ((Hash256 × UInt64) × Bytes) := do
  let (key, rest) ← Hash256.decode input
  let (amount, rest) ← Decode.u64 rest
  return ((key, amount), rest)

def Decode.balances (input : Bytes) : Option (Std.ExtTreeMap Hash256 UInt64 × Bytes) := do
  let (pairs, rest) ← Decode.seq Decode.balance input
  return (insertAll ∅ pairs, rest)

namespace ChainEntry

def encode (entry : ChainEntry) : Bytes :=
  entry.hash.bytes ++ entry.parentHash.bytes ++ Encode.u64 entry.height ++ Encode.u64 entry.slot ++
    entry.producerKeyHash.bytes

def decode (input : Bytes) : Option (ChainEntry × Bytes) := do
  let (hash, rest) ← Hash256.decode input
  let (parentHash, rest) ← Hash256.decode rest
  let (height, rest) ← Decode.u64 rest
  let (slot, rest) ← Decode.u64 rest
  let (producerKeyHash, rest) ← Hash256.decode rest
  return (⟨hash, parentHash, height, slot, producerKeyHash⟩, rest)

end ChainEntry

namespace StakePool

def encode (pool : StakePool) : Bytes :=
  pool.id.bytes ++ Encode.bytes pool.vrfKey ++ Encode.bytes pool.kesKey ++ Encode.u64 pool.pledge ++
    Encode.u32 pool.marginNum ++ Encode.u32 pool.marginDen ++ Encode.u64 pool.fixedCost ++ Encode.bool pool.active

def decode (input : Bytes) : Option (StakePool × Bytes) := do
  let (id, rest) ← Hash256.decode input
  let (vrfKey, rest) ← Decode.bytes rest
  let (kesKey, rest) ← Decode.bytes rest
  let (pledge, rest) ← Decode.u64 rest
  let (marginNum, rest) ← Decode.u32 rest
  let (marginDen, rest) ← Decode.u32 rest
  let (fixedCost, rest) ← Decode.u64 rest
  let (active, rest) ← Decode.bool rest
  return (⟨id, vrfKey, kesKey, pledge, marginNum, marginDen, fixedCost, active⟩, rest)

end StakePool

namespace Delegation

def encode (delegation : Delegation) : Bytes :=
  delegation.delegatorId.bytes ++ delegation.poolId.bytes ++ Encode.u64 delegation.amount

def decode (input : Bytes) : Option (Delegation × Bytes) := do
  let (delegatorId, rest) ← Hash256.decode input
  let (poolId, rest) ← Hash256.decode rest
  let (amount, rest) ← Decode.u64 rest
  return (⟨delegatorId, poolId, amount⟩, rest)

end Delegation

namespace LedgerState

def encode (state : LedgerState) : Bytes :=
  Encode.seq StakePool.encode state.pools ++ Encode.seq Delegation.encode state.delegations ++
    Encode.balances state.rewardBalances

def decode (input : Bytes) : Option (LedgerState × Bytes) := do
  let (pools, rest) ← Decode.seq StakePool.decode input
  let (delegations, rest) ← Decode.seq Delegation.decode rest
  let (rewardBalances, rest) ← Decode.balances rest
  return (⟨pools, delegations, rewardBalances⟩, rest)

end LedgerState

namespace EpochSnapshot

def encode (snapshot : EpochSnapshot) : Bytes :=
  Encode.u64 snapshot.epoch ++ (Encode.u64 snapshot.stakeDistribution.epoch ++
    Encode.balances snapshot.stakeDistribution.poolStakes ++ Encode.u64 snapshot.stakeDistribution.totalStake) ++
    snapshot.tipHash.bytes

def decode (input : Bytes) : Option (EpochSnapshot × Bytes) := do
  let (epoch, rest) ← Decode.u64 input
  let (distributionEpoch, rest) ← Decode.u64 rest
  let (poolStakes, rest) ← Decode.balances rest
  let (totalStake, rest) ← Decode.u64 rest
  let (tipHash, rest) ← Hash256.decode rest
  return (⟨epoch, ⟨distributionEpoch, poolStakes, totalStake⟩, tipHash⟩, rest)

end EpochSnapshot

/-! ### The store -/

namespace StateStore

open KvBlockStore (decodeBlockHash)

def chainEntryPrefix : Bytes := ascii "state:chain_entry:"

def chainTipKey : Bytes := ascii "state:chain_tip"

def ledgerStateKey : Bytes := ascii "state:ledger"

def epochSnapshotPrefix : Bytes := ascii "state:epoch_snapshot:"

def keyChainEntry (hash : BlockHash) : Bytes := chainEntryPrefix ++ hash.bytes

def keyEpochSnapshot (epoch : Epoch) : Bytes := epochSnapshotPrefix ++ Word.toBeBytes epoch

def epochFromSnapshotKey (key : Bytes) : Except KvError Epoch := do
  require (epochSnapshotPrefix <+: key) (.corrupted "invalid epoch snapshot key prefix")
  let raw := key.drop epochSnapshotPrefix.length
  require (raw.length = 8) (.corrupted "invalid epoch snapshot key length")
  return Word.fromBeBytes raw

/-- Read the record under a key. -/
def getRecord {α : Type} (kv : KvStore) (key : Bytes) (read : Bytes → Except KvError α) : Except KvError (Option α) :=
  match kv.get key with
  | none => return none
  | some bytes => do
      let record ← read bytes
      return some record

def putChainEntry (kv : KvStore) (entry : ChainEntry) : KvStore := kv.put (keyChainEntry entry.hash) entry.encode

def getChainEntry (kv : KvStore) (hash : BlockHash) : Except KvError (Option ChainEntry) :=
  getRecord kv (keyChainEntry hash) (KvStore.decode ChainEntry.decode)

def setTipHash (kv : KvStore) (hash : BlockHash) : KvStore := kv.put chainTipKey hash.bytes

def getTipHash (kv : KvStore) : Except KvError (Option BlockHash) := getRecord kv chainTipKey decodeBlockHash

def putLedgerState (kv : KvStore) (state : LedgerState) : KvStore := kv.put ledgerStateKey state.encode

def getLedgerState (kv : KvStore) : Except KvError (Option LedgerState) :=
  getRecord kv ledgerStateKey (KvStore.decode LedgerState.decode)

def putEpochSnapshot (kv : KvStore) (snapshot : EpochSnapshot) : KvStore :=
  kv.put (keyEpochSnapshot snapshot.epoch) snapshot.encode

def getEpochSnapshot (kv : KvStore) (epoch : Epoch) : Except KvError (Option EpochSnapshot) :=
  getRecord kv (keyEpochSnapshot epoch) (KvStore.decode EpochSnapshot.decode)

/-- One scanned snapshot against the best one so far. -/
def laterSnapshot (best : Option (Epoch × EpochSnapshot)) (pair : Bytes × Bytes) :
    Except KvError (Option (Epoch × EpochSnapshot)) := do
  let epoch ← epochFromSnapshotKey pair.1
  let snapshot ← KvStore.decode EpochSnapshot.decode pair.2
  match best with
  | none => return some (epoch, snapshot)
  | some (bestEpoch, _) => return if epoch > bestEpoch then some (epoch, snapshot) else best

def latestEpochSnapshot (kv : KvStore) : Except KvError (Option EpochSnapshot) := do
  let best ← (kv.scanPrefix epochSnapshotPrefix).foldlM laterSnapshot none
  return best.map Prod.snd

end StateStore

end QuantumVault
