import QuantumVault.Core.Decode
import QuantumVault.Lib.BigEndian
import QuantumVault.Storage.Kv

/-!
# The block store on bytes

Block bodies under their hashes and block hashes under big-endian heights, as they are kept in the key-value store.
-/

namespace QuantumVault

open Result

namespace KvBlockStore

def blockByHashPrefix : Bytes := ascii "block:by_hash:"

def blockHashByHeightPrefix : Bytes := ascii "block:height:"

def keyBlock (hash : BlockHash) : Bytes := blockByHashPrefix ++ hash.bytes

def keyHeight (height : Height) : Bytes := blockHashByHeightPrefix ++ Word.toBeBytes height

def decodeBlockHash (bytes : Bytes) : Except KvError BlockHash :=
  if h : bytes.length = 32 then .ok ⟨bytes, h⟩ else .error (.corrupted "invalid block hash length")

def getBlock (kv : KvStore) (hash : BlockHash) : Except KvError (Option Block) :=
  match kv.get (keyBlock hash) with
  | none => return none
  | some bytes => do
      let block ← KvStore.decode Block.decode bytes
      return some block

def getHashByHeight (kv : KvStore) (height : Height) : Except KvError (Option BlockHash) :=
  match kv.get (keyHeight height) with
  | none => return none
  | some bytes => do
      let hash ← decodeBlockHash bytes
      return some hash

def getBlockByHeight (kv : KvStore) (height : Height) : Except KvError (Option Block) := do
  match ← getHashByHeight kv height with
  | none => return none
  | some hash => getBlock kv hash

def getHeaderByHeight (kv : KvStore) (height : Height) : Except KvError (Option BlockHeader) := do
  let block ← getBlockByHeight kv height
  return block.map Block.header

variable [Crypto]

def putBlock (kv : KvStore) (block : Block) : Except KvError KvStore := do
  block.validateStructure.mapError fun e => .storage (.block e)
  let existing ← getBlock kv block.hash
  require (existing = none) (.storage (.alreadyExists "block hash"))
  match ← getHashByHeight kv block.header.height with
  | some existing =>
      require (existing = block.hash) (.storage (.alreadyExists "block height index"))
      return kv
  | none =>
      return kv.writeBatch [.put (keyBlock block.hash) block.encode,
        .put (keyHeight block.header.height) block.hash.bytes]

end KvBlockStore

end QuantumVault
