import QuantumVault.Core.Block

/-!
# The block store

Blocks by hash and block hashes by height. A height is indexed once and for all: a second block at an indexed height is refused. The two indexes live under disjoint key prefixes of one key-value store, so they are two maps here, and a batch that writes both is one update.
-/

namespace QuantumVault

open Result

/-- Failures of the storage layer. Encoding and decoding in-memory values cannot fail, so the backend and codec errors of the source have no counterpart. -/
inductive StorageError where
  | notFound (what : String)
  | alreadyExists (what : String)
  | invalidInput (what : String)
  | block (source : BlockError)
deriving DecidableEq

structure BlockStore where
  byHash : Std.ExtTreeMap BlockHash Block
  hashByHeight : Std.ExtTreeMap Height BlockHash

namespace BlockStore

def new : BlockStore := ⟨∅, ∅⟩

def getBlock (s : BlockStore) (hash : BlockHash) : Option Block := s.byHash[hash]?

def getHashByHeight (s : BlockStore) (height : Height) : Option BlockHash := s.hashByHeight[height]?

def getBlockByHeight (s : BlockStore) (height : Height) : Option Block :=
  (s.getHashByHeight height).bind s.getBlock

variable [Crypto]

/-- Store a block under its hash and index its height. -/
def putBlock (s : BlockStore) (block : Block) : Except StorageError BlockStore := do
  block.validateStructure.mapError .block
  require (s.getBlock block.hash = none) (.alreadyExists "block hash")
  match s.getHashByHeight block.header.height with
  | some existing =>
      -- The height may already point to this very block although its body is missing; nothing is written then.
      require (existing = block.hash) (.alreadyExists "block height index")
      return s
  | none =>
      return { byHash := s.byHash.insert block.hash block
               hashByHeight := s.hashByHeight.insert block.header.height block.hash }

end BlockStore

end QuantumVault
