import QuantumVault.Core.Crypto

/-!
# Key-evolving signatures

A binary tree of ML-DSA keys, one leaf per period. The public key is the Merkle root over the hashes of the leaf keys, and a signature carries the leaf's key, the leaf's signature of the message bound to the period, and the path from the leaf to the root. Advancing a key overwrites the seed of the period it leaves.
-/

namespace QuantumVault

/-! ### Signing -/

def DilithiumLevel.secretKeyBytes : DilithiumLevel → Nat
  | level2 => 2560
  | level3 => 4032
  | level5 => 4896

/-- The signing half of the signature library, uninterpreted like the verifying half: the encoded keys for a seed, public key first, and the signature of a message under an encoded secret key. -/
class Signing where
  mlDsaKeyGen : DilithiumLevel → (seed : Hash256) → Bytes × Bytes
  mlDsaSign : DilithiumLevel → (secretKey message : Bytes) → Bytes

export Signing (mlDsaKeyGen mlDsaSign)

structure PqcKeyPair where
  publicKey : Bytes
  secretKey : Bytes
deriving DecidableEq

def PqcSecretKey.fromBytes (level : DilithiumLevel) (bytes : Bytes) : Option Bytes :=
  if bytes.length ≠ level.secretKeyBytes then none else some bytes

def fromSeedPqc [Signing] (level : DilithiumLevel) (seed : Hash256) : Option PqcKeyPair := do
  let publicKey ← PqcPublicKey.fromBytes level (mlDsaKeyGen level seed).1
  let secretKey ← PqcSecretKey.fromBytes level (mlDsaKeyGen level seed).2
  return ⟨publicKey, secretKey⟩

/-- Signing fails when the secret key does not have the length of the level. -/
def signPqc [Signing] (level : DilithiumLevel) (secretKey message : Bytes) : Option Bytes :=
  if secretKey.length ≠ level.secretKeyBytes then none
  else PqcSignature.fromBytes level (mlDsaSign level secretKey message)

/-! ### Keys and signatures -/

namespace Kes

def treeDepth : Nat := 11

def totalPeriods : UInt32 := 2048

def leafLevel : DilithiumLevel := .level3

def leafSeedTag : Bytes := ascii "QuantumVault-KES-leaf-v1"

def signTag : Bytes := ascii "QuantumVault-KES-sign-v1"

def merkleTag : Bytes := ascii "QuantumVault-KES-merkle-v1"

end Kes

/-- The seeds of all periods, those already left overwritten with zeros, and the hashes of all leaf public keys. -/
structure KesSecretKey where
  period : UInt32
  leafSeeds : List Hash256
  leafPkHashes : List Hash256
deriving DecidableEq

def KesSecretKey.isExhausted (sk : KesSecretKey) : Bool := decide (Kes.totalPeriods ≤ sk.period)

structure KesSignature where
  period : UInt32
  leafPk : Bytes
  leafSignature : Bytes
  merklePath : List Hash256
deriving DecidableEq

/-! ### Wire format -/

def Hash256.decode (input : Bytes) : Option (Hash256 × Bytes) :=
  if h : 32 ≤ input.length then some (⟨input.take 32, by simpa using h⟩, input.drop 32) else none

def KesSignature.encode (sig : KesSignature) : Bytes :=
  Encode.u32 sig.period ++ Encode.bytes sig.leafPk ++ Encode.bytes sig.leafSignature ++
    Encode.seq Hash256.bytes sig.merklePath

/-- Bytes after the signature are ignored. -/
def KesSignature.decode (input : Bytes) : Option KesSignature := do
  let (period, rest) ← Decode.u32 input
  let (leafPk, rest) ← Decode.bytes rest
  let (leafSignature, rest) ← Decode.bytes rest
  let (merklePath, _) ← Decode.seq Hash256.decode rest
  return ⟨period, leafPk, leafSignature, merklePath⟩

namespace Kes

variable [Crypto]

/-! ### The tree -/

def deriveLeafSeed (masterSeed : Hash256) (period : UInt32) : Hash256 :=
  sha3_256 (leafSeedTag ++ masterSeed.bytes ++ toLittleEndian 4 period.toNat)

def leafPkHash (leafPk : Bytes) : Hash256 := sha3_256 (merkleTag ++ [0x00] ++ leafPk)

def internalNodeHash (left right : Hash256) : Hash256 :=
  sha3_256 (merkleTag ++ [0x01] ++ left.bytes ++ right.bytes)

/-- One layer of the tree from the one below. -/
def nextLayer : List Hash256 → List Hash256
  | [] => []
  | [last] => [internalNodeHash last last]
  | left :: right :: rest => internalNodeHash left right :: nextLayer rest

/-- Layers are built until one node is left. A layer is at most half as long as the one below, rounded up, so the length of the first one bounds the number of rounds. -/
def reduceLayers : (rounds : Nat) → List Hash256 → List Hash256
  | 0, layer => layer
  | rounds + 1, layer => if layer.length > 1 then reduceLayers rounds (nextLayer layer) else layer

def merkleRootFromLeaves (leaves : List Hash256) : Hash256 := (reduceLayers leaves.length leaves).headD .zero

def merklePathFor : (depth : Nat) → (layer : List Hash256) → (index : Nat) → List Hash256
  | 0, _, _ => []
  | depth + 1, layer, index =>
      layer.getD (index ^^^ 1) .zero :: merklePathFor depth (nextLayer layer) (index / 2)

/-- Walk a path back to the root. -/
def merkleRootFromPath : (current : Hash256) → (index : Nat) → (path : List Hash256) → Hash256
  | current, _, [] => current
  | current, index, sibling :: path =>
      let parent := if index % 2 = 0 then internalNodeHash current sibling else internalNodeHash sibling current
      merkleRootFromPath parent (index / 2) path

/-- What a leaf actually signs. -/
def periodBoundMessage (period : UInt32) (msg : Bytes) : Bytes := signTag ++ toLittleEndian 4 period.toNat ++ msg

/-! ### Operations -/

section Signing

variable [Signing]

def generateLeaf (masterSeed : Hash256) (period : Nat) : Option (Hash256 × Hash256) := do
  let seed := deriveLeafSeed masterSeed (UInt32.ofNat period)
  let kp ← fromSeedPqc leafLevel seed
  return (seed, leafPkHash kp.publicKey)

def generate (masterSeed : Hash256) : Option (Hash256 × KesSecretKey) := do
  let leaves ← (List.range totalPeriods.toNat).mapM (generateLeaf masterSeed)
  let leafPkHashes := leaves.map Prod.snd
  return (merkleRootFromLeaves leafPkHashes, ⟨0, leaves.map Prod.fst, leafPkHashes⟩)

def sign (sk : KesSecretKey) (msg : Bytes) : Option KesSignature :=
  if sk.isExhausted then none
  else do
    let seed ← sk.leafSeeds[sk.period.toNat]?
    let kp ← fromSeedPqc leafLevel seed
    let leafSignature ← signPqc leafLevel kp.secretKey (periodBoundMessage sk.period msg)
    return ⟨sk.period, kp.publicKey, leafSignature, merklePathFor treeDepth sk.leafPkHashes sk.period.toNat⟩

end Signing

/-- A signature that is malformed in its lengths is an error, here `none`. -/
def verify (pk : Hash256) (sig : KesSignature) (msg : Bytes) : Option Bool :=
  if sig.period ≥ totalPeriods then some false
  else if sig.merklePath.length ≠ treeDepth then some false
  else do
    let leafPk ← PqcPublicKey.fromBytes leafLevel sig.leafPk
    let leafSig ← PqcSignature.fromBytes leafLevel sig.leafSignature
    let valid ← verifyPqc leafLevel leafPk (periodBoundMessage sig.period msg) leafSig
    if valid then
      return decide (merkleRootFromPath (leafPkHash sig.leafPk) sig.period.toNat sig.merklePath = pk)
    else return false

/-- Advance a key by one period and overwrite the seed of the period it leaves. -/
def evolve (sk : KesSecretKey) : Option KesSecretKey :=
  if sk.isExhausted then none
  else some { sk with period := sk.period + 1, leafSeeds := sk.leafSeeds.set sk.period.toNat .zero }

end Kes

end QuantumVault
