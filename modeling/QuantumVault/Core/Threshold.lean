import QuantumVault.Core.Crypto
import QuantumVault.Lib.Result
import QuantumVault.Lib.Sorting

/-!
# Threshold cryptography

A committee shares a secret by polynomials over the integers modulo the prime `2^256 - 189`. Public keys and ciphertexts are powers of a generator modulo the same prime. An array of 32 bytes stands for a number of 256 bits in big-endian order; what the source computes on four words of 64 bits is computed here on the numbers, with every carry and every reduction where it has them.
-/

namespace QuantumVault

abbrev U256 : Type := BitVec 256

def toBigEndian (a : U256) : Bytes := (toLittleEndian 32 a.toNat).reverse

def ofBigEndian (bytes : Bytes) : U256 := BitVec.ofNat 256 (ofLittleEndian bytes.reverse)

namespace Threshold

open Result

/-! ### Arithmetic modulo the prime -/

namespace Field

def modulus : U256 := BitVec.ofNat 256 (2 ^ 256 - 189)

def addRaw (a b : U256) : U256 × Bool := (a + b, decide (2 ^ 256 ≤ a.toNat + b.toNat))

def subRaw (a b : U256) : U256 × Bool := (a - b, decide (a < b))

def reduce (a : U256) : U256 := if modulus ≤ a then (subRaw a modulus).1 else a

def zero : U256 := 0

def fromU32 (v : UInt32) : U256 := BitVec.ofNat 256 v.toNat

def add (a b : U256) : U256 :=
  let (sum, carry) := addRaw a b
  if carry then (subRaw sum modulus).1 else reduce sum

def sub (a b : U256) : U256 :=
  let (diff, borrow) := subRaw a b
  if borrow then (addRaw diff modulus).1 else diff

/-- What stands above the first 256 bits counts 189 times, and a carry once more. -/
def foldOverflow (result5 : Nat) : U256 :=
  let overflow := result5 / 2 ^ 256
  let low : U256 := BitVec.ofNat 256 result5
  if overflow > 0 then
    let (added, carry) := addRaw low (BitVec.ofNat 256 (overflow * 189))
    if carry then (subRaw added modulus).1 else added
  else low

/-- The product of 512 bits is folded twice. -/
def mul (a b : U256) : U256 :=
  let prod := a.toNat * b.toNat
  let correction := 189 * (prod / 2 ^ 256)
  reduce (foldOverflow (prod % 2 ^ 256 + correction))

/-- The bits of the exponent are taken from the lowest to the highest, next to the squares of the base. -/
def pow (base exp : U256) : U256 :=
  ((List.range 256).foldl (fun (state : U256 × U256) i =>
    (if exp.getLsbD i then mul state.1 state.2 else state.1, mul state.2 state.2)) (fromU32 1, base)).1

def inv (a : U256) : U256 := pow a (BitVec.ofNat 256 (2 ^ 256 - 191))

def reduceBytes (a : U256) : U256 := reduce a

end Field

/-- The failures of secret sharing, key generation and decryption. -/
inductive CryptoError where
  | invalidThreshold (threshold total : UInt32)
  | totalTooLarge
  | duplicateShareIndex
  | zeroShareIndex
  | tooFewParticipants
  | shareVerificationFailed (issuer : Nat) (recipient : UInt32)
  | publicKeyMismatch
  | ciphertextTooShort
  | insufficientShares (available : Nat) (need : UInt32)
deriving DecidableEq

structure ShamirShare where
  index : UInt32
  value : U256
deriving DecidableEq

/-- Horner's rule. -/
def polyEval (coeffs : List U256) (x : U256) : U256 :=
  coeffs.reverse.foldl (fun result coeff => Field.add (Field.mul result x) coeff) Field.zero

/-! ### Secret sharing -/

/-- The coefficients of higher degree are derived from the secret. -/
def secretCoefficient [Crypto] (secret : U256) (i : Nat) : U256 :=
  Field.reduceBytes (ofBigEndian (sha3_256 (toBigEndian secret ++ toLittleEndian 4 i)).bytes)

def secretCoefficients [Crypto] (secret : U256) (threshold : UInt32) : List U256 :=
  Field.reduceBytes secret :: (List.range' 1 (threshold.toNat - 1)).map (secretCoefficient secret)

def splitSecret [Crypto] (secret : U256) (threshold total : UInt32) : Except CryptoError (List ShamirShare) := do
  require (¬ (threshold = 0 ∨ threshold > total)) (.invalidThreshold threshold total)
  require (¬ total > 255) .totalTooLarge
  let coefficients := secretCoefficients secret threshold
  return (List.range' 1 total.toNat).map fun idx =>
    ⟨UInt32.ofNat idx, polyEval coefficients (Field.fromU32 (UInt32.ofNat idx))⟩

/-- The value at zero of the basis polynomial of the share in position `i`. -/
def shareBasis (used : List ShamirShare) (i : Nat) (share : ShamirShare) : U256 :=
  let xi := Field.fromU32 share.index
  let (numerator, denominator) := used.zipIdx.foldl (fun (state : U256 × U256) (other, j) =>
    if i = j then state
    else
      let xj := Field.fromU32 other.index
      (Field.mul state.1 (Field.sub Field.zero xj), Field.mul state.2 (Field.sub xi xj)))
    (Field.fromU32 1, Field.fromU32 1)
  Field.mul numerator (Field.inv denominator)

def interpolateAtZero (used : List ShamirShare) : U256 :=
  used.zipIdx.foldl (fun result (share, i) => Field.add result (Field.mul share.value (shareBasis used i share)))
    Field.zero

/-- The number of shares is narrowed to 32 bits before it is compared. -/
def reconstructSecret (shares : List ShamirShare) (threshold : UInt32) : Except CryptoError U256 := do
  require (¬ UInt32.ofNat shares.length < threshold) (.insufficientShares shares.length threshold)
  let used := shares.take threshold.toNat
  let indices := Sorting.sorted (used.map ShamirShare.index)
  require (Sorting.hasAdjacentEqual indices = false) .duplicateShareIndex
  require (indices.head? ≠ some 0) .zeroShareIndex
  return interpolateAtZero used

/-! ### Key generation -/

def generator : U256 := Field.fromU32 2

structure DkgShare where
  recipientId : UInt32
  issuerId : UInt32
  encryptedShare : U256
deriving DecidableEq

/-- A participant. Its coefficients are private, and reduced when they are made. -/
structure FeldmanVssParticipant where
  id : UInt32
  threshold : UInt32
  total : UInt32
  coefficients : List U256
  reduced : ∀ coeff ∈ coefficients, coeff < Field.modulus
deriving DecidableEq

theorem Field.reduce_lt (a : U256) : Field.reduce a < Field.modulus := by
  have ha := a.isLt
  have hmodulus : Field.modulus.toNat = 2 ^ 256 - 189 := rfl
  unfold Field.reduce Field.subRaw
  split
  · rename_i hle
    rw [BitVec.le_def] at hle
    rw [BitVec.lt_def, BitVec.toNat_sub_of_le hle]
    omega
  · rename_i hlt
    exact BitVec.not_le.mp hlt

namespace FeldmanVssParticipant

def coefficient [Crypto] (id : UInt32) (seed : U256) (coeffIdx : Nat) : U256 :=
  Field.reduceBytes (ofBigEndian (sha3_256 (toBigEndian seed ++ ascii "feldman_coeff" ++ toLittleEndian 4 id.toNat ++
    toLittleEndian 4 coeffIdx)).bytes)

/-- The coefficients are derived from a seed. -/
def new [Crypto] (id threshold total : UInt32) (seed : U256) : FeldmanVssParticipant where
  id := id
  threshold := threshold
  total := total
  coefficients := (List.range threshold.toNat).map (coefficient id seed)
  reduced := by
    intro coeff hcoeff
    obtain ⟨coeffIdx, -, rfl⟩ := List.mem_map.mp hcoeff
    exact Field.reduce_lt _

def secret (p : FeldmanVssParticipant) : Option U256 := p.coefficients[0]?

def evaluateAt (p : FeldmanVssParticipant) (x : U256) : U256 := polyEval p.coefficients x

def computeCommitments (p : FeldmanVssParticipant) : List U256 := p.coefficients.map (Field.pow generator)

def computeShares (p : FeldmanVssParticipant) : List DkgShare :=
  (List.range p.total.toNat).filterMap fun j =>
    if UInt32.ofNat j = p.id then none
    else some ⟨UInt32.ofNat j, p.id, p.evaluateAt (Field.fromU32 (UInt32.ofNat j + 1))⟩

end FeldmanVssParticipant

/-- The check of a share against the commitments of its issuer. The powers of the recipient's point are reduced as the coefficients are. -/
def verifyShareAgainstCommitments (share : DkgShare) (issuerCommitments : List U256) : Bool :=
  let lhs := Field.pow generator share.encryptedShare
  let j := Field.fromU32 (share.recipientId + 1)
  let (rhs, _) := issuerCommitments.foldl (fun (state : U256 × U256) commitment =>
    (Field.mul state.1 (Field.pow commitment state.2), Field.mul state.2 j)) (Field.fromU32 1, Field.fromU32 1)
  lhs == rhs

structure DkgResult where
  publicKey : U256
  participantShares : List ShamirShare
deriving DecidableEq

/-- The sum of all polynomials at one point. -/
def aggregateShare (participants : List FeldmanVssParticipant) (x : U256) : U256 :=
  participants.foldl (fun agg p => Field.add agg (p.evaluateAt x)) Field.zero

/-- The product of the commitments to the constant terms. -/
def aggregatePublicKey (participants : List FeldmanVssParticipant) : Option U256 :=
  participants.foldlM (fun pk p => p.computeCommitments[0]?.map (Field.mul pk)) (Field.fromU32 1)

/-- The sum of the constant terms. -/
def totalSecret (participants : List FeldmanVssParticipant) : Option U256 :=
  participants.foldlM (fun total p => p.secret.map (Field.add total)) Field.zero

/-- Every recipient checks the shares that are meant for it. An index that is out of bounds, here `none`, stops the source. -/
def verifyShares (participants : List FeldmanVssParticipant) : ExceptT CryptoError Option Unit :=
  participants.zipIdx.forM fun (issuer, issuerIdx) => issuer.computeShares.forM fun share => do
    let _recipient ← (participants[share.recipientId.toNat]? : Option FeldmanVssParticipant)
    if verifyShareAgainstCommitments share issuer.computeCommitments then return ()
    else throw (.shareVerificationFailed issuerIdx share.recipientId)

/-- One round of key generation. -/
def runPedersenDkg (participants : List FeldmanVssParticipant) : ExceptT CryptoError Option DkgResult :=
  if participants.length < 2 then throw .tooFewParticipants
  else do
    verifyShares participants
    let participantShares := (List.range participants.length).map fun j =>
      ⟨UInt32.ofNat j + 1, aggregateShare participants (Field.fromU32 (UInt32.ofNat j + 1))⟩
    let aggregatePk ← (aggregatePublicKey participants : Option U256)
    let total ← (totalSecret participants : Option U256)
    if aggregatePk = Field.pow generator total then return ⟨aggregatePk, participantShares⟩
    else throw .publicKeyMismatch

/-! ### Decryption -/

structure DecryptionShare where
  participantId : UInt32
  shareData : Bytes
deriving DecidableEq

/-- A member of the committee with its share of the key. -/
structure DkgThresholdDecryptor where
  participantIndex : UInt32
  keyShare : U256
  threshold : UInt32
deriving DecidableEq

namespace DkgThresholdDecryptor

/-- `C1 = g^r` and `C2 = m XOR H(pk^r)`. -/
def encrypt [Crypto] (publicKey message randomness : U256) : Bytes :=
  let r := Field.reduceBytes randomness
  let c1 := Field.pow generator r
  let shared := Field.pow publicKey r
  let mask := (sha3_256 (toBigEndian shared)).bytes
  toBigEndian c1 ++ List.zipWith (· ^^^ ·) (toBigEndian message) mask

def createDecryptionShare (d : DkgThresholdDecryptor) (ciphertext : Bytes) : Except CryptoError DecryptionShare := do
  require (¬ ciphertext.length < 32) .ciphertextTooShort
  return ⟨d.participantIndex, toBigEndian (Field.pow (ofBigEndian (ciphertext.take 32)) d.keyShare)⟩

end DkgThresholdDecryptor

/-- The coefficient of the share in position `i`. The other shares are told apart by their positions, not by their participants. -/
def lagrangeCoefficient (used : List DecryptionShare) (i : Nat) (share : DecryptionShare) : U256 :=
  let xi := Field.fromU32 share.participantId
  let (num, den) := used.zipIdx.foldl (fun (state : U256 × U256) (other, j) =>
    if i = j then state
    else
      let xj := Field.fromU32 other.participantId
      (Field.mul state.1 (Field.sub Field.zero xj), Field.mul state.2 (Field.sub xi xj)))
    (Field.fromU32 1, Field.fromU32 1)
  Field.mul num (Field.inv den)

/-- What a share contributes. Data of less than 32 bytes counts as zeros. -/
def DecryptionShare.element (share : DecryptionShare) : U256 :=
  if share.shareData.length ≥ 32 then ofBigEndian (share.shareData.take 32) else 0

def combineShares (shares : List DecryptionShare) (threshold : UInt32) : Except CryptoError Bytes := do
  require (¬ UInt32.ofNat shares.length < threshold) (.insufficientShares shares.length threshold)
  let used := shares.take threshold.toNat
  let combined := used.zipIdx.foldl (fun combined (share, i) =>
    Field.mul combined (Field.pow share.element (lagrangeCoefficient used i share))) (Field.fromU32 1)
  return toBigEndian combined

end Threshold

end QuantumVault
