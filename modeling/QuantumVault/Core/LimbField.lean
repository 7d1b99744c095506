import QuantumVault.Lib.BigEndian
import QuantumVault.Lib.Wide

/-!
# Arithmetic modulo the prime, on words

The arithmetic modulo `2^256 - 189` as the machine does it: an array of 32 bytes is four words, the most significant first, and products are accumulated in eight columns of 128 bits. Additions into a column can overflow and then abort. A sum of three words in 128 bits cannot, and a difference of words in signed 128 bits cannot either.
-/

namespace QuantumVault

namespace LimbField

def P : Bytes := List.replicate 31 0xFF ++ [0x43]

/-! ### Words -/

def toLimbs (a : Bytes) : List UInt64 :=
  [Word.fromBeBytes (a.take 8), Word.fromBeBytes ((a.drop 8).take 8), Word.fromBeBytes ((a.drop 16).take 8),
    Word.fromBeBytes ((a.drop 24).take 8)]

def fromLimbs (l : List UInt64) : Bytes := l.flatMap Word.toBeBytes

def pLimbs : List UInt64 := toLimbs P

/-- The first word that differs decides. -/
def gte : List UInt64 → List UInt64 → Bool
  | x :: xs, y :: ys => if x > y then true else if x < y then false else gte xs ys
  | _, _ => true

/-- One word of a sum, and the carry into the next one. -/
def addStep (words : UInt64 × UInt64) (acc : List UInt64 × UInt64) : List UInt64 × UInt64 :=
  let sum := words.1.toNat + words.2.toNat + acc.2.toNat
  (UInt64.ofNat sum :: acc.1, UInt64.ofNat (sum / 2 ^ 64))

/-- The words are added from the last to the first. -/
def addRaw (a b : List UInt64) : List UInt64 × Bool :=
  let (out, carry) := (a.zip b).foldr addStep ([], 0)
  (out, carry != 0)

/-- One word of a difference, and the borrow from the next one. -/
def subStep (words : UInt64 × UInt64) (acc : List UInt64 × Int) : List UInt64 × Int :=
  let diff : Int := words.1.toNat - words.2.toNat - acc.2
  if diff < 0 then (UInt64.ofNat (diff + 2 ^ 64).toNat :: acc.1, 1) else (UInt64.ofNat diff.toNat :: acc.1, 0)

def subRaw (a b : List UInt64) : List UInt64 × Bool :=
  let (out, borrow) := (a.zip b).foldr subStep ([], 0)
  (out, borrow != 0)

def reduce (a : List UInt64) : List UInt64 := if gte a pLimbs then (subRaw a pLimbs).1 else a

/-! ### Sums and differences -/

def fromU32 (v : UInt32) : Bytes := List.replicate 28 0 ++ (toLittleEndian 4 v.toNat).reverse

def add (a b : Bytes) : Bytes :=
  let (sum, carry) := addRaw (toLimbs a) (toLimbs b)
  if carry then fromLimbs (subRaw sum pLimbs).1 else fromLimbs (reduce sum)

def sub (a b : Bytes) : Bytes :=
  let (diff, borrow) := subRaw (toLimbs a) (toLimbs b)
  if borrow then fromLimbs (addRaw diff pLimbs).1 else fromLimbs diff

def reduceBytes (a : Bytes) : Bytes := fromLimbs (reduce (toLimbs a))

/-! ### Products -/

/-- Add into a column of 128 bits. -/
def accumulate (prod : List Nat) (k v : Nat) : Option (List Nat) := do
  let x ← prod[k]?
  let sum ← Wide.checkedAdd x v
  return prod.set k sum

/-- The halves of one product of words go into two neighbouring columns. -/
def mulStep (la lb : List UInt64) (prod : List Nat) (ij : Nat × Nat) : Option (List Nat) := do
  let x ← la[ij.1]?
  let y ← lb[ij.2]?
  let p ← Wide.checkedMul x.toNat y.toNat
  let k := ij.1 + ij.2
  let prod ← accumulate prod k (p / 2 ^ 64)
  if k + 1 < 8 then accumulate prod (k + 1) (p % 2 ^ 64) else return prod

/-- The indices of the two nested loops, both from the last to the first. -/
def mulIndices : List (Nat × Nat) := (List.range 4).reverse.flatMap fun i => (List.range 4).reverse.map fun j => (i, j)

/-- What a column has above 64 bits goes into the column before it. -/
def propagateStep (prod : List Nat) (i : Nat) : Option (List Nat) := do
  let x ← prod[i]?
  let prod ← accumulate prod (i - 1) (x / 2 ^ 64)
  let x ← prod[i]?
  return prod.set i (x % 2 ^ 64)

def product (la lb : List UInt64) : Option (List UInt64) := do
  let prod ← mulIndices.foldlM (mulStep la lb) (List.replicate 8 0)
  let prod ← (List.range' 1 7).reverse.foldlM propagateStep prod
  return prod.map UInt64.ofNat

/-- One word of a multiple of the upper half. -/
def correctionStep (x : UInt64) (acc : List UInt64 × Nat) : Option (List UInt64 × Nat) := do
  let scaled ← Wide.checkedMul x.toNat 189
  let v ← Wide.checkedAdd scaled acc.2
  return (UInt64.ofNat v :: acc.1, v / 2 ^ 64)

/-- The upper half times 189, in five words. -/
def correction (high : List UInt64) : Option (List UInt64) := do
  let (words, carry) ← high.foldrM correctionStep ([], 0)
  return UInt64.ofNat carry :: words

/-- One word of the sum of the lower half and the correction. -/
def resultStep (words : UInt64 × UInt64) (acc : List UInt64 × Nat) : Option (List UInt64 × Nat) := do
  let both ← Wide.checkedAdd words.1.toNat words.2.toNat
  let s ← Wide.checkedAdd both acc.2
  return (UInt64.ofNat s :: acc.1, s / 2 ^ 64)

/-- What stands above 256 bits counts 189 times, and a carry is taken away with the prime. -/
def foldOverflow (top : UInt64) (words : List UInt64) : Option (List UInt64) := do
  if top.toNat > 0 then
    let extra ← Wide.checkedMul top.toNat 189
    let (added, carry) := addRaw words [0, 0, UInt64.ofNat (extra / 2 ^ 64), UInt64.ofNat extra]
    return if carry then (subRaw added pLimbs).1 else added
  else return words

def mul (a b : Bytes) : Option Bytes := do
  let prod ← product (toLimbs a) (toLimbs b)
  let corr ← correction (prod.take 4)
  let (words, c2) ← ((prod.drop 4).zip corr.tail).foldrM resultStep ([], 0)
  let top ← Wide.checkedAdd (corr.headD 0).toNat c2
  let folded ← foldOverflow (UInt64.ofNat top) words
  return fromLimbs (reduce folded)

/-! ### Powers -/

/-- One bit of the exponent. -/
def powStep (expByte : UInt8) (state : Bytes × Bytes) (bit : Nat) : Option (Bytes × Bytes) := do
  let result ← if expByte.toNat >>> bit &&& 1 = 1 then mul state.1 state.2 else some state.1
  let base ← mul state.2 state.2
  return (result, base)

/-- The bytes of the exponent are taken from the last to the first, and their bits from the lowest to the highest. -/
def pow (base exp : Bytes) : Option Bytes := do
  let (result, _) ← (List.range 32).reverse.foldlM (fun state i => do
    let expByte ← exp[i]?
    (List.range 8).foldlM (powStep expByte) state) (fromU32 1, base)
  return result

def inv (a : Bytes) : Option Bytes := pow a (P.set 31 0x41)

end LimbField

end QuantumVault
