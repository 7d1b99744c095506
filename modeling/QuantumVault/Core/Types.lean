import QuantumVault.Lib.Encoding
import QuantumVault.Lib.Word

/-!
# Ledger primitives

The small types every other crate shares: 32-byte digests and the identifiers built on them, the numeric newtypes, and the outpoint that names one output of one transaction. Digests and outpoints are ordered as the source orders them, bytewise and then by index, because sorted iteration over them decides the commitment root.
-/

namespace QuantumVault

structure Hash256 where
  bytes : Bytes
  length_eq : bytes.length = 32
deriving DecidableEq

namespace Hash256

/-- The all-zero digest, used as a sentinel. -/
def zero : Hash256 := ⟨List.replicate 32 0, rfl⟩

instance : Inhabited Hash256 := ⟨zero⟩

instance : Ord Hash256 := ⟨fun a b => compare a.bytes b.bytes⟩

@[ext] theorem ext {a b : Hash256} (h : a.bytes = b.bytes) : a = b := by
  cases a
  cases b
  cases h
  rfl

instance : Std.TransOrd Hash256 :=
  inferInstanceAs (Std.TransCmp (compareOn Hash256.bytes))

instance : Std.LawfulEqOrd Hash256 where
  eq_of_compare h := ext (Std.LawfulEqOrd.eq_of_compare (α := Bytes) h)

/-- The order the source's `<` uses on digests. -/
def lt (a b : Hash256) : Bool := compare a b == .lt

theorem lt_iff {a b : Hash256} : lt a b = true ↔ compare a b = .lt := by
  simp [lt]

end Hash256

abbrev TxId := Hash256
abbrev BlockHash := Hash256
abbrev MerkleRoot := Hash256
abbrev UtxoCommitment := Hash256

abbrev Height := UInt64
abbrev Slot := UInt64
abbrev Timestamp := UInt64
abbrev Amount := UInt64

/-- Saturating increment of a height. -/
def Height.next (h : Height) : Height := Word.saturatingAdd h 1

/-- Reference to one output of one transaction. -/
structure OutPoint where
  txId : TxId
  index : UInt32
deriving DecidableEq

namespace OutPoint

instance : Ord OutPoint := ⟨compareLex (compareOn OutPoint.txId) (compareOn OutPoint.index)⟩

instance : Std.TransOrd OutPoint :=
  inferInstanceAs (Std.TransCmp (compareLex (compareOn OutPoint.txId) (compareOn OutPoint.index)))

instance : Std.LawfulEqOrd OutPoint where
  eq_of_compare {a b} h := by
    obtain ⟨htx, hindex⟩ := compareLex_eq_eq.mp h
    cases a
    cases b
    cases Std.LawfulEqOrd.eq_of_compare htx
    cases Std.LawfulEqOrd.eq_of_compare hindex
    rfl

/-- The outpoint of the output at a position, which has to fit the 32-bit index. -/
def ofPosition (txId : TxId) (position : Nat) : Option OutPoint :=
  if position < 2 ^ 32 then some ⟨txId, UInt32.ofNat position⟩ else none

/-- The 36-byte key of an outpoint: the transaction id followed by the little-endian index. -/
def canonicalBytes (op : OutPoint) : Bytes :=
  op.txId.bytes ++ toLittleEndian 4 op.index.toNat

end OutPoint

end QuantumVault
