import QuantumVault.Core.Types
import QuantumVault.Lib.Sorting

/-!
# The canonical order of a block

The keys by which the transactions of a block are ordered: the denser fee first, then the earlier arrival, then the smaller id. Keys hold the fee density subtracted from the largest word, so that the order is ascending in every field.
-/

namespace QuantumVault

structure OrderKey where
  negFeeDensity : UInt64
  timestampMs : UInt64
  txId : TxId
deriving DecidableEq

namespace OrderKey

instance : Ord OrderKey :=
  ⟨compareLex (compareOn OrderKey.negFeeDensity)
    (compareLex (compareOn OrderKey.timestampMs) (compareOn OrderKey.txId))⟩

instance : Std.TransOrd OrderKey :=
  inferInstanceAs (Std.TransCmp (compareLex (compareOn OrderKey.negFeeDensity)
    (compareLex (compareOn OrderKey.timestampMs) (compareOn OrderKey.txId))))

instance : Std.LawfulEqOrd OrderKey where
  eq_of_compare {a b} h := by
    obtain ⟨hdensity, hrest⟩ := compareLex_eq_eq.mp h
    obtain ⟨htimestamp, htx⟩ := compareLex_eq_eq.mp hrest
    cases a
    cases b
    cases Std.LawfulEqOrd.eq_of_compare hdensity
    cases Std.LawfulEqOrd.eq_of_compare htimestamp
    cases Std.LawfulEqOrd.eq_of_compare htx
    rfl

def new (feeDensity timestampMs : UInt64) (txId : TxId) : OrderKey := ⟨Word.max - feeDensity, timestampMs, txId⟩

def feeDensity (key : OrderKey) : UInt64 := Word.max - key.negFeeDensity

end OrderKey

/-- The canonical order of a list of keys. -/
def deterministicSort (keys : List OrderKey) : List OrderKey := Sorting.sorted keys

/-- The keys are in canonical order and none comes twice. -/
def verifyOrder : List OrderKey → Bool
  | a :: b :: rest => compare a b == .lt && verifyOrder (b :: rest)
  | _ => true

end QuantumVault
