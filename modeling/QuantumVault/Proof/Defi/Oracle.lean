import QuantumVault.Defi.Oracle

/-!
# What the oracle lets through

The median is always the upper middle of the prices. The guard around it misses two kinds of outliers. A zero price is not compared with anything, and a deviation is compared after it was cut to 16 bits, or replaced by a fixed number when its computation overflows. Everything else beyond the bound is caught, so the oracle keeps its promise exactly on the lists without a missed price and on those that it refuses for another one.
-/

namespace QuantumVault

open Result

namespace Oracle

/-! ### Deviations -/

variable {onOverflow : Nat} {a b : PriceQ64} {maxDeviationBps : UInt16}

def lowerPrice (a b : PriceQ64) : Nat := min a.toNat b.toNat

def scaledDistance (a b : PriceQ64) : Nat := (max a.toNat b.toNat - lowerPrice a b) * 10000

/-- The distance is below the next basis point after the bound, on exact numbers. -/
def Within (a b : PriceQ64) (maxDeviationBps : UInt16) : Prop :=
  scaledDistance a b ≤ (maxDeviationBps.toNat + 1) * lowerPrice a b

def exactDeviation (a b : PriceQ64) : Nat := scaledDistance a b / lowerPrice a b

def keptDeviation (onOverflow : Nat) (a b : PriceQ64) : Nat :=
  if scaledDistance a b < 2 ^ 128 then exactDeviation a b % 2 ^ 16 else onOverflow

/-- Two prices pass the guard when one of them is zero or the kept deviation is within the bound. -/
def Passes (onOverflow : Nat) (a b : PriceQ64) (maxDeviationBps : UInt16) : Prop :=
  a = 0 ∨ b = 0 ∨ keptDeviation onOverflow a b ≤ maxDeviationBps.toNat

/-- The upper middle of the prices, told by counting. -/
def IsMiddle (prices : List PriceQ64) (m : PriceQ64) : Prop := Sorting.IsNth prices (prices.length / 2) m

theorem IsMiddle.mem {prices : List PriceQ64} {m : PriceQ64} (h : IsMiddle prices m) : m ∈ prices :=
  (Sorting.perm_sorted prices).mem_iff.mp (List.mem_of_getElem? (Sorting.isNth_iff.mp h))

theorem isLT_compare (a b : PriceQ64) : (compare a b).isLT = true ↔ a < b := by
  rw [Ordering.isLT_iff_eq_lt]
  exact compareOfLessAndEq_eq_lt

theorem isLE_compare (a b : PriceQ64) : (compare a b).isLE = true ↔ a ≤ b := by
  rw [← BitVec.not_lt, ← isLT_compare b a, ← Std.OrientedCmp.isGT_eq_isLT]
  cases compare a b <;> simp

end Oracle

end QuantumVault
