import Mathlib

/-!
# Words read as signed integers

A 64-bit word and the signed integer with the same bits. Comparing the integers is comparing the words as long as the top bits do not come apart the wrong way: a word with its top bit set is read as a negative number, which lies below all words without it.

Signed 32-bit arithmetic that stops at its bounds works on the integers themselves.
-/

namespace QuantumVault

namespace Signed

variable {a b c : UInt64}

theorem toInt_toInt64 (x : UInt64) :
    x.toInt64.toInt = if x.toNat < 2 ^ 63 then (x.toNat : Int) else x.toNat - 2 ^ 64 := by
  have hlt := x.toNat_lt
  show x.toBitVec.toInt = _
  rw [BitVec.toInt_eq_toNat_cond]
  simp only [UInt64.toNat_toBitVec]
  split <;> split <;> omega

/-- A signed comparison is an unsigned one unless a set top bit stands on the left only. -/
theorem le_of_toInt64_le (h : a.toInt64 ≤ b.toInt64) (htop : b.toNat < 2 ^ 63 → a.toNat < 2 ^ 63) : a.toNat ≤ b.toNat := by
  have ha := a.toNat_lt
  rw [Int64.le_iff_toInt_le, toInt_toInt64, toInt_toInt64] at h
  split at h <;> split at h <;> omega

theorem toInt64_le_of_le (h : a.toNat ≤ b.toNat) (htop : a.toNat < 2 ^ 63 → b.toNat < 2 ^ 63) : a.toInt64 ≤ b.toInt64 := by
  have hb := b.toNat_lt
  rw [Int64.le_iff_toInt_le, toInt_toInt64, toInt_toInt64]
  split <;> split <;> omega

theorem toInt64_le_iff_of_le (h : a.toNat ≤ b.toNat) :
    a.toInt64 ≤ b.toInt64 ↔ ¬ (a.toNat < 2 ^ 63 ∧ 2 ^ 63 ≤ b.toNat) := by
  constructor
  · intro hle htop
    rw [Int64.le_iff_toInt_le, toInt_toInt64, toInt_toInt64, if_pos htop.1, if_neg (by omega)] at hle
    have hb := b.toNat_lt
    omega
  · intro htop
    exact toInt64_le_of_le h (by omega)

/-- A bound below `2^63` on the difference of words bounds the wrapping one. -/
theorem toInt64_sub_le (hle : a.toNat ≤ b.toNat) (hsub : b.toNat ≤ a.toNat + c.toNat) (hc : c.toNat < 2 ^ 63) :
    b.toInt64 - a.toInt64 ≤ c.toInt64 := by
  have ha := a.toNat_lt
  have hb := b.toNat_lt
  rw [Int64.le_iff_toInt_le, Int64.toInt_sub, toInt_toInt64, toInt_toInt64, toInt_toInt64, if_pos hc, Int.bmod_def]
  split <;> split <;> split <;> omega

theorem sub_le_of_toInt64 (hle : a.toInt64 ≤ b.toInt64) (hsub : b.toInt64 - a.toInt64 ≤ c.toInt64)
    (htop : b.toNat < 2 ^ 63 → a.toNat < 2 ^ 63) (hc : c.toNat < 2 ^ 63) : b.toNat - a.toNat ≤ c.toNat := by
  have ha := a.toNat_lt
  have hb := b.toNat_lt
  have hnat := le_of_toInt64_le hle htop
  rw [Int64.le_iff_toInt_le, toInt_toInt64, toInt_toInt64] at hle
  rw [Int64.le_iff_toInt_le, Int64.toInt_sub, toInt_toInt64, toInt_toInt64, toInt_toInt64, if_pos hc] at hsub
  have hdiff : (b.toNat : Int) - a.toNat < 2 ^ 63 := by
    split at hle <;> split at hle <;> omega
  have hexact : (b.toInt64.toInt - a.toInt64.toInt).bmod (2 ^ 64) = b.toNat - a.toNat := by
    rw [toInt_toInt64, toInt_toInt64, Int.bmod_def]
    split <;> split <;> split <;> omega
  rw [toInt_toInt64, toInt_toInt64] at hexact
  omega

/-! ### Saturation at 32 bits -/

/-- The integer that is nearest among the signed 32-bit ones. -/
def clamp (n : Int) : Int := max (-2 ^ 31) (min (2 ^ 31 - 1) n)

/-- The difference of signed 32-bit integers, stopped at the bounds. -/
def saturatingSub (m n : Int) : Int := clamp (m - n)

theorem saturatingSub_clamp {m n : Int} (hm : m ≤ 2 ^ 31 - 1) (hn : 0 ≤ n) : saturatingSub (clamp m) n = clamp (m - n) := by
  unfold saturatingSub clamp
  omega

end Signed

end QuantumVault
