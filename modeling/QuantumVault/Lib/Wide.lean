import QuantumVault.Lib.Word

/-!
# Other widths

What the source language offers next to the 64-bit word: checked products and quotients of 32-bit words, checked arithmetic on 128-bit words, which are kept as natural numbers here because they only carry intermediate results, and the conversions between a word and a size. A product or a sum of 64-bit words always fits into 128 bits, so on those the checked operations are the plain ones.
-/

namespace QuantumVault

namespace Word

/-- A size as a word, or the largest word when it does not fit. -/
def saturatingOfNat (n : Nat) : UInt64 := if n < 2 ^ 64 then UInt64.ofNat n else max

theorem toNat_saturatingOfNat (n : Nat) : (saturatingOfNat n).toNat = min n (2 ^ 64 - 1) := by
  unfold saturatingOfNat
  split
  · rename_i hlt
    rw [UInt64.toNat_ofNat', Nat.mod_eq_of_lt hlt]
    omega
  · have hmax : max.toNat = 2 ^ 64 - 1 := rfl
    omega

theorem lt_of_saturatingOfNat_lt {m n : Nat} (h : saturatingOfNat m < saturatingOfNat n) : m < n := by
  rw [UInt64.lt_iff_toNat_lt, toNat_saturatingOfNat, toNat_saturatingOfNat] at h
  omega

def checkedMul (a b : UInt64) : Option UInt64 := if a.toNat * b.toNat < 2 ^ 64 then some (a * b) else none

def checkedDiv (a b : UInt64) : Option UInt64 := if b = 0 then none else some (a / b)

theorem checkedMul_eq_some {a b c : UInt64} : checkedMul a b = some c ↔ c.toNat = a.toNat * b.toNat := by
  have hc := c.toNat_lt
  unfold checkedMul
  split
  · rename_i hlt
    rw [Option.some.injEq, ← UInt64.toNat_inj, UInt64.toNat_mul, Nat.mod_eq_of_lt hlt]
    exact eq_comm
  · constructor
    · intro hnone
      cases hnone
    · intro heq
      omega

theorem checkedMul_eq_none {a b : UInt64} : checkedMul a b = none ↔ 2 ^ 64 ≤ a.toNat * b.toNat := by
  unfold checkedMul
  split <;> simp <;> omega

theorem checkedDiv_eq_some {a b c : UInt64} : checkedDiv a b = some c ↔ b ≠ 0 ∧ c.toNat = a.toNat / b.toNat := by
  unfold checkedDiv
  split
  · rename_i hzero
    simp [hzero]
  · rename_i hpos
    rw [Option.some.injEq, ← UInt64.toNat_inj, UInt64.toNat_div]
    simp [hpos, eq_comm]

end Word

namespace HalfWord

def checkedMul (a b : UInt32) : Option UInt32 := if a.toNat * b.toNat < 2 ^ 32 then some (a * b) else none

def checkedDiv (a b : UInt32) : Option UInt32 := if b = 0 then none else some (a / b)

end HalfWord

namespace Wide

/-- The largest 64-bit word, as a 128-bit one. -/
def maxWord : Nat := 2 ^ 64 - 1

def max : Nat := 2 ^ 128 - 1

def checkedAdd (a b : Nat) : Option Nat := if a + b < 2 ^ 128 then some (a + b) else none

def checkedSub (a b : Nat) : Option Nat := if b ≤ a then some (a - b) else none

def checkedMul (a b : Nat) : Option Nat := if a * b < 2 ^ 128 then some (a * b) else none

def checkedDiv (a b : Nat) : Option Nat := if b = 0 then none else some (a / b)

theorem checkedAdd_of_lt {a b : Nat} (ha : a < 2 ^ 64) (hb : b < 2 ^ 64) : checkedAdd a b = some (a + b) :=
  if_pos (by omega)

theorem checkedSub_of_le {a b : Nat} (h : b ≤ a) : checkedSub a b = some (a - b) := if_pos h

theorem checkedMul_of_lt {a b : Nat} (ha : a < 2 ^ 64) (hb : b < 2 ^ 64) : checkedMul a b = some (a * b) := by
  apply if_pos
  calc a * b < 2 ^ 64 * 2 ^ 64 := Nat.mul_lt_mul'' ha hb
    _ = 2 ^ 128 := by norm_num

theorem checkedDiv_of_pos {a b : Nat} (hb : 0 < b) : checkedDiv a b = some (a / b) := if_neg (by omega)

theorem checkedDiv_eq_some {a b c : Nat} : checkedDiv a b = some c ↔ 0 < b ∧ a / b = c := by
  unfold checkedDiv
  split <;> simp <;> omega

end Wide

end QuantumVault
