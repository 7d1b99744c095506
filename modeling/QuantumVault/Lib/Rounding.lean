import Mathlib

/-!
# Rounded roots and shares

Newton's iteration for the integer square root, and the inequalities behind proportional shares that are rounded down: what a constant-product swap pays, what a deposit into a common pool is worth in shares, and what burning shares pays back. Everything is about natural numbers.
-/

namespace QuantumVault

namespace Rounding

/-! ### Newton's iteration -/

/-- The next guess is never below the root. -/
theorem lt_succ_sq_newton (n : Nat) {x : Nat} (hx : 0 < x) : n < ((x + n / x) / 2 + 1) * ((x + n / x) / 2 + 1) := by
  have hquot : n < x * (n / x + 1) := Nat.lt_mul_div_succ n hx
  have hhalf : x + (n / x + 1) ≤ 2 * ((x + n / x) / 2 + 1) := by omega
  have hmean : 4 * x * (n / x + 1) ≤ (x + (n / x + 1)) ^ 2 := four_mul_le_sq_add x (n / x + 1)
  have hsquare := Nat.mul_le_mul hhalf hhalf
  nlinarith

/-- A guess that the next one does not improve is not above the root. -/
theorem sq_le_of_newton {n x : Nat} (h : x ≤ (x + n / x) / 2) : x * x ≤ n := by
  have hle : x ≤ n / x := by omega
  calc x * x ≤ n / x * x := Nat.mul_le_mul_right x hle
    _ ≤ n := Nat.div_mul_le_self n x

/-! ### Quotients rounded up -/

theorem le_roundUp_mul (n : Nat) {d : Nat} (hd : 0 < d) : n ≤ (if 0 < n % d then n / d + 1 else n / d) * d := by
  have hdiv := Nat.div_add_mod' n d
  have hmod := Nat.mod_lt n hd
  split
  · rw [Nat.add_mul]
    omega
  · omega

/-- A factor rounded up in place of a quotient: what holds with the factor holds with the quotient. -/
theorem mul_le_of_mul_roundUp_le {n d amount bound : Nat} (hd : 0 < d)
    (h : amount * (if 0 < n % d then n / d + 1 else n / d) ≤ bound) : amount * n ≤ bound * d :=
  calc amount * n ≤ amount * ((if 0 < n % d then n / d + 1 else n / d) * d) := Nat.mul_le_mul_left _ (le_roundUp_mul n hd)
    _ = amount * (if 0 < n % d then n / d + 1 else n / d) * d := (Nat.mul_assoc _ _ _).symm
    _ ≤ bound * d := Nat.mul_le_mul_right d h

/-! ### Weighted means -/

/-- Values, each times its weight. -/
def weightedSum (l : List (Nat × Nat)) : Nat := (l.map fun p => p.1 * p.2).sum

def totalWeight (l : List (Nat × Nat)) : Nat := (l.map Prod.snd).sum

theorem mul_totalWeight_le {l : List (Nat × Nat)} {lo : Nat} (h : ∀ p ∈ l, 0 < p.2 → lo ≤ p.1) :
    lo * totalWeight l ≤ weightedSum l := by
  rw [totalWeight, weightedSum, ← List.sum_map_mul_left]
  apply List.sum_le_sum
  intro p hp
  obtain hzero | hpos := Nat.eq_zero_or_pos p.2
  · rw [hzero, Nat.mul_zero, Nat.mul_zero]
  · exact Nat.mul_le_mul_right p.2 (h p hp hpos)

theorem weightedSum_le_mul {l : List (Nat × Nat)} {hi : Nat} (h : ∀ p ∈ l, 0 < p.2 → p.1 ≤ hi) :
    weightedSum l ≤ hi * totalWeight l := by
  rw [totalWeight, weightedSum, ← List.sum_map_mul_left]
  apply List.sum_le_sum
  intro p hp
  obtain hzero | hpos := Nat.eq_zero_or_pos p.2
  · rw [hzero, Nat.mul_zero, Nat.mul_zero]
  · exact Nat.mul_le_mul_right p.2 (h p hp hpos)

theorem exists_le_mean {l : List (Nat × Nat)} (hpos : 0 < totalWeight l) :
    ∃ p ∈ l, 0 < p.2 ∧ p.1 ≤ weightedSum l / totalWeight l := by
  by_contra hnone
  push Not at hnone
  have hle : (weightedSum l / totalWeight l + 1) * totalWeight l ≤ weightedSum l := mul_totalWeight_le hnone
  have hlt := Nat.lt_mul_div_succ (weightedSum l) hpos
  rw [Nat.mul_comm] at hlt
  omega

theorem exists_mean_le {l : List (Nat × Nat)} (hpos : 0 < totalWeight l) :
    ∃ p ∈ l, 0 < p.2 ∧ weightedSum l / totalWeight l ≤ p.1 := by
  by_contra hnone
  push Not at hnone
  obtain ⟨least, hleast, hcounts, -⟩ := exists_le_mean hpos
  have hmean := hnone least hleast hcounts
  have hle : weightedSum l ≤ (weightedSum l / totalWeight l - 1) * totalWeight l :=
    weightedSum_le_mul fun p hp hp' => Nat.le_pred_of_lt (hnone p hp hp')
  have hfloor := Nat.div_mul_le_self (weightedSum l) (totalWeight l)
  have := Nat.le_of_mul_le_mul_right (hfloor.trans hle) hpos
  omega

/-! ### Swaps -/

variable {reserveIn reserveOut net : Nat}

theorem swap_lt (hin : 0 < reserveIn) (hout : 0 < reserveOut) : reserveOut * net / (reserveIn + net) < reserveOut := by
  apply (Nat.div_lt_iff_lt_mul (by omega)).mpr
  apply Nat.mul_lt_mul_of_pos_left _ hout
  omega

/-- A swap does not lower the product of the reserves, whatever part of the input counts. -/
theorem swap_product_le {amountIn : Nat} (hnet : net ≤ amountIn) :
    reserveIn * reserveOut ≤ (reserveIn + amountIn) * (reserveOut - reserveOut * net / (reserveIn + net)) := by
  have hpaid : reserveOut * net / (reserveIn + net) * (reserveIn + net) ≤ reserveOut * net := Nat.div_mul_le_self _ _
  calc reserveIn * reserveOut
      = reserveOut * (reserveIn + net) - reserveOut * net := by rw [Nat.mul_add, Nat.add_sub_cancel, Nat.mul_comm]
    _ ≤ reserveOut * (reserveIn + net) - reserveOut * net / (reserveIn + net) * (reserveIn + net) :=
        Nat.sub_le_sub_left hpaid _
    _ = (reserveIn + net) * (reserveOut - reserveOut * net / (reserveIn + net)) := by
        rw [← Nat.sub_mul, Nat.mul_comm]
    _ ≤ (reserveIn + amountIn) * (reserveOut - reserveOut * net / (reserveIn + net)) :=
        Nat.mul_le_mul_right _ (Nat.add_le_add_left hnet _)

/-! ### Shares -/

variable {a b lp issued burned amountA amountB : Nat}

theorem issue_sq_le (ha : 0 < a) (hb : 0 < b) (hsq : lp * lp ≤ a * b) (hshareA : issued * a ≤ lp * amountA)
    (hshareB : issued * b ≤ lp * amountB) :
    (lp + issued) * (lp + issued) ≤ (a + amountA) * (b + amountB) := by
  have hleft : (lp + issued) * a ≤ lp * (a + amountA) := by nlinarith
  have hright : (lp + issued) * b ≤ lp * (b + amountB) := by nlinarith
  apply Nat.le_of_mul_le_mul_left _ (Nat.mul_pos ha hb)
  calc a * b * ((lp + issued) * (lp + issued)) = ((lp + issued) * a) * ((lp + issued) * b) := by ring
    _ ≤ (lp * (a + amountA)) * (lp * (b + amountB)) := Nat.mul_le_mul hleft hright
    _ = lp * lp * ((a + amountA) * (b + amountB)) := by ring
    _ ≤ a * b * ((a + amountA) * (b + amountB)) := Nat.mul_le_mul_right _ hsq

theorem burn_rest_le (a : Nat) : a * (lp - burned) ≤ (a - a * burned / lp) * lp := by
  have hpaid : a * burned / lp * lp ≤ a * burned := Nat.div_mul_le_self _ _
  rw [Nat.mul_sub, Nat.sub_mul]
  exact Nat.sub_le_sub_left hpaid _

theorem burn_sq_le (hlp : 0 < lp) (hsq : lp * lp ≤ a * b) :
    (lp - burned) * (lp - burned) ≤ (a - a * burned / lp) * (b - b * burned / lp) := by
  apply Nat.le_of_mul_le_mul_left _ (Nat.mul_pos hlp hlp)
  calc lp * lp * ((lp - burned) * (lp - burned)) ≤ a * b * ((lp - burned) * (lp - burned)) := Nat.mul_le_mul_right _ hsq
    _ = (a * (lp - burned)) * (b * (lp - burned)) := by ring
    _ ≤ ((a - a * burned / lp) * lp) * ((b - b * burned / lp) * lp) := Nat.mul_le_mul (burn_rest_le a) (burn_rest_le b)
    _ = lp * lp * ((a - a * burned / lp) * (b - b * burned / lp)) := by ring

theorem burn_rest_eq_zero_iff (ha : 0 < a) (hlp : 0 < lp) (hle : burned ≤ lp) :
    a - a * burned / lp = 0 ↔ burned = lp := by
  constructor
  · intro hzero
    have hrest := @burn_rest_le lp burned a
    rw [hzero, Nat.zero_mul] at hrest
    have := Nat.eq_zero_of_le_zero hrest
    obtain h | h := Nat.mul_eq_zero.mp this <;> omega
  · intro hall
    rw [hall, Nat.mul_div_cancel a hlp, Nat.sub_self]

theorem issue_burn_le (hshare : issued * a ≤ lp * amountA) :
    (a + amountA) * issued / (lp + issued) ≤ amountA := by
  apply Nat.div_le_of_le_mul
  nlinarith

end Rounding

end QuantumVault
