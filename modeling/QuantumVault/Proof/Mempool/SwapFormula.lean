import QuantumVault.Mempool.Batcher
import QuantumVault.Proof.Defi.Amm

/-!
# The two swap formulas

The batcher and the market maker have a copy each of the swap formula. Both come down to the rounded product rule on what is left of the input after the fee, and at thirty basis points they cut off the same fee. They differ in one intermediate width: the batcher triples the input in 64 bits, so it finds no output for inputs from a third of the word on.
-/

namespace QuantumVault

/-- What the rounded product rule pays for the net part of an input. -/
def productRule (reserveIn reserveOut net : Nat) : Nat := reserveOut * net / (reserveIn + net)

theorem productRule_lt_word {reserveIn : Nat} {reserveOut : UInt64} {net : Nat} :
    productRule reserveIn reserveOut.toNat net < 2 ^ 64 := by
  have hle : productRule reserveIn reserveOut.toNat net ≤ reserveOut.toNat := by
    apply Nat.div_le_of_le_mul
    rw [Nat.mul_comm]
    exact Nat.mul_le_mul_right _ (Nat.le_add_left _ _)
  exact lt_of_le_of_lt hle reserveOut.toNat_lt

private theorem productRule_checked {reserveIn reserveOut : UInt64} {net : Nat} (fee : UInt64)
    (hin : reserveIn.toNat ≠ 0) (hnet : net < 2 ^ 64) :
    (do
      let numerator ← Wide.checkedMul reserveOut.toNat net
      let denominator ← Wide.checkedAdd reserveIn.toNat net
      if denominator = 0 then none
      else
        let out ← Wide.checkedDiv numerator denominator
        if out > Wide.maxWord then none
        else some (UInt64.ofNat out, fee)) =
      some (UInt64.ofNat (productRule reserveIn.toNat reserveOut.toNat net), fee) := by
  have hpaid := @productRule_lt_word reserveIn.toNat reserveOut net
  rw [productRule] at hpaid
  rw [Wide.checkedMul_of_lt reserveOut.toNat_lt hnet, Option.bind_eq_bind, Option.bind_some,
    Wide.checkedAdd_of_lt reserveIn.toNat_lt hnet, Option.bind_some, if_neg (by omega),
    Wide.checkedDiv_of_pos (by omega), Option.bind_some, if_neg (by rw [Wide.maxWord]; omega), productRule]

theorem computeSwapOutput_eq (reserveIn reserveOut amountIn : UInt64) {feeBps : UInt16} (hfee : feeBps.toNat ≤ 10000) :
    computeSwapOutput reserveIn reserveOut amountIn feeBps =
      if reserveIn = 0 ∨ reserveOut = 0 ∨ amountIn = 0 then none
      else some (UInt64.ofNat (productRule reserveIn.toNat reserveOut.toNat
        (amountIn.toNat - amountIn.toNat * feeBps.toNat / 10000)), UInt64.ofNat (amountIn.toNat * feeBps.toNat / 10000)) := by
  rw [computeSwapOutput]
  split
  · rfl
  · rename_i hzero
    rw [not_or, ← UInt64.toNat_eq_zero_iff] at hzero
    have hbps : feeBps.toNat < 2 ^ 64 := by omega
    have hamount := amountIn.toNat_lt
    have hcharge : amountIn.toNat * feeBps.toNat / 10000 ≤ amountIn.toNat := by
      apply Nat.div_le_of_le_mul
      rw [Nat.mul_comm]
      exact Nat.mul_le_mul_right _ hfee
    rw [Wide.checkedMul_of_lt hamount hbps, Option.bind_eq_bind, Option.bind_some, Wide.checkedDiv_of_pos (by norm_num),
      Option.bind_some, if_neg (by omega), Wide.checkedSub_of_le hcharge, Option.bind_some]
    exact productRule_checked _ hzero.1 (by omega)

namespace Batcher

def swapFee (amountIn : Nat) : Nat := amountIn * 3 / 1000

theorem swapFee_le (amountIn : Nat) : swapFee amountIn ≤ amountIn := by
  rw [swapFee]
  omega

def swapPaid (reserveIn reserveOut amountIn : Nat) : Nat :=
  productRule reserveIn reserveOut (amountIn - swapFee amountIn)

theorem swapPaid_lt_word {reserveIn : Nat} {reserveOut : UInt64} {amountIn : Nat} :
    swapPaid reserveIn reserveOut.toNat amountIn < 2 ^ 64 := productRule_lt_word

theorem computeSwapOutput_eq (reserveIn reserveOut dx : UInt64) :
    computeSwapOutput reserveIn reserveOut dx =
      if (reserveIn = 0 ∨ reserveOut = 0 ∨ dx = 0) ∨ 2 ^ 64 ≤ dx.toNat * 3 then none
      else some (UInt64.ofNat (swapPaid reserveIn.toNat reserveOut.toNat dx.toNat), UInt64.ofNat (swapFee dx.toNat)) := by
  rw [computeSwapOutput]
  by_cases hzero : reserveIn = 0 ∨ reserveOut = 0 ∨ dx = 0
  · rw [if_pos hzero, if_pos (Or.inl hzero)]
  rw [if_neg hzero, Option.bind_eq_bind]
  cases htripled : Word.checkedMul dx 3 with
  | none =>
      have hwide : 2 ^ 64 ≤ dx.toNat * 3 := Word.checkedMul_eq_none.mp htripled
      rw [if_pos (Or.inr hwide), Option.bind_none]
  | some tripled =>
      have hnarrow : tripled.toNat = dx.toNat * 3 := Word.checkedMul_eq_some.mp htripled
      have hlt := tripled.toNat_lt
      have hfee := swapFee_le dx.toNat
      have hdx := dx.toNat_lt
      obtain ⟨dxFee, hdxFee⟩ : ∃ w : UInt64, w.toNat = swapFee dx.toNat := Word.exists_toNat_eq (by omega)
      obtain ⟨dxNet, hdxNet⟩ : ∃ w : UInt64, w.toNat = dx.toNat - swapFee dx.toNat := Word.exists_toNat_eq (by omega)
      have hdiv : Word.checkedDiv tripled 1000 = some dxFee :=
        Word.checkedDiv_eq_some.mpr ⟨by decide, by rw [hdxFee, hnarrow]; rfl⟩
      have hsub : Word.checkedSub dx dxFee = some dxNet := Word.checkedSub_eq_some.mpr (by omega)
      have hnonzero := hzero
      rw [not_or, ← UInt64.toNat_eq_zero_iff] at hnonzero
      rw [Option.bind_some, hdiv, Option.bind_some, hsub, Option.bind_some, if_neg (not_or.mpr ⟨hzero, by omega⟩),
        swapPaid, ← hdxNet, ← hdxFee, UInt64.ofNat_toNat]
      exact productRule_checked _ hnonzero.1 dxNet.toNat_lt

private theorem swapFee_eq (amountIn : Nat) : amountIn * 30 / 10000 = swapFee amountIn := by
  rw [swapFee]
  omega

/-- **The two formulas agree on every input whose triple is a word, and on empty reserves.** -/
theorem computeSwapOutput_agrees_iff (reserveIn reserveOut dx : UInt64) :
    computeSwapOutput reserveIn reserveOut dx = QuantumVault.computeSwapOutput reserveIn reserveOut dx 30 ↔
      reserveIn = 0 ∨ reserveOut = 0 ∨ dx.toNat * 3 < 2 ^ 64 := by
  have hbps : (30 : UInt16).toNat = 30 := rfl
  rw [computeSwapOutput_eq, QuantumVault.computeSwapOutput_eq reserveIn reserveOut dx (by rw [hbps]; norm_num), hbps,
    swapFee_eq, ← swapPaid]
  by_cases hzero : reserveIn = 0 ∨ reserveOut = 0 ∨ dx = 0
  · rw [if_pos (Or.inl hzero), if_pos hzero]
    refine iff_of_true rfl ?_
    obtain hin | hout | hdx := hzero
    · exact Or.inl hin
    · exact Or.inr (Or.inl hout)
    · rw [hdx]
      exact Or.inr (Or.inr (by decide))
  · rw [if_neg hzero]
    have hreserves : ¬ (reserveIn = 0 ∨ reserveOut = 0) := fun h => hzero (by tauto)
    by_cases hwide : 2 ^ 64 ≤ dx.toNat * 3
    · rw [if_pos (Or.inr hwide)]
      refine iff_of_false (by simp) ?_
      rw [← or_assoc, not_or]
      exact ⟨hreserves, by omega⟩
    · rw [if_neg (by rw [not_or]; exact ⟨hzero, hwide⟩)]
      exact iff_of_true rfl (Or.inr (Or.inr (by omega)))

/-- From a third of the word on the batcher finds no output where the market maker pays one. -/
theorem computeSwapOutput_differs : ¬ ∀ reserveIn reserveOut dx : UInt64,
    computeSwapOutput reserveIn reserveOut dx = QuantumVault.computeSwapOutput reserveIn reserveOut dx 30 :=
  fun h => absurd (h 1000000 1000000 0x8000000000000000) (by decide)

end Batcher

end QuantumVault
