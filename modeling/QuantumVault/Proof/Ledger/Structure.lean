import QuantumVault.Proof.Ledger.Moves

/-!
# What the structural checks say

One equivalence for each structural check, so that no later proof unfolds them.
-/

namespace QuantumVault

open Result

namespace Transaction

variable {tx : Transaction}

theorem checkedSum_outputValues_isSome :
    (∃ sum, Word.checkedSum tx.outputValues = some sum) ↔ tx.outputTotal < 2 ^ 64 := by
  have hnone : Word.checkedSum tx.outputValues = none ↔ 2 ^ 64 ≤ tx.outputTotal := Word.checkedSum_eq_none
  cases hsum : Word.checkedSum tx.outputValues with
  | none =>
      have := hnone.mp hsum
      simp only [reduceCtorEq, exists_false, false_iff]
      omega
  | some sum =>
      have hnot : ¬ 2 ^ 64 ≤ tx.outputTotal := fun h => by cases hsum.symm.trans (hnone.mpr h)
      exact iff_of_true ⟨sum, rfl⟩ (by omega)

theorem validateStructure_eq_ok :
    tx.validateStructure = .ok () ↔
      tx.inputs ≠ [] ∧ tx.outputs ≠ [] ∧ tx.spends.Nodup ∧ tx.outputTotal < 2 ^ 64 := by
  unfold validateStructure
  simp only [require_bind_eq_ok, okOr_bind_eq_ok, pure_eq_ok, Sorting.hasAdjacentEqual_sorted, not_not,
    ← checkedSum_outputValues_isSome, and_true]

theorem validateCoinbaseStructure_eq_ok {height : Height} :
    tx.validateCoinbaseStructure height = .ok () ↔
      tx.inputs = [] ∧ tx.outputs ≠ [] ∧ tx.outputTotal < 2 ^ 64 ∧ tx.lockTime = height := by
  unfold validateCoinbaseStructure
  simp only [require_bind_eq_ok, okOr_bind_eq_ok, require_eq_ok, ← checkedSum_outputValues_isSome, exists_and_right]

end Transaction

namespace Block

variable [Crypto] {block : Block}

theorem validateStructure_eq_ok :
    block.validateStructure = .ok () ↔
      (∀ tx ∈ block.transactions.zipIdx, validateTransactionAt block.header.height tx.2 tx.1 = .ok ()) ∧
        block.txIds.Nodup ∧ merkleRootOf block.txIds = block.header.merkleRoot := by
  unfold validateStructure
  rw [bind_eq_ok]
  simp only [forM_eq_ok, mapError_eq_ok, require_bind_eq_ok, require_eq_ok, Sorting.hasAdjacentEqual_sorted, not_not,
    exists_and_left, exists_const]

variable {height : Height} {index : Nat} {tx : Transaction}

omit [Crypto] in
theorem validateTransactionAt_of_inputs (hinputs : tx.inputs ≠ []) :
    validateTransactionAt height index tx = tx.validateStructure := by
  unfold validateTransactionAt
  rw [if_neg]
  simpa using hinputs

omit [Crypto] in
theorem inputs_ne_nil_of_index (hheight : height ≠ 0) (hindex : index ≠ 0)
    (hok : validateTransactionAt height index tx = .ok ()) : tx.inputs ≠ [] := by
  intro hnil
  unfold validateTransactionAt at hok
  rw [hnil, List.isEmpty_nil, if_pos rfl, if_neg hheight, if_neg hindex] at hok
  cases hok

end Block

end QuantumVault
