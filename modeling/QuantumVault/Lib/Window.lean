import Mathlib

/-!
# Bounded queues

A queue of bounded size drops its oldest entry to make room for a new one. What it holds is the end of everything that was ever added. The entry is dropped before the new one is there, so a queue of size zero holds one entry all the same.
-/

namespace QuantumVault

namespace Window

variable {α : Type*} {size : Nat} {q added : List α} {x : α}

/-- A new entry behind the others. The oldest makes room for it when the queue is full. -/
def push (size : Nat) (q : List α) (x : α) : List α := (if size ≤ q.length then q.drop 1 else q) ++ [x]

theorem push_rtake : push size (added.rtake (max size 1)) x = (added ++ [x]).rtake (max size 1) := by
  obtain ⟨k, hk⟩ : ∃ k, max size 1 = k + 1 := Nat.exists_eq_succ_of_ne_zero (by omega)
  rw [hk, List.rtake_concat_succ, push, List.rtake, List.rtake, List.length_drop]
  congr 1
  by_cases hfull : k + 1 ≤ added.length
  · rw [if_pos (by omega), List.drop_drop]
    congr 1
    omega
  · have hall : added.length - (k + 1) = 0 := by omega
    have hrest : added.length - k = 0 := by omega
    rw [hall, hrest, List.drop_zero]
    split
    · have hempty : added.length = 0 := by omega
      rw [List.length_eq_zero_iff.mp hempty]
      rfl
    · rfl

theorem length_rtake (n : Nat) : (added.rtake n).length = min n added.length := by
  rw [List.rtake, List.length_drop]
  omega

theorem rtake_max_one_eq_iff : added.rtake (max size 1) = added.rtake (min added.length size) ↔ size ≠ 0 ∨ added = [] := by
  refine ⟨fun h => ?_, fun h => ?_⟩
  · have hlen := congrArg List.length h
    rw [length_rtake, length_rtake] at hlen
    by_cases hempty : added = []
    · exact Or.inr hempty
    · have := List.length_pos_iff.mpr hempty
      exact Or.inl (by omega)
  · rw [List.rtake, List.rtake]
    congr 1
    obtain hsize | rfl := h
    · omega
    · simp

end Window

end QuantumVault
