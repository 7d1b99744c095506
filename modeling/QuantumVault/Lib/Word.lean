import Mathlib

/-!
# Checked and saturating 64-bit arithmetic

The arithmetic of the unsigned 64-bit machine word as the standard library of the source language documents it: `checked` operations report overflow, `saturating` ones clamp to the nearest bound. Every operation has one lemma that says what it computes on natural numbers, and the rest of the development reasons through those lemmas only.
-/

namespace QuantumVault

namespace Word

def max : UInt64 := 0xFFFFFFFFFFFFFFFF

def checkedAdd (a b : UInt64) : Option UInt64 :=
  if a.toNat + b.toNat < 2 ^ 64 then some (a + b) else none

def checkedSub (a b : UInt64) : Option UInt64 :=
  if b ≤ a then some (a - b) else none

def saturatingAdd (a b : UInt64) : UInt64 :=
  if a.toNat + b.toNat < 2 ^ 64 then a + b else max

def saturatingSub (a b : UInt64) : UInt64 :=
  if b ≤ a then a - b else 0

def saturatingMul (a b : UInt64) : UInt64 :=
  if a.toNat * b.toNat < 2 ^ 64 then a * b else max

/-- Sum of a list, or nothing as soon as a partial sum leaves the word. -/
def checkedSum (xs : List UInt64) : Option UInt64 :=
  xs.foldlM checkedAdd 0

theorem exists_toNat_eq {n : Nat} (h : n < 2 ^ 64) : ∃ w : UInt64, w.toNat = n :=
  ⟨UInt64.ofNat n, by rw [UInt64.toNat_ofNat', Nat.mod_eq_of_lt h]⟩

theorem ofNat_eq_iff {n : Nat} {w : UInt64} (h : n < 2 ^ 64) : UInt64.ofNat n = w ↔ w.toNat = n := by
  rw [← UInt64.toNat_inj, UInt64.toNat_ofNat', Nat.mod_eq_of_lt h]
  exact eq_comm

theorem toNat_sum (xs : List UInt64) : xs.sum.toNat = (xs.map UInt64.toNat).sum % 2 ^ 64 := by
  induction xs with
  | nil => rfl
  | cons x xs ih =>
      rw [List.sum_cons, UInt64.toNat_add, ih, List.map_cons, List.sum_cons, Nat.add_mod_mod]

theorem checkedAdd_eq_some {a b c : UInt64} : checkedAdd a b = some c ↔ c.toNat = a.toNat + b.toNat := by
  have hc := UInt64.toNat_lt c
  unfold checkedAdd
  split
  · rename_i hlt
    rw [Option.some.injEq, ← UInt64.toNat_inj, UInt64.toNat_add, Nat.mod_eq_of_lt hlt]
    exact eq_comm
  · constructor
    · intro hnone
      cases hnone
    · intro heq
      omega

theorem checkedAdd_eq_none {a b : UInt64} : checkedAdd a b = none ↔ 2 ^ 64 ≤ a.toNat + b.toNat := by
  unfold checkedAdd
  split <;> simp <;> omega

theorem checkedSub_eq_some {a b c : UInt64} : checkedSub a b = some c ↔ a.toNat = b.toNat + c.toNat := by
  unfold checkedSub
  split
  · rename_i hle
    have hle' : b.toNat ≤ a.toNat := UInt64.le_iff_toNat_le.mp hle
    rw [Option.some.injEq, ← UInt64.toNat_inj, UInt64.toNat_sub_of_le _ _ hle]
    omega
  · rename_i hle
    have hlt : ¬ b.toNat ≤ a.toNat := fun h => hle (UInt64.le_iff_toNat_le.mpr h)
    constructor
    · intro hnone
      cases hnone
    · intro heq
      omega

theorem checkedSub_eq_none {a b : UInt64} : checkedSub a b = none ↔ a.toNat < b.toNat := by
  unfold checkedSub
  split <;> rename_i hle <;> rw [UInt64.le_iff_toNat_le] at hle <;> simp <;> omega

theorem toNat_saturatingAdd (a b : UInt64) :
    (saturatingAdd a b).toNat = min (a.toNat + b.toNat) (2 ^ 64 - 1) := by
  unfold saturatingAdd
  split
  · rename_i hlt
    rw [UInt64.toNat_add, Nat.mod_eq_of_lt hlt]
    omega
  · rename_i hge
    have hmax : max.toNat = 2 ^ 64 - 1 := rfl
    omega

theorem toNat_saturatingSub (a b : UInt64) : (saturatingSub a b).toNat = a.toNat - b.toNat := by
  unfold saturatingSub
  split
  · rename_i hle
    exact UInt64.toNat_sub_of_le _ _ hle
  · rename_i hle
    rw [UInt64.le_iff_toNat_le] at hle
    have hzero : (0 : UInt64).toNat = 0 := rfl
    omega

theorem toNat_saturatingMul (a b : UInt64) :
    (saturatingMul a b).toNat = min (a.toNat * b.toNat) (2 ^ 64 - 1) := by
  unfold saturatingMul
  split
  · rename_i hlt
    rw [UInt64.toNat_mul, Nat.mod_eq_of_lt hlt]
    omega
  · rename_i hge
    have hmax : max.toNat = 2 ^ 64 - 1 := rfl
    omega

private theorem foldlM_checkedAdd {xs : List UInt64} {a c : UInt64} :
    xs.foldlM checkedAdd a = some c ↔ c.toNat = a.toNat + (xs.map UInt64.toNat).sum := by
  induction xs generalizing a with
  | nil =>
      simp only [List.foldlM_nil, Option.pure_def, Option.some.injEq, List.map_nil, List.sum_nil,
        Nat.add_zero, ← UInt64.toNat_inj]
      exact eq_comm
  | cons x xs ih =>
      rw [List.foldlM_cons, List.map_cons, List.sum_cons]
      have hc := UInt64.toNat_lt c
      cases hadd : checkedAdd a x with
      | none =>
          rw [checkedAdd_eq_none] at hadd
          simp only [Option.bind_eq_bind, Option.bind_none, reduceCtorEq, false_iff]
          omega
      | some b =>
          rw [checkedAdd_eq_some] at hadd
          rw [Option.bind_eq_bind, Option.bind_some, ih]
          omega

theorem checkedSum_eq_some {xs : List UInt64} {c : UInt64} :
    checkedSum xs = some c ↔ c.toNat = (xs.map UInt64.toNat).sum := by
  unfold checkedSum
  rw [foldlM_checkedAdd, UInt64.toNat_zero, Nat.zero_add]

theorem checkedSum_eq_none {xs : List UInt64} :
    checkedSum xs = none ↔ 2 ^ 64 ≤ (xs.map UInt64.toNat).sum := by
  constructor
  · intro hnone
    by_contra hlt
    push Not at hlt
    have hsome : checkedSum xs = some (UInt64.ofNat (xs.map UInt64.toNat).sum) := by
      rw [checkedSum_eq_some, UInt64.toNat_ofNat', Nat.mod_eq_of_lt hlt]
    rw [hnone] at hsome
    cases hsome
  · intro hge
    cases hsum : checkedSum xs with
    | none => rfl
    | some c =>
        rw [checkedSum_eq_some] at hsum
        have hc := UInt64.toNat_lt c
        omega

end Word

end QuantumVault
