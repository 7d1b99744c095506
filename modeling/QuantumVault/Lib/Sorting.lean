import Mathlib

/-!
# Sorting by the order of the type

A sorted list depends only on what is in the given one, and ascends strictly when nothing comes twice. Comparing its neighbours finds a repetition exactly when there is one. Which element comes in a position is told by counting, without sorting.
-/

namespace QuantumVault

namespace Sorting

variable {α : Type*}

/-- Sort by the order of the type's comparison. -/
def sorted [Ord α] (xs : List α) : List α :=
  xs.insertionSort fun a b => (compare a b).isLE

/-- Some element equals its successor. -/
def hasAdjacentEqual [DecidableEq α] : List α → Bool
  | a :: b :: rest => decide (a = b) || hasAdjacentEqual (b :: rest)
  | _ => false

/-- What satisfies a property that holds up to some point of an ordered list is a front of it. -/
theorem filter_isPrefix {R : α → α → Prop} {p : α → Bool} {xs : List α} (hsorted : xs.Pairwise R)
    (hdown : ∀ a b, R a b → p b = true → p a = true) : xs.filter p <+: xs := by
  induction xs with
  | nil => exact List.prefix_rfl
  | cons a rest ih =>
      obtain ⟨ha, hrest⟩ := List.pairwise_cons.mp hsorted
      by_cases hp : p a = true
      · rw [List.filter_cons_of_pos hp, List.cons_prefix_cons]
        exact ⟨rfl, ih hrest⟩
      · have hnone : (a :: rest).filter p = [] := by
          rw [List.filter_cons_of_neg hp, List.filter_eq_nil_iff]
          exact fun b hb hpb => hp (hdown a b (ha b hb) hpb)
        rw [hnone]
        exact List.nil_prefix

variable [Ord α] [Std.TransOrd α]

theorem pairwise_sorted (xs : List α) : (sorted xs).Pairwise fun a b => (compare a b).isLE := by
  have : Std.Total fun a b : α => ((compare a b).isLE : Prop) := ⟨fun a b => by
    rcases hab : compare a b with _ | _ | _
    · exact Or.inl (by simp)
    · exact Or.inl (by simp)
    · rw [Std.OrientedCmp.gt_iff_lt] at hab
      exact Or.inr (by simp [hab])⟩
  have : IsTrans α fun a b : α => ((compare a b).isLE : Prop) := ⟨fun _ _ _ => Std.TransCmp.isLE_trans⟩
  exact List.pairwise_insertionSort _ xs

omit [Std.TransOrd α] in
theorem perm_sorted (xs : List α) : (sorted xs).Perm xs := List.perm_insertionSort _ xs

/-- The element comes in position `k` of the sorted list, from zero: at most `k` elements are below it, and more than `k` not above it. -/
structure IsNth (xs : List α) (k : Nat) (x : α) : Prop where
  below : xs.countP (fun y => (compare y x).isLT) ≤ k
  upTo : k < xs.countP (fun y => (compare y x).isLE)

theorem isNth_getElem_sorted (xs : List α) {k : Nat} (hk : k < (sorted xs).length) : IsNth xs k (sorted xs)[k] := by
  have hsorted := pairwise_sorted xs
  have hsplit : (sorted xs).take k ++ (sorted xs).drop k = sorted xs := List.take_append_drop k _
  have hdrop : (sorted xs).drop k = (sorted xs)[k] :: (sorted xs).drop (k + 1) := List.drop_eq_getElem_cons hk
  have hlen : ((sorted xs).take k).length = k := by
    rw [List.length_take]
    omega
  rw [← hsplit, hdrop, List.pairwise_append, List.pairwise_cons] at hsorted
  obtain ⟨-, ⟨hafter, -⟩, hbefore⟩ := hsorted
  have hcount (p : α → Bool) : xs.countP p =
      ((sorted xs).take k).countP p + ((sorted xs)[k] :: (sorted xs).drop (k + 1)).countP p := by
    rw [← (perm_sorted xs).countP_eq p, ← hdrop, ← List.countP_append, hsplit]
  refine ⟨?_, ?_⟩
  · have hnone : ((sorted xs)[k] :: (sorted xs).drop (k + 1)).countP (fun y => (compare y (sorted xs)[k]).isLT) = 0 := by
      rw [List.countP_eq_zero]
      intro y hy
      rcases List.mem_cons.mp hy with rfl | hy
      · simp
      · have hle := hafter y hy
        exact fun hlt => Std.OrientedCmp.not_lt_of_isLE hle (by simpa using hlt)
    rw [hcount, hnone, Nat.add_zero]
    exact le_of_le_of_eq List.countP_le_length hlen
  · have hall : ((sorted xs).take k).countP (fun y => (compare y (sorted xs)[k]).isLE) = k := by
      rw [List.countP_eq_length.mpr fun y hy => hbefore y hy _ List.mem_cons_self, hlen]
    rw [hcount, hall, List.countP_cons_of_pos (by simp)]
    omega

variable [Std.LawfulEqOrd α]

/-- The sorted list does not depend on the order of the given one. -/
theorem sorted_eq_of_perm {xs ys : List α} (h : xs.Perm ys) : sorted xs = sorted ys := by
  have hperm : (sorted xs).Perm (sorted ys) := (perm_sorted xs).trans (h.trans (perm_sorted ys).symm)
  refine List.Perm.eq_of_pairwise (fun a b _ _ hab hba => ?_) (pairwise_sorted xs) (pairwise_sorted ys) hperm
  exact Std.LawfulEqOrd.eq_of_compare (Std.OrientedCmp.isLE_antisymm hab hba)

theorem pairwise_lt_sorted {xs : List α} (h : xs.Nodup) : (sorted xs).Pairwise fun a b => compare a b = .lt := by
  have hnodup : (sorted xs).Nodup := (perm_sorted xs).nodup_iff.mpr h
  refine (pairwise_sorted xs).imp₂ (fun a b hle hne => ?_) hnodup
  rcases hab : compare a b with _ | _ | _
  · rfl
  · exact absurd (Std.LawfulEqOrd.eq_of_compare hab) hne
  · rw [hab] at hle
    cases hle

theorem IsNth.unique {xs : List α} {k : Nat} {x y : α} (hx : IsNth xs k x) (hy : IsNth xs k y) : x = y := by
  have hnot {x y : α} (hx : IsNth xs k x) (hy : IsNth xs k y) : ¬ compare x y = .lt := by
    intro hlt
    have hmono := List.countP_mono_left (l := xs) (p := fun z => (compare z x).isLE)
      (q := fun z => (compare z y).isLT) fun z _ hz => by
        simpa using Std.TransCmp.lt_of_isLE_of_lt hz hlt
    have hupTo := hx.upTo
    have hbelow := hy.below
    omega
  rcases h : compare x y with _ | _ | _
  · exact absurd h (hnot hx hy)
  · exact Std.LawfulEqOrd.eq_of_compare h
  · exact absurd (Std.OrientedCmp.gt_iff_lt.mp h) (hnot hy hx)

theorem isNth_iff {xs : List α} {k : Nat} {x : α} : IsNth xs k x ↔ (sorted xs)[k]? = some x := by
  refine ⟨fun h => ?_, fun h => ?_⟩
  · have hk : k < (sorted xs).length := by
      rw [(perm_sorted xs).length_eq]
      exact h.upTo.trans_le List.countP_le_length
    rw [List.getElem?_eq_getElem hk, h.unique (isNth_getElem_sorted xs hk)]
  · obtain ⟨hk, rfl⟩ := List.getElem?_eq_some_iff.mp h
    exact isNth_getElem_sorted xs hk

variable [DecidableEq α]

private theorem hasAdjacentEqual_iff_of_pairwise {xs : List α}
    (hsorted : xs.Pairwise fun a b => (compare a b).isLE) : hasAdjacentEqual xs = true ↔ ¬ xs.Nodup := by
  induction xs with
  | nil => simp [hasAdjacentEqual]
  | cons a rest ih =>
      cases rest with
      | nil => simp [hasAdjacentEqual]
      | cons b rest =>
          obtain ⟨ha, hrest⟩ := List.pairwise_cons.mp hsorted
          rw [hasAdjacentEqual, Bool.or_eq_true, decide_eq_true_iff, ih hrest, List.nodup_cons (a := a)]
          have hmem : a ∈ b :: rest ↔ a = b := by
            constructor
            · intro hin
              rcases List.mem_cons.mp hin with hab | hin
              · exact hab
              -- `a` is below `b`, and `b` is below every later element, `a` itself included
              · have hab := ha b List.mem_cons_self
                have hba := (List.pairwise_cons.mp hrest).1 a hin
                have hcmp := Std.OrientedCmp.isLE_antisymm hab hba
                exact Std.LawfulEqOrd.eq_of_compare hcmp
            · rintro rfl
              exact List.mem_cons_self
          rw [hmem]
          tauto

/-- **The neighbour test on the sorted list decides repetition.** -/
theorem hasAdjacentEqual_sorted (xs : List α) : hasAdjacentEqual (sorted xs) = true ↔ ¬ xs.Nodup := by
  rw [hasAdjacentEqual_iff_of_pairwise (pairwise_sorted xs)]
  exact not_congr (perm_sorted xs).nodup_iff

end Sorting

end QuantumVault
