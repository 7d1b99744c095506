import Mathlib

/-!
# First-seen branches

Items arrive one after the other, each with an identifier and the identifier of its parent. The first-seen branch above an item goes to the child that arrived first, then to that child's first child, and so on to an item without children. It grows at its end only, as long as no item arrives before its parent.
-/

namespace QuantumVault

namespace Branch

variable {α ι : Type*} [DecidableEq ι] (ident parent : α → ι)

/-- The child that arrived first. -/
def firstChild (arrived : List α) (root : ι) : Option α := arrived.find? fun a => parent a = root

/-- The identifier at the end of a branch. -/
def endOf (root : ι) (branch : List α) : ι := branch.foldl (fun _ a => ident a) root

/-- Each item of the branch has its parent right before it. -/
def Connected (root : ι) : List α → Prop
  | [] => True
  | a :: branch => parent a = root ∧ Connected (ident a) branch

/-- The branch follows the first child from the root to an item without children. -/
inductive FollowsFirst (arrived : List α) : ι → List α → Prop where
  | stop {root : ι} (h : firstChild parent arrived root = none) : FollowsFirst arrived root []
  | next {root : ι} {a : α} {branch : List α} (h : firstChild parent arrived root = some a)
      (hrest : FollowsFirst arrived (ident a) branch) : FollowsFirst arrived root (a :: branch)

variable {ident parent} {arrived branch branch' : List α} {root : ι} {a : α}

theorem firstChild_eq_none : firstChild parent arrived root = none ↔ ∀ a ∈ arrived, parent a ≠ root := by
  simp [firstChild]

theorem mem_of_firstChild (h : firstChild parent arrived root = some a) : a ∈ arrived := List.mem_of_find?_eq_some h

theorem parent_of_firstChild (h : firstChild parent arrived root = some a) : parent a = root := by
  simpa using List.find?_some h

omit [DecidableEq ι] in
theorem endOf_append_singleton : endOf ident root (branch ++ [a]) = ident a := by
  rw [endOf, List.foldl_append]
  rfl

omit [DecidableEq ι] in
theorem connected_append_singleton :
    Connected ident parent root (branch ++ [a]) ↔
      Connected ident parent root branch ∧ parent a = endOf ident root branch := by
  induction branch generalizing root with
  | nil => simp [Connected, endOf]
  | cons b branch ih =>
      rw [List.cons_append, Connected, Connected, ih, and_assoc]
      rfl

namespace FollowsFirst

theorem firstChild_endOf (h : FollowsFirst ident parent arrived root branch) :
    firstChild parent arrived (endOf ident root branch) = none := by
  induction h with
  | stop h => exact h
  | next _ _ ih => exact ih

theorem subset (h : FollowsFirst ident parent arrived root branch) : branch ⊆ arrived := by
  induction h with
  | stop => exact List.nil_subset _
  | next h _ ih => exact List.cons_subset.mpr ⟨mem_of_firstChild h, ih⟩

theorem append_of_ne (h : FollowsFirst ident parent arrived root branch) (ha : parent a ≠ endOf ident root branch) :
    FollowsFirst ident parent (arrived ++ [a]) root branch := by
  induction h with
  | stop h =>
      refine .stop (firstChild_eq_none.mpr fun b hb => ?_)
      rcases List.mem_append.mp hb with hold | hnew
      · exact firstChild_eq_none.mp h b hold
      · rw [List.mem_singleton.mp hnew]
        exact ha
  | next h _ ih =>
      refine .next ?_ (ih ha)
      rw [firstChild, List.find?_append, ← firstChild, h]
      rfl

theorem append_of_eq (h : FollowsFirst ident parent arrived root branch) (ha : parent a = endOf ident root branch)
    (hchild : ∀ b ∈ arrived ++ [a], parent b ≠ ident a) :
    FollowsFirst ident parent (arrived ++ [a]) root (branch ++ [a]) := by
  induction h with
  | stop h =>
      refine .next ?_ (.stop (firstChild_eq_none.mpr hchild))
      have hself : parent a = _ := ha
      rw [firstChild, List.find?_append, ← firstChild, h, List.find?_singleton]
      simp [hself, endOf]
  | next h _ ih =>
      refine .next ?_ (ih ha)
      rw [firstChild, List.find?_append, ← firstChild, h]
      rfl

theorem unique (h : FollowsFirst ident parent arrived root branch)
    (h' : FollowsFirst ident parent arrived root branch') : branch = branch' := by
  induction h generalizing branch' with
  | stop h =>
      cases h' with
      | stop => rfl
      | next h' _ => cases h.symm.trans h'
  | next h _ ih =>
      cases h' with
      | stop h' => cases h'.symm.trans h
      | next h' hrest' =>
          cases h.symm.trans h'
          rw [ih hrest']

theorem connected (h : FollowsFirst ident parent arrived root branch) : Connected ident parent root branch := by
  induction h with
  | stop => trivial
  | next h _ ih => exact ⟨parent_of_firstChild h, ih⟩

end FollowsFirst

omit [DecidableEq ι] in
/-- Where identifiers determine the items, a branch is determined by its end. -/
theorem Connected.eq_of_endOf_eq {items : List α} (h : Connected ident parent root branch)
    (h' : Connected ident parent root branch') (hroot : ∀ a ∈ items, ident a ≠ root)
    (hident : ∀ a ∈ items, ∀ b ∈ items, ident a = ident b → a = b) (hsub : branch ⊆ items) (hsub' : branch' ⊆ items)
    (hend : endOf ident root branch = endOf ident root branch') : branch = branch' := by
  induction branch using List.reverseRecOn generalizing branch' with
  | nil =>
      cases branch' using List.reverseRecOn with
      | nil => rfl
      | append_singleton branch' b =>
          rw [endOf_append_singleton] at hend
          exact absurd hend.symm (hroot b (hsub' (by simp)))
  | append_singleton branch a ih =>
      rw [connected_append_singleton] at h
      rw [endOf_append_singleton] at hend
      have ha : a ∈ items := hsub (by simp)
      cases branch' using List.reverseRecOn with
      | nil => exact absurd hend (hroot a ha)
      | append_singleton branch' b =>
          rw [connected_append_singleton] at h'
          rw [endOf_append_singleton] at hend
          have hab : a = b := hident a ha b (hsub' (by simp)) hend
          subst hab
          have hinit := ih h.1 h'.1 (fun x hx => hsub (List.mem_append_left _ hx))
            (fun x hx => hsub' (List.mem_append_left _ hx)) (h.2.symm.trans h'.2)
          rw [hinit]

end Branch

end QuantumVault
