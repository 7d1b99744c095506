import Mathlib

/-!
# Binary hash trees

The nodes of a perfect binary tree over arbitrary digests, numbered from the left in every level, with the leaves as level zero. A path lists the siblings from a node upwards. Walking a path from the node it was made for gives the node above; and a walk that reaches that node has started from the right digest or has hashed two distinct pairs of children to one digest.
-/

namespace QuantumVault

namespace MerkleTree

variable {α : Type} (parent : α → α → α) (leaf : Nat → α)

/-- The node in a position of a level. -/
def node : (level position : Nat) → α
  | 0, position => leaf position
  | level + 1, position => parent (node level (2 * position)) (node level (2 * position + 1))

def sibling (position : Nat) : Nat := position ^^^ 1

/-- The children of the parent of a node, in order, from the node and its sibling. -/
def ordered (position : Nat) (current other : α) : α × α :=
  if position % 2 = 0 then (current, other) else (other, current)

def path : (height level position : Nat) → List α
  | 0, _, _ => []
  | height + 1, level, position => node parent leaf level (sibling position) :: path height (level + 1) (position / 2)

/-- The digest at the end of a path. -/
def walk : (current : α) → (position : Nat) → (path : List α) → α
  | current, _, [] => current
  | current, position, other :: path =>
      walk (parent (ordered position current other).1 (ordered position current other).2) (position / 2) path

/-- The pairs of children that a walk hashes. -/
def walkPairs : (current : α) → (position : Nat) → (path : List α) → List (α × α)
  | _, _, [] => []
  | current, position, other :: path =>
      ordered position current other ::
        walkPairs (parent (ordered position current other).1 (ordered position current other).2) (position / 2) path

theorem length_path (height level position : Nat) : (path parent leaf height level position).length = height := by
  induction height generalizing level position with
  | zero => rfl
  | succ height ih => rw [path, List.length_cons, ih]

def children (level position : Nat) : α × α :=
  (node parent leaf level (2 * (position / 2)), node parent leaf level (2 * (position / 2) + 1))

theorem node_succ (level position : Nat) : node parent leaf (level + 1) (position / 2) =
    parent (children parent leaf level position).1 (children parent leaf level position).2 := rfl

theorem ordered_node (level position : Nat) :
    ordered position (node parent leaf level position) (node parent leaf level (sibling position)) =
      children parent leaf level position := by
  have hsplit := Nat.div_add_mod position 2
  rw [ordered, children, sibling]
  split
  · rename_i heven
    rw [heven, Nat.add_zero] at hsplit
    rw [Nat.xor_one_of_even (Nat.even_iff.mpr heven), hsplit]
  · rename_i hodd
    have hone : position % 2 = 1 := by omega
    have hleft : 2 * (position / 2) = position - 1 := by omega
    have hright : 2 * (position / 2) + 1 = position := by omega
    rw [Nat.xor_one_of_odd (Nat.odd_iff.mpr hone), hright, hleft]

theorem ordered_injective {position : Nat} {current current' other other' : α}
    (h : ordered position current other = ordered position current' other') : current = current' := by
  unfold ordered at h
  split at h
  · exact congrArg Prod.fst h
  · exact congrArg Prod.snd h

theorem walkPairs_path (height level position : Nat) :
    walkPairs parent (node parent leaf level position) position (path parent leaf (height + 1) level position) =
      children parent leaf level position :: walkPairs parent (node parent leaf (level + 1) (position / 2)) (position / 2)
        (path parent leaf height (level + 1) (position / 2)) := by
  rw [path, walkPairs, ordered_node, node_succ]

/-- **A path leads from its node to the node above.** -/
theorem walk_path (height level position : Nat) :
    walk parent (node parent leaf level position) position (path parent leaf height level position) =
      node parent leaf (level + height) (position / 2 ^ height) := by
  induction height generalizing level position with
  | zero => rw [path, walk, Nat.add_zero, Nat.pow_zero, Nat.div_one]
  | succ height ih =>
      rw [path, walk, ordered_node]
      change walk parent (node parent leaf (level + 1) (position / 2)) (position / 2) _ = _
      rw [ih, Nat.div_div_eq_div_mul, ← Nat.pow_succ', Nat.add_assoc, Nat.add_comm 1]

/-- Two distinct pairs of children with one digest, at the same height of a walk and of the honest walk. -/
structure Collision (walked honest : List (α × α)) : Prop where
  exists_pair : ∃ (height : Nat) (a b : α × α), walked[height]? = some a ∧ honest[height]? = some b ∧ a ≠ b ∧
    parent a.1 a.2 = parent b.1 b.2

theorem Collision.cons {walked honest : List (α × α)} (h : Collision parent walked honest) (a b : α × α) :
    Collision parent (a :: walked) (b :: honest) := by
  obtain ⟨height, a', b', ha, hb, hne, heq⟩ := h.exists_pair
  exact ⟨height + 1, a', b', ha, hb, hne, heq⟩

/-- **A walk that reaches the right node** has started at the right digest, or it collides with the honest walk. -/
theorem walk_binding {current : α} {siblings : List α} {level position : Nat}
    (h : walk parent current position siblings =
      node parent leaf (level + siblings.length) (position / 2 ^ siblings.length)) :
    current = node parent leaf level position ∨
      Collision parent (walkPairs parent current position siblings)
        (walkPairs parent (node parent leaf level position) position
          (path parent leaf siblings.length level position)) := by
  induction siblings generalizing current level position with
  | nil =>
      rw [walk, List.length_nil, Nat.add_zero, Nat.pow_zero, Nat.div_one] at h
      exact Or.inl h
  | cons other siblings ih =>
      rw [walk, List.length_cons, Nat.pow_succ', ← Nat.div_div_eq_div_mul, Nat.add_comm siblings.length,
        ← Nat.add_assoc] at h
      rw [walkPairs, List.length_cons, walkPairs_path]
      obtain hparent | hcollision := ih h
      · by_cases hpair : ordered position current other = children parent leaf level position
        · rw [← ordered_node] at hpair
          exact Or.inl (ordered_injective hpair)
        · exact Or.inr ⟨0, _, _, rfl, rfl, hpair, hparent⟩
      · exact Or.inr (hcollision.cons parent _ _)

/-! ### Levels as lists -/

def level (count height : Nat) : List α := (List.range count).map (node parent leaf height)

theorem getElem?_level {count height position : Nat} (h : position < count) :
    (level parent leaf count height)[position]? = some (node parent leaf height position) := by
  rw [level, List.getElem?_map, List.getElem?_range h]
  rfl

theorem map_range_add_two (count : Nat) (f : Nat → α) : (List.range (count + 2)).map f =
    f 0 :: f 1 :: (List.range count).map fun i => f (i + 2) := by
  rw [List.range_succ_eq_map, List.range_succ_eq_map, List.map_cons, List.map_cons, List.map_cons, List.map_map,
    List.map_map]
  rfl

end MerkleTree

end QuantumVault
