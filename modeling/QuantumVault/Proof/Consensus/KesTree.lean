import QuantumVault.Lib.MerkleTree
import QuantumVault.Proof.Consensus.Kes

/-!
# The tree of leaf keys

The layers that are computed from the leaf hashes are the levels of a perfect binary tree. A path that is made for a leaf leads from it to the root, and a path that leads to the root begins at the leaf of its index, unless two distinct inputs have the same hash.
-/

namespace QuantumVault

namespace Kes

open MerkleTree

variable [Crypto]

/-! ### Layers are levels -/

private theorem nextLayer_map_range (count : Nat) (f : Nat → Hash256) : nextLayer ((List.range (2 * count)).map f) =
    (List.range count).map fun i => internalNodeHash (f (2 * i)) (f (2 * i + 1)) := by
  induction count generalizing f with
  | zero => rfl
  | succ count ih =>
      rw [Nat.mul_succ, map_range_add_two, nextLayer, ih, List.range_succ_eq_map, List.map_cons, List.map_map]
      rfl

theorem nextLayer_level (leaf : Nat → Hash256) (count height : Nat) :
    nextLayer (level internalNodeHash leaf (2 * count) height) = level internalNodeHash leaf count (height + 1) :=
  nextLayer_map_range count (node internalNodeHash leaf height)

private theorem reduceLayers_level (leaf : Nat → Hash256) {rounds depth height : Nat} (h : depth ≤ rounds) :
    reduceLayers rounds (level internalNodeHash leaf (2 ^ depth) height) =
      [node internalNodeHash leaf (height + depth) 0] := by
  induction rounds generalizing depth height with
  | zero =>
      obtain rfl : depth = 0 := by omega
      rfl
  | succ rounds ih =>
      have hlength : (level internalNodeHash leaf (2 ^ depth) height).length = 2 ^ depth := by
        rw [level, List.length_map, List.length_range]
      rw [reduceLayers, hlength]
      cases depth with
      | zero => rfl
      | succ depth =>
          have hlarge : 2 ^ (depth + 1) > 1 := Nat.one_lt_two_pow (by omega)
          rw [if_pos hlarge, Nat.pow_succ', nextLayer_level, ih (by omega), Nat.add_right_comm, Nat.add_assoc]

private theorem merklePathFor_level (leaf : Nat → Hash256) {depth height index : Nat} (h : index < 2 ^ depth) :
    merklePathFor depth (level internalNodeHash leaf (2 ^ depth) height) index =
      path internalNodeHash leaf depth height index := by
  induction depth generalizing height index with
  | zero => rfl
  | succ depth ih =>
      have hsibling : index ^^^ 1 < 2 ^ (depth + 1) := Nat.xor_lt_two_pow h (Nat.one_lt_two_pow (by omega))
      have hhalf : index / 2 < 2 ^ depth := by
        rw [Nat.pow_succ'] at h
        omega
      rw [merklePathFor, path, List.getD_eq_getElem?_getD, getElem?_level _ _ hsibling, Option.getD_some, Nat.pow_succ',
        nextLayer_level, ih hhalf]
      rfl

theorem merkleRootFromPath_eq_walk (current : Hash256) (index : Nat) (siblings : List Hash256) :
    merkleRootFromPath current index siblings = walk internalNodeHash current index siblings := by
  induction siblings generalizing current index with
  | nil => rfl
  | cons sibling siblings ih =>
      rw [merkleRootFromPath, walk, ih, ordered]
      split <;> rfl

/-! ### Leaves in a list -/

section Leaves

variable {leaves : List Hash256} {depth index : Nat} (hlength : leaves.length = 2 ^ depth)

include hlength

theorem leaves_eq_level : leaves = level internalNodeHash (fun i => leaves.getD i .zero) (2 ^ depth) 0 := by
  apply List.ext_getElem
  · rw [level, List.length_map, List.length_range, hlength]
  · intro i hi hi'
    rw [← Option.some_inj, ← List.getElem?_eq_getElem hi, ← List.getElem?_eq_getElem hi',
      getElem?_level _ _ (hlength ▸ hi), node, List.getD_eq_getElem?_getD, List.getElem?_eq_getElem hi, Option.getD_some]

theorem merkleRootFromLeaves_eq :
    merkleRootFromLeaves leaves = node internalNodeHash (fun i => leaves.getD i .zero) depth 0 := by
  have hrounds : depth ≤ leaves.length := hlength ▸ Nat.le_of_lt Nat.lt_two_pow_self
  rw [merkleRootFromLeaves]
  conv_lhs => rw [leaves_eq_level hlength]
  rw [reduceLayers_level _ (by rw [← leaves_eq_level hlength]; exact hrounds), Nat.zero_add]
  rfl

theorem merklePathFor_eq (hindex : index < 2 ^ depth) :
    merklePathFor depth leaves index = path internalNodeHash (fun i => leaves.getD i .zero) depth 0 index := by
  conv_lhs => rw [leaves_eq_level hlength]
  exact merklePathFor_level _ hindex

/-- **The path of a leaf recomputes the root**, for every leaf. -/
theorem merkleRootFromPath_merklePathFor (hindex : index < 2 ^ depth) :
    merkleRootFromPath (leaves.getD index .zero) index (merklePathFor depth leaves index) = merkleRootFromLeaves leaves := by
  have hwalk := walk_path internalNodeHash (fun i => leaves.getD i .zero) depth 0 index
  rw [merkleRootFromPath_eq_walk, merklePathFor_eq hlength hindex, merkleRootFromLeaves_eq hlength]
  rwa [Nat.div_eq_of_lt hindex, Nat.zero_add] at hwalk

end Leaves

/-! ### Binding -/

def nodeInput (pair : Hash256 × Hash256) : Bytes := merkleTag ++ [0x01] ++ pair.1.bytes ++ pair.2.bytes

theorem internalNodeHash_eq (pair : Hash256 × Hash256) : internalNodeHash pair.1 pair.2 = sha3_256 (nodeInput pair) := rfl

omit [Crypto] in
private theorem nodeInput_injective : Function.Injective nodeInput := by
  intro a b h
  rw [nodeInput, nodeInput, List.append_assoc, List.append_assoc (merkleTag ++ [0x01])] at h
  have hpair := List.append_cancel_left h
  have hlength : a.1.bytes.length = b.1.bytes.length := a.1.length_eq.trans b.1.length_eq.symm
  obtain ⟨hleft, hright⟩ := List.append_inj hpair hlength
  exact Prod.ext (Hash256.ext hleft) (Hash256.ext hright)

/-- All that is hashed on the way from a leaf hash along a path. -/
def pathInputs (current : Hash256) (index : Nat) (siblings : List Hash256) : List Bytes :=
  (walkPairs internalNodeHash current index siblings).map nodeInput

theorem merkleRootFromPath_binding {leaves siblings : List Hash256} {depth index : Nat} {current : Hash256}
    (hlength : leaves.length = 2 ^ depth) (hindex : index < 2 ^ depth) (hpath : siblings.length = depth)
    (hroot : merkleRootFromPath current index siblings = merkleRootFromLeaves leaves) :
    current = leaves.getD index .zero ∨
      ∃ a ∈ pathInputs current index siblings,
        ∃ b ∈ pathInputs (leaves.getD index .zero) index (merklePathFor depth leaves index),
          a ≠ b ∧ sha3_256 a = sha3_256 b := by
  rw [merkleRootFromPath_eq_walk, merkleRootFromLeaves_eq hlength] at hroot
  have htop : index / 2 ^ siblings.length = 0 := by
    rw [hpath]
    exact Nat.div_eq_of_lt hindex
  have hwalk : walk internalNodeHash current index siblings =
      node internalNodeHash (fun i => leaves.getD i .zero) (0 + siblings.length) (index / 2 ^ siblings.length) := by
    rw [hroot, htop, hpath, Nat.zero_add]
  obtain heq | hcollision := walk_binding internalNodeHash (fun i => leaves.getD i .zero) hwalk
  · exact Or.inl heq
  · obtain ⟨height, a, b, ha, hb, hne, heq⟩ := hcollision.exists_pair
    rw [hpath, ← merklePathFor_eq hlength hindex] at hb
    refine Or.inr ⟨nodeInput a, List.mem_map_of_mem (List.mem_of_getElem? ha), nodeInput b,
      List.mem_map_of_mem (List.mem_of_getElem? hb), nodeInput_injective.ne hne, ?_⟩
    rwa [internalNodeHash_eq, internalNodeHash_eq] at heq

end Kes

end QuantumVault
