import QuantumVault.Core.Block
import QuantumVault.Lib.PaddedTree

/-!
# The Merkle root determines the leaves

For lists of equal length. The tree of a block is the one that doubles an odd last node, so lists of equal length are determined by their root as soon as the hash tells apart the pairs that the two trees actually hash.
-/

namespace QuantumVault

def merklePairs : List Hash256 → List (Hash256 × Hash256)
  | [] => []
  | [last] => [(last, last)]
  | left :: right :: rest => (left, right) :: merklePairs rest

theorem merklePairs_eq (xs : List Hash256) : merklePairs xs = PaddedTree.pairs xs := by
  fun_induction merklePairs xs with
  | case1 => rfl
  | case2 last => rfl
  | case3 left right rest ih => rw [PaddedTree.pairs, ih]

variable [Crypto]

def merkleParent (pair : Hash256 × Hash256) : Hash256 := sha3_256 (pair.1.bytes ++ pair.2.bytes)

private theorem merkleLevel_eq_map (level : List Hash256) : merkleLevel level = (merklePairs level).map merkleParent := by
  fun_induction merklePairs level with
  | case1 => rfl
  | case2 last => rfl
  | case3 left right rest ih => rw [merkleLevel, ih, List.map_cons]; rfl

/-- The pairs of nodes that the whole tree hashes. -/
def merkleNodes : (rounds : Nat) → List Hash256 → List (Hash256 × Hash256)
  | 0, _ => []
  | rounds + 1, level => if level.length > 1 then merklePairs level ++ merkleNodes rounds (merkleLevel level) else []

variable {rounds : Nat} {xs ys : List Hash256}

/-- The hash tells apart the pairs of nodes of two lists. -/
def Separates (xs ys : List (Hash256 × Hash256)) : Prop :=
  ∀ p ∈ xs, ∀ q ∈ ys, merkleParent p = merkleParent q → p = q

theorem merkleLevel_eq (xs : List Hash256) : merkleLevel xs = PaddedTree.level merkleParent xs := by
  rw [merkleLevel_eq_map, merklePairs_eq, PaddedTree.level]

private theorem merkleReduce_eq (rounds : Nat) (xs : List Hash256) :
    merkleReduce rounds xs = PaddedTree.reduce merkleParent rounds xs := by
  induction rounds generalizing xs with
  | zero => rfl
  | succ rounds ih => rw [merkleReduce, PaddedTree.reduce, merkleLevel_eq, ih]

theorem merkleNodes_eq (rounds : Nat) (xs : List Hash256) :
    merkleNodes rounds xs = PaddedTree.joined merkleParent rounds xs := by
  induction rounds generalizing xs with
  | zero => rfl
  | succ rounds ih => rw [merkleNodes, PaddedTree.joined, merkleLevel_eq, merklePairs_eq, ih]

theorem reduce_eq_root (hxs : xs ≠ []) : PaddedTree.reduce merkleParent xs.length xs = [merkleRootOf xs] := by
  have hpos : 0 < xs.length := List.length_pos_iff.mpr hxs
  have hone : (PaddedTree.reduce merkleParent xs.length xs).length = 1 := PaddedTree.length_reduce hpos le_rfl
  obtain ⟨root, hroot⟩ := List.length_eq_one_iff.mp hone
  rw [merkleRootOf, if_neg (by simpa using hxs), merkleReduce_eq, hroot]
  rfl

/-- **Binding.** Lists of equal length with the same root are equal if the hash tells apart the pairs of nodes of their trees. -/
theorem merkleRootOf_inj (hlen : xs.length = ys.length)
    (hsep : Separates (merkleNodes xs.length xs) (merkleNodes ys.length ys)) (h : merkleRootOf xs = merkleRootOf ys) :
    xs = ys := by
  by_cases hempty : xs = []
  · rw [hempty, List.length_nil] at hlen
    rw [hempty, List.length_eq_zero_iff.mp hlen.symm]
  · have hempty' : ys ≠ [] := by
      rwa [← List.length_pos_iff, ← hlen, List.length_pos_iff]
    rw [merkleNodes_eq, merkleNodes_eq, ← hlen] at hsep
    have hreduce : PaddedTree.reduce merkleParent xs.length xs = PaddedTree.reduce merkleParent xs.length ys := by
      rw [reduce_eq_root hempty, h, ← reduce_eq_root hempty', hlen]
    exact PaddedTree.reduce_inj hlen hsep hreduce

end QuantumVault
