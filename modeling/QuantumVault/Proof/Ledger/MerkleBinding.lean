import QuantumVault.Proof.Ledger.MerkleRoot
import QuantumVault.Proof.Ledger.Speculative

/-!
# The Merkle root determines the transactions

For lists of any lengths. The rule against duplicate transactions is what makes the difference: an odd last node is paired with itself, and without the rule the list that repeats its end would have the same root. The leaves are not told apart from the inner nodes by the hash, so a transaction id must not be the digest of a pair of nodes. The empty list has a root of its own by convention, the zero digest, which nothing keeps from being an id.
-/

namespace QuantumVault

open PaddedTree

def merklePreimage (pair : Hash256 × Hash256) : Bytes := pair.1.bytes ++ pair.2.bytes

private theorem length_merklePreimage (pair : Hash256 × Hash256) : (merklePreimage pair).length = 64 := by
  rw [merklePreimage, List.length_append, pair.1.length_eq, pair.2.length_eq]

theorem merklePreimage_inj {p q : Hash256 × Hash256} (h : merklePreimage p = merklePreimage q) : p = q := by
  obtain ⟨hleft, hright⟩ := List.append_inj h (by rw [p.1.length_eq, q.1.length_eq])
  exact Prod.ext (Hash256.ext hleft) (Hash256.ext hright)

section Binding

variable [Crypto]

/-- The pairs of nodes that are hashed for the root of a list. -/
def merkleTree (xs : List Hash256) : List (Hash256 × Hash256) := merkleNodes xs.length xs

variable {xs ys : List Hash256}

/-- **Two lists without repetitions and with one root** are equal, or show what the tree cannot tell apart: two pairs with one digest, a leaf that is the digest of a pair, or the zero digest in place of a list. -/
theorem eq_of_merkleRootOf_eq (hxs : xs.Nodup) (hys : ys.Nodup) (h : merkleRootOf xs = merkleRootOf ys) :
    xs = ys ∨ Collision merkleParent (merkleTree xs ++ merkleTree ys) ∨
      (Meets merkleParent xs (merkleTree ys) ∨ Meets merkleParent ys (merkleTree xs)) ∨
      (xs = [] ∨ ys = []) ∧ merkleRootOf xs = .zero := by
  by_cases hemptyx : xs = []
  · exact .inr (.inr (.inr ⟨.inl hemptyx, by rw [hemptyx]; rfl⟩))
  by_cases hemptyy : ys = []
  · exact .inr (.inr (.inr ⟨.inr hemptyy, by rw [h, hemptyy]; rfl⟩))
  rw [merkleTree, merkleTree, merkleNodes_eq, merkleNodes_eq]
  have hreduce : reduce merkleParent xs.length xs = reduce merkleParent ys.length ys := by
    rw [reduce_eq_root hemptyx, reduce_eq_root hemptyy, h]
  obtain heq | hcollision | hmeets := eq_of_reduce_eq hxs hys (List.length_pos_iff.mpr hemptyx)
    (List.length_pos_iff.mpr hemptyy) le_rfl le_rfl hreduce
  · exact .inl heq
  · exact .inr (.inl hcollision)
  · exact .inr (.inr (.inl hmeets))

/-- **The Merkle root binds the transaction list.** If the hash is injective on the 64-byte inputs of the two trees and no id is the digest of such an input, two lists of distinct ids with the same root are equal, or one of them is empty and the root is the zero digest that stands for the empty list. And the block producer's own Merkle code returns the root of the block check on every list. -/
theorem merkleRoot_binds :
    (∀ xs ys : List TxId, xs.Nodup → ys.Nodup →
      (∀ p ∈ merkleTree xs ++ merkleTree ys, ∀ q ∈ merkleTree xs ++ merkleTree ys,
        sha3_256 (merklePreimage p) = sha3_256 (merklePreimage q) → merklePreimage p = merklePreimage q) →
      (∀ txId ∈ xs ++ ys, ∀ p ∈ merkleTree xs ++ merkleTree ys, txId ≠ sha3_256 (merklePreimage p)) →
      merkleRootOf xs = merkleRootOf ys → xs = ys ∨ (xs = [] ∨ ys = []) ∧ merkleRootOf xs = .zero) ∧
    ∀ txIds : List TxId, SlotTicker.merkleRootOf txIds = merkleRootOf txIds := by
  refine ⟨fun xs ys hxs hys hinj hids h => ?_, SlotTicker.merkleRootOf_eq⟩
  obtain heq | ⟨p, hp, q, hq, hne, heq⟩ | (⟨x, hx, p, hp, heq⟩ | ⟨y, hy, p, hp, heq⟩) | hzero :=
    eq_of_merkleRootOf_eq hxs hys h
  · exact .inl heq
  · exact absurd (merklePreimage_inj (hinj p hp q hq heq)) hne
  · exact absurd heq (hids x (List.mem_append_left _ hx) p (List.mem_append_right _ hp))
  · exact absurd heq (hids y (List.mem_append_right _ hy) p (List.mem_append_left _ hp))
  · exact .inr hzero

end Binding

theorem merkleRoot_binds_sample :
    @merkleRootOf sampleCrypto [repeatedByte 1, repeatedByte 2, repeatedByte 3] ≠
      @merkleRootOf sampleCrypto [repeatedByte 1, repeatedByte 2] ∧
    ([repeatedByte 1, repeatedByte 2, repeatedByte 3] = [repeatedByte 1, repeatedByte 2, repeatedByte 3] ∨
      @merkleRootOf sampleCrypto [repeatedByte 1, repeatedByte 2, repeatedByte 3] = .zero) := by
  have hbinds := (@merkleRoot_binds sampleCrypto).1
  constructor
  · intro h
    have heq := hbinds [repeatedByte 1, repeatedByte 2, repeatedByte 3] [repeatedByte 1, repeatedByte 2]
      (by decide +kernel) (by decide +kernel) (by decide +kernel) (by decide +kernel) h
    simp at heq
  · have heq := hbinds [repeatedByte 1, repeatedByte 2, repeatedByte 3] [repeatedByte 1, repeatedByte 2, repeatedByte 3]
      (by decide +kernel) (by decide +kernel) (by decide +kernel) (by decide +kernel) rfl
    exact heq.imp id And.right

def soleAllocation : Transaction := .genesis [.new 1 []]

/-- A hash under which that allocation has the zero digest as its id. -/
@[reducible] def zeroIdCrypto : Crypto where
  sha3_256 bytes := if bytes = soleAllocation.canonicalBytes then .zero else sampleDigest bytes
  blake3 := sampleDigest
  mlDsaVerify _ _ _ _ := false

/-- Two blocks that pass the structural check with one header, of which one carries no transaction and the other the allocation with the zero id. Neither tree hashes a pair of nodes, and the id is not the digest of any pair. -/
theorem merkleRoot_shared_with_empty :
    let header := BlockHeader.genesisTemplate
    @Block.validateStructure zeroIdCrypto ⟨header, []⟩ = .ok () ∧
      @Block.validateStructure zeroIdCrypto ⟨header, [soleAllocation]⟩ = .ok () ∧
      @merkleTree zeroIdCrypto (@Block.txIds zeroIdCrypto ⟨header, [soleAllocation]⟩) = [] ∧
      (∀ p : Hash256 × Hash256, ∀ txId ∈ @Block.txIds zeroIdCrypto ⟨header, [soleAllocation]⟩,
        txId ≠ @sha3_256 zeroIdCrypto (merklePreimage p)) ∧
      @merkleRootOf zeroIdCrypto (@Block.txIds zeroIdCrypto ⟨header, []⟩) =
        @merkleRootOf zeroIdCrypto (@Block.txIds zeroIdCrypto ⟨header, [soleAllocation]⟩) ∧
      @Block.txIds zeroIdCrypto ⟨header, []⟩ ≠ @Block.txIds zeroIdCrypto ⟨header, [soleAllocation]⟩ := by
  have hids : @Block.txIds zeroIdCrypto ⟨.genesisTemplate, [soleAllocation]⟩ = [.zero] := by decide +kernel
  refine ⟨by decide +kernel, by decide +kernel, by rw [hids]; rfl, ?_, by decide +kernel, by decide +kernel⟩
  intro p txId hmem heq
  rw [hids, List.mem_singleton] at hmem
  have hne : merklePreimage p ≠ soleAllocation.canonicalBytes := by
    intro hbytes
    have hlen := length_merklePreimage p
    rw [hbytes] at hlen
    exact absurd hlen (by decide +kernel)
  change txId = if merklePreimage p = soleAllocation.canonicalBytes then .zero else sampleDigest (merklePreimage p) at heq
  rw [if_neg hne, hmem] at heq
  exact sampleDigest_ne_zero _ heq.symm

end QuantumVault
