import QuantumVault.Core.UtxoSet
import QuantumVault.Proof.Ledger.MerkleBinding
import QuantumVault.Proof.Wallet.Sighash

/-!
# The UTXO commitment

The commitment depends on the entries of the set alone. It binds them up to what the tree over the leaf digests cannot tell apart. The encoding of an entry can be read back and the outpoints of a set are distinct, so two entries never share a leaf preimage; but leaves and inner nodes are hashed alike, so the 64 bytes of an entry may be the two digests of a node.
-/

namespace QuantumVault

open Result TreeMap PaddedTree

/-! ### Insertion order -/

def InMemoryUtxoSet.insertEntries (set : UtxoMap) (entries : List (OutPoint × TxOutput)) : Except UtxoError UtxoMap :=
  entries.foldlM (fun set entry => InMemoryUtxoSet.insert set entry.1 entry.2) set

theorem InMemoryUtxoSet.insertEntries_eq_ok {entries : List (OutPoint × TxOutput)} {set set' : UtxoMap}
    (h : insertEntries set entries = .ok set') :
    (entries.map Prod.fst).Nodup ∧ (∀ op ∈ entries.map Prod.fst, op ∉ set) ∧ set' = insertAll set entries := by
  induction entries generalizing set with
  | nil =>
      rw [insertEntries, List.foldlM_nil, pure_eq_ok] at h
      simp [h]
  | cons entry entries ih =>
      obtain ⟨next, hnext, hrest⟩ := foldlM_cons_eq_ok.mp h
      rw [InMemoryUtxoSet.insert] at hnext
      split at hnext
      · cases hnext
      · rename_i hnew
        cases hnext
        obtain ⟨hnodup, hfresh, heq⟩ := ih hrest
        have hhead : entry.1 ∉ entries.map Prod.fst := fun hmem => hfresh _ hmem (mem_insert.mpr (.inl rfl))
        refine ⟨List.nodup_cons.mpr ⟨hhead, hnodup⟩, ?_, heq⟩
        rw [List.map_cons, List.forall_mem_cons]
        exact ⟨hnew, fun op hop hmem => hfresh op hop (mem_insert.mpr (.inr hmem))⟩

/-! ### Leaves -/

def leafPreimage (entry : OutPoint × TxOutput) : Bytes := entry.1.canonicalBytes ++ entry.2.encode

/-- The byte strings in the outputs of a set have lengths that can be written down. -/
def UtxoMap.Fits (set : UtxoMap) : Prop := ∀ entry ∈ set.toList, TxOutput.Fits entry.2

theorem leafPreimage_inj {entry entry' : OutPoint × TxOutput} (hfits : entry.2.Fits) (hfits' : entry'.2.Fits)
    (h : leafPreimage entry = leafPreimage entry') : entry = entry' := by
  have hread : ∀ e : OutPoint × TxOutput, OutPoint.decode (leafPreimage e) = some (e.1, e.2.encode) :=
    fun e => OutPoint.decode_encode e.1 e.2.encode
  have hhead := hread entry
  rw [h, hread entry', Option.some.injEq, Prod.mk.injEq] at hhead
  have houtput := TxOutput.decode_encode hfits []
  rw [List.append_nil, ← hhead.2] at houtput
  have houtput' := TxOutput.decode_encode hfits' []
  rw [List.append_nil, houtput, Option.some.injEq, Prod.mk.injEq] at houtput'
  exact Prod.ext hhead.1.symm houtput'.1

section Binding

variable [Crypto]

def commitmentLeaves (set : UtxoMap) : List Hash256 := set.toList.map commitmentLeaf

def leafPreimages (set : UtxoMap) : List Bytes := set.toList.map leafPreimage

def nodePreimages (set : UtxoMap) : List Bytes := (merkleTree (commitmentLeaves set)).map merklePreimage

/-- Everything that is hashed for the commitment to a set. -/
def hashedPreimages (set : UtxoMap) : List Bytes := leafPreimages set ++ nodePreimages set

variable {set set' : UtxoMap}

def HashCollision (preimages : List Bytes) : Prop :=
  ∃ a ∈ preimages, ∃ b ∈ preimages, a ≠ b ∧ sha3_256 a = sha3_256 b

instance (preimages : List Bytes) : Decidable (HashCollision preimages) :=
  inferInstanceAs (Decidable (∃ a ∈ preimages, ∃ b ∈ preimages, a ≠ b ∧ sha3_256 a = sha3_256 b))

private theorem HashCollision.of_merkleTree {preimages : List Bytes} {ps : List (Hash256 × Hash256)}
    (h : Collision merkleParent ps) (hsub : ps.map merklePreimage ⊆ preimages) : HashCollision preimages := by
  obtain ⟨p, hp, q, hq, hne, heq⟩ := h
  exact ⟨_, hsub (List.mem_map_of_mem hp), _, hsub (List.mem_map_of_mem hq), fun h => hne (merklePreimage_inj h), heq⟩

theorem nodup_commitmentLeaves {preimages : List Bytes} (hcollision : ¬ HashCollision preimages)
    (hsub : leafPreimages set ⊆ preimages) (hfits : set.Fits) : (commitmentLeaves set).Nodup := by
  refine (nodup_toList set).map_on ?_
  intro entry hentry entry' hentry' heq
  apply leafPreimage_inj (hfits entry hentry) (hfits entry' hentry')
  by_contra hne
  exact hcollision ⟨_, hsub (List.mem_map_of_mem hentry), _, hsub (List.mem_map_of_mem hentry'), hne, heq⟩

private theorem eq_of_commitmentLeaves_eq {preimages : List Bytes} (hcollision : ¬ HashCollision preimages)
    (hsub : leafPreimages set ⊆ preimages) (hsub' : leafPreimages set' ⊆ preimages) (hfits : set.Fits)
    (hfits' : set'.Fits) (h : commitmentLeaves set = commitmentLeaves set') : set = set' := by
  have hlist : set.toList = set'.toList := by
    apply eq_of_map_eq _ h
    intro entry hentry entry' hentry' heq
    apply leafPreimage_inj (hfits entry hentry) (hfits' entry' hentry')
    by_contra hne
    exact hcollision ⟨_, hsub (List.mem_map_of_mem hentry), _, hsub' (List.mem_map_of_mem hentry'), hne, heq⟩
  refine Std.ExtTreeMap.ext_getElem? fun op => Option.ext fun output => ?_
  rw [← Std.ExtTreeMap.mem_toList_iff_getElem?_eq_some, hlist, Std.ExtTreeMap.mem_toList_iff_getElem?_eq_some]

/-- Without a collision a leaf is the digest of a node only when its preimage is the preimage of that node. -/
theorem exists_shared_of_meets {preimages : List Bytes} (hcollision : ¬ HashCollision preimages)
    (hleaf : leafPreimages set ⊆ preimages) (hnode : nodePreimages set' ⊆ preimages)
    (h : Meets merkleParent (commitmentLeaves set) (merkleTree (commitmentLeaves set'))) :
    ∃ bytes ∈ leafPreimages set, bytes ∈ nodePreimages set' := by
  obtain ⟨leaf, hmem, p, hp, heq⟩ := h
  obtain ⟨entry, hentry, rfl⟩ := List.mem_map.mp hmem
  have hshared : leafPreimage entry = merklePreimage p := by
    by_contra hne
    exact hcollision ⟨_, hleaf (List.mem_map_of_mem hentry), _, hnode (List.mem_map_of_mem hp), hne, heq⟩
  exact ⟨leafPreimage entry, List.mem_map_of_mem hentry, hshared ▸ List.mem_map_of_mem hp⟩

/-- **The UTXO commitment is canonical, and binding up to the shape of the tree.** Sets with the same look-ups have the same commitment, so the order of insertion does not matter. Two different sets with the same commitment show two distinct preimages with one digest, or a byte string that is a leaf preimage of one set and a node preimage of the other, or one of them is empty and the commitment is the zero digest that stands for the empty set. -/
theorem commitment_binds :
    (∀ set set' : UtxoMap, (∀ op : OutPoint, set[op]? = set'[op]?) → commitmentRoot set = commitmentRoot set') ∧
    (∀ (entries entries' : List (OutPoint × TxOutput)) (set set' : UtxoMap), entries.Perm entries' →
      InMemoryUtxoSet.insertEntries ∅ entries = .ok set → InMemoryUtxoSet.insertEntries ∅ entries' = .ok set' →
      commitmentRoot set = commitmentRoot set') ∧
    ∀ set set' : UtxoMap, set.Fits → set'.Fits → set ≠ set' → commitmentRoot set = commitmentRoot set' →
      HashCollision (hashedPreimages set ++ hashedPreimages set') ∨
      (∃ bytes, bytes ∈ leafPreimages set ∧ bytes ∈ nodePreimages set' ∨
        bytes ∈ leafPreimages set' ∧ bytes ∈ nodePreimages set) ∨
      (set = ∅ ∨ set' = ∅) ∧ commitmentRoot set = .zero := by
  refine ⟨fun set set' h => ?_, fun entries entries' set set' hperm hset hset' => ?_,
    fun set set' hfits hfits' hne h => ?_⟩
  · rw [Std.ExtTreeMap.ext_getElem? fun op => h op]
  · obtain ⟨hnodup, -, rfl⟩ := InMemoryUtxoSet.insertEntries_eq_ok hset
    obtain ⟨-, -, rfl⟩ := InMemoryUtxoSet.insertEntries_eq_ok hset'
    rw [insertAll_perm hnodup hperm]
  by_cases hcollision : HashCollision (hashedPreimages set ++ hashedPreimages set')
  · exact .inl hcollision
  refine .inr ?_
  have hsub : hashedPreimages set ⊆ hashedPreimages set ++ hashedPreimages set' := List.subset_append_left _ _
  have hsub' : hashedPreimages set' ⊆ hashedPreimages set ++ hashedPreimages set' := List.subset_append_right _ _
  have hleaf := List.Subset.trans (List.subset_append_left (leafPreimages set) (nodePreimages set)) hsub
  have hleaf' := List.Subset.trans (List.subset_append_left (leafPreimages set') (nodePreimages set')) hsub'
  have hnode := List.Subset.trans (List.subset_append_right (leafPreimages set) (nodePreimages set)) hsub
  have hnode' := List.Subset.trans (List.subset_append_right (leafPreimages set') (nodePreimages set')) hsub'
  obtain heq | htree | hmeets | ⟨hempty, hzero⟩ := eq_of_merkleRootOf_eq
    (nodup_commitmentLeaves hcollision hleaf hfits) (nodup_commitmentLeaves hcollision hleaf' hfits') h
  · exact absurd (eq_of_commitmentLeaves_eq hcollision hleaf hleaf' hfits hfits' heq) hne
  · refine absurd (HashCollision.of_merkleTree htree ?_) hcollision
    rw [List.map_append]
    exact List.append_subset.mpr ⟨hnode, hnode'⟩
  · refine .inl ?_
    obtain hmeets | hmeets := hmeets
    · obtain ⟨bytes, hbytes, hbytes'⟩ := exists_shared_of_meets hcollision hleaf hnode' hmeets
      exact ⟨bytes, .inl ⟨hbytes, hbytes'⟩⟩
    · obtain ⟨bytes, hbytes, hbytes'⟩ := exists_shared_of_meets hcollision hleaf' hnode hmeets
      exact ⟨bytes, .inr ⟨hbytes, hbytes'⟩⟩
  · refine .inr ⟨hempty.imp ?_ ?_, hzero⟩
    all_goals
      intro hleaves
      rwa [commitmentLeaves, List.map_eq_nil_iff, Std.ExtTreeMap.toList_eq_nil_iff] at hleaves

end Binding

theorem UtxoMap.Fits.of_plain {set : UtxoMap}
    (h : ∀ entry ∈ set.toList, entry.2.lockingScript.length < 2 ^ 64 ∧ entry.2.datum = none ∧ entry.2.stealthInfo = none) :
    set.Fits := by
  intro entry hentry
  obtain ⟨hscript, hdatum, hstealth⟩ := h entry hentry
  exact ⟨hscript, by simp [hdatum], by simp [hstealth]⟩

/-- An entry whose leaf preimage has 64 bytes: an outpoint, and an output with a script of ten bytes. -/
def nodeShapedEntry : OutPoint × TxOutput := (⟨repeatedByte 1, 0⟩, .new 1 (List.replicate 10 0))

def smallEntry : OutPoint × TxOutput := (⟨.zero, 0⟩, .new 1 [])

def otherSmallEntry : OutPoint × TxOutput := (⟨.zero, 1⟩, .new 1 [])

def nodeShapedSet : UtxoMap := insertAll ∅ [nodeShapedEntry]

def twoEntrySet : UtxoMap := insertAll ∅ [smallEntry, otherSmallEntry]

/-- The second half of the leaf preimage of the first entry; the other half is its transaction id. -/
def secondHalf : Hash256 := ⟨(leafPreimage nodeShapedEntry).drop 32, by decide +kernel⟩

/-- A hash under which the leaves of the two small entries are the halves of that preimage. -/
@[reducible] def halvesCrypto : Crypto where
  sha3_256 bytes :=
    if bytes = leafPreimage smallEntry then repeatedByte 1
    else if bytes = leafPreimage otherSmallEntry then secondHalf
    else sampleDigest bytes
  blake3 := sampleDigest
  mlDsaVerify _ _ _ _ := false

theorem nodeShapedSet_ne : nodeShapedSet ≠ twoEntrySet := by
  intro h
  exact absurd (congrArg Std.ExtTreeMap.size h) (by decide +kernel)

/-- The 64 bytes that the two sets share. -/
theorem commitment_binds_halves :
    ∃ bytes, bytes ∈ leafPreimages nodeShapedSet ∧ bytes ∈ @nodePreimages halvesCrypto twoEntrySet ∨
      bytes ∈ leafPreimages twoEntrySet ∧ bytes ∈ @nodePreimages halvesCrypto nodeShapedSet := by
  obtain hcollision | hshared | ⟨-, hzero⟩ := (@commitment_binds halvesCrypto).2.2 nodeShapedSet twoEntrySet
    (.of_plain (by decide +kernel)) (.of_plain (by decide +kernel)) nodeShapedSet_ne (by decide +kernel)
  · exact absurd hcollision (by decide +kernel)
  · exact hshared
  · exact absurd hzero (by decide +kernel)

/-- A hash under which the leaf of a small entry is the zero digest. -/
@[reducible] def zeroLeafCrypto : Crypto where
  sha3_256 bytes := if bytes = leafPreimage smallEntry then .zero else sampleDigest bytes
  blake3 := sampleDigest
  mlDsaVerify _ _ _ _ := false

/-- A set of one entry and a set of two have the same commitment although the hash tells all their preimages apart. And so have the empty set and a set of one entry. -/
theorem commitment_not_binding :
    (∃ (_ : Crypto) (set set' : UtxoMap), set.Fits ∧ set'.Fits ∧ set ≠ set' ∧
      commitmentRoot set = commitmentRoot set' ∧ ¬ HashCollision (hashedPreimages set ++ hashedPreimages set')) ∧
    ∃ (_ : Crypto) (set : UtxoMap), set.Fits ∧ set ≠ ∅ ∧ commitmentRoot set = commitmentRoot ∅ ∧
      ¬ HashCollision (hashedPreimages set ++ hashedPreimages ∅) := by
  constructor
  · exact ⟨halvesCrypto, nodeShapedSet, twoEntrySet, .of_plain (by decide +kernel), .of_plain (by decide +kernel),
      nodeShapedSet_ne, by decide +kernel, by decide +kernel⟩
  · refine ⟨zeroLeafCrypto, insertAll ∅ [smallEntry], .of_plain (by decide +kernel), ?_, by decide +kernel,
      by decide +kernel⟩
    intro h
    exact absurd (congrArg Std.ExtTreeMap.size h) (by decide +kernel)

end QuantumVault
