import QuantumVault.Proof.Ledger.Store

/-!
# Taking blocks back

Blocks with different hashes are taken back in the reverse order of their application, and the store is then the one before the first of them, in every table.
-/

namespace QuantumVault

open Result TreeMap Ledger

variable [Crypto]

/-- A well-formed block of the given transactions that links to nothing. -/
def plainBlock (height : Height) (transactions : List Transaction) : Block where
  header :=
    { version := blockVersion
      prevHash := .zero
      height := height
      slot := 0
      timestamp := 0
      merkleRoot := merkleRootOf (transactions.map Transaction.id)
      utxoCommitment := .zero
      vrfProof := []
      kesSig := []
      producerKeyHash := .zero }
  transactions := transactions

namespace UtxoStore

variable {s s' t : UtxoStore} {block : Block} {blocks : List Block}

/-! ### Last in, first out -/

/-- Creation heights are kept for live outputs only, as far as the coinbases of these blocks are concerned. -/
def NoStaleHeights (s : UtxoStore) (blocks : List Block) : Prop :=
  ∀ b ∈ blocks, ∀ op ∈ b.coinbaseOutpoints, op ∈ s.coinbaseHeights → op ∈ s.entries

/-- A block whose hash is new and whose coinbase finds no stale heights is taken back without a trace. -/
theorem revert_applied_eq (hok : s.applyBlock block = .ok s') (hundo : block.hash ∉ s.undo)
    (hstale : ∀ op ∈ block.coinbaseOutpoints, op ∈ s.coinbaseHeights → op ∈ s.entries) :
    s'.revertBlock block = .ok s := by
  obtain ⟨t, hrevert, hback⟩ := revert_applied hok
  rw [hrevert, Except.ok.injEq]
  apply UtxoStore.ext hback.entries_eq _ _ hback.snapshots_eq
  · refine Std.ExtTreeMap.ext_getElem? fun op => ?_
    rw [hback.coinbaseHeight_eq]
    split
    · rename_i hcoinbase
      symm
      apply notMem_iff.mp
      intro hheight
      exact (Applied.of_ok hok).valid.notMem_of_created (fun _ hk => Or.inl hk) (mem_created_of_coinbase hcoinbase)
        (hstale op hcoinbase hheight)
    · rfl
  · rw [hback.undo_eq]
    refine Std.ExtTreeMap.ext_getElem? fun hash => ?_
    rw [getElem?_erase]
    split
    · rename_i heq
      exact (notMem_iff.mp (heq ▸ hundo)).symm
    · rfl

def Tidy (s : UtxoStore) : Prop := ∀ op ∈ s.coinbaseHeights, op ∈ s.entries

omit [Crypto] in
theorem tidy_new : new.Tidy := by
  intro op hheight
  simp [new] at hheight

theorem Applied.tidy (h : Applied s block s') (htidy : s.Tidy) : s'.Tidy := by
  intro op hheight
  obtain ⟨height, hget⟩ := mem_iff.mp hheight
  rw [h.coinbaseHeight_eq] at hget
  split at hget
  · rename_i hlive
    exact hlive.2
  · split at hget
    · cases hget
    · rename_i hkept
      by_contra hgone
      exact hkept ⟨htidy op (mem_of_getElem? hget), hgone⟩

private theorem Applied.noStaleHeights (h : Applied s block s') (hstale : NoStaleHeights s blocks) :
    NoStaleHeights s' blocks := by
  intro b hb op hop hheight
  obtain ⟨height, hget⟩ := mem_iff.mp hheight
  rw [h.coinbaseHeight_eq] at hget
  split at hget
  · rename_i hlive
    exact hlive.2
  · split at hget
    · cases hget
    · rename_i hkept
      by_contra hgone
      exact hkept ⟨hstale b hb op hop (mem_of_getElem? hget), hgone⟩

/-- **Blocks are taken back last in, first out.** When blocks with different hashes and no undo records have been applied one after the other to a store without stale heights, reverting them from the last to the first succeeds and gives back the store as a whole. -/
theorem revert_all_applied (hrun : blocks.foldlM applyBlock s = .ok t) (hnodup : (blocks.map Block.hash).Nodup)
    (hundo : ∀ b ∈ blocks, b.hash ∉ s.undo) (hstale : NoStaleHeights s blocks) :
    blocks.reverse.foldlM revertBlock t = .ok s := by
  induction blocks generalizing s with
  | nil => exact hrun.symm
  | cons block blocks ih =>
      obtain ⟨mid, hfirst, hrest⟩ := foldlM_cons_eq_ok.mp hrun
      have happlied := Applied.of_ok hfirst
      rw [List.map_cons, List.nodup_cons] at hnodup
      rw [List.forall_mem_cons] at hundo
      have hundoRest : ∀ b ∈ blocks, b.hash ∉ mid.undo := by
        intro b hb hmem
        obtain ⟨log, hlog⟩ := happlied.undo_eq
        rw [hlog, mem_insert] at hmem
        rcases hmem with heq | hold
        · exact hnodup.1 (heq ▸ List.mem_map_of_mem hb)
        · exact hundo.2 b hb hold
      have hstaleRest : NoStaleHeights s blocks := fun b hb => hstale b (List.mem_cons_of_mem _ hb)
      have hback := ih hrest hnodup.2 hundoRest (happlied.noStaleHeights hstaleRest)
      rw [List.reverse_cons, foldlM_append_eq_ok]
      refine ⟨mid, hback, ?_⟩
      rw [List.foldlM_cons, revert_applied_eq hfirst hundo.1 (hstale block List.mem_cons_self)]
      rfl

def rewardBlock : Block := @plainBlock sampleCrypto 1 [.newCoinbase 1 [.new 10 []]]

def chainedBlock : Block :=
  let first : Transaction := .new [⟨⟨@Transaction.id sampleCrypto (.newCoinbase 1 [.new 10 []]), 0⟩, []⟩] [.new 9 []]
  @plainBlock sampleCrypto 2 [first, .new [⟨⟨@Transaction.id sampleCrypto first, 0⟩, []⟩] [.new 8 []]]

omit [Crypto] in
theorem revert_all_applied_chainedBlock :
    ∃ t, [rewardBlock, chainedBlock].foldlM (@applyBlock sampleCrypto) new = .ok t ∧
      [chainedBlock, rewardBlock].foldlM (@revertBlock sampleCrypto) t = .ok new := by
  have hok : ([rewardBlock, chainedBlock].foldlM (@applyBlock sampleCrypto) new).isOk = true := by decide +kernel
  obtain ⟨t, ht⟩ := isOk_iff.mp hok
  have hnodup : ([rewardBlock, chainedBlock].map (@Block.hash sampleCrypto)).Nodup := by decide +kernel
  refine ⟨t, ht, @revert_all_applied sampleCrypto _ _ _ ht hnodup ?_ ?_⟩
  · intro b _
    simp [new]
  · intro b _ op _ hheight
    simp [new] at hheight

def rewardStore : UtxoStore := (@applyBlock sampleCrypto new rewardBlock).toOption.getD new

def emptyBlock : Block := @plainBlock sampleCrypto 1 []

/-- A store with a creation height for an output that is not there. -/
def staleStore : UtxoStore :=
  let outpoint : OutPoint := ⟨@Transaction.id sampleCrypto (.newCoinbase 1 [.new 10 []]), 0⟩
  { new with coinbaseHeights := (∅ : Std.ExtTreeMap OutPoint UInt64).insert outpoint 5 }

omit [Crypto] in
/-- **Where reverting fails.** A block applied twice has one undo record, which the first revert deletes; and a stale creation height under an outpoint of the block's coinbase does not come back. -/
theorem revert_not_exact :
    (¬ ∀ (_ : Crypto) (s t : UtxoStore) (blocks : List Block), (∀ b ∈ blocks, b.hash ∉ s.undo) →
      blocks.foldlM applyBlock s = .ok t → blocks.reverse.foldlM revertBlock t = .ok s) ∧
    ¬ ∀ (_ : Crypto) (s t : UtxoStore) (blocks : List Block), (∀ b ∈ blocks, b.hash ∉ s.undo) →
      (blocks.map Block.hash).Nodup → blocks.foldlM applyBlock s = .ok t →
        blocks.reverse.foldlM revertBlock t = .ok s := by
  constructor
  · intro hclaim
    have hfails : ([emptyBlock, emptyBlock].foldlM (@applyBlock sampleCrypto) new).map
        (fun t => ([emptyBlock, emptyBlock].foldlM (@revertBlock sampleCrypto) t).isOk) = .ok false := by
      decide +kernel
    have hok : ([emptyBlock, emptyBlock].foldlM (@applyBlock sampleCrypto) new).isOk = true := by decide +kernel
    obtain ⟨t, ht⟩ := isOk_iff.mp hok
    have hback := hclaim sampleCrypto new t [emptyBlock, emptyBlock] (by intro b _; simp [new]) ht
    rw [ht] at hfails
    have hfalse : ([emptyBlock, emptyBlock].foldlM (@revertBlock sampleCrypto) t).isOk = false := Except.ok.inj hfails
    rw [show [emptyBlock, emptyBlock] = [emptyBlock, emptyBlock].reverse from rfl, hback] at hfalse
    cases hfalse
  · intro hclaim
    let outpoint : OutPoint := ⟨@Transaction.id sampleCrypto (.newCoinbase 1 [.new 10 []]), 0⟩
    have hlost : (([rewardBlock].foldlM (@applyBlock sampleCrypto) staleStore).bind
        fun t => [rewardBlock].foldlM (@revertBlock sampleCrypto) t).map (fun s => s.coinbaseHeight outpoint) =
        .ok none := by
      decide +kernel
    have hok : ([rewardBlock].foldlM (@applyBlock sampleCrypto) staleStore).isOk = true := by decide +kernel
    obtain ⟨t, ht⟩ := isOk_iff.mp hok
    have hback := hclaim sampleCrypto staleStore t [rewardBlock] (by intro b _; simp [staleStore, new])
      (List.nodup_singleton _) ht
    rw [ht] at hlost
    change Except.map _ ([rewardBlock].reverse.foldlM (@revertBlock sampleCrypto) t) = _ at hlost
    rw [hback] at hlost
    have hkept : staleStore.coinbaseHeight outpoint = some 5 := by decide +kernel
    cases hkept.symm.trans (Except.ok.inj hlost)

end UtxoStore

end QuantumVault
