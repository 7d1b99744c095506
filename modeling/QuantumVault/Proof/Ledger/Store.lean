import QuantumVault.Proof.Ledger.Staging

/-!
# Applying and reverting blocks

What an applied block leaves in each table of the store, and what reverting it right afterwards gives back: the entries always, the undo record if there was none for this block, and the creation heights if there were none under the outpoints of its coinbase.
-/

namespace QuantumVault

open Result TreeMap Ledger

variable [Crypto]

def Block.coinbaseOutpoints (block : Block) : List OutPoint :=
  block.transactions.zipIdx.flatMap (UtxoStore.coinbaseOutpointsAt block.header.height)

def Block.created (block : Block) : List OutPoint :=
  block.transactions.flatMap fun tx => tx.move.created

def Block.advance (block : Block) (entries : UtxoMap) : UtxoMap :=
  advanceAll Transaction.move entries block.transactions

namespace UtxoStore

variable {s s' : UtxoStore} {block : Block} {op : OutPoint}

/-- What an applied block leaves in each table. -/
structure Applied (s : UtxoStore) (block : Block) (s' : UtxoStore) : Prop where
  valid_structure : block.validateStructure = .ok ()
  valid : Valid Transaction.move s.entries [] block.transactions
  fits : ∀ tx ∈ block.transactions, tx.IndexFits
  entries_eq : s'.entries = block.advance s.entries
  coinbaseHeight_eq : ∀ op, s'.coinbaseHeights[op]? =
    if op ∈ block.coinbaseOutpoints ∧ op ∈ s'.entries then some block.header.height
    else if op ∈ s.entries ∧ op ∉ s'.entries then none
    else s.coinbaseHeights[op]?
  undo_eq : ∃ log, s'.undo = s.undo.insert block.hash log
  snapshots_eq : s'.snapshots = s.snapshots

omit [Crypto] in
theorem view_empty (entries : UtxoMap) : Staging.empty.view entries = entries := by
  refine Std.ExtTreeMap.ext_getElem? fun a => ?_
  simp [Staging.getElem?_view, Staging.empty, Staging.spentKeys]

theorem stageBlock_isOk {entries : UtxoMap} :
    (∃ st, stageBlock entries block = .ok st) ↔
      Valid Transaction.move entries [] block.transactions ∧ ∀ tx ∈ block.transactions, tx.IndexFits := by
  have hpairs : (∀ tx ∈ block.transactions.zipIdx, tx.1.IndexFits) ↔ ∀ tx ∈ block.transactions, tx.IndexFits := by
    conv_rhs => rw [← List.zipIdx_map_fst 0 block.transactions, List.forall_mem_map]
  unfold stageBlock
  rw [(Staging.Tracks.empty entries).stageTransactions_isOk, view_empty, hpairs,
    ← valid_map (f := Prod.fst), List.zipIdx_map_fst]

theorem mem_created_of_coinbase (h : op ∈ block.coinbaseOutpoints) : op ∈ block.created := by
  rw [Block.coinbaseOutpoints, List.mem_flatMap] at h
  obtain ⟨tx, htx, hop⟩ := h
  unfold coinbaseOutpointsAt at hop
  split at hop
  · exact List.mem_flatMap.mpr ⟨tx.1, List.fst_mem_of_mem_zipIdx htx, hop⟩
  · simp at hop

/-- What is known about the accumulators once a whole block is staged. -/
structure BlockStaged (entries : UtxoMap) (block : Block) (st : Staging) : Prop where
  tracks : ∃ gone, st.Tracks entries gone
  view_eq : st.view entries = block.advance entries
  coinbaseOutpoints_eq : st.coinbaseOutpoints = block.coinbaseOutpoints
  created_fresh : ∀ op ∈ block.created, op ∉ entries

theorem BlockStaged.of_ok {entries : UtxoMap} {st : Staging} (hok : stageBlock entries block = .ok st) :
    BlockStaged entries block st := by
  have hvalid := (stageBlock_isOk.mp ⟨st, hok⟩).1
  obtain ⟨htracks, hview, hcoinbase⟩ := (Staging.Tracks.empty entries).stageTransactions hok
  refine ⟨htracks, ?_, ?_, ?_⟩
  · rw [hview, view_empty, ← advanceAll_map (f := Prod.fst), List.zipIdx_map_fst, Block.advance]
  · rw [hcoinbase]
    rfl
  · intro op hop
    exact hvalid.notMem_of_created (fun k hk => Or.inl hk) hop

section

variable {entries : UtxoMap} {st : Staging}

theorem BlockStaged.mem_spentKeys (h : BlockStaged entries block st) :
    op ∈ st.spentKeys ↔ op ∈ entries ∧ op ∉ block.advance entries := by
  obtain ⟨gone, htracks⟩ := h.tracks
  rw [← h.view_eq]
  constructor
  · intro hop
    obtain ⟨entry, hentry, rfl⟩ := List.mem_map.mp hop
    exact ⟨mem_of_getElem? (htracks.spent_entry entry hentry), htracks.notMem_view (htracks.spent_consumed _ hop)⟩
  · intro h'
    obtain ⟨hentry, hview⟩ := h'
    by_contra hnot
    exact hview (Staging.mem_view.mpr (Or.inr ⟨hentry, hnot⟩))

private theorem BlockStaged.mem_stagedNew (h : BlockStaged entries block st) (hop : op ∈ block.created) :
    op ∈ st.stagedNew ↔ op ∈ block.advance entries := by
  rw [← h.view_eq, Staging.mem_view]
  have hfresh := h.created_fresh op hop
  tauto

private theorem BlockStaged.getElem?_of_notMem (h : BlockStaged entries block st) (hcreated : op ∉ block.created)
    (hspent : op ∉ st.spentKeys) : (block.advance entries)[op]? = entries[op]? := by
  obtain ⟨gone, htracks⟩ := h.tracks
  have hstaged : op ∉ st.stagedNew := by
    intro hstaged
    have hview : op ∈ block.advance entries := h.view_eq ▸ Staging.mem_view.mpr (Or.inl hstaged)
    rcases mem_or_created hview with hold | hnew
    · exact (htracks.staged_fresh op hstaged).1 hold
    · exact hcreated hnew
  rw [← h.view_eq, Staging.getElem?_view, notMem_iff.mp hstaged, Option.none_or, if_neg hspent]

end

/-! ### Applying -/

theorem applyBlock_eq_ok :
    s.applyBlock block = .ok s' ↔
      block.validateStructure = .ok () ∧ ∃ st, stageBlock s.entries block = .ok st ∧ s' = s.writeBlock block st := by
  unfold applyBlock
  rw [bind_eq_ok]
  constructor
  · intro h
    obtain ⟨u, hstructure, hrest⟩ := h
    obtain ⟨st, hst, heq⟩ := bind_eq_ok.mp hrest
    exact ⟨mapError_eq_ok.mp hstructure, st, hst, (pure_eq_ok.mp heq).symm⟩
  · intro h
    obtain ⟨hstructure, st, hst, rfl⟩ := h
    exact ⟨(), mapError_eq_ok.mpr hstructure, bind_eq_ok.mpr ⟨st, hst, rfl⟩⟩

/-- A block is applied exactly when it is well formed and its moves are valid. -/
theorem applyBlock_isOk :
    (∃ s', s.applyBlock block = .ok s') ↔
      block.validateStructure = .ok () ∧ Valid Transaction.move s.entries [] block.transactions ∧
        ∀ tx ∈ block.transactions, tx.IndexFits := by
  simp only [applyBlock_eq_ok, ← stageBlock_isOk]
  constructor
  · intro h
    obtain ⟨s', hstructure, st, hst, -⟩ := h
    exact ⟨hstructure, st, hst⟩
  · intro h
    obtain ⟨hstructure, st, hst⟩ := h
    exact ⟨_, hstructure, st, hst, rfl⟩

/-- The creation heights that a block's spends delete, as the undo log keeps them. -/
def spentHeights (s : UtxoStore) (st : Staging) : List (OutPoint × UInt64) :=
  st.spent.filterMap fun entry => (s.coinbaseHeight entry.1).map fun height => (entry.1, height)

omit [Crypto] in
theorem mem_spentHeights {st : Staging} {height : UInt64} :
    (op, height) ∈ s.spentHeights st ↔ op ∈ st.spentKeys ∧ s.coinbaseHeights[op]? = some height := by
  simp only [spentHeights, List.mem_filterMap, Option.map_eq_some_iff, Staging.spentKeys, List.mem_map, coinbaseHeight]
  constructor
  · intro h'
    obtain ⟨entry, hentry, h, hh, heq⟩ := h'
    cases heq
    exact ⟨⟨entry, hentry, rfl⟩, hh⟩
  · intro h'
    obtain ⟨⟨entry, hentry, rfl⟩, hh⟩ := h'
    exact ⟨entry, hentry, height, hh, rfl⟩

omit [Crypto] in
theorem mem_spentHeights_keys {st : Staging} :
    op ∈ (s.spentHeights st).map Prod.fst ↔ op ∈ st.spentKeys ∧ op ∈ s.coinbaseHeights := by
  rw [List.mem_map, mem_iff]
  constructor
  · intro h
    obtain ⟨⟨a, height⟩, hmem, rfl⟩ := h
    obtain ⟨hspent, hheight⟩ := mem_spentHeights.mp hmem
    exact ⟨hspent, height, hheight⟩
  · intro h
    obtain ⟨hspent, height, hheight⟩ := h
    exact ⟨(op, height), mem_spentHeights.mpr ⟨hspent, hheight⟩, rfl⟩

theorem getElem?_writeBlock_coinbaseHeights {st : Staging} :
    (s.writeBlock block st).coinbaseHeights[op]? =
      if op ∈ st.coinbaseOutpoints ∧ op ∈ st.stagedNew then some block.header.height
      else if op ∈ st.spentKeys then none else s.coinbaseHeights[op]? := by
  change (insertAll (eraseAll s.coinbaseHeights ((s.spentHeights st).map Prod.fst))
    ((st.coinbaseOutpoints.filter fun outpoint => decide (outpoint ∈ st.stagedNew)).map
      fun outpoint => (outpoint, block.header.height)))[op]? = _
  rw [getElem?_insertAll_const, getElem?_eraseAll]
  simp only [List.mem_filter, decide_eq_true_eq, mem_spentHeights_keys]
  split
  · rfl
  · by_cases hspent : op ∈ st.spentKeys
    · simp only [hspent, true_and, if_true]
      split
      · rfl
      · rename_i hnot
        exact notMem_iff.mp hnot
    · simp [hspent]

theorem Applied.of_ok (hok : s.applyBlock block = .ok s') : Applied s block s' := by
  obtain ⟨hstructure, hvalid, hfits⟩ := applyBlock_isOk.mp ⟨s', hok⟩
  obtain ⟨-, st, hst, rfl⟩ := applyBlock_eq_ok.mp hok
  have hstaged := BlockStaged.of_ok hst
  refine ⟨hstructure, hvalid, hfits, hstaged.view_eq, ?_, ⟨_, rfl⟩, rfl⟩
  intro op
  have hentries : (s.writeBlock block st).entries = block.advance s.entries := hstaged.view_eq
  rw [getElem?_writeBlock_coinbaseHeights, hentries, hstaged.coinbaseOutpoints_eq]
  simp only [hstaged.mem_spentKeys]
  by_cases hcoinbase : op ∈ block.coinbaseOutpoints
  · simp only [hstaged.mem_stagedNew (mem_created_of_coinbase hcoinbase)]
  · simp [hcoinbase]

/-! ### Reverting -/

private theorem deleteOutput_fold {tx : Transaction} {outputs : List (TxOutput × Nat)} {isCoinbase : Bool}
    (hfits : ∀ output ∈ outputs, output.2 < 2 ^ 32) :
    outputs.foldlM (deleteOutput tx.id isCoinbase) s =
      .ok { s with
            entries := eraseAll s.entries (outputs.map fun output => tx.outPointAt output.2)
            coinbaseHeights := if isCoinbase then
              eraseAll s.coinbaseHeights (outputs.map fun output => tx.outPointAt output.2) else s.coinbaseHeights } := by
  induction outputs generalizing s with
  | nil => cases isCoinbase <;> rfl
  | cons output outputs ih =>
      rw [List.forall_mem_cons] at hfits
      rw [List.foldlM_cons, deleteOutput, Transaction.ofPosition_of_lt hfits.1, okOr_some, ok_bind]
      refine (ih hfits.2).trans ?_
      cases isCoinbase <;> rfl

theorem deleteOutputs_fold {height : Height} {txs : List (Transaction × Nat)} (hfits : ∀ tx ∈ txs, tx.1.IndexFits) :
    txs.foldlM (deleteOutputs height) s =
      .ok { s with
            entries := eraseAll s.entries (txs.flatMap fun tx => tx.1.move.created)
            coinbaseHeights := eraseAll s.coinbaseHeights (txs.flatMap (coinbaseOutpointsAt height)) } := by
  induction txs generalizing s with
  | nil => rfl
  | cons tx txs ih =>
      rw [List.forall_mem_cons] at hfits
      rw [List.foldlM_cons, deleteOutputs, deleteOutput_fold (Transaction.indexFits_iff.mp hfits.1), ok_bind,
        ih hfits.2, List.flatMap_cons, List.flatMap_cons, eraseAll_append, eraseAll_append, Transaction.created_keys,
        coinbaseOutpointsAt, Transaction.created_keys]
      cases isCoinbaseAt height tx.1 tx.2 <;> rfl

/-- **What a revert right after an apply gives back.** -/
structure Reverted (s : UtxoStore) (block : Block) (s' : UtxoStore) : Prop where
  entries_eq : s'.entries = s.entries
  coinbaseHeight_eq : ∀ op, s'.coinbaseHeights[op]? =
    if op ∈ block.coinbaseOutpoints then none else s.coinbaseHeights[op]?
  undo_eq : s'.undo = s.undo.erase block.hash
  snapshots_eq : s'.snapshots = s.snapshots

theorem created_zipIdx (block : Block) :
    (block.transactions.zipIdx.flatMap fun tx => tx.1.move.created) = block.created := by
  rw [Block.created]
  conv_rhs => rw [← List.zipIdx_map_fst 0 block.transactions, List.flatMap_map]

omit [Crypto] in
private theorem spentHeights_nodup {st : Staging} (h : st.spentKeys.Nodup) : ((s.spentHeights st).map Prod.fst).Nodup := by
  have hkeys : (s.spentHeights st).map Prod.fst = st.spentKeys.filter fun op => (s.coinbaseHeight op).isSome := by
    unfold spentHeights Staging.spentKeys
    induction st.spent with
    | nil => rfl
    | cons entry spent ih =>
        cases hheight : s.coinbaseHeight entry.1 <;> simp [hheight, ih]
  rw [hkeys]
  exact h.filter _

private theorem BlockStaged.restore_entries {entries : UtxoMap} {st : Staging} (h : BlockStaged entries block st) :
    insertAll (eraseAll (block.advance entries) block.created) st.spent = entries := by
  obtain ⟨gone, htracks⟩ := h.tracks
  refine Std.ExtTreeMap.ext_getElem? fun a => ?_
  by_cases hspent : a ∈ st.spentKeys
  · obtain ⟨entry, hentry, rfl⟩ := List.mem_map.mp hspent
    rw [getElem?_insertAll_of_mem htracks.spent_nodup hentry, htracks.spent_entry entry hentry]
  · rw [getElem?_insertAll_of_notMem hspent, getElem?_eraseAll]
    split
    · rename_i hcreated
      exact (notMem_iff.mp (h.created_fresh a hcreated)).symm
    · rename_i hcreated
      exact h.getElem?_of_notMem hcreated hspent

/-- The creation heights come back, except under the block's own coinbase outpoints. -/
theorem BlockStaged.restore_coinbaseHeights {st : Staging} (h : BlockStaged s.entries block st) :
    (insertAll (eraseAll (s.writeBlock block st).coinbaseHeights block.coinbaseOutpoints) (s.spentHeights st))[op]? =
      if op ∈ block.coinbaseOutpoints then none else s.coinbaseHeights[op]? := by
  obtain ⟨gone, htracks⟩ := h.tracks
  by_cases hcoinbase : op ∈ block.coinbaseOutpoints
  · have hentry := h.created_fresh op (mem_created_of_coinbase hcoinbase)
    have hnot : op ∉ (s.spentHeights st).map Prod.fst := by
      intro hkey
      exact hentry (h.mem_spentKeys.mp (mem_spentHeights_keys.mp hkey).1).1
    rw [getElem?_insertAll_of_notMem hnot, getElem?_eraseAll, if_pos hcoinbase, if_pos hcoinbase]
  · rw [if_neg hcoinbase]
    by_cases hkey : op ∈ (s.spentHeights st).map Prod.fst
    · obtain ⟨⟨a, height⟩, hmem, rfl⟩ := List.mem_map.mp hkey
      rw [getElem?_insertAll_of_mem (spentHeights_nodup htracks.spent_nodup) hmem]
      exact (mem_spentHeights.mp hmem).2.symm
    · rw [getElem?_insertAll_of_notMem hkey, getElem?_eraseAll, if_neg hcoinbase,
        getElem?_writeBlock_coinbaseHeights, h.coinbaseOutpoints_eq, if_neg fun hc => hcoinbase hc.1]
      split
      · rename_i hspent
        by_contra hheight
        exact hkey (mem_spentHeights_keys.mpr ⟨hspent, by
          by_contra hnot
          exact hheight (notMem_iff.mp hnot).symm⟩)
      · rfl

theorem revert_applied (hok : s.applyBlock block = .ok s') :
    ∃ s'', s'.revertBlock block = .ok s'' ∧ Reverted s block s'' := by
  have hfits := (Applied.of_ok hok).fits
  obtain ⟨-, st, hst, rfl⟩ := applyBlock_eq_ok.mp hok
  have hstaged := BlockStaged.of_ok hst
  have hundo : (s.writeBlock block st).undo[block.hash]? = some ⟨st.spent, s.spentHeights st⟩ :=
    Std.ExtTreeMap.getElem?_insert_self
  have hpairs : ∀ tx ∈ block.transactions.zipIdx, tx.1.IndexFits :=
    fun tx htx => hfits tx.1 (List.fst_mem_of_mem_zipIdx htx)
  rw [revertBlock, hundo, okOr_some, ok_bind, deleteOutputs_fold hpairs, ok_bind, created_zipIdx]
  refine ⟨_, rfl, ?_, fun op => hstaged.restore_coinbaseHeights, ?_, rfl⟩
  · have hentries : (s.writeBlock block st).entries = block.advance s.entries := hstaged.view_eq
    rw [hentries]
    exact hstaged.restore_entries
  · refine Std.ExtTreeMap.ext_getElem? fun a => ?_
    change ((s.undo.insert block.hash _).erase block.hash)[a]? = _
    rw [getElem?_erase, getElem?_erase]
    split
    · rfl
    · rename_i hne
      rw [getElem?_insert_of_ne hne]

end UtxoStore

end QuantumVault
