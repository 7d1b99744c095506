import QuantumVault.Proof.Storage.Utxo
import QuantumVault.Storage.Stores

/-!
# Calls on bytes

Staging reads the same outputs from the bytes as from the tables, so a call on the bytes fails where the call on the tables fails, and otherwise writes a batch that moves the tables as the call does.
-/

namespace QuantumVault

open Result TreeMap KeyValue

namespace KvUtxoStore

open UtxoStore (Staging isCoinbaseAt)

variable {kv : KvStore} {s : UtxoStore}

/-! ### Staging -/

section Staging

variable {st : Staging}

private theorem Represents.sim_consumeInput (h : Represents kv s) (input : TxInput) :
    Sim KvError.storage Eq (UtxoStore.consumeInput s.entries st input) (consumeInput kv st input) := by
  simp only [UtxoStore.consumeInput, consumeInput]
  split
  · rfl
  · split
    · rfl
    · cases hget : kv.get (keyOutpoint input.prevOutput) with
      | none =>
          rw [h.entries.eq_none_iff.mp hget]
          rfl
      | some bytes =>
          obtain ⟨output, hentry, hdecode⟩ := decode_of_holds h.entries hget
          simp [hentry, hdecode]

private theorem Represents.sim_produceOutput (h : Represents kv s) (txId : TxId) (output : TxOutput × Nat) :
    Sim KvError.storage Eq (UtxoStore.produceOutput s.entries txId st output) (produceOutput kv txId st output) := by
  refine (sim_okOr _ _).bind fun outpoint _ _ heq => ?_
  subst heq
  refine (sim_require Iff.rfl rfl).bind fun _ _ _ _ => ?_
  have hfree : outpoint ∉ s.entries ↔ kv.get (keyOutpoint outpoint) = none := by
    rw [notMem_iff]
    exact h.entries.eq_none_iff.symm
  exact (sim_require hfree rfl).bind fun _ _ _ _ => rfl

variable [Crypto]

private theorem Represents.sim_stageTransaction (h : Represents kv s) (height : Height) (tx : Transaction × Nat) :
    Sim KvError.storage Eq (UtxoStore.stageTransaction s.entries height st tx) (stageTransaction kv height st tx) := by
  refine (Sim.foldlM (fun input _ st _ heq => heq ▸ h.sim_consumeInput input) rfl).bind fun st₁ _ _ heq => ?_
  subst heq
  refine (Sim.foldlM (fun output _ st _ heq => heq ▸ h.sim_produceOutput tx.1.id output) rfl).bind fun st₂ _ _ heq => ?_
  subst heq
  split
  · refine (Sim.mapM fun output _ => sim_okOr _ _).bind fun outpoints _ _ heq => ?_
    rw [List.forall₂_eq_eq_eq] at heq
    subst heq
    rfl
  · rfl

private theorem Represents.sim_stageBlock (h : Represents kv s) (block : Block) :
    Sim KvError.storage Eq (UtxoStore.stageBlock s.entries block) (stageBlock kv block) :=
  Sim.foldlM (fun tx _ _ _ heq => heq ▸ h.sim_stageTransaction block.header.height tx) rfl

end Staging

/-! ### What a staged block writes -/

section Bounds

/-- At most this many outputs are spent, and every staged output can be written. -/
structure Bounded (count : Nat) (st : Staging) : Prop where
  spent : st.spent.length ≤ count
  staged : ∀ (outpoint : OutPoint) (output : TxOutput), st.stagedNew[outpoint]? = some output → output.Fits

variable {entries : UtxoMap} {st st' : Staging} {count : Nat}

theorem Bounded.consumeInput (h : Bounded count st) {input : TxInput}
    (hok : UtxoStore.consumeInput entries st input = .ok st') : Bounded (count + 1) st' := by
  obtain ⟨-, ⟨-, rfl⟩ | ⟨-, prev, -, rfl⟩⟩ := UtxoStore.consumeInput_eq_ok.mp hok
  · refine ⟨Nat.le_succ_of_le h.spent, fun outpoint output hstaged => ?_⟩
    rw [getElem?_erase] at hstaged
    split at hstaged
    · cases hstaged
    · exact h.staged outpoint output hstaged
  · refine ⟨?_, h.staged⟩
    rw [List.length_append]
    exact Nat.succ_le_succ h.spent

theorem Bounded.consumeInputs {inputs : List TxInput} (h : Bounded count st)
    (hok : inputs.foldlM (UtxoStore.consumeInput entries) st = .ok st') : Bounded (count + inputs.length) st' := by
  induction inputs generalizing st count with
  | nil =>
      rw [List.foldlM_nil, pure_eq_ok] at hok
      exact hok ▸ h
  | cons input inputs ih =>
      obtain ⟨t, ht, hrest⟩ := foldlM_cons_eq_ok.mp hok
      have hstep := ih (h.consumeInput ht) hrest
      rwa [Nat.add_right_comm, Nat.add_assoc] at hstep

variable [Crypto]

theorem Bounded.produceOutput (h : Bounded count st) {tx : Transaction} {output : TxOutput × Nat} (hfits : output.1.Fits)
    (hok : UtxoStore.produceOutput entries tx.id st output = .ok st') : Bounded count st' := by
  obtain ⟨-, -, -, rfl⟩ := UtxoStore.produceOutput_eq_ok.mp hok
  refine ⟨h.spent, fun outpoint found hstaged => ?_⟩
  rw [getElem?_insert] at hstaged
  split at hstaged
  · cases hstaged
    exact hfits
  · exact h.staged outpoint found hstaged

theorem Bounded.stageTransaction (h : Bounded count st) {height : Height} {tx : Transaction × Nat} (hfits : tx.1.Fits)
    (hok : UtxoStore.stageTransaction entries height st tx = .ok st') : Bounded (count + tx.1.inputs.length) st' := by
  obtain ⟨st₁, hinputs, hok⟩ := bind_eq_ok.mp hok
  obtain ⟨st₂, houtputs, hok⟩ := bind_eq_ok.mp hok
  have hstaged : Bounded (count + tx.1.inputs.length) st₂ := by
    refine foldlM_invariant (Bounded _) (fun t output t' hmem ht hstep => ?_) (h.consumeInputs hinputs) houtputs
    exact ht.produceOutput (hfits.output output.1 (List.fst_mem_of_mem_zipIdx hmem)) hstep
  split at hok
  · obtain ⟨outpoints, _, hok⟩ := bind_eq_ok.mp hok
    rw [pure_eq_ok] at hok
    exact hok ▸ ⟨hstaged.spent, hstaged.staged⟩
  · rw [pure_eq_ok] at hok
    exact hok ▸ hstaged

theorem Bounded.stageTransactions {height : Height} {txs : List (Transaction × Nat)} (h : Bounded count st)
    (hfits : ∀ tx ∈ txs, tx.1.Fits) (hok : txs.foldlM (UtxoStore.stageTransaction entries height) st = .ok st') :
    Bounded (count + (txs.flatMap fun tx => tx.1.inputs).length) st' := by
  induction txs generalizing st count with
  | nil =>
      rw [List.foldlM_nil, pure_eq_ok] at hok
      exact hok ▸ h
  | cons tx txs ih =>
      obtain ⟨t, ht, hrest⟩ := foldlM_cons_eq_ok.mp hok
      rw [List.forall_mem_cons] at hfits
      have hstep := ih (h.stageTransaction hfits.1 ht) hfits.2 hrest
      rwa [List.flatMap_cons, List.length_append, ← Nat.add_assoc]

private theorem Bounded.of_stageBlock {block : Block} (hfits : block.Fits) (hok : UtxoStore.stageBlock entries block = .ok st) :
    Bounded (block.transactions.flatMap Transaction.inputs).length st := by
  have hempty : Bounded 0 Staging.empty := ⟨Nat.le_refl 0, by simp [Staging.empty]⟩
  have htxs : ∀ tx ∈ block.transactions.zipIdx, tx.1.Fits :=
    fun tx hmem => hfits.transaction tx.1 (List.fst_mem_of_mem_zipIdx hmem)
  have hstaged := hempty.stageTransactions htxs hok
  have hinputs : (block.transactions.zipIdx.flatMap fun tx => tx.1.inputs) =
      block.transactions.flatMap Transaction.inputs := by
    rw [← List.flatMap_map, List.zipIdx_map_fst]
  rwa [hinputs, Nat.zero_add] at hstaged

end Bounds

/-! ### Applying a block -/

section Apply

/-- The deletions of spent entries and of their creation heights, interleaved as the loop makes them. -/
def deleteWrites (s : UtxoStore) (spent : List (OutPoint × TxOutput)) : List Write :=
  spent.flatMap fun entry =>
    .deleteEntry entry.1 :: (if (s.coinbaseHeight entry.1).isSome then [.deleteHeight entry.1] else [])

private theorem fits_of_mem_deleteWrites {spent : List (OutPoint × TxOutput)} {w : Write} (h : w ∈ deleteWrites s spent) :
    w.Fits := by
  obtain ⟨entry, _, hw⟩ := List.mem_flatMap.mp h
  rcases List.mem_cons.mp hw with rfl | hw
  · trivial
  · split at hw
    · cases List.mem_singleton.mp hw
      trivial
    · cases hw

def keptHeights (s : UtxoStore) (spent : List (OutPoint × TxOutput)) : List (OutPoint × UInt64) :=
  spent.filterMap fun entry => (s.coinbaseHeight entry.1).map fun height => (entry.1, height)

private theorem Represents.deleteSpent_fold (h : Represents kv s) (spent : List (OutPoint × TxOutput))
    (acc : List BatchOp × List (OutPoint × UInt64)) :
    spent.foldlM (deleteSpent kv) acc =
      .ok (acc.1 ++ (deleteWrites s spent).map Write.op, acc.2 ++ keptHeights s spent) := by
  induction spent generalizing acc with
  | nil => simp [deleteWrites, keptHeights, pure, Except.pure]
  | cons entry spent ih =>
      rw [List.foldlM_cons]
      cases hget : kv.get (keyCoinbaseHeight entry.1) with
      | none =>
          have hheight : s.coinbaseHeight entry.1 = none := h.heights.eq_none_iff.mp hget
          have hstep : deleteSpent kv acc entry = .ok (acc.1 ++ [.delete (keyOutpoint entry.1)], acc.2) := by
            simp [deleteSpent, hget, pure, Except.pure]
          rw [hstep, ok_bind, ih]
          simp [deleteWrites, keptHeights, hheight, Write.op]
      | some bytes =>
          obtain ⟨height, hheight, hdecode⟩ := decode_of_holds h.heights hget
          replace hheight : s.coinbaseHeight entry.1 = some height := hheight
          have hstep : deleteSpent kv acc entry =
              .ok (acc.1 ++ [.delete (keyOutpoint entry.1)] ++ [.delete (keyCoinbaseHeight entry.1)],
                acc.2 ++ [(entry.1, height)]) := by
            simp [deleteSpent, hget, hdecode, pure, Except.pure]
          rw [hstep, ok_bind, ih]
          simp [deleteWrites, keptHeights, hheight, Write.op]

private theorem run_deleteWrites (spent : List (OutPoint × TxOutput)) (t : UtxoStore) :
    (deleteWrites s spent).foldl Write.run t =
      { t with
        entries := eraseAll t.entries (spent.map Prod.fst)
        coinbaseHeights := eraseAll t.coinbaseHeights ((keptHeights s spent).map Prod.fst) } := by
  induction spent generalizing t with
  | nil => rfl
  | cons entry spent ih =>
      rw [deleteWrites, List.flatMap_cons, List.foldl_append, ← deleteWrites, ih]
      cases hheight : s.coinbaseHeight entry.1 <;> simp [keptHeights, hheight, Write.run]

theorem run_putEntries (kvs : List (OutPoint × TxOutput)) (t : UtxoStore) :
    (kvs.map Write.putEntry).foldl Write.run t = { t with entries := insertAll t.entries kvs } := by
  induction kvs generalizing t with
  | nil => rfl
  | cons entry kvs ih => rw [List.map_cons, List.foldl_cons, ih]; rfl

theorem run_putHeights (kvs : List (OutPoint × UInt64)) (t : UtxoStore) :
    (kvs.map Write.putHeight).foldl Write.run t = { t with coinbaseHeights := insertAll t.coinbaseHeights kvs } := by
  induction kvs generalizing t with
  | nil => rfl
  | cons entry kvs ih => rw [List.map_cons, List.foldl_cons, ih]; rfl

variable [Crypto]

/-- The whole batch of an accepted block. -/
def blockWrites (s : UtxoStore) (block : Block) (st : Staging) : List Write :=
  deleteWrites s st.spent ++ st.stagedNew.toList.map .putEntry ++
    ((st.coinbaseOutpoints.filter fun outpoint => decide (outpoint ∈ st.stagedNew)).map
      fun outpoint => (outpoint, block.header.height)).map .putHeight ++
    [.putUndo block.hash ⟨st.spent, keptHeights s st.spent⟩]

private theorem run_blockWrites (block : Block) (st : Staging) :
    (blockWrites s block st).foldl Write.run s = s.writeBlock block st := by
  simp only [blockWrites, List.foldl_append, run_deleteWrites, run_putEntries, run_putHeights]
  rfl

/-- **Applying a block on bytes** fails as on the tables, or leaves bytes that hold the new tables. -/
theorem Represents.sim_applyBlock (h : Represents kv s) {block : Block} (hfits : block.Fits) :
    Sim KvError.storage (Written kv) (s.applyBlock block) (applyBlock kv block) := by
  have hstructure : Sim KvError.storage Eq (block.validateStructure.mapError StorageError.block)
      (block.validateStructure.mapError fun e => .storage (.block e)) := by
    cases block.validateStructure <;> rfl
  refine hstructure.bind fun _ _ _ _ => ?_
  refine (h.sim_stageBlock block).bind fun st _ hst heq => ?_
  subst heq
  have hbounded := Bounded.of_stageBlock hfits hst
  obtain ⟨gone, htracks⟩ := (UtxoStore.BlockStaged.of_ok hst).tracks
  have hspent : ∀ entry ∈ st.spent, entry.2.Fits := fun entry hmem => h.fits (htracks.spent_entry entry hmem)
  have hlen : st.spent.length < 2 ^ 64 := hbounded.spent.trans_lt hfits.inputs
  have hkept : (keptHeights s st.spent).length < 2 ^ 64 := (List.length_filterMap_le _ _).trans_lt hlen
  rw [h.deleteSpent_fold, ok_bind]
  have hwritten : Written kv ((blockWrites s block st).foldl Write.run s)
      (kv.writeBatch ((blockWrites s block st).map Write.op)) := by
    refine h.written _ fun w hw => ?_
    simp only [blockWrites, List.mem_append, List.mem_map, List.mem_singleton] at hw
    rcases hw with ((hdelete | ⟨entry, hentry, rfl⟩) | ⟨height, -, rfl⟩) | rfl
    · exact fits_of_mem_deleteWrites hdelete
    · exact hbounded.staged entry.1 entry.2 (Std.ExtTreeMap.mem_toList_iff_getElem?_eq_some.mp hentry)
    · trivial
    · exact ⟨hspent, hlen, hkept⟩
  rw [run_blockWrites] at hwritten
  simpa [blockWrites, Write.op, Function.comp_def] using hwritten

end Apply

/-! ### Reverting a block -/

section Revert

def Deleted (s t : UtxoStore) (batch : List BatchOp) : Prop :=
  ∃ ws : List Write, (∀ w ∈ ws, w.Fits) ∧ batch = ws.map Write.op ∧ t = ws.foldl Write.run s

theorem Deleted.append {t : UtxoStore} {batch : List BatchOp} (h : Deleted s t batch) (ws : List Write)
    (hws : ∀ w ∈ ws, w.Fits) : Deleted s (ws.foldl Write.run t) (batch ++ ws.map Write.op) := by
  obtain ⟨done, hdone, rfl, rfl⟩ := h
  refine ⟨done ++ ws, ?_, ?_, ?_⟩
  · intro w hw
    exact (List.mem_append.mp hw).elim (hdone w) (hws w)
  · rw [List.map_append]
  · rw [List.foldl_append]

private theorem sim_deleteOutput {t : UtxoStore} {batch : List BatchOp} (h : Deleted s t batch) (txId : TxId)
    (isCoinbase : Bool)
    (output : TxOutput × Nat) :
    Sim KvError.storage (Deleted s) (UtxoStore.deleteOutput txId isCoinbase t output)
      (deleteOutput txId isCoinbase batch output) := by
  refine (sim_okOr _ _).bind fun outpoint _ _ heq => ?_
  subst heq
  cases isCoinbase with
  | false => exact h.append [.deleteEntry outpoint] (by simp [Write.Fits])
  | true =>
      have hboth := h.append [.deleteEntry outpoint, .deleteHeight outpoint] (by simp [Write.Fits])
      rw [sim_pure]
      simpa [Write.op, Write.run] using hboth

variable [Crypto]

/-- The writes of a revert after the deletions. -/
def revertWrites (block : Block) (undo : UndoLog) : List Write :=
  undo.spent.map .putEntry ++ undo.spentCoinbaseHeights.map .putHeight ++ [.deleteUndo block.hash]

private theorem fits_of_mem_revertWrites {block : Block} {undo : UndoLog} (hspent : ∀ entry ∈ undo.spent, entry.2.Fits) :
    ∀ w ∈ revertWrites block undo, w.Fits := by
  intro w hw
  simp only [revertWrites, List.mem_append, List.mem_map, List.mem_singleton] at hw
  rcases hw with (⟨entry, hentry, rfl⟩ | ⟨entry, -, rfl⟩) | rfl
  · exact hspent entry hentry
  · trivial
  · trivial

private theorem run_revertWrites (t : UtxoStore) (block : Block) (undo : UndoLog) :
    (revertWrites block undo).foldl Write.run t =
      { t with
        entries := insertAll t.entries undo.spent
        coinbaseHeights := insertAll t.coinbaseHeights undo.spentCoinbaseHeights
        undo := t.undo.erase block.hash } := by
  simp only [revertWrites, List.foldl_append, run_putEntries, run_putHeights]
  rfl

/-- **Reverting a block on bytes** fails as on the tables, or leaves bytes that hold the new tables. -/
theorem Represents.sim_revertBlock (h : Represents kv s) (block : Block) :
    Sim KvError.storage (Written kv) (s.revertBlock block) (revertBlock kv block) := by
  unfold UtxoStore.revertBlock revertBlock
  cases hget : kv.get (keyUndo block.hash) with
  | none =>
      have hundo : s.undo[block.hash]? = none := h.undo.eq_none_iff.mp hget
      rw [hundo]
      rfl
  | some bytes =>
      obtain ⟨undo, hundo, hdecode⟩ := decode_of_holds h.undo hget
      rw [hundo, okOr_some, okOr_some, ok_bind, ok_bind, hdecode, ok_bind]
      have hempty : Deleted s s [] := ⟨[], by simp, rfl, rfl⟩
      refine (Sim.foldlM (fun tx _ t batch ht => ?_) hempty).bind fun t batch _ ht => ?_
      · exact Sim.foldlM (fun output _ t batch ht => sim_deleteOutput ht _ _ output) ht
      have hspent : ∀ entry ∈ undo.spent, entry.2.Fits := by
        obtain ⟨⟨undo', rest⟩, hread, heq⟩ := Option.map_eq_some_iff.mp (okOr_eq_ok.mp hdecode)
        cases heq
        exact UndoLog.fits_of_decode hread
      obtain ⟨ws, hws, hbatch, ht'⟩ := ht.append _ (@fits_of_mem_revertWrites _ block _ hspent)
      have hwritten := h.written _ hws
      rw [← hbatch, ← ht', run_revertWrites] at hwritten
      simpa [revertWrites, Write.op, Function.comp_def] using hwritten

end Revert

/-! ### Single entries -/

section Entries

theorem Represents.sim_insert (h : Represents kv s) (outpoint : OutPoint) {output : TxOutput} (hfits : output.Fits) :
    Sim KvError.storage (Written kv) (s.insertEntry outpoint output) (insert kv outpoint output) := by
  have hfree : outpoint ∉ s.entries ↔ kv.get (keyOutpoint outpoint) = none := by
    rw [notMem_iff]
    exact h.entries.eq_none_iff.symm
  refine (sim_require hfree rfl).bind fun _ _ _ _ => ?_
  exact h.written [.putEntry (outpoint, output)] (by simpa [Write.Fits] using hfits)

theorem Represents.remove_eq (h : Represents kv s) (outpoint : OutPoint) :
    (remove kv outpoint).2 = .ok (s.removeEntry outpoint).2 ∧
      Written kv (s.removeEntry outpoint).1 (remove kv outpoint).1 := by
  unfold remove
  cases hget : kv.get (keyOutpoint outpoint) with
  | none =>
      have hentry : s.entries[outpoint]? = none := h.entries.eq_none_iff.mp hget
      have herase : (s.removeEntry outpoint).1 = s := by
        ext1
        · refine Std.ExtTreeMap.ext_getElem? fun a => ?_
          rw [UtxoStore.removeEntry, getElem?_erase]
          split
          · rename_i heq
            rw [← heq, hentry]
          · rfl
        · rfl
        · rfl
        · rfl
      rw [herase]
      exact ⟨congrArg _ hentry.symm, h.written [] (by simp)⟩
  | some bytes =>
      obtain ⟨output, hentry, hdecode⟩ := decode_of_holds h.entries hget
      refine ⟨?_, h.written [.deleteEntry outpoint] (by simp [Write.Fits])⟩
      change (some <$> KvStore.decode TxOutput.decode bytes) = _
      rw [hdecode]
      exact congrArg _ hentry.symm

end Entries

/-! ### Snapshots -/

section Snapshots

theorem Represents.sim_createSnapshot (h : Represents kv s) (hroom : s.len < 2 ^ 64) (id : Bytes) :
    Sim KvError.storage (Written kv) (s.createSnapshot id) (createSnapshot kv id) := by
  have hfree : id ∉ s.snapshots ↔ kv.get (keySnapshot id) = none := by
    rw [notMem_iff]
    exact h.snapshots.eq_none_iff.symm
  refine (sim_require Iff.rfl rfl).bind fun _ _ _ _ => (sim_require hfree rfl).bind fun _ _ _ _ => ?_
  obtain ⟨found, hfound, hperm, -⟩ := h.exists_entries
  have hfits : ∀ entry ∈ found, entry.2.Fits := fun entry hmem =>
    h.fits (Std.ExtTreeMap.mem_toList_iff_getElem?_eq_some.mp (hperm.mem_iff.mp hmem))
  have hlen : found.length < 2 ^ 64 := by rwa [hperm.length_eq, Std.ExtTreeMap.length_toList]
  have hsorted : (insertAll (∅ : UtxoMap) found).toList = s.entries.toList := by
    rw [insertAll_perm ((hperm.map Prod.fst).nodup_iff.mpr (nodup_keys_toList s.entries)) hperm, insertAll_toList]
  have hwritten := h.written [.putSnapshot id found] (List.forall_mem_singleton.mpr ⟨hfits, hlen⟩)
  rw [List.foldl_cons, List.foldl_nil, Write.run, hsorted] at hwritten
  rw [hfound]
  exact hwritten

/-- The writes of a restore: the entries found in a scan go, the kept ones come. -/
def restoreWrites (found kept : List (OutPoint × TxOutput)) : List Write :=
  found.map (fun entry => .deleteEntry entry.1) ++ kept.map .putEntry

private theorem fits_of_mem_restoreWrites {found kept : List (OutPoint × TxOutput)} (hkept : ∀ entry ∈ kept, entry.2.Fits) :
    ∀ w ∈ restoreWrites found kept, w.Fits := by
  intro w hw
  simp only [restoreWrites, List.mem_append, List.mem_map] at hw
  rcases hw with ⟨entry, -, rfl⟩ | ⟨entry, hentry, rfl⟩
  · trivial
  · exact hkept entry hentry

private theorem run_deleteEntries (found : List (OutPoint × TxOutput)) (t : UtxoStore) :
    (found.map fun entry => Write.deleteEntry entry.1).foldl Write.run t =
      { t with entries := eraseAll t.entries (found.map Prod.fst) } := by
  induction found generalizing t with
  | nil => rfl
  | cons entry found ih => rw [List.map_cons, List.foldl_cons, ih]; rfl

private theorem run_restoreWrites {found kept : List (OutPoint × TxOutput)} (hperm : found.Perm s.entries.toList) :
    (restoreWrites found kept).foldl Write.run s =
      { s with entries := insertAll (eraseAll s.entries s.entries.keys) kept } := by
  have herase : eraseAll s.entries (found.map Prod.fst) = eraseAll s.entries s.entries.keys := by
    refine Std.ExtTreeMap.ext_getElem? fun a => ?_
    have hmem : a ∈ found.map Prod.fst ↔ a ∈ s.entries.keys := by
      rw [(hperm.map Prod.fst).mem_iff, Std.ExtTreeMap.map_fst_toList_eq_keys]
    rw [getElem?_eraseAll, getElem?_eraseAll]
    simp only [hmem]
  rw [restoreWrites, List.foldl_append, run_deleteEntries, run_putEntries, herase]

theorem Represents.sim_restoreSnapshot (h : Represents kv s) (id : Bytes) :
    Sim KvError.storage (Written kv) (s.restoreSnapshot id) (restoreSnapshot kv id) := by
  refine (sim_require Iff.rfl rfl).bind fun _ _ _ _ => ?_
  cases hget : kv.get (keySnapshot id) with
  | none =>
      have hnone : s.snapshots[id]? = none := h.snapshots.eq_none_iff.mp hget
      rw [hnone]
      rfl
  | some bytes =>
      have hview : snapshotTable.view bytes = s.snapshots[id]? := h.snapshots.view_eq hget
      have hsome : s.snapshots[id]? ≠ none := by
        rw [ne_eq, ← h.snapshots.eq_none_iff]
        exact fun hnone => Option.some_ne_none _ (hget.symm.trans hnone)
      obtain ⟨snapshot, hsnapshot⟩ := Option.ne_none_iff_exists'.mp hsome
      rw [hsnapshot] at hview ⊢
      obtain ⟨⟨kept, rest⟩, hread, hkept⟩ := Option.map_eq_some_iff.mp hview
      have hdecode : KvStore.decode (Decode.seq UndoLog.decodeEntry) bytes = .ok kept := by
        rw [KvStore.decode, hread]
        rfl
      obtain ⟨found, -, hperm, hkeys⟩ := h.exists_entries
      rw [okOr_some, okOr_some, ok_bind, ok_bind, hdecode, ok_bind]
      have hfits : ∀ w ∈ restoreWrites found kept, w.Fits :=
        fits_of_mem_restoreWrites (UndoLog.fits_of_decodeEntries hread)
      have hwritten := h.written _ hfits
      have hsorted : (insertAll (∅ : UtxoMap) kept).toList = snapshot := hkept
      rw [run_restoreWrites hperm, ← insertAll_insertAll_toList, hsorted] at hwritten
      have hscan := congrArg (List.map BatchOp.delete) hkeys
      simp only [List.map_map, Function.comp_def] at hscan
      simpa [restoreWrites, Write.op, Function.comp_def, hscan] using hwritten

end Snapshots

end KvUtxoStore

end QuantumVault
