import QuantumVault.Node.Validation
import QuantumVault.Proof.Ledger.Undo

/-!
# Restoring a snapshot

A snapshot keeps the entries and no creation heights. A restore therefore gives the heights back only as far as the calls since the snapshot have left them alone, and what a call does to them can be read off its block: an applied block writes a height for the outputs of its coinbase and deletes those of what it spends, a reverted one the other way round.
-/

namespace QuantumVault

open Result TreeMap Ledger

variable [Crypto]

/-- The outpoints a block spends, its own outputs included. -/
def Block.spends (block : Block) : List OutPoint := block.transactions.flatMap Transaction.spends

/-- What an applied block says about the creation height of an outpoint: its own height for an output of its coinbase that it leaves unspent, none for what it takes out of the ledger, and nothing otherwise. -/
def Block.heightWord (block : Block) (op : OutPoint) : Option (Option UInt64) :=
  if op ∈ block.coinbaseOutpoints ∧ op ∉ block.spends then some (some block.header.height)
  else if op ∈ block.spends ∧ op ∉ block.created then some none
  else none

/-- The creation height that an undo log keeps for an outpoint. -/
def UndoLog.heightOf (log : UndoLog) (op : OutPoint) : Option UInt64 :=
  (insertAll (∅ : Std.ExtTreeMap OutPoint UInt64) log.spentCoinbaseHeights)[op]?

/-- What a reverted block says: the height that its log keeps, or none for an output of its coinbase. -/
def Block.revertWord (block : Block) (log : UndoLog) (op : OutPoint) : Option (Option UInt64) :=
  match log.heightOf op with
  | some height => some (some height)
  | none => if op ∈ block.coinbaseOutpoints then some none else none

namespace UtxoStore

variable {s s' t : UtxoStore} {block : Block} {blocks : List Block} {op : OutPoint}

/-! ### Calls -/

inductive BlockCall where
  | apply (block : Block)
  | revert (block : Block)

def afterCall (s : UtxoStore) : BlockCall → UtxoStore
  | .apply block => (s.applyBlock block).toOption.getD s
  | .revert block => (s.revertBlock block).toOption.getD s

def afterCalls (s : UtxoStore) (calls : List BlockCall) : UtxoStore := calls.foldl afterCall s

/-- What a call says about a creation height. A refused call says nothing. -/
def callWord (s : UtxoStore) (op : OutPoint) : BlockCall → Option (Option UInt64)
  | .apply block => if (s.applyBlock block).isOk then block.heightWord op else none
  | .revert block =>
      if (s.revertBlock block).isOk then s.undo[block.hash]?.bind fun log => block.revertWord log op else none

/-- The last thing that is said about a creation height in a run of calls. -/
def lastWord (s : UtxoStore) (op : OutPoint) : List BlockCall → Option (Option UInt64)
  | [] => none
  | call :: calls => ((s.afterCall call).lastWord op calls).or (s.callWord op call)

/-! ### The words are what happens -/

omit [Crypto] in
private theorem mem_blockSpends : op ∈ block.spends ↔ ∃ tx ∈ block.transactions, op ∈ tx.spends := List.mem_flatMap

theorem Applied.mem_entries (h : Applied s block s') :
    op ∈ s'.entries ↔ (op ∈ s.entries ∨ op ∈ block.created) ∧ op ∉ block.spends := by
  rw [h.entries_eq, Block.advance, h.valid.mem_advanceAll, mem_blockSpends]
  simp only [not_exists, not_and]
  exact Iff.rfl

theorem Applied.coinbaseHeight_word (h : Applied s block s') :
    s'.coinbaseHeights[op]? = (block.heightWord op).getD s.coinbaseHeights[op]? := by
  have hcreated : op ∈ block.created → op ∉ s.entries := h.valid.notMem_of_created fun _ hk => Or.inl hk
  have hspent : op ∈ block.spends → op ∈ s.entries ∨ op ∈ block.created := by
    intro hop
    obtain ⟨tx, htx, hop⟩ := mem_blockSpends.mp hop
    exact h.valid.mem_of_spends htx hop
  have hcoinbase : op ∈ block.coinbaseOutpoints → op ∈ block.created := mem_created_of_coinbase
  have hlive : op ∈ block.coinbaseOutpoints ∧ op ∈ s'.entries ↔ op ∈ block.coinbaseOutpoints ∧ op ∉ block.spends := by
    rw [h.mem_entries]
    tauto
  have hgone : op ∈ s.entries ∧ op ∉ s'.entries ↔ op ∈ block.spends ∧ op ∉ block.created := by
    rw [h.mem_entries]
    tauto
  rw [h.coinbaseHeight_eq, Block.heightWord]
  simp only [hlive, hgone]
  split
  · rfl
  · split <;> rfl

private theorem fits_of_deleteOutput {tx : Transaction} {isCoinbase : Bool} {outputs : List (TxOutput × Nat)}
    (hok : outputs.foldlM (deleteOutput tx.id isCoinbase) s = .ok s') : ∀ output ∈ outputs, output.2 < 2 ^ 32 := by
  induction outputs generalizing s with
  | nil => simp
  | cons output outputs ih =>
      obtain ⟨mid, hfirst, hrest⟩ := foldlM_cons_eq_ok.mp hok
      obtain ⟨op, hop, -⟩ := okOr_bind_eq_ok.mp hfirst
      exact List.forall_mem_cons.mpr ⟨(Transaction.ofPosition_eq_some.mp hop).1, ih hrest⟩

private theorem fits_of_deleteOutputs {height : Height} {txs : List (Transaction × Nat)}
    (hok : txs.foldlM (deleteOutputs height) s = .ok s') : ∀ tx ∈ txs, tx.1.IndexFits := by
  induction txs generalizing s with
  | nil => simp
  | cons tx txs ih =>
      obtain ⟨mid, hfirst, hrest⟩ := foldlM_cons_eq_ok.mp hok
      exact List.forall_mem_cons.mpr ⟨Transaction.indexFits_iff.mpr (fits_of_deleteOutput hfirst), ih hrest⟩

private theorem coinbaseHeight_revert (op : OutPoint) (hok : s.revertBlock block = .ok s') :
    ∃ log, s.undo[block.hash]? = some log ∧
      s'.coinbaseHeights[op]? = (block.revertWord log op).getD s.coinbaseHeights[op]? := by
  obtain ⟨log, hlog, hok⟩ := okOr_bind_eq_ok.mp hok
  obtain ⟨mid, hmid, hok⟩ := bind_eq_ok.mp hok
  rw [deleteOutputs_fold (fits_of_deleteOutputs hmid), Except.ok.injEq] at hmid
  cases pure_eq_ok.mp hok
  refine ⟨log, hlog, ?_⟩
  change (insertAll mid.coinbaseHeights log.spentCoinbaseHeights)[op]? = _
  have hdeleted : mid.coinbaseHeights[op]? = if op ∈ block.coinbaseOutpoints then none else s.coinbaseHeights[op]? := by
    rw [← hmid]
    exact getElem?_eraseAll
  rw [getElem?_insertAll_eq_or, hdeleted, Block.revertWord]
  change (log.heightOf op).or _ = _
  cases log.heightOf op with
  | some height => rfl
  | none =>
      rw [Option.none_or]
      dsimp only
      split <;> rfl

/-- **Step lemma.** The last word about a creation height is the creation height. -/
theorem coinbaseHeight_afterCall (s : UtxoStore) (op : OutPoint) (call : BlockCall) :
    (s.afterCall call).coinbaseHeights[op]? = (s.callWord op call).getD s.coinbaseHeights[op]? := by
  cases call with
  | apply block =>
      rw [afterCall, callWord]
      cases hok : s.applyBlock block with
      | error e => rfl
      | ok s' => exact (Applied.of_ok hok).coinbaseHeight_word
  | revert block =>
      rw [afterCall, callWord]
      cases hok : s.revertBlock block with
      | error e => rfl
      | ok s' =>
          obtain ⟨log, hlog, hheight⟩ := coinbaseHeight_revert op hok
          rw [hlog]
          exact hheight

/-- **Run lemma.** -/
theorem coinbaseHeight_afterCalls (s : UtxoStore) (op : OutPoint) (calls : List BlockCall) :
    (s.afterCalls calls).coinbaseHeights[op]? = (s.lastWord op calls).getD s.coinbaseHeights[op]? := by
  induction calls generalizing s with
  | nil => rfl
  | cons call calls ih =>
      rw [afterCalls, List.foldl_cons, lastWord]
      refine (ih (s.afterCall call)).trans ?_
      rw [coinbaseHeight_afterCall]
      cases (s.afterCall call).lastWord op calls <;> rfl

/-! ### Taking blocks back in order -/

/-- A run of calls that takes back only blocks it has applied itself, the last one first, with the blocks that are still applied after it, the last one first. -/
inductive Orderly (s : UtxoStore) : List BlockCall → List Block → Prop where
  | nil : Orderly s [] []
  | apply {calls : List BlockCall} {blocks : List Block} {block : Block} (h : Orderly s calls blocks)
      (hok : ((s.afterCalls calls).applyBlock block).isOk = true) (hnew : block.hash ∉ (s.afterCalls calls).undo) :
      Orderly s (calls ++ [.apply block]) (block :: blocks)
  | revert {calls : List BlockCall} {blocks : List Block} {block : Block} (h : Orderly s calls (block :: blocks)) :
      Orderly s (calls ++ [.revert block]) blocks
  | refused {calls : List BlockCall} {blocks : List Block} {call : BlockCall} (h : Orderly s calls blocks)
      (hsame : (s.afterCalls calls).afterCall call = s.afterCalls calls) : Orderly s (calls ++ [call]) blocks

/-- A store on which new blocks have been applied, the last one first. -/
inductive Layered (s : UtxoStore) : List Block → UtxoStore → Prop where
  | base : Layered s [] s
  | layer {blocks : List Block} {t t' : UtxoStore} {block : Block} (h : Layered s blocks t)
      (hok : t.applyBlock block = .ok t') (hnew : block.hash ∉ t.undo) : Layered s (block :: blocks) t'

theorem Layered.tidy (h : Layered s blocks t) (htidy : s.Tidy) : t.Tidy := by
  induction h with
  | base => exact htidy
  | layer _ hok _ ih => exact (Applied.of_ok hok).tidy ih

theorem Layered.coinbaseHeight_eq (h : Layered s blocks t) :
    t.coinbaseHeights[op]? = (blocks.findSome? fun block => block.heightWord op).getD s.coinbaseHeights[op]? := by
  induction h with
  | base => rfl
  | @layer blocks t t' block _ hok _ ih =>
      rw [(Applied.of_ok hok).coinbaseHeight_word, ih, List.findSome?_cons]
      cases block.heightWord op <;> rfl

omit [Crypto] in
private theorem afterCalls_concat [Crypto] (calls : List BlockCall) (call : BlockCall) :
    s.afterCalls (calls ++ [call]) = (s.afterCalls calls).afterCall call := List.foldl_concat ..

private theorem Orderly.layered {calls : List BlockCall} (h : s.Orderly calls blocks) (htidy : s.Tidy) :
    Layered s blocks (s.afterCalls calls) := by
  induction h with
  | nil => exact .base
  | @apply calls blocks block _ hok hnew ih =>
      rw [afterCalls_concat]
      obtain ⟨t, ht⟩ := isOk_iff.mp hok
      rw [afterCall, ht]
      exact .layer ih ht hnew
  | @revert calls blocks block _ ih =>
      rw [afterCalls_concat]
      generalize s.afterCalls calls = t at ih
      cases ih with
      | @layer _ mid _ _ hmid hok hnew =>
          have hstale : ∀ op ∈ block.coinbaseOutpoints, op ∈ mid.coinbaseHeights → op ∈ mid.entries :=
            fun op _ => hmid.tidy htidy op
          rw [afterCall, revert_applied_eq hok hnew hstale]
          exact hmid
  | refused _ hsame ih =>
      rw [afterCalls_concat, hsame]
      exact ih

/-! ### What a restore gives back -/

private theorem revertBlock_snapshots (hok : s.revertBlock block = .ok s') : s'.snapshots = s.snapshots := by
  obtain ⟨undo, -, hok⟩ := okOr_bind_eq_ok.mp hok
  obtain ⟨mid, hmid, hok⟩ := bind_eq_ok.mp hok
  rw [deleteOutputs_fold (fits_of_deleteOutputs hmid), Except.ok.injEq] at hmid
  cases pure_eq_ok.mp hok
  change mid.snapshots = s.snapshots
  rw [← hmid]

private theorem afterCalls_snapshots (calls : List BlockCall) : (s.afterCalls calls).snapshots = s.snapshots := by
  induction calls generalizing s with
  | nil => rfl
  | cons call calls ih =>
      rw [afterCalls, List.foldl_cons]
      refine (ih (s := s.afterCall call)).trans ?_
      cases call with
      | apply block =>
          rw [afterCall]
          cases hok : s.applyBlock block with
          | error e => rfl
          | ok s' => exact (Applied.of_ok hok).snapshots_eq
      | revert block =>
          rw [afterCall]
          cases hok : s.revertBlock block with
          | error e => rfl
          | ok s' => exact revertBlock_snapshots hok

omit [Crypto] in
private theorem restoreSnapshot_eq_ok {id : Bytes} (entries : UtxoMap) (hid : id ≠ [])
    (hkept : s.snapshots[id]? = some entries.toList) : s.restoreSnapshot id = .ok { s with entries := entries } := by
  have hentries : insertAll (eraseAll s.entries s.entries.keys) entries.toList = entries := by
    refine Std.ExtTreeMap.ext_getElem? fun op => ?_
    have hcleared : (eraseAll s.entries s.entries.keys)[op]? = none := by
      rw [getElem?_eraseAll]
      split
      · rfl
      · rename_i hnot
        exact notMem_iff.mp fun hmem => hnot (Std.ExtTreeMap.mem_keys.mpr hmem)
    rw [getElem?_insertAll_toList, hcleared, Option.or_none]
  rw [restoreSnapshot, require_bind_eq_ok]
  refine ⟨hid, ?_⟩
  rw [hkept, okOr_some, ok_bind, hentries]
  rfl

/-- The entries and the creation heights of a store are those of another one, and so are the spends that are mature. -/
structure Preserves (s r : UtxoStore) : Prop where
  entries_eq : r.entries = s.entries
  coinbaseHeight_eq : ∀ op, r.coinbaseHeight op = s.coinbaseHeight op
  mature_eq : ∀ tx height maturity, checkCoinbaseMaturity tx r height maturity = checkCoinbaseMaturity tx s height maturity

omit [Crypto] in
theorem preserves_iff {r : UtxoStore} (hentries : r.entries = s.entries) :
    Preserves s r ↔ ∀ op : OutPoint, r.coinbaseHeights[op]? = s.coinbaseHeights[op]? := by
  constructor
  · intro h
    exact h.coinbaseHeight_eq
  · intro h
    refine ⟨hentries, h, fun tx height maturity => ?_⟩
    unfold checkCoinbaseMaturity checkMature coinbaseHeight
    simp only [h]

omit [Crypto] in
private theorem getD_eq_iff {word : Option (Option UInt64)} {old : Option UInt64} :
    word.getD old = old ↔ ∀ height, word = some height → height = old := by
  cases word with
  | none => simp
  | some height => simp

/-- **What a restored snapshot gives back.** Whatever blocks were applied and reverted since, the restore succeeds and brings the entries back; creation heights, and with them the maturity of every transaction, are those of the snapshot exactly when the last word about each of them is the one of the snapshot. If the blocks were taken back in order, from a store without stale heights, only the blocks that are still applied count. -/
theorem snapshot_preserves_iff {id : Bytes} (hsnapshot : s.createSnapshot id = .ok s') (calls : List BlockCall) :
    ∃ r, (s'.afterCalls calls).restoreSnapshot id = .ok r ∧
      (Preserves s r ↔ ∀ op height, s'.lastWord op calls = some height → height = s.coinbaseHeight op) ∧
      ∀ blocks, s.Tidy → s'.Orderly calls blocks →
        (Preserves s r ↔
          ∀ op height, (blocks.findSome? fun block => block.heightWord op) = some height → height = s.coinbaseHeight op) := by
  obtain ⟨hid, hsnapshot⟩ := require_bind_eq_ok.mp hsnapshot
  obtain ⟨-, hsnapshot⟩ := require_bind_eq_ok.mp hsnapshot
  have heq := (pure_eq_ok.mp hsnapshot).symm
  have hheights : s'.coinbaseHeights = s.coinbaseHeights := by rw [heq]
  have htidy' : s.Tidy → s'.Tidy := by
    rw [heq]
    exact fun htidy => htidy
  have hkept : (s'.afterCalls calls).snapshots[id]? = some s.entries.toList := by
    rw [afterCalls_snapshots, heq]
    exact Std.ExtTreeMap.getElem?_insert_self
  have hback : ({ s'.afterCalls calls with entries := s.entries } : UtxoStore).entries = s.entries := rfl
  refine ⟨_, restoreSnapshot_eq_ok s.entries hid hkept, ?_, ?_⟩
  · refine (preserves_iff hback).trans (forall_congr' fun op => ?_)
    dsimp only
    rw [coinbaseHeight_afterCalls, hheights]
    exact getD_eq_iff
  · intro blocks htidy horderly
    refine (preserves_iff hback).trans (forall_congr' fun op => ?_)
    dsimp only
    rw [(horderly.layered (htidy' htidy)).coinbaseHeight_eq, hheights]
    exact getD_eq_iff

/-- The store with the reward of the first block and a snapshot of it. -/
def keptStore : UtxoStore := { rewardStore with snapshots := rewardStore.snapshots.insert [1] rewardStore.entries.toList }

omit [Crypto] in
theorem createSnapshot_rewardStore : rewardStore.createSnapshot [1] = .ok keptStore := by
  have hnew : ([1] : Bytes) ∉ rewardStore.snapshots := by decide +kernel
  rw [createSnapshot, require_bind_eq_ok, require_bind_eq_ok]
  exact ⟨by decide, hnew, rfl⟩

omit [Crypto] in
private theorem tidy_rewardStore : rewardStore.Tidy := by
  have hok : (@applyBlock sampleCrypto new rewardBlock).isOk = true := by decide +kernel
  obtain ⟨t, ht⟩ := isOk_iff.mp hok
  rw [rewardStore, ht]
  exact @Applied.tidy sampleCrypto _ _ _ (@Applied.of_ok sampleCrypto _ _ _ ht) tidy_new

omit [Crypto] in
/-- A spend of the reward that is taken back before the restore. -/
theorem snapshot_preserves_rewardStore :
    ∃ r, (@afterCalls sampleCrypto keptStore [.apply chainedBlock, .revert chainedBlock]).restoreSnapshot [1] = .ok r ∧
      Preserves rewardStore r := by
  obtain ⟨r, hrestore, -, hiff⟩ := @snapshot_preserves_iff sampleCrypto _ _ [1] createSnapshot_rewardStore
    [.apply chainedBlock, .revert chainedBlock]
  have happlied : (@applyBlock sampleCrypto keptStore chainedBlock).isOk = true := by decide +kernel
  have hnew : @Block.hash sampleCrypto chainedBlock ∉ keptStore.undo := by decide +kernel
  have horderly : @Orderly sampleCrypto keptStore [.apply chainedBlock, .revert chainedBlock] [] :=
    @Orderly.revert sampleCrypto _ [.apply chainedBlock] _ _
      (@Orderly.apply sampleCrypto _ [] _ _ (@Orderly.nil sampleCrypto _) happlied hnew)
  refine ⟨r, hrestore, (hiff [] tidy_rewardStore horderly).mpr ?_⟩
  intro op height hword
  cases hword

omit [Crypto] in
/-- **A restored reward has lost its creation height.** It was in the snapshot and has been spent since. -/
theorem snapshot_loses_height :
    ¬ ∀ (_ : Crypto) (s s' r : UtxoStore) (id : Bytes) (calls : List BlockCall), s.createSnapshot id = .ok s' →
      (s'.afterCalls calls).restoreSnapshot id = .ok r →
        r.entries = s.entries ∧ ∀ op, r.coinbaseHeight op = s.coinbaseHeight op := by
  intro hclaim
  let outpoint : OutPoint := ⟨@Transaction.id sampleCrypto (.newCoinbase 1 [.new 10 []]), 0⟩
  let restored := (@afterCalls sampleCrypto keptStore [.apply chainedBlock]).restoreSnapshot [1]
  have hok : restored.isOk = true := by decide +kernel
  have hlost : (restored.map fun r => r.coinbaseHeight outpoint) = .ok none := by decide +kernel
  have hkept : rewardStore.coinbaseHeight outpoint = some 1 := by decide +kernel
  obtain ⟨r, hr⟩ := isOk_iff.mp hok
  rw [hr] at hlost
  have hheight := (hclaim sampleCrypto rewardStore _ r [1] [.apply chainedBlock] createSnapshot_rewardStore hr).2 outpoint
  rw [hkept] at hheight
  cases hheight.symm.trans (Except.ok.inj hlost)

end UtxoStore

end QuantumVault
