import QuantumVault.Proof.Storage.Blocks
import QuantumVault.Proof.Storage.Calls

/-!
# One key-value store keeps all stores

The three stores share one key-value store. Whatever calls are made on them, in any order, each call on the bytes answers as the call on the tables, no value is ever found unreadable, and every reading function sees what the tables say.
-/

namespace QuantumVault

open Result TreeMap KeyValue

/-! ### One call -/

section Call

/-- The bytes hold the tables of all stores. -/
structure KvStore.Represents (kv : KvStore) (s : Stores) : Prop where
  utxo : KvUtxoStore.Represents kv s.utxo
  blocks : KvBlockStore.Represents kv s.blocks
  state : StateStore.Represents kv s.state

theorem KvStore.represents_new : KvStore.Represents ∅ .new :=
  ⟨KvUtxoStore.represents_new, KvBlockStore.represents_new, StateStore.represents_new⟩

variable {kv kv' : KvStore} {s : Stores}

theorem KvUtxoStore.Represents.frame {utxo : UtxoStore} (h : KvUtxoStore.Represents kv utxo) {start : Bytes}
    (hunder : KvStore.Under start kv kv') (hapart : Table.Apart (ascii "utxo:") start) : KvUtxoStore.Represents kv' utxo :=
  hunder.frame (P := fun kv => KvUtxoStore.Represents kv utxo)
    (fun _ _ hkey hP => hP.apply_other (hapart.not_isPrefix_of_isPrefix hkey)) h

theorem KvBlockStore.Represents.frame {blocks : BlockStore} (h : KvBlockStore.Represents kv blocks) {start : Bytes}
    (hunder : KvStore.Under start kv kv') (hapart : Table.Apart (ascii "block:") start) :
    KvBlockStore.Represents kv' blocks :=
  hunder.frame (P := fun kv => KvBlockStore.Represents kv blocks)
    (fun _ _ hkey hP => hP.apply_other (hapart.not_isPrefix_of_isPrefix hkey)) h

theorem StateStore.Represents.frame {state : StateRecords} (h : StateStore.Represents kv state) {start : Bytes}
    (hunder : KvStore.Under start kv kv') (hapart : Table.Apart (ascii "state:") start) :
    StateStore.Represents kv' state :=
  hunder.frame (P := fun kv => StateStore.Represents kv state)
    (fun _ _ hkey hP => hP.apply_other (hapart.not_isPrefix_of_isPrefix hkey)) h

theorem KvStore.Represents.utxo_written (h : kv.Represents s) {utxo : UtxoStore} (hw : KvUtxoStore.Written kv utxo kv') :
    kv'.Represents { s with utxo } where
  utxo := hw.represents
  blocks := h.blocks.frame hw.under (by decide)
  state := h.state.frame hw.under (by decide)

private theorem KvStore.Represents.blocks_written (h : kv.Represents s) {blocks : BlockStore}
    (hw : KvBlockStore.Represents kv' blocks ∧ KvStore.Under (ascii "block:") kv kv') :
    kv'.Represents { s with blocks } where
  utxo := h.utxo.frame hw.2 (by decide)
  blocks := hw.1
  state := h.state.frame hw.2 (by decide)

theorem KvStore.Represents.state_put (h : kv.Represents s) {state : StateRecords} {key bytes : Bytes}
    (hkey : ascii "state:" <+: key) (hw : StateStore.Represents (kv.put key bytes) state) :
    (kv.put key bytes).Represents { s with state } where
  utxo := @KvUtxoStore.Represents.apply_other _ _ h.utxo (.put key bytes) (Table.Apart.not_isPrefix_of_isPrefix (by decide) hkey)
  blocks := @KvBlockStore.Represents.apply_other _ _ h.blocks (.put key bytes) (Table.Apart.not_isPrefix_of_isPrefix (by decide) hkey)
  state := hw

/-- Values with lengths that can be written down, as all values of the source have. A snapshot needs a set whose size can be written down. -/
def StoreCall.Fits (s : Stores) : StoreCall → Prop
  | .insert _ output => output.Fits
  | .applyBlock block => block.Fits
  | .putBlock block => block.Fits
  | .createSnapshot _ => s.utxo.len < 2 ^ 64
  | .putLedgerState state => state.Fits
  | .putEpochSnapshot snapshot => snapshot.Fits
  | _ => True

/-- An answer on bytes is the answer on the tables. -/
def SameAnswer (onTables : Stores × Except StorageError StoreReply) (onBytes : KvStore × Except KvError StoreReply) : Prop :=
  onBytes.1.Represents onTables.1 ∧ onBytes.2 = onTables.2.mapError .storage

theorem sameAnswer_of_sim {σ : Type} {R : σ → KvStore → Prop} {x : Except StorageError σ} {y : Except KvError KvStore}
    {put : σ → Stores} (h : kv.Represents s) (hsim : Sim KvError.storage R x y)
    (hput : ∀ a kv', R a kv' → kv'.Represents (put a)) (reply : StoreReply) :
    SameAnswer (answer s reply (x.map put)) (answer kv reply y) := by
  cases x <;> cases y
  · exact ⟨h, congrArg _ hsim⟩
  · exact hsim.elim
  · exact hsim.elim
  · exact ⟨hput _ _ hsim, rfl⟩

variable [Crypto]

/-- **One call** on the bytes answers as the call on the tables. -/
theorem KvStore.Represents.call (h : kv.Represents s) {c : StoreCall} (hfits : c.Fits s) :
    SameAnswer (s.call c) (kv.call c) := by
  cases c with
  | insert outpoint output =>
      exact sameAnswer_of_sim h (h.utxo.sim_insert outpoint hfits) (fun _ _ => h.utxo_written) _
  | remove outpoint =>
      obtain ⟨hreply, hwritten⟩ := h.utxo.remove_eq outpoint
      refine ⟨h.utxo_written hwritten, ?_⟩
      change (KvUtxoStore.remove kv outpoint).2.map StoreReply.removed = _
      rw [hreply]
      rfl
  | applyBlock block => exact sameAnswer_of_sim h (h.utxo.sim_applyBlock hfits) (fun _ _ => h.utxo_written) _
  | revertBlock block => exact sameAnswer_of_sim h (h.utxo.sim_revertBlock block) (fun _ _ => h.utxo_written) _
  | createSnapshot id => exact sameAnswer_of_sim h (h.utxo.sim_createSnapshot hfits id) (fun _ _ => h.utxo_written) _
  | restoreSnapshot id => exact sameAnswer_of_sim h (h.utxo.sim_restoreSnapshot id) (fun _ _ => h.utxo_written) _
  | rollbackToSnapshot id => exact sameAnswer_of_sim h (h.utxo.sim_restoreSnapshot id) (fun _ _ => h.utxo_written) _
  | putBlock block => exact sameAnswer_of_sim h (h.blocks.sim_putBlock hfits) (fun _ _ => h.blocks_written) _
  | putChainEntry entry =>
      have hkey : ascii "state:" <+: StateStore.keyChainEntry entry.hash :=
        (show ascii "state:" <+: StateStore.chainEntryPrefix by decide).trans (List.prefix_append _ _)
      exact ⟨h.state_put hkey (h.state.putChainEntry entry), rfl⟩
  | setTipHash hash =>
      have hkey : ascii "state:" <+: StateStore.chainTipKey := by decide
      exact ⟨h.state_put hkey (h.state.setTipHash hash), rfl⟩
  | putLedgerState state =>
      have hkey : ascii "state:" <+: StateStore.ledgerStateKey := by decide
      exact ⟨h.state_put hkey (h.state.putLedgerState hfits), rfl⟩
  | putEpochSnapshot snapshot =>
      have hkey : ascii "state:" <+: StateStore.keyEpochSnapshot snapshot.epoch :=
        (show ascii "state:" <+: StateStore.epochSnapshotPrefix by decide).trans (List.prefix_append _ _)
      exact ⟨h.state_put hkey (h.state.putEpochSnapshot hfits), rfl⟩

end Call

/-! ### Whole runs -/

section Runs

/-- Every reading function of the stores sees what the tables say. A scan lists the entries in the order of their keys. -/
structure KvStore.Agrees [Crypto] (kv : KvStore) (s : Stores) : Prop where
  get : ∀ outpoint, KvUtxoStore.get kv outpoint = .ok (s.utxo.get outpoint)
  contains : ∀ outpoint, KvUtxoStore.contains kv outpoint = .ok (s.utxo.get outpoint).isSome
  len : KvUtxoStore.len kv = s.utxo.len
  isEmpty : KvUtxoStore.isEmpty kv = (s.utxo.len == 0)
  entries : ∃ found, KvUtxoStore.entries kv = .ok found ∧ found.Perm s.utxo.entries.toList
  commitmentRoot : KvUtxoStore.commitmentRoot kv = .ok s.utxo.commitmentRoot
  coinbaseHeight : ∀ outpoint, KvUtxoStore.coinbaseHeight kv outpoint = .ok (s.utxo.coinbaseHeight outpoint)
  getBlock : ∀ hash, KvBlockStore.getBlock kv hash = .ok (s.blocks.getBlock hash)
  getHashByHeight : ∀ height, KvBlockStore.getHashByHeight kv height = .ok (s.blocks.getHashByHeight height)
  getBlockByHeight : ∀ height, KvBlockStore.getBlockByHeight kv height = .ok (s.blocks.getBlockByHeight height)
  getHeaderByHeight : ∀ height,
    KvBlockStore.getHeaderByHeight kv height = .ok ((s.blocks.getBlockByHeight height).map Block.header)
  getChainEntry : ∀ hash, StateStore.getChainEntry kv hash = .ok s.state.chainEntries[hash]?
  getTipHash : StateStore.getTipHash kv = .ok s.state.tipHash
  getLedgerState : StateStore.getLedgerState kv = .ok s.state.ledgerState
  getEpochSnapshot : ∀ epoch, StateStore.getEpochSnapshot kv epoch = .ok s.state.epochSnapshots[epoch]?

variable [Crypto] {kv : KvStore} {s : Stores}

theorem KvStore.Represents.agrees (h : kv.Represents s) : kv.Agrees s where
  get := h.utxo.get_eq
  contains outpoint := by
    rw [KvUtxoStore.contains, h.utxo.get_eq]
    rfl
  len := h.utxo.len_eq
  isEmpty := by rw [KvUtxoStore.isEmpty, h.utxo.len_eq]
  entries := by
    obtain ⟨found, hfound, hperm, -⟩ := h.utxo.exists_entries
    exact ⟨found, hfound, hperm⟩
  commitmentRoot := h.utxo.commitmentRoot_eq
  coinbaseHeight := h.utxo.coinbaseHeight_eq
  getBlock := h.blocks.getBlock_eq
  getHashByHeight := h.blocks.getHashByHeight_eq
  getBlockByHeight := h.blocks.getBlockByHeight_eq
  getHeaderByHeight height := by
    rw [KvBlockStore.getHeaderByHeight, h.blocks.getBlockByHeight_eq]
    rfl
  getChainEntry := h.state.getChainEntry_eq
  getTipHash := h.state.getTipHash_eq
  getLedgerState := h.state.getLedgerState_eq
  getEpochSnapshot := h.state.getEpochSnapshot_eq

/-- Every call of a run can be written down where it is made. -/
def Stores.CallsFit (s : Stores) : List StoreCall → Prop
  | [] => True
  | c :: cs => c.Fits s ∧ (s.call c).1.CallsFit cs

theorem KvStore.Represents.calls (h : kv.Represents s) {cs : List StoreCall} (hfits : s.CallsFit cs) :
    (kv.calls cs).1.Represents (s.calls cs).1 ∧ (kv.calls cs).2 = (s.calls cs).2.map (Except.mapError KvError.storage) := by
  induction cs generalizing kv s with
  | nil => exact ⟨h, rfl⟩
  | cons c cs ih =>
      obtain ⟨hrepresents, hreply⟩ := h.call hfits.1
      obtain ⟨hrest, hreplies⟩ := ih hrepresents hfits.2
      refine ⟨hrest, ?_⟩
      rw [KvStore.calls, Stores.calls, List.map_cons, ← hreply, ← hreplies]

/-- **One key-value store keeps all stores.** Every run of calls on the bytes answers, call by call, as the run on the tables, and afterwards every reading function agrees with the tables. -/
theorem kvStore_refines (cs : List StoreCall) (hfits : Stores.new.CallsFit cs) :
    (KvStore.calls ∅ cs).2 = (Stores.new.calls cs).2.map (Except.mapError KvError.storage) ∧
      (KvStore.calls ∅ cs).1.Agrees (Stores.new.calls cs).1 := by
  obtain ⟨hrepresents, hreplies⟩ := KvStore.represents_new.calls hfits
  exact ⟨hreplies, hrepresents.agrees⟩

end Runs

section Samples

/-- An output is kept in a snapshot, removed and restored, next to records of the other stores. -/
def sampleCalls : List StoreCall :=
  [.insert ⟨.zero, 0⟩ (.new 5 [1]), .createSnapshot [7], .remove ⟨.zero, 0⟩, .restoreSnapshot [7], .setTipHash .zero,
    .putEpochSnapshot ⟨3, ⟨3, ∅, 0⟩, .zero⟩, .putEpochSnapshot ⟨2, ⟨2, ∅, 0⟩, .zero⟩]

theorem sampleCalls_fit : @Stores.CallsFit sampleCrypto .new sampleCalls := by
  have houtput : (TxOutput.new 5 [1]).Fits := ⟨by decide, by simp [TxOutput.new], by simp [TxOutput.new]⟩
  have hroom : UtxoStore.len { UtxoStore.new with entries := UtxoStore.new.entries.insert ⟨.zero, 0⟩ (.new 5 [1]) } <
      2 ^ 64 := by decide
  have hepoch : (∅ : Std.ExtTreeMap PoolId UInt64).size < 2 ^ 64 := by decide
  exact ⟨houtput, hroom, trivial, trivial, trivial, hepoch, hepoch, trivial⟩

theorem kvStore_refines_sample :
    KvUtxoStore.get (@KvStore.calls sampleCrypto ∅ sampleCalls).1 ⟨.zero, 0⟩ = .ok (some (.new 5 [1])) ∧
      StateStore.getTipHash (@KvStore.calls sampleCrypto ∅ sampleCalls).1 = .ok (some .zero) := by
  let _ : Crypto := sampleCrypto
  have hagrees := (kvStore_refines sampleCalls sampleCalls_fit).2
  have hentry : (@Stores.calls sampleCrypto .new sampleCalls).1.utxo.get ⟨.zero, 0⟩ = some (.new 5 [1]) := by decide +kernel
  exact ⟨(hagrees.get _).trans (congrArg _ hentry), hagrees.getTipHash⟩

end Samples

/-! ### Snapshots of epochs -/

section Epochs

/-- The snapshots a run has put, in order. -/
def putSnapshots (cs : List StoreCall) : List EpochSnapshot :=
  cs.filterMap fun c => match c with
    | .putEpochSnapshot snapshot => some snapshot
    | _ => none

private theorem putSnapshots_cons (c : StoreCall) (cs : List StoreCall) :
    putSnapshots (c :: cs) = putSnapshots [c] ++ putSnapshots cs := by
  rw [putSnapshots, putSnapshots, putSnapshots, ← List.filterMap_append, List.singleton_append]

private theorem answer_state {σ : Type} {s : Stores} {reply : StoreReply} {x : Except StorageError σ} {put : σ → Stores}
    (hput : ∀ a, (put a).state = s.state) : (answer s reply (x.map put)).1.state = s.state := by
  cases x with
  | error e => rfl
  | ok a => exact hput a

/-- The last snapshot put for an epoch, if there is one. -/
def lastSnapshot (puts : List EpochSnapshot) (epoch : Epoch) : Option EpochSnapshot :=
  (puts.filter fun snapshot => snapshot.epoch = epoch).getLast?

private theorem lastSnapshot_append (puts puts' : List EpochSnapshot) (epoch : Epoch) :
    lastSnapshot (puts ++ puts') epoch = (lastSnapshot puts' epoch).or (lastSnapshot puts epoch) := by
  rw [lastSnapshot, List.filter_append, List.getLast?_append]
  rfl

variable [Crypto]

/-- **One call** replaces the snapshot of an epoch only by putting one. -/
theorem epochSnapshots_call (s : Stores) (c : StoreCall) (epoch : Epoch) :
    (s.call c).1.state.epochSnapshots[epoch]? =
      (lastSnapshot (putSnapshots [c]) epoch).or s.state.epochSnapshots[epoch]? := by
  have hkept : putSnapshots [c] = [] → (s.call c).1.state.epochSnapshots = s.state.epochSnapshots →
      (s.call c).1.state.epochSnapshots[epoch]? =
        (lastSnapshot (putSnapshots [c]) epoch).or s.state.epochSnapshots[epoch]? := by
    intro hputs hstate
    rw [hputs, hstate]
    rfl
  cases c with
  | insert outpoint output => exact hkept rfl (congrArg StateRecords.epochSnapshots (answer_state fun _ => rfl))
  | remove outpoint => exact hkept rfl rfl
  | applyBlock block => exact hkept rfl (congrArg StateRecords.epochSnapshots (answer_state fun _ => rfl))
  | revertBlock block => exact hkept rfl (congrArg StateRecords.epochSnapshots (answer_state fun _ => rfl))
  | createSnapshot id => exact hkept rfl (congrArg StateRecords.epochSnapshots (answer_state fun _ => rfl))
  | restoreSnapshot id => exact hkept rfl (congrArg StateRecords.epochSnapshots (answer_state fun _ => rfl))
  | rollbackToSnapshot id => exact hkept rfl (congrArg StateRecords.epochSnapshots (answer_state fun _ => rfl))
  | putBlock block => exact hkept rfl (congrArg StateRecords.epochSnapshots (answer_state fun _ => rfl))
  | putChainEntry entry => exact hkept rfl rfl
  | setTipHash hash => exact hkept rfl rfl
  | putLedgerState state => exact hkept rfl rfl
  | putEpochSnapshot snapshot =>
      change (s.state.epochSnapshots.insert snapshot.epoch snapshot)[epoch]? = _
      rw [getElem?_insert]
      by_cases hepoch : snapshot.epoch = epoch <;> simp [putSnapshots, lastSnapshot, hepoch]

private theorem epochSnapshots_calls (s : Stores) (cs : List StoreCall) (epoch : Epoch) :
    (s.calls cs).1.state.epochSnapshots[epoch]? =
      (lastSnapshot (putSnapshots cs) epoch).or s.state.epochSnapshots[epoch]? := by
  induction cs generalizing s with
  | nil => rfl
  | cons c cs ih =>
      rw [Stores.calls, ih, epochSnapshots_call, putSnapshots_cons c cs, lastSnapshot_append, Option.or_assoc]

/-- **The latest snapshot of a run.** After any calls on the shared bytes it is the one that was put last for the greatest epoch for which any was put, and missing only if none was put. -/
theorem latestEpochSnapshot_of_calls (cs : List StoreCall) (hfits : Stores.new.CallsFit cs) :
    ∃ latest, StateStore.latestEpochSnapshot (KvStore.calls ∅ cs).1 = .ok latest ∧
      match latest with
      | none => putSnapshots cs = []
      | some snapshot =>
          lastSnapshot (putSnapshots cs) snapshot.epoch = some snapshot ∧
            ∀ other ∈ putSnapshots cs, other.epoch ≤ snapshot.epoch := by
  obtain ⟨hrepresents, -⟩ := KvStore.represents_new.calls hfits
  obtain ⟨best, hlatest, hchosen⟩ := hrepresents.state.latestEpochSnapshot_eq
  have hread : ∀ epoch, (Stores.new.calls cs).1.state.epochSnapshots[epoch]? = lastSnapshot (putSnapshots cs) epoch := by
    intro epoch
    rw [epochSnapshots_calls]
    simp [Stores.new]
  have hput : ∀ other ∈ putSnapshots cs, ∃ last,
      (other.epoch, last) ∈ (Stores.new.calls cs).1.state.epochSnapshots.toList := by
    intro other hother
    have hsome : lastSnapshot (putSnapshots cs) other.epoch ≠ none := by
      rw [lastSnapshot, ne_eq, List.getLast?_eq_none_iff, List.filter_eq_nil_iff]
      exact fun hnone => absurd rfl (of_decide_eq_false (Bool.not_eq_true _ ▸ hnone other hother))
    obtain ⟨last, hlast⟩ := Option.ne_none_iff_exists'.mp hsome
    exact ⟨last, Std.ExtTreeMap.mem_toList_iff_getElem?_eq_some.mpr ((hread other.epoch).trans hlast)⟩
  refine ⟨_, hlatest, ?_⟩
  cases best with
  | none =>
      refine List.eq_nil_iff_forall_not_mem.mpr fun other hother => ?_
      obtain ⟨last, hlast⟩ := hput other hother
      rw [show _ = [] from hchosen] at hlast
      cases hlast
  | some best =>
      obtain ⟨hmem, hmax⟩ := hchosen
      have hbest := (hread best.1).symm.trans (Std.ExtTreeMap.mem_toList_iff_getElem?_eq_some.mp hmem)
      have hepoch : best.2.epoch = best.1 := by
        have hfiltered := List.mem_of_getLast? hbest
        simpa using (List.mem_filter.mp hfiltered).2
      refine ⟨hepoch ▸ hbest, fun other hother => ?_⟩
      obtain ⟨last, hlast⟩ := hput other hother
      exact hepoch ▸ hmax _ hlast

end Epochs

theorem latestEpochSnapshot_of_sampleCalls :
    ∃ latest, StateStore.latestEpochSnapshot (@KvStore.calls sampleCrypto ∅ sampleCalls).1 = .ok latest ∧
      latest.map EpochSnapshot.epoch = some 3 := by
  obtain ⟨latest, hlatest, hspec⟩ := @latestEpochSnapshot_of_calls sampleCrypto sampleCalls sampleCalls_fit
  refine ⟨latest, hlatest, ?_⟩
  cases latest with
  | none => cases hspec
  | some snapshot =>
      have hle : (3 : UInt64) ≤ snapshot.epoch := hspec.2 ⟨3, ⟨3, ∅, 0⟩, .zero⟩ (by simp [putSnapshots, sampleCalls])
      have hmem := (List.mem_filter.mp (List.mem_of_getLast? hspec.1)).1
      simp only [putSnapshots, sampleCalls, List.filterMap_cons, List.filterMap_nil, List.mem_cons, List.not_mem_nil,
        or_false] at hmem
      rcases hmem with rfl | rfl
      · rfl
      · exact absurd hle (by decide)

end QuantumVault
