import QuantumVault.Proof.Storage.Utxo
import QuantumVault.Storage.Stores

/-!
# Blocks and consensus records on bytes

The tables of the block store and of the state store in the key-value store, and their calls.
-/

namespace QuantumVault

open Result TreeMap KeyValue

section Words

/-- A table of block hashes, stored as they are. -/
def hashTable {K : Type} (leading : Bytes) (suffix : K → Bytes) (hinj : Function.Injective suffix) : Table K BlockHash where
  leading := leading
  suffix := suffix
  suffix_inj := hinj
  view bytes := (KvBlockStore.decodeBlockHash bytes).toOption

theorem view_hashTable {K : Type} {leading : Bytes} {suffix : K → Bytes} {hinj : Function.Injective suffix}
    (hash : BlockHash) : (hashTable leading suffix hinj).view hash.bytes = some hash := by
  simp [hashTable, KvBlockStore.decodeBlockHash, hash.length_eq, Except.toOption]

theorem hash_of_holds {K : Type} {leading : Bytes} {suffix : K → Bytes} {hinj : Function.Injective suffix}
    {kv : KvStore} {f : K → Option BlockHash} {k : K} {bytes : Bytes} (h : (hashTable leading suffix hinj).Holds kv f)
    (hget : kv.get (leading ++ suffix k) = some bytes) :
    ∃ hash, f k = some hash ∧ KvBlockStore.decodeBlockHash bytes = .ok hash := by
  have hview : (KvBlockStore.decodeBlockHash bytes).toOption = f k := h.view_eq hget
  have hsome : f k ≠ none := by
    rw [ne_eq, ← h.eq_none_iff]
    exact fun hnone => Option.some_ne_none _ (hget.symm.trans hnone)
  cases hdecode : KvBlockStore.decodeBlockHash bytes with
  | error e =>
      rw [hdecode] at hview
      exact absurd hview.symm hsome
  | ok hash =>
      rw [hdecode] at hview
      exact ⟨hash, hview.symm, rfl⟩

end Words

/-! ### Blocks -/

namespace KvBlockStore

def blockTable : Table BlockHash Block := recordTable blockByHashPrefix Hash256.bytes Hash256.bytes_inj Block.decode

def heightTable : Table Height BlockHash := hashTable blockHashByHeightPrefix Word.toBeBytes Word.toBeBytes_inj

structure Represents (kv : KvStore) (s : BlockStore) : Prop where
  blocks : blockTable.Holds kv fun hash => s.byHash[hash]?
  heights : heightTable.Holds kv fun height => s.hashByHeight[height]?

theorem represents_new : Represents ∅ BlockStore.new where
  blocks := by simpa [BlockStore.new] using blockTable.holds_empty
  heights := by simpa [BlockStore.new] using heightTable.holds_empty

variable {kv : KvStore} {s : BlockStore}

theorem Represents.apply_other (h : Represents kv s) {op : BatchOp} (hkey : ¬ ascii "block:" <+: op.key) :
    Represents (kv.apply op) s := by
  have hother : ∀ leading : Bytes, ascii "block:" <+: leading → ¬ leading <+: op.key :=
    fun leading hled hop => hkey (hled.trans hop)
  exact ⟨h.blocks.apply_other (hother blockByHashPrefix (by decide)),
    h.heights.apply_other (hother blockHashByHeightPrefix (by decide))⟩

theorem Represents.getBlock_eq (h : Represents kv s) (hash : BlockHash) : getBlock kv hash = .ok (s.getBlock hash) := by
  unfold getBlock
  cases hget : kv.get (keyBlock hash) with
  | none => rw [BlockStore.getBlock, h.blocks.eq_none_iff.mp hget]; rfl
  | some bytes =>
      obtain ⟨block, hblock, hdecode⟩ := decode_of_holds h.blocks hget
      change (KvStore.decode Block.decode bytes >>= fun block => pure (some block)) = _
      rw [BlockStore.getBlock, hblock, hdecode]
      rfl

theorem Represents.getHashByHeight_eq (h : Represents kv s) (height : Height) :
    getHashByHeight kv height = .ok (s.getHashByHeight height) := by
  unfold getHashByHeight
  cases hget : kv.get (keyHeight height) with
  | none => rw [BlockStore.getHashByHeight, h.heights.eq_none_iff.mp hget]; rfl
  | some bytes =>
      obtain ⟨hash, hhash, hdecode⟩ := hash_of_holds h.heights hget
      change (decodeBlockHash bytes >>= fun hash => pure (some hash)) = _
      rw [BlockStore.getHashByHeight, hhash, hdecode]
      rfl

theorem Represents.getBlockByHeight_eq (h : Represents kv s) (height : Height) :
    getBlockByHeight kv height = .ok (s.getBlockByHeight height) := by
  rw [getBlockByHeight, h.getHashByHeight_eq, BlockStore.getBlockByHeight, ok_bind]
  cases s.getHashByHeight height with
  | none => rfl
  | some hash => exact h.getBlock_eq hash

variable [Crypto]

/-- **Storing a block on bytes** fails as on the tables, or leaves bytes that hold the new tables. -/
theorem Represents.sim_putBlock (h : Represents kv s) {block : Block} (hfits : block.Fits) :
    Sim KvError.storage (fun s' kv' => Represents kv' s' ∧ KvStore.Under (ascii "block:") kv kv') (s.putBlock block)
      (putBlock kv block) := by
  have hstructure : Sim KvError.storage Eq (block.validateStructure.mapError StorageError.block)
      (block.validateStructure.mapError fun e => .storage (.block e)) := by
    cases block.validateStructure <;> rfl
  refine hstructure.bind fun _ _ _ _ => ?_
  rw [h.getBlock_eq, ok_bind, h.getHashByHeight_eq, ok_bind]
  refine (sim_require Iff.rfl rfl).bind fun _ _ _ _ => ?_
  cases s.getHashByHeight block.header.height with
  | some existing => exact (sim_require Iff.rfl rfl).bind fun _ _ _ _ => ⟨h, [], by simp, rfl⟩
  | none =>
      have hblock : blockTable.view block.encode = some block := view_recordTable (Block.decode_encode hfits)
      have hblocks := h.blocks.put (k := block.hash) hblock
      rw [← getElem?_insert_eq_update] at hblocks
      have hhash : heightTable.view block.hash.bytes = some block.hash := view_hashTable block.hash
      have hother : ¬ heightTable.leading <+: keyBlock block.hash :=
        Table.Apart.not_isPrefix_append (q := blockByHashPrefix) (by decide) _
      have hheights := (@Table.Holds.put_other _ _ _ _ _ h.heights _ block.encode hother).put (k := block.header.height) hhash
      rw [← getElem?_insert_eq_update] at hheights
      have hother' : ¬ blockTable.leading <+: keyHeight block.header.height :=
        Table.Apart.not_isPrefix_append (q := blockHashByHeightPrefix) (by decide) _
      have hkeyBlock : ascii "block:" <+: keyBlock block.hash :=
        (show ascii "block:" <+: blockByHashPrefix by decide).trans (List.prefix_append _ _)
      have hkeyHeight : ascii "block:" <+: keyHeight block.header.height :=
        (show ascii "block:" <+: blockHashByHeightPrefix by decide).trans (List.prefix_append _ _)
      exact ⟨⟨hblocks.put_other hother', hheights⟩, _, by simpa [BatchOp.key] using ⟨hkeyBlock, hkeyHeight⟩, rfl⟩

end KvBlockStore

/-! ### Consensus records -/

namespace StateStore

def chainEntryTable : Table BlockHash ChainEntry :=
  recordTable chainEntryPrefix Hash256.bytes Hash256.bytes_inj ChainEntry.decode

/-- A record with a key of its own is a table with one key. -/
def tipTable : Table Unit BlockHash := hashTable chainTipKey (fun _ => []) (fun _ _ _ => rfl)

def ledgerTable : Table Unit LedgerState := recordTable ledgerStateKey (fun _ => []) (fun _ _ _ => rfl) LedgerState.decode

def epochTable : Table Epoch EpochSnapshot := recordTable epochSnapshotPrefix Word.toBeBytes Word.toBeBytes_inj EpochSnapshot.decode

structure Represents (kv : KvStore) (s : StateRecords) : Prop where
  chainEntries : chainEntryTable.Holds kv fun hash => s.chainEntries[hash]?
  tipHash : tipTable.Holds kv fun _ => s.tipHash
  ledgerState : ledgerTable.Holds kv fun _ => s.ledgerState
  epochSnapshots : epochTable.Holds kv fun epoch => s.epochSnapshots[epoch]?

theorem represents_new : Represents ∅ Stores.new.state where
  chainEntries := by simpa [Stores.new] using chainEntryTable.holds_empty
  tipHash := tipTable.holds_empty
  ledgerState := ledgerTable.holds_empty
  epochSnapshots := by simpa [Stores.new] using epochTable.holds_empty

variable {kv : KvStore} {s : StateRecords}

theorem Represents.apply_other (h : Represents kv s) {op : BatchOp} (hkey : ¬ ascii "state:" <+: op.key) :
    Represents (kv.apply op) s := by
  have hother : ∀ leading : Bytes, ascii "state:" <+: leading → ¬ leading <+: op.key :=
    fun leading hled hop => hkey (hled.trans hop)
  exact ⟨h.chainEntries.apply_other (hother chainEntryPrefix (by decide)),
    h.tipHash.apply_other (hother chainTipKey (by decide)),
    h.ledgerState.apply_other (hother ledgerStateKey (by decide)),
    h.epochSnapshots.apply_other (hother epochSnapshotPrefix (by decide))⟩

/-! ### Writing records -/

private theorem holds_other {K V : Type} {T : Table K V} {f : K → Option V} (h : T.Holds kv f) {q : Bytes}
    (hapart : Table.Apart T.leading q) (rest bytes : Bytes) : T.Holds (kv.put (q ++ rest) bytes) f :=
  h.put_other (hapart.not_isPrefix_append rest)

theorem Represents.putChainEntry (h : Represents kv s) (entry : ChainEntry) :
    Represents (putChainEntry kv entry) { s with chainEntries := s.chainEntries.insert entry.hash entry } := by
  have hview : chainEntryTable.view entry.encode = some entry := view_recordTable (ChainEntry.decode_encode entry)
  have hput := h.chainEntries.put (k := entry.hash) hview
  rw [← getElem?_insert_eq_update] at hput
  exact ⟨hput, holds_other h.tipHash (q := chainEntryPrefix) (by decide) _ _,
    holds_other h.ledgerState (q := chainEntryPrefix) (by decide) _ _,
    holds_other h.epochSnapshots (q := chainEntryPrefix) (by decide) _ _⟩

theorem Represents.setTipHash (h : Represents kv s) (hash : BlockHash) :
    Represents (setTipHash kv hash) { s with tipHash := some hash } := by
  have hput := h.tipHash.put (k := ()) (view_hashTable hash)
  have hupdate : Function.update (fun _ : Unit => s.tipHash) () (some hash) = fun _ => some hash := by
    funext u
    simp
  rw [hupdate] at hput
  have hkey : StateStore.setTipHash kv hash = kv.put (chainTipKey ++ []) hash.bytes := by rw [List.append_nil]; rfl
  rw [hkey]
  exact ⟨holds_other h.chainEntries (q := chainTipKey) (by decide) _ _, hput,
    holds_other h.ledgerState (q := chainTipKey) (by decide) _ _,
    holds_other h.epochSnapshots (q := chainTipKey) (by decide) _ _⟩

theorem Represents.putLedgerState (h : Represents kv s) {state : LedgerState} (hfits : state.Fits) :
    Represents (putLedgerState kv state) { s with ledgerState := some state } := by
  have hview : ledgerTable.view state.encode = some state := view_recordTable (LedgerState.decode_encode hfits)
  have hput := h.ledgerState.put (k := ()) hview
  have hupdate : Function.update (fun _ : Unit => s.ledgerState) () (some state) = fun _ => some state := by
    funext u
    simp
  rw [hupdate] at hput
  have hkey : StateStore.putLedgerState kv state = kv.put (ledgerStateKey ++ []) state.encode := by rw [List.append_nil]; rfl
  rw [hkey]
  exact ⟨holds_other h.chainEntries (q := ledgerStateKey) (by decide) _ _,
    holds_other h.tipHash (q := ledgerStateKey) (by decide) _ _, hput,
    holds_other h.epochSnapshots (q := ledgerStateKey) (by decide) _ _⟩

theorem Represents.putEpochSnapshot (h : Represents kv s) {snapshot : EpochSnapshot} (hfits : snapshot.Fits) :
    Represents (putEpochSnapshot kv snapshot)
      { s with epochSnapshots := s.epochSnapshots.insert snapshot.epoch snapshot } := by
  have hview : epochTable.view snapshot.encode = some snapshot := view_recordTable (EpochSnapshot.decode_encode hfits)
  have hput := h.epochSnapshots.put (k := snapshot.epoch) hview
  rw [← getElem?_insert_eq_update] at hput
  exact ⟨holds_other h.chainEntries (q := epochSnapshotPrefix) (by decide) _ _,
    holds_other h.tipHash (q := epochSnapshotPrefix) (by decide) _ _,
    holds_other h.ledgerState (q := epochSnapshotPrefix) (by decide) _ _, hput⟩

/-! ### Reading records -/

private theorem getRecord_eq {α : Type} {key : Bytes} {read : Bytes → Except KvError α} {record : Option α}
    (hnone : kv.get key = none → record = none)
    (hsome : ∀ bytes, kv.get key = some bytes → ∃ v, record = some v ∧ read bytes = .ok v) :
    getRecord kv key read = .ok record := by
  unfold getRecord
  cases hget : kv.get key with
  | none => rw [hnone hget]; rfl
  | some bytes =>
      obtain ⟨v, hv, hread⟩ := hsome bytes hget
      change (read bytes >>= fun v => pure (some v)) = _
      rw [hv, hread]
      rfl

theorem Represents.getChainEntry_eq (h : Represents kv s) (hash : BlockHash) :
    getChainEntry kv hash = .ok s.chainEntries[hash]? :=
  getRecord_eq h.chainEntries.eq_none_iff.mp fun _ hget => decode_of_holds h.chainEntries hget

theorem Represents.getTipHash_eq (h : Represents kv s) : getTipHash kv = .ok s.tipHash := by
  have hkey : chainTipKey = tipTable.key () := (List.append_nil _).symm
  refine getRecord_eq (fun hget => (h.tipHash.eq_none_iff (k := ())).mp (hkey ▸ hget)) fun bytes hget => ?_
  exact hash_of_holds (k := ()) h.tipHash (hkey ▸ hget)

theorem Represents.getLedgerState_eq (h : Represents kv s) : getLedgerState kv = .ok s.ledgerState := by
  have hkey : ledgerStateKey = ledgerTable.key () := (List.append_nil _).symm
  refine getRecord_eq (fun hget => (h.ledgerState.eq_none_iff (k := ())).mp (hkey ▸ hget)) fun bytes hget => ?_
  exact decode_of_holds (k := ()) h.ledgerState (hkey ▸ hget)

theorem Represents.getEpochSnapshot_eq (h : Represents kv s) (epoch : Epoch) :
    getEpochSnapshot kv epoch = .ok s.epochSnapshots[epoch]? :=
  getRecord_eq h.epochSnapshots.eq_none_iff.mp fun _ hget => decode_of_holds h.epochSnapshots hget

/-! ### The latest snapshot -/

private theorem epochFromSnapshotKey_keyEpochSnapshot (epoch : Epoch) :
    epochFromSnapshotKey (keyEpochSnapshot epoch) = .ok epoch := by
  have hled : epochSnapshotPrefix <+: keyEpochSnapshot epoch := List.prefix_append _ _
  have hraw : (keyEpochSnapshot epoch).drop epochSnapshotPrefix.length = Word.toBeBytes epoch := List.drop_left
  have hlen : (Word.toBeBytes epoch).length = 8 := Word.length_toBeBytes epoch
  simp [epochFromSnapshotKey, require, hled, hraw, hlen, Word.fromBeBytes_toBeBytes]

/-- The first entry with the greatest epoch, starting from a candidate. -/
def laterEntry (best : Option (Epoch × EpochSnapshot)) (entry : Epoch × EpochSnapshot) : Option (Epoch × EpochSnapshot) :=
  match best with
  | none => some entry
  | some (bestEpoch, _) => if entry.1 > bestEpoch then some entry else best

private theorem laterSnapshot_fold {pairs : List (Bytes × Bytes)} {found : List (Epoch × EpochSnapshot)}
    (h : List.Forall₂ epochTable.Shows pairs found) (best : Option (Epoch × EpochSnapshot)) :
    pairs.foldlM laterSnapshot best = .ok (found.foldl laterEntry best) := by
  induction h generalizing best with
  | nil => rfl
  | @cons pair entry _ _ hshow _ ih =>
      obtain ⟨hkey, hview⟩ := hshow
      have hepoch : epochFromSnapshotKey pair.1 = .ok entry.1 := hkey ▸ epochFromSnapshotKey_keyEpochSnapshot entry.1
      have hsnapshot : KvStore.decode EpochSnapshot.decode pair.2 = .ok entry.2 := okOr_eq_ok.mpr hview
      have hstep : laterSnapshot best pair = .ok (laterEntry best entry) := by
        rw [laterSnapshot, hepoch, ok_bind, hsnapshot, ok_bind]
        rcases best with _ | ⟨bestEpoch, bestSnapshot⟩ <;> rfl
      rw [List.foldlM_cons, hstep, ok_bind, ih, List.foldl_cons]

/-- The entry chosen so far is one of those seen and none seen has a greater epoch. -/
def Chosen (seen : List (Epoch × EpochSnapshot)) : Option (Epoch × EpochSnapshot) → Prop
  | none => seen = []
  | some best => best ∈ seen ∧ ∀ entry ∈ seen, entry.1 ≤ best.1

theorem Chosen.laterEntry {seen : List (Epoch × EpochSnapshot)} {best : Option (Epoch × EpochSnapshot)}
    (h : Chosen seen best) (entry : Epoch × EpochSnapshot) : Chosen (seen ++ [entry]) (laterEntry best entry) := by
  cases best with
  | none =>
      rw [show seen = [] from h]
      exact ⟨List.mem_singleton_self _, by simp⟩
  | some best =>
      obtain ⟨hmem, hmax⟩ := h
      have hall : ∀ bound : Epoch, best.1 ≤ bound → entry.1 ≤ bound → ∀ e ∈ seen ++ [entry], e.1 ≤ bound := by
        intro bound hbest hentry e he
        rcases List.mem_append.mp he with he | he
        · exact UInt64.le_trans (hmax e he) hbest
        · exact List.mem_singleton.mp he ▸ hentry
      rw [StateStore.laterEntry]
      split
      · rename_i hlater
        exact ⟨by simp, hall entry.1 (UInt64.le_of_lt hlater) (UInt64.le_refl _)⟩
      · rename_i hlater
        exact ⟨List.mem_append_left _ hmem, hall best.1 (UInt64.le_refl _) (UInt64.not_lt.mp hlater)⟩

private theorem chosen_fold (found : List (Epoch × EpochSnapshot)) : Chosen found (found.foldl laterEntry none) := by
  induction found using List.reverseRecOn with
  | nil => rfl
  | append_singleton found entry ih =>
      rw [List.foldl_append]
      exact ih.laterEntry entry

/-- **The scan finds the snapshot of the greatest epoch.** -/
theorem Represents.latestEpochSnapshot_eq (h : Represents kv s) :
    ∃ best, latestEpochSnapshot kv = .ok (best.map Prod.snd) ∧ Chosen s.epochSnapshots.toList best := by
  obtain ⟨found, hshows, hnodup, hmem⟩ := h.epochSnapshots.exists_scan
  have hscan : kv.scanPrefix epochSnapshotPrefix = epochTable.scan kv := KvStore.scanPrefix_eq epochTable kv
  refine ⟨found.foldl laterEntry none, ?_, ?_⟩
  · rw [latestEpochSnapshot, hscan, laterSnapshot_fold hshows]
    rfl
  · have hperm : found.Perm s.epochSnapshots.toList := by
      rw [List.perm_ext_iff_of_nodup hnodup.of_map (nodup_toList s.epochSnapshots)]
      rintro ⟨epoch, snapshot⟩
      rw [hmem, Std.ExtTreeMap.mem_toList_iff_getElem?_eq_some]
    have hchosen := chosen_fold found
    cases hbest : found.foldl laterEntry none with
    | none =>
        rw [hbest] at hchosen
        rw [show found = [] from hchosen] at hperm
        exact hperm.nil_eq.symm
    | some best =>
        rw [hbest] at hchosen
        exact ⟨hperm.mem_iff.mp hchosen.1, fun entry hentry => hchosen.2 entry (hperm.mem_iff.mpr hentry)⟩

end StateStore

end QuantumVault
