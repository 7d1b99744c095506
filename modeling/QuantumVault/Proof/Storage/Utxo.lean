import QuantumVault.Lib.KeyValue
import QuantumVault.Lib.Simulation
import QuantumVault.Proof.Ledger.Store
import QuantumVault.Proof.Storage.Records

/-!
# The UTXO store on bytes refines the UTXO store

The four tables of the UTXO store are kept in one key-value store. Every call on the bytes answers as the call on the tables does, and leaves bytes that hold the new tables.
-/

namespace QuantumVault

open Result TreeMap KeyValue

/-! ### Tables of the key-value store -/

section Tables

theorem OutPoint.canonicalBytes_inj : Function.Injective OutPoint.canonicalBytes := by
  intro a b h
  have hread : OutPoint.decode (b.encode ++ []) = some (a, []) := by
    rw [← show a.canonicalBytes = b.encode from h]
    exact OutPoint.decode_encode a []
  rw [OutPoint.decode_encode] at hread
  cases hread
  rfl

theorem Hash256.bytes_inj : Function.Injective Hash256.bytes := fun _ _ => Hash256.ext

/-- A table of records that are read off the front of the stored bytes. -/
def recordTable {K V : Type} (leading : Bytes) (suffix : K → Bytes) (hinj : Function.Injective suffix)
    (read : Bytes → Option (V × Bytes)) : Table K V where
  leading := leading
  suffix := suffix
  suffix_inj := hinj
  view bytes := (read bytes).map Prod.fst

theorem view_recordTable {K V : Type} {leading : Bytes} {suffix : K → Bytes} {hinj : Function.Injective suffix}
    {read : Bytes → Option (V × Bytes)} {bytes : Bytes} {v : V} (h : ∀ rest, read (bytes ++ rest) = some (v, rest)) :
    (recordTable leading suffix hinj read).view bytes = some v := by
  have hnil := h []
  rw [List.append_nil] at hnil
  simp [recordTable, hnil]

theorem decode_of_holds {K V : Type} {leading : Bytes} {suffix : K → Bytes} {hinj : Function.Injective suffix}
    {read : Bytes → Option (V × Bytes)} {kv : KvStore} {f : K → Option V} {k : K} {bytes : Bytes}
    (h : (recordTable leading suffix hinj read).Holds kv f) (hget : kv.get (leading ++ suffix k) = some bytes) :
    ∃ v, f k = some v ∧ KvStore.decode read bytes = .ok v := by
  have hview : (recordTable leading suffix hinj read).view bytes = f k := h.view_eq hget
  have hsome : f k ≠ none := by
    rw [ne_eq, ← h.eq_none_iff]
    exact fun hnone => Option.some_ne_none _ (hget.symm.trans hnone)
  obtain ⟨v, hv⟩ := Option.ne_none_iff_exists'.mp hsome
  exact ⟨v, hv, okOr_eq_ok.mpr (hview.trans hv)⟩

def BatchOp.key : BatchOp → Bytes
  | .put key _ => key
  | .delete key => key

theorem KeyValue.Table.Holds.apply_other {K V : Type} {T : Table K V} {kv : KvStore} {f : K → Option V} (h : T.Holds kv f)
    {op : BatchOp} (hkey : ¬ T.leading <+: op.key) : T.Holds (kv.apply op) f := by
  cases op with
  | put key value => exact h.put_other hkey
  | delete key => exact h.delete_other hkey

/-- One store comes from another by writes to keys with the given leading bytes. -/
def KvStore.Under (start : Bytes) (kv kv' : KvStore) : Prop :=
  ∃ ops : List BatchOp, (∀ op ∈ ops, start <+: op.key) ∧ kv' = kv.writeBatch ops

/-- What every single write elsewhere leaves alone, a run of them leaves alone. -/
theorem KvStore.Under.frame {start : Bytes} {kv kv' : KvStore} (h : KvStore.Under start kv kv') {P : KvStore → Prop}
    (hstep : ∀ kv (op : BatchOp), start <+: op.key → P kv → P (kv.apply op)) (hP : P kv) : P kv' := by
  obtain ⟨ops, hops, rfl⟩ := h
  induction ops generalizing kv with
  | nil => exact hP
  | cons op ops ih =>
      rw [List.forall_mem_cons] at hops
      exact ih (hstep kv op hops.1 hP) hops.2

theorem KvStore.scanPrefix_eq {K V : Type} (T : Table K V) (kv : KvStore) : kv.scanPrefix T.leading = T.scan kv :=
  takeWhile_dropWhile_eq_filter Std.ExtTreeMap.ordered_keys_toList

end Tables

/-! ### The tables of the UTXO store -/

namespace KvUtxoStore

def entryTable : Table OutPoint TxOutput :=
  recordTable utxoEntryPrefix OutPoint.canonicalBytes OutPoint.canonicalBytes_inj TxOutput.decode

def heightTable : Table OutPoint UInt64 :=
  recordTable utxoCoinbaseHeightPrefix OutPoint.canonicalBytes OutPoint.canonicalBytes_inj Decode.u64

def undoTable : Table BlockHash UndoLog := recordTable utxoUndoPrefix Hash256.bytes Hash256.bytes_inj UndoLog.decode

/-- A snapshot keeps its entries in the order of their keys, which is not the order of the outpoints. -/
def snapshotTable : Table Bytes (List (OutPoint × TxOutput)) where
  leading := utxoSnapshotPrefix
  suffix := id
  suffix_inj := Function.injective_id
  view bytes := (Decode.seq UndoLog.decodeEntry bytes).map fun read => (insertAll (∅ : UtxoMap) read.1).toList

/-- The bytes of a key-value store hold the four tables. -/
structure Represents (kv : KvStore) (s : UtxoStore) : Prop where
  entries : entryTable.Holds kv fun outpoint => s.entries[outpoint]?
  heights : heightTable.Holds kv fun outpoint => s.coinbaseHeights[outpoint]?
  undo : undoTable.Holds kv fun hash => s.undo[hash]?
  snapshots : snapshotTable.Holds kv fun id => s.snapshots[id]?

theorem represents_new : Represents ∅ UtxoStore.new where
  entries := by simpa [UtxoStore.new] using entryTable.holds_empty
  heights := by simpa [UtxoStore.new] using heightTable.holds_empty
  undo := by simpa [UtxoStore.new] using undoTable.holds_empty
  snapshots := by simpa [UtxoStore.new] using snapshotTable.holds_empty

variable {kv : KvStore} {s : UtxoStore}

theorem Represents.apply_other (h : Represents kv s) {op : BatchOp} (hkey : ¬ ascii "utxo:" <+: op.key) :
    Represents (kv.apply op) s := by
  have hother : ∀ leading : Bytes, ascii "utxo:" <+: leading → ¬ leading <+: op.key :=
    fun leading hled hop => hkey (hled.trans hop)
  exact ⟨h.entries.apply_other (hother utxoEntryPrefix (by decide)),
    h.heights.apply_other (hother utxoCoinbaseHeightPrefix (by decide)),
    h.undo.apply_other (hother utxoUndoPrefix (by decide)),
    h.snapshots.apply_other (hother utxoSnapshotPrefix (by decide))⟩

/-- An output in the store has been read from it, so it can be written. -/
theorem Represents.fits (h : Represents kv s) {outpoint : OutPoint} {output : TxOutput}
    (hentry : s.entries[outpoint]? = some output) : output.Fits := by
  obtain ⟨bytes, _, hview⟩ := h.entries.exists_of_eq_some hentry
  obtain ⟨⟨output', rest⟩, hread, heq⟩ := Option.map_eq_some_iff.mp hview
  cases heq
  exact TxOutput.Fits.of_decode hread

/-! ### Reading -/

theorem Represents.get_eq (h : Represents kv s) (outpoint : OutPoint) : get kv outpoint = .ok (s.get outpoint) := by
  unfold get
  cases hget : kv.get (keyOutpoint outpoint) with
  | none => rw [UtxoStore.get, h.entries.eq_none_iff.mp hget]; rfl
  | some bytes =>
      obtain ⟨output, hentry, hdecode⟩ := decode_of_holds h.entries hget
      change (KvStore.decode TxOutput.decode bytes >>= fun output => pure (some output)) = _
      rw [UtxoStore.get, hentry, hdecode]
      rfl

theorem Represents.coinbaseHeight_eq (h : Represents kv s) (outpoint : OutPoint) :
    coinbaseHeight kv outpoint = .ok (s.coinbaseHeight outpoint) := by
  unfold coinbaseHeight
  cases hget : kv.get (keyCoinbaseHeight outpoint) with
  | none => rw [UtxoStore.coinbaseHeight, h.heights.eq_none_iff.mp hget]; rfl
  | some bytes =>
      obtain ⟨height, hheight, hdecode⟩ := decode_of_holds h.heights hget
      change (KvStore.decode Decode.u64 bytes >>= fun height => pure (some height)) = _
      rw [UtxoStore.coinbaseHeight, hheight, hdecode]
      rfl

private theorem outpointFromKey_keyOutpoint (outpoint : OutPoint) : outpointFromKey (keyOutpoint outpoint) = .ok outpoint := by
  have hled : utxoEntryPrefix <+: keyOutpoint outpoint := List.prefix_append _ _
  have hraw : (keyOutpoint outpoint).drop utxoEntryPrefix.length = outpoint.canonicalBytes := List.drop_left
  have hlen : outpoint.canonicalBytes.length = 36 := by
    rw [OutPoint.canonicalBytes, List.length_append, outpoint.txId.length_eq, length_toLittleEndian]
  have htake : outpoint.canonicalBytes.take 32 = outpoint.txId.bytes := List.take_left' outpoint.txId.length_eq
  have hdrop : outpoint.canonicalBytes.drop 32 = toLittleEndian 4 outpoint.index.toNat :=
    List.drop_left' outpoint.txId.length_eq
  have hindex : ofLittleEndian (toLittleEndian 4 outpoint.index.toNat) = outpoint.index.toNat :=
    ofLittleEndian_toLittleEndian_of_lt outpoint.index.toNat_lt
  simp [outpointFromKey, require, hled, hraw, hlen, htake, hdrop, hindex]

/-- **A scan lists the entries**, in the order of their keys. -/
theorem Represents.exists_entries (h : Represents kv s) :
    ∃ found, KvUtxoStore.entries kv = .ok found ∧ found.Perm s.entries.toList ∧
      (kv.scanPrefix utxoEntryPrefix).map Prod.fst = found.map fun found => keyOutpoint found.1 := by
  obtain ⟨found, hshows, hnodup, hmem⟩ := h.entries.exists_scan
  have hscan : kv.scanPrefix utxoEntryPrefix = entryTable.scan kv := KvStore.scanPrefix_eq entryTable kv
  have hentry : List.Forall₂ (fun pair found => entry pair = .ok found) (entryTable.scan kv) found := by
    refine hshows.imp fun pair found hshow => ?_
    obtain ⟨hkey, hview⟩ := hshow
    have hout : KvStore.decode TxOutput.decode pair.2 = .ok found.2 := okOr_eq_ok.mpr hview
    have hpoint : outpointFromKey pair.1 = .ok found.1 := hkey ▸ outpointFromKey_keyOutpoint found.1
    rw [entry, hpoint, hout]
    rfl
  refine ⟨found, ?_, ?_, ?_⟩
  · rw [KvUtxoStore.entries, hscan]
    exact mapM_eq_ok_of_forall₂ hentry
  · rw [List.perm_ext_iff_of_nodup hnodup.of_map (nodup_toList s.entries)]
    rintro ⟨outpoint, output⟩
    rw [hmem, Std.ExtTreeMap.mem_toList_iff_getElem?_eq_some]
  · rw [hscan]
    exact map_eq_of_forall₂ (hshows.imp fun _ _ hshow => hshow.1.symm)

theorem Represents.len_eq (h : Represents kv s) : len kv = s.len := by
  obtain ⟨found, _, hperm, hkeys⟩ := h.exists_entries
  have hlen := congrArg List.length hkeys
  rw [List.length_map, List.length_map, hperm.length_eq, Std.ExtTreeMap.length_toList] at hlen
  exact hlen

theorem Represents.commitmentRoot_eq [Crypto] (h : Represents kv s) : commitmentRoot kv = .ok s.commitmentRoot := by
  obtain ⟨found, hfound, hperm, _⟩ := h.exists_entries
  have hkeys : (found.map Prod.fst).Nodup := (hperm.map Prod.fst).nodup_iff.mpr (nodup_keys_toList s.entries)
  rw [commitmentRoot, hfound, UtxoStore.commitmentRoot, ← insertAll_perm hkeys hperm]
  rfl

/-! ### Writes -/

/-- The writes of the store, each of one record. -/
inductive Write where
  | putEntry (entry : OutPoint × TxOutput)
  | deleteEntry (outpoint : OutPoint)
  | putHeight (entry : OutPoint × UInt64)
  | deleteHeight (outpoint : OutPoint)
  | putUndo (hash : BlockHash) (undo : UndoLog)
  | deleteUndo (hash : BlockHash)
  | putSnapshot (id : Bytes) (kept : List (OutPoint × TxOutput))

namespace Write

def op : Write → BatchOp
  | putEntry entry => KvUtxoStore.putEntry entry
  | deleteEntry outpoint => .delete (keyOutpoint outpoint)
  | putHeight entry => KvUtxoStore.putHeight entry
  | deleteHeight outpoint => .delete (keyCoinbaseHeight outpoint)
  | putUndo hash undo => .put (keyUndo hash) undo.encode
  | deleteUndo hash => .delete (keyUndo hash)
  | putSnapshot id kept => .put (keySnapshot id) (Encode.seq UndoLog.encodeEntry kept)

/-- What a write does to the tables. -/
def run (s : UtxoStore) : Write → UtxoStore
  | putEntry entry => { s with entries := s.entries.insert entry.1 entry.2 }
  | deleteEntry outpoint => { s with entries := s.entries.erase outpoint }
  | putHeight entry => { s with coinbaseHeights := s.coinbaseHeights.insert entry.1 entry.2 }
  | deleteHeight outpoint => { s with coinbaseHeights := s.coinbaseHeights.erase outpoint }
  | putUndo hash undo => { s with undo := s.undo.insert hash undo }
  | deleteUndo hash => { s with undo := s.undo.erase hash }
  | putSnapshot id kept => { s with snapshots := s.snapshots.insert id (insertAll (∅ : UtxoMap) kept).toList }

/-- What is written can be read back. -/
def Fits : Write → Prop
  | putEntry entry => entry.2.Fits
  | putUndo _ undo =>
      (∀ entry ∈ undo.spent, entry.2.Fits) ∧ undo.spent.length < 2 ^ 64 ∧ undo.spentCoinbaseHeights.length < 2 ^ 64
  | putSnapshot _ kept => (∀ entry ∈ kept, entry.2.Fits) ∧ kept.length < 2 ^ 64
  | _ => True

end Write

/-- **One write** changes one table and leaves the other three alone. -/
theorem Represents.write (h : Represents kv s) {w : Write} (hfits : w.Fits) : Represents (kv.apply w.op) (w.run s) := by
  have hother : ∀ {K V : Type} {T : Table K V} {f : K → Option V} {q rest : Bytes} {op : BatchOp}, T.Holds kv f →
      Table.Apart T.leading q → op.key = q ++ rest → T.Holds (kv.apply op) f := by
    intro K V T f q rest op hT hapart hkey
    exact hT.apply_other (hkey ▸ hapart.not_isPrefix_append rest)
  cases w with
  | putEntry entry =>
      have hkey : (Write.putEntry entry).op.key = utxoEntryPrefix ++ entry.1.canonicalBytes := rfl
      have hview : entryTable.view entry.2.encode = some entry.2 := 
        view_recordTable (@TxOutput.decode_encode entry.2 hfits)
      have hput := h.entries.put (k := entry.1) hview
      rw [← getElem?_insert_eq_update] at hput
      exact ⟨hput, hother h.heights (by decide) hkey, hother h.undo (by decide) hkey, hother h.snapshots (by decide) hkey⟩
  | deleteEntry outpoint =>
      have hkey : (Write.deleteEntry outpoint).op.key = utxoEntryPrefix ++ outpoint.canonicalBytes := rfl
      have hdelete := h.entries.delete (k := outpoint)
      rw [← getElem?_erase_eq_update] at hdelete
      exact ⟨hdelete, hother h.heights (by decide) hkey, hother h.undo (by decide) hkey, hother h.snapshots (by decide) hkey⟩
  | putHeight entry =>
      have hkey : (Write.putHeight entry).op.key = utxoCoinbaseHeightPrefix ++ entry.1.canonicalBytes := rfl
      have hview : heightTable.view (Encode.u64 entry.2) = some entry.2 := view_recordTable (Decode.u64_encode entry.2)
      have hput := h.heights.put (k := entry.1) hview
      rw [← getElem?_insert_eq_update] at hput
      exact ⟨hother h.entries (by decide) hkey, hput, hother h.undo (by decide) hkey, hother h.snapshots (by decide) hkey⟩
  | deleteHeight outpoint =>
      have hkey : (Write.deleteHeight outpoint).op.key = utxoCoinbaseHeightPrefix ++ outpoint.canonicalBytes := rfl
      have hdelete := h.heights.delete (k := outpoint)
      rw [← getElem?_erase_eq_update] at hdelete
      exact ⟨hother h.entries (by decide) hkey, hdelete, hother h.undo (by decide) hkey, hother h.snapshots (by decide) hkey⟩
  | putUndo hash undo =>
      have hkey : (Write.putUndo hash undo).op.key = utxoUndoPrefix ++ hash.bytes := rfl
      have hview : undoTable.view undo.encode = some undo :=
        view_recordTable (UndoLog.decode_encode hfits.1 hfits.2.1 hfits.2.2)
      have hput := h.undo.put (k := hash) hview
      rw [← getElem?_insert_eq_update] at hput
      exact ⟨hother h.entries (by decide) hkey, hother h.heights (by decide) hkey, hput, hother h.snapshots (by decide) hkey⟩
  | deleteUndo hash =>
      have hkey : (Write.deleteUndo hash).op.key = utxoUndoPrefix ++ hash.bytes := rfl
      have hdelete := h.undo.delete (k := hash)
      rw [← getElem?_erase_eq_update] at hdelete
      exact ⟨hother h.entries (by decide) hkey, hother h.heights (by decide) hkey, hdelete, hother h.snapshots (by decide) hkey⟩
  | putSnapshot id kept =>
      have hkey : (Write.putSnapshot id kept).op.key = utxoSnapshotPrefix ++ id := rfl
      have hread := UndoLog.decodeEntries_encode hfits.1 hfits.2 []
      rw [List.append_nil] at hread
      have hview : snapshotTable.view (Encode.seq UndoLog.encodeEntry kept) = some (insertAll (∅ : UtxoMap) kept).toList := by
        simp [snapshotTable, hread]
      have hput := h.snapshots.put (k := id) hview
      rw [← getElem?_insert_eq_update] at hput
      exact ⟨hother h.entries (by decide) hkey, hother h.heights (by decide) hkey, hother h.undo (by decide) hkey, hput⟩

/-- **A batch** runs its writes on the tables. -/
theorem Represents.writeBatch (h : Represents kv s) {ws : List Write} (hfits : ∀ w ∈ ws, w.Fits) :
    Represents (kv.writeBatch (ws.map Write.op)) (ws.foldl Write.run s) := by
  induction ws generalizing kv s with
  | nil => exact h
  | cons w ws ih =>
      rw [List.forall_mem_cons] at hfits
      exact ih (h.write hfits.1) hfits.2

private theorem Write.isPrefix_key (w : Write) : ascii "utxo:" <+: w.op.key := by
  have hentry : ascii "utxo:" <+: utxoEntryPrefix := by decide
  have hheight : ascii "utxo:" <+: utxoCoinbaseHeightPrefix := by decide
  have hundo : ascii "utxo:" <+: utxoUndoPrefix := by decide
  have hsnapshot : ascii "utxo:" <+: utxoSnapshotPrefix := by decide
  cases w with
  | putEntry entry => exact hentry.trans (List.prefix_append _ _)
  | deleteEntry outpoint => exact hentry.trans (List.prefix_append _ _)
  | putHeight entry => exact hheight.trans (List.prefix_append _ _)
  | deleteHeight outpoint => exact hheight.trans (List.prefix_append _ _)
  | putUndo hash undo => exact hundo.trans (List.prefix_append _ _)
  | deleteUndo hash => exact hundo.trans (List.prefix_append _ _)
  | putSnapshot id kept => exact hsnapshot.trans (List.prefix_append _ _)

/-- The bytes hold the new tables, and only keys of this store were written. -/
structure Written (kv : KvStore) (s' : UtxoStore) (kv' : KvStore) : Prop where
  represents : Represents kv' s'
  under : KvStore.Under (ascii "utxo:") kv kv'

theorem Represents.written (h : Represents kv s) (ws : List Write) (hfits : ∀ w ∈ ws, w.Fits) :
    Written kv (ws.foldl Write.run s) (kv.writeBatch (ws.map Write.op)) where
  represents := h.writeBatch hfits
  under := by
    refine ⟨ws.map Write.op, ?_, rfl⟩
    rw [List.forall_mem_map]
    exact fun w _ => w.isPrefix_key

end KvUtxoStore

end QuantumVault
