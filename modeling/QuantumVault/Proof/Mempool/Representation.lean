import QuantumVault.Proof.Mempool.Coherent

/-!
# The representation of the mempool

What all five fields of the pool say about one set of entries, and that every operation keeps it. The byte counter is the delicate one: it is kept with saturating arithmetic, so it is the sum of the sizes only as long as the sum fits into a word. A byte limit below the largest word ensures that, and so does a pool of at most one entry; with any other configuration two entries are enough to lose bytes.
-/

namespace QuantumVault

open TreeMap

/-- The order in which a block is filled: the denser fee first, then the earlier arrival, then the smaller id. -/
def MempoolEntry.Before (a b : MempoolEntry) : Prop :=
  b.feeDensity < a.feeDensity ∨
    a.feeDensity = b.feeDensity ∧ (a.addedAt < b.addedAt ∨ a.addedAt = b.addedAt ∧ Hash256.lt a.txId b.txId = true)

/-- The configurations with which the byte counter cannot run past the end of the word. -/
def ClearPoolConfig.Bounded (config : ClearPoolConfig) : Prop :=
  config.maxPoolBytes < Word.max ∨ config.maxTxCount ≤ 1

namespace ClearPool

variable {pool pool' : ClearPool} {txId : TxId} {entry : MempoolEntry}

/-! ### The priority order -/

private theorem max_sub_lt_iff {a b : UInt64} : Word.max - a < Word.max - b ↔ b < a := by
  have hmax : Word.max.toNat = 2 ^ 64 - 1 := rfl
  have ha := a.toNat_lt
  have hb := b.toNat_lt
  rw [UInt64.lt_iff_toNat_lt, UInt64.lt_iff_toNat_lt,
    UInt64.toNat_sub_of_le _ _ (UInt64.le_iff_toNat_le.mpr (by omega)),
    UInt64.toNat_sub_of_le _ _ (UInt64.le_iff_toNat_le.mpr (by omega))]
  omega

private theorem compare_key (a b : PriorityKey) :
    compare a b = (compare a.negFeeDensity b.negFeeDensity).then
      ((compare a.addedAt b.addedAt).then (compare a.txId b.txId)) := rfl

theorem compare_fromEntry_eq_lt {a b : MempoolEntry} :
    compare (PriorityKey.fromEntry a) (PriorityKey.fromEntry b) = .lt ↔ a.Before b := by
  unfold MempoolEntry.Before
  rw [compare_key]
  dsimp only [PriorityKey.fromEntry]
  rw [Ordering.then_eq_lt, Ordering.then_eq_lt, Std.compare_eq_lt, Std.compare_eq_lt, Std.compare_eq_iff_eq,
    Std.compare_eq_iff_eq, max_sub_lt_iff, UInt64.sub_right_inj, ← Hash256.lt_iff]

/-! ### Listing -/

private theorem map_filterMap_snd {K I E : Type*} {find : I → Option E} {key : E → K} {pairs : List (K × I)}
    (h : ∀ pair ∈ pairs, ∃ e, find pair.2 = some e ∧ pair.1 = key e) :
    ((pairs.map Prod.snd).filterMap find).map key = pairs.map Prod.fst := by
  induction pairs with
  | nil => rfl
  | cons pair pairs ih =>
      rw [List.forall_mem_cons] at h
      obtain ⟨e, hfind, hkey⟩ := h.1
      rw [List.map_cons, List.filterMap_cons_some hfind, List.map_cons, List.map_cons, ih h.2, hkey]

private theorem filterMap_take {I E : Type*} {find : I → Option E} {ids : List I} (h : ∀ i ∈ ids, ∃ e, find i = some e)
    (n : Nat) : (ids.take n).filterMap find = (ids.filterMap find).take n := by
  induction ids generalizing n with
  | nil => simp
  | cons i ids ih =>
      rw [List.forall_mem_cons] at h
      obtain ⟨e, hfind⟩ := h.1
      cases n with
      | zero => simp
      | succ n => rw [List.take_succ_cons, List.filterMap_cons_some hfind, List.filterMap_cons_some hfind,
          List.take_succ_cons, ih h.2]

theorem Coherent.map_allSorted (h : pool.Coherent) : pool.allSorted.map PriorityKey.fromEntry = pool.byPriority.keys := by
  rw [← Std.ExtTreeMap.map_fst_toList_eq_keys, allSorted]
  apply map_filterMap_snd
  intro pair hpair
  exact (h.byPriority_iff pair.1 pair.2).mp (Std.ExtTreeMap.mem_toList_iff_getElem?_eq_some.mp hpair)

theorem Coherent.pairwise_allSorted (h : pool.Coherent) : pool.allSorted.Pairwise MempoolEntry.Before := by
  have hkeys : (pool.allSorted.map PriorityKey.fromEntry).Pairwise fun a b => compare a b = .lt := by
    rw [h.map_allSorted]
    exact Std.ExtTreeMap.ordered_keys
  rw [List.pairwise_map] at hkeys
  exact hkeys.imp fun hlt => compare_fromEntry_eq_lt.mp hlt

theorem Coherent.mem_allSorted_iff (h : pool.Coherent) : entry ∈ pool.allSorted ↔ pool.Holds entry := by
  unfold allSorted
  rw [List.mem_filterMap]
  constructor
  · intro hmem
    obtain ⟨txId, -, hentry⟩ := hmem
    exact ⟨txId, hentry⟩
  · intro hholds
    obtain ⟨txId, hentry⟩ := hholds
    have hkey := (h.byPriority_iff (.fromEntry entry) txId).mpr ⟨entry, hentry, rfl⟩
    exact ⟨txId, List.mem_map.mpr ⟨_, Std.ExtTreeMap.mem_toList_iff_getElem?_eq_some.mpr hkey, rfl⟩, hentry⟩

theorem Coherent.nodup_allSorted (h : pool.Coherent) : pool.allSorted.Nodup := by
  apply List.Nodup.of_map PriorityKey.fromEntry
  rw [h.map_allSorted]
  exact Std.ExtTreeMap.nodup_keys

theorem Coherent.getBatch_eq (h : pool.Coherent) (n : Nat) : pool.getBatch n = pool.allSorted.take n := by
  apply filterMap_take
  intro txId hmem
  obtain ⟨⟨key, txId'⟩, hpair, rfl⟩ := List.mem_map.mp hmem
  obtain ⟨entry, hentry, -⟩ :=
    (h.byPriority_iff key txId').mp (Std.ExtTreeMap.mem_toList_iff_getElem?_eq_some.mp hpair)
  exact ⟨entry, hentry⟩

/-! ### The counters -/

/-- The byte counter is the sum of the sizes. -/
def BytesExact (pool : ClearPool) : Prop := pool.totalBytes.toNat = total (fun entry => entry.size.toNat) pool.byId

theorem BytesExact.new (config : ClearPoolConfig) : (ClearPool.new config).BytesExact := by
  rw [BytesExact, ClearPool.new, total_empty]
  rfl

theorem BytesExact.remove (h : pool.BytesExact) (txId : TxId) : (pool.remove txId).2.BytesExact := by
  cases hget : pool.byId[txId]? with
  | none =>
      rw [remove_of_none hget]
      exact h
  | some entry =>
      have hsum : total (fun entry => entry.size.toNat) pool.byId =
          entry.size.toNat + total (fun entry => entry.size.toNat) (pool.byId.erase txId) := total_erase hget
      have hrest := Word.toNat_saturatingSub pool.totalBytes entry.size
      rw [BytesExact] at h
      rw [BytesExact, ClearPool.remove, hget]
      dsimp only
      omega

theorem BytesExact.insertEntry (h : pool.BytesExact) (hnew : entry.txId ∉ pool.byId)
    (hlt : pool.totalBytes.toNat + entry.size.toNat < 2 ^ 64) : (pool.insertEntry entry).BytesExact := by
  have hsat := Word.toNat_saturatingAdd pool.totalBytes entry.size
  have hinsert : total (fun entry => entry.size.toNat) (pool.byId.insert entry.txId entry) =
      entry.size.toNat + total (fun entry => entry.size.toNat) pool.byId := total_insert (notMem_iff.mp hnew)
  rw [BytesExact] at h
  change (Word.saturatingAdd pool.totalBytes entry.size).toNat = total _ (pool.byId.insert entry.txId entry)
  omega

/-- The limits are respected and the byte counter is the sum of the sizes. -/
structure Accounted (config : ClearPoolConfig) (pool : ClearPool) : Prop where
  config_eq : pool.config = config
  totalBytes_eq : pool.BytesExact
  count_le : pool.byId.size ≤ config.maxTxCount.toNat
  bytes_le : pool.totalBytes ≤ config.maxPoolBytes

variable {config : ClearPoolConfig}

theorem Accounted.new (config : ClearPoolConfig) : Accounted config (new config) where
  config_eq := rfl
  totalBytes_eq := .new config
  count_le := Nat.zero_le _
  bytes_le := UInt64.le_iff_toNat_le.mpr (Nat.zero_le _)

theorem config_remove (pool : ClearPool) (txId : TxId) : (pool.remove txId).2.config = pool.config := by
  rw [ClearPool.remove]
  split <;> rfl

private theorem totalBytes_remove_le (pool : ClearPool) (txId : TxId) : (pool.remove txId).2.totalBytes ≤ pool.totalBytes := by
  rw [ClearPool.remove]
  split
  · exact UInt64.le_refl _
  · rename_i entry _
    rw [UInt64.le_iff_toNat_le, Word.toNat_saturatingSub]
    exact Nat.sub_le _ _

theorem Accounted.removalInvariant (config : ClearPoolConfig) : RemovalInvariant (Accounted config) := by
  intro pool txId h
  refine ⟨(config_remove pool txId).trans h.config_eq, h.totalBytes_eq.remove txId, ?_,
    UInt64.le_trans (totalBytes_remove_le pool txId) h.bytes_le⟩
  rw [byId_remove]
  exact le_trans Std.ExtTreeMap.size_erase_le h.count_le

/-- **With a bounded configuration an entry that finds room is counted in full.** -/
theorem Accounted.insertEntry (hconfig : config.Bounded) (h : Accounted config pool)
    (hroom : pool.HasRoom entry.size) (hnew : entry.txId ∉ pool.byId) : Accounted config (pool.insertEntry entry) := by
  obtain ⟨hcount, hbytes⟩ := hroom
  rw [h.config_eq] at hcount hbytes
  have hmax : Word.max.toNat = 2 ^ 64 - 1 := rfl
  have hsize := entry.size.toNat_lt
  have hsat := Word.toNat_saturatingAdd pool.totalBytes entry.size
  have hbytes' := UInt64.le_iff_toNat_le.mp hbytes
  -- the saturating sum is the real one: below the limit, or because the pool was empty
  have hexact : pool.totalBytes.toNat + entry.size.toNat < 2 ^ 64 := by
    obtain hbound | hsingle := hconfig
    · rw [UInt64.lt_iff_toNat_lt] at hbound
      omega
    · have hone : config.maxTxCount.toNat ≤ 1 := UInt64.le_iff_toNat_le.mp hsingle
      have hempty : pool.byId = ∅ := by
        rw [← Std.ExtTreeMap.isEmpty_iff, Std.ExtTreeMap.isEmpty_eq_size_beq_zero]
        simp only [beq_iff_eq]
        omega
      have htotal := h.totalBytes_eq
      rw [BytesExact, hempty, total_empty] at htotal
      omega
  exact ⟨h.config_eq, h.totalBytes_eq.insertEntry hnew hexact, le_trans Std.ExtTreeMap.size_insert_le hcount, hbytes⟩

/-! ### Runs -/

inductive Op where
  | add (now : UInt64) (entry : MempoolEntry)
  | remove (txId : TxId)
  | removeConfirmed (spent : Std.ExtTreeSet OutPoint)
  | evictExpired (now : UInt64)
  | getBatch (n : Nat)

def step (pool : ClearPool) : Op → Option ClearPool
  | .add now entry => (pool.add now entry).map Prod.snd
  | .remove txId => some (pool.remove txId).2
  | .removeConfirmed spent => some (pool.removeConfirmed spent).2
  | .evictExpired now => some (pool.evictExpired now).2
  | .getBatch _ => some pool

def run (pool : ClearPool) (ops : List Op) : Option ClearPool := ops.foldlM step pool

section Runs

variable {P : ClearPool → Prop}

/-- **One operation keeps the indexes, and what removals and insertions into free room keep.** -/
theorem RemovalInvariant.step (hP : RemovalInvariant P)
    (hinsert : ∀ room entry, P room → room.HasRoom entry.size → entry.txId ∉ room.byId → P (room.insertEntry entry))
    (hpool : pool.Coherent) (h : P pool) (op : Op) : ∃ pool', pool.step op = some pool' ∧ pool'.Coherent ∧ P pool' := by
  cases op with
  | add now entry =>
      obtain ⟨result, pool', hadd, ⟨-, hcoherent, hkept⟩ | ⟨-, room, hcoherent, hkept, hroom, hfresh, hunspent, rfl⟩⟩ :=
        hpool.add_cases hP h now entry
      · exact ⟨pool', by rw [ClearPool.step, hadd]; rfl, hcoherent, hkept⟩
      · exact ⟨_, by rw [ClearPool.step, hadd]; rfl, hcoherent.insertEntry hfresh hunspent,
          hinsert room entry hkept hroom hfresh⟩
  | remove txId => exact ⟨_, rfl, hpool.remove txId, hP pool txId h⟩
  | removeConfirmed spent => exact ⟨_, rfl, hpool.removeAll _, hP.removeAll h _⟩
  | evictExpired now => exact ⟨_, rfl, hpool.evictExpired now, hP.evictExpired h now⟩
  | getBatch n => exact ⟨pool, rfl, hpool, h⟩

theorem RemovalInvariant.run (hP : RemovalInvariant P)
    (hinsert : ∀ room entry, P room → room.HasRoom entry.size → entry.txId ∉ room.byId → P (room.insertEntry entry))
    (ops : List Op) (hpool : pool.Coherent) (h : P pool) :
    ∃ pool', pool.run ops = some pool' ∧ pool'.Coherent ∧ P pool' := by
  induction ops generalizing pool with
  | nil => exact ⟨pool, rfl, hpool, h⟩
  | cons op ops ih =>
      obtain ⟨next, hstep, hnext, hkept⟩ := hP.step hinsert hpool h op
      obtain ⟨pool', hrun, hpool', hkept'⟩ := ih hnext hkept
      refine ⟨pool', ?_, hpool', hkept'⟩
      rw [ClearPool.run, List.foldlM_cons, hstep]
      exact hrun

end Runs

theorem Accounted.run (hconfig : config.Bounded) (ops : List Op) (hpool : pool.Coherent)
    (h : Accounted config pool) : ∃ pool', pool.run ops = some pool' ∧ pool'.Coherent ∧ Accounted config pool' :=
  (Accounted.removalInvariant config).run (fun _ _ hroom hfits hnew => hroom.insertEntry hconfig hfits hnew) ops hpool h

/-- The representation invariant: the id index and the priority index hold the same entries one to one, the outpoint index is the disjoint union of the inputs, the byte counter is the sum of the sizes, the limits hold, and the listings are complete, sorted and without repetition. -/
structure Represented (pool : ClearPool) : Prop where
  byId_txId : ∀ (txId : TxId) (entry : MempoolEntry), pool.byId[txId]? = some entry → entry.txId = txId
  byPriority_iff : ∀ (key : PriorityKey) (txId : TxId),
    pool.byPriority[key]? = some txId ↔ ∃ entry, pool.byId[txId]? = some entry ∧ key = .fromEntry entry
  spent_iff : ∀ (outpoint : OutPoint) (txId : TxId),
    pool.spentOutpoints[outpoint]? = some txId ↔ ∃ entry, pool.byId[txId]? = some entry ∧ outpoint ∈ entry.tx.spends
  spent_disjoint : ∀ entry entry', pool.Holds entry → pool.Holds entry' →
    ∀ outpoint ∈ entry.tx.spends, outpoint ∈ entry'.tx.spends → entry = entry'
  totalBytes_eq : pool.totalBytes.toNat = total (fun entry => entry.size.toNat) pool.byId
  count_le : pool.byId.size ≤ pool.config.maxTxCount.toNat
  bytes_le : pool.totalBytes ≤ pool.config.maxPoolBytes
  allSorted_sorted : pool.allSorted.Pairwise MempoolEntry.Before
  allSorted_nodup : pool.allSorted.Nodup
  mem_allSorted : ∀ entry, entry ∈ pool.allSorted ↔ pool.Holds entry
  getBatch_eq : ∀ n, pool.getBatch n = pool.allSorted.take n

theorem Represented.of_accounted (h : pool.Coherent) (hcounted : Accounted config pool) : pool.Represented where
  byId_txId := h.txId_eq
  byPriority_iff := h.byPriority_iff
  spent_iff := h.spent_iff
  spent_disjoint := by
    intro entry entry' hentry hentry' outpoint hop hop'
    obtain ⟨txId, hget⟩ := hentry
    obtain ⟨txId', hget'⟩ := hentry'
    obtain rfl := h.disjoint hget hget' hop hop'
    exact Option.some.inj (hget.symm.trans hget')
  totalBytes_eq := hcounted.totalBytes_eq
  count_le := hcounted.config_eq ▸ hcounted.count_le
  bytes_le := hcounted.config_eq ▸ hcounted.bytes_le
  allSorted_sorted := h.pairwise_allSorted
  allSorted_nodup := h.nodup_allSorted
  mem_allSorted := fun _ => h.mem_allSorted_iff
  getBatch_eq := h.getBatch_eq

/-! ### Losing bytes -/

private theorem evictExpired_zero (pool : ClearPool) : (pool.evictExpired 0).2 = pool := by
  have hcutoff : Word.saturatingSub 0 pool.config.maxAgeSecs = 0 := by
    rw [← UInt64.toNat_inj, Word.toNat_saturatingSub]
    exact Nat.zero_sub _
  have hnone : (pool.byId.values.filter fun entry => decide (entry.addedAt < 0)) = [] := by
    apply List.filter_eq_nil_iff.mpr
    intro entry _
    simp [UInt64.not_lt_zero]
  dsimp only [evictExpired]
  rw [hcutoff, hnone]
  rfl

theorem add_of_hasRoom (hnew : entry.txId ∉ pool.byId) (hfee : ¬ entry.fee < pool.config.minFee)
    (hspends : entry.tx.spends = []) (hroom : pool.HasRoom entry.size) :
    pool.add 0 entry = some (.ok entry.txId, pool.insertEntry entry) := by
  have hdouble : pool.findDoubleSpend entry.tx = none := by
    rw [findDoubleSpend, hspends]
    rfl
  rw [ClearPool.add, if_neg hnew, if_neg hfee, hdouble]
  dsimp only
  rw [evictExpired_zero, ClearPool.makeRoom, Loop.run, makeRoomStep_of_hasRoom hroom]

/-- A transaction that spends nothing and has a claimed size, at the highest fee. -/
def claimedSize (tag : UInt8) (size : UInt64) : MempoolEntry where
  tx := ⟨0, [], [], ⟨none, none⟩, 0, 0⟩
  txId := ⟨tag :: List.replicate 31 tag, rfl⟩
  fee := Word.max
  size := size
  feeDensity := 0
  addedAt := 0

/-- An entry as large as the word, and one more byte. -/
def overfill : List Op := [.add 0 (claimedSize 0 Word.max), .add 0 (claimedSize 1 1)]

/-- The two entries are accepted, and the second one is not counted. -/
theorem run_overfill (hbytes : config.maxPoolBytes = Word.max) (hcount : 1 < config.maxTxCount) :
    (new config).run overfill = some (((new config).insertEntry (claimedSize 0 Word.max)).insertEntry (claimedSize 1 1)) := by
  have hle : ∀ w : UInt64, w ≤ Word.max := fun w => UInt64.le_iff_toNat_le.mpr (Nat.le_of_lt_succ w.toNat_lt)
  have hlimit : ∀ w : UInt64, w ≤ config.maxPoolBytes := fun w => hbytes ▸ hle w
  have hcount' : 1 < config.maxTxCount.toNat := UInt64.lt_iff_toNat_lt.mp hcount
  have hfirst : (new config).add 0 (claimedSize 0 Word.max) =
      some (.ok (claimedSize 0 Word.max).txId, (new config).insertEntry (claimedSize 0 Word.max)) := by
    apply add_of_hasRoom Std.ExtTreeMap.not_mem_empty (UInt64.not_lt.mpr (hle _)) rfl
    refine ⟨?_, hlimit _⟩
    show (∅ : Std.ExtTreeMap TxId MempoolEntry).size < config.maxTxCount.toNat
    rw [Std.ExtTreeMap.size_empty]
    omega
  have hsecond : ((new config).insertEntry (claimedSize 0 Word.max)).add 0 (claimedSize 1 1) =
      some (.ok (claimedSize 1 1).txId,
        ((new config).insertEntry (claimedSize 0 Word.max)).insertEntry (claimedSize 1 1)) := by
    apply add_of_hasRoom _ (UInt64.not_lt.mpr (hle _)) rfl
    · refine ⟨lt_of_le_of_lt Std.ExtTreeMap.size_insert_le ?_, hlimit _⟩
      show (∅ : Std.ExtTreeMap TxId MempoolEntry).size + 1 < config.maxTxCount.toNat
      rw [Std.ExtTreeMap.size_empty]
      omega
    · show (claimedSize 1 1).txId ∉ (∅ : Std.ExtTreeMap TxId MempoolEntry).insert (claimedSize 0 Word.max).txId _
      rw [TreeMap.mem_insert, not_or]
      exact ⟨by decide, Std.ExtTreeMap.not_mem_empty⟩
  rw [overfill, run, List.foldlM_cons, step, hfirst]
  show [Op.add 0 (claimedSize 1 1)].foldlM step _ = _
  rw [List.foldlM_cons, step, hsecond]
  rfl

private theorem totalBytes_insertEntry (pool : ClearPool) (entry : MempoolEntry) :
    (pool.insertEntry entry).totalBytes = Word.saturatingAdd pool.totalBytes entry.size := rfl

theorem totalBytes_overfill :
    (((new config).insertEntry (claimedSize 0 Word.max)).insertEntry (claimedSize 1 1)).totalBytes.toNat = 2 ^ 64 - 1 ∧
      total (fun entry => entry.size.toNat)
        (((new config).insertEntry (claimedSize 0 Word.max)).insertEntry (claimedSize 1 1)).byId = 2 ^ 64 := by
  refine ⟨?_, ?_⟩
  · have hempty : (new config).totalBytes.toNat = 0 := rfl
    have hlarge : (claimedSize 0 Word.max).size.toNat = 2 ^ 64 - 1 := by decide +kernel
    have hone : (claimedSize 1 1).size.toNat = 1 := by decide +kernel
    rw [totalBytes_insertEntry, totalBytes_insertEntry, Word.toNat_saturatingAdd, Word.toNat_saturatingAdd]
    omega
  show total _ (((∅ : Std.ExtTreeMap TxId MempoolEntry).insert (claimedSize 0 Word.max).txId _).insert
    (claimedSize 1 1).txId _) = 2 ^ 64
  rw [total_insert, total_insert, total_empty]
  · rfl
  · exact notMem_iff.mp Std.ExtTreeMap.not_mem_empty
  · apply notMem_iff.mp
    rw [TreeMap.mem_insert, not_or]
    exact ⟨by decide, Std.ExtTreeMap.not_mem_empty⟩

end ClearPool

/-- **The representation invariant of the mempool.** Starting from the empty pool, every sequence of operations with any entries returns a pool in which the two indexes of the entries agree one to one, the outpoint index is the disjoint union of their inputs, the byte counter is the sum of their sizes, both limits hold, and the listings are complete, sorted and free of repetitions, if and only if the byte limit is below the largest word or the pool may hold at most one transaction. -/
theorem clearPool_represented_iff (config : ClearPoolConfig) :
    (∀ ops : List ClearPool.Op, ∃ pool, (ClearPool.new config).run ops = some pool ∧ pool.Represented) ↔
      config.maxPoolBytes < Word.max ∨ config.maxTxCount ≤ 1 := by
  constructor
  · intro h
    by_contra hconfig
    rw [not_or, UInt64.not_lt, UInt64.not_le] at hconfig
    have hbytes : config.maxPoolBytes = Word.max := by
      apply UInt64.le_antisymm _ hconfig.1
      exact UInt64.le_iff_toNat_le.mpr (Nat.le_of_lt_succ config.maxPoolBytes.toNat_lt)
    obtain ⟨pool, hrun, hpool⟩ := h ClearPool.overfill
    rw [ClearPool.run_overfill hbytes hconfig.2] at hrun
    cases hrun
    have hsum := hpool.totalBytes_eq
    rw [ClearPool.totalBytes_overfill.1, ClearPool.totalBytes_overfill.2] at hsum
    omega
  · intro hconfig ops
    obtain ⟨pool, hrun, hpool, hcounted⟩ :=
      ClearPool.Accounted.run hconfig ops (ClearPool.Coherent.new config) (ClearPool.Accounted.new config)
    exact ⟨pool, hrun, .of_accounted hpool hcounted⟩

/-- A pool without a byte limit accepts one entry as large as the word and another of one byte, and its counter misses a byte. -/
theorem clearPool_overfill_loses_bytes :
    ∃ (config : ClearPoolConfig) (ops : List ClearPool.Op) (pool : ClearPool),
      (ClearPool.new config).run ops = some pool ∧
        pool.totalBytes.toNat ≠ TreeMap.total (fun entry => entry.size.toNat) pool.byId := by
  refine ⟨⟨2, Word.max, 0, 0⟩, ClearPool.overfill, _, ClearPool.run_overfill rfl (by decide), ?_⟩
  rw [ClearPool.totalBytes_overfill.1, ClearPool.totalBytes_overfill.2]
  omega

end QuantumVault
