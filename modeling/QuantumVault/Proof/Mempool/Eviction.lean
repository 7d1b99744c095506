import QuantumVault.Lib.Sorting
import QuantumVault.Proof.Mempool.Representation

/-!
# What an admission costs the pool

An admission first drops the expired entries and then the cheapest ones, one at a time, until the new entry fits. The loop takes entries off the end of the priority list, so it stops at the longest front of the list that leaves room. It never looks at what the new entry pays, and it has emptied the pool by the time it finds that the entry fits nowhere. What an admission costs is therefore decided by one front of the list, the entries that pay more than the new one.
-/

namespace QuantumVault

open TreeMap

namespace ClearPool

variable {config : ClearPoolConfig} {pool pool' : ClearPool} {entry e : MempoolEntry} {size now : UInt64}

/-! ### The pool as a list -/

/-- Where the byte limit can refuse anything, the byte counter is the sum of the sizes. -/
structure Counted (config : ClearPoolConfig) (pool : ClearPool) : Prop where
  config_eq : pool.config = config
  bytes : config.maxPoolBytes < Word.max → pool.BytesExact

theorem Counted.removalInvariant (config : ClearPoolConfig) : RemovalInvariant (Counted config) :=
  fun pool txId h => ⟨(config_remove pool txId).trans h.config_eq, fun hlimit => (h.bytes hlimit).remove txId⟩

theorem Counted.insertEntry (h : Counted config pool) (hroom : pool.HasRoom entry.size) (hnew : entry.txId ∉ pool.byId) :
    Counted config (pool.insertEntry entry) := by
  refine ⟨h.config_eq, fun hlimit => (h.bytes hlimit).insertEntry hnew ?_⟩
  have hmax : Word.max.toNat = 2 ^ 64 - 1 := rfl
  have hbytes := hroom.2
  rw [h.config_eq, UInt64.le_iff_toNat_le, Word.toNat_saturatingAdd] at hbytes
  rw [UInt64.lt_iff_toNat_lt] at hlimit
  omega

theorem Counted.run (config : ClearPoolConfig) (ops : List Op) :
    ∃ pool, (new config).run ops = some pool ∧ pool.Coherent ∧ Counted config pool :=
  (Counted.removalInvariant config).run (fun _ _ h => h.insertEntry) ops (.new config) ⟨rfl, fun _ => .new config⟩

theorem Coherent.allSorted_perm (h : pool.Coherent) : pool.allSorted.Perm pool.byId.values := by
  have hnodup : pool.byId.values.Nodup := by
    rw [values_eq]
    refine List.Nodup.map_on ?_ (nodup_toList pool.byId)
    rintro ⟨txId, e⟩ he ⟨txId', e'⟩ he' rfl
    rw [Std.ExtTreeMap.mem_toList_iff_getElem?_eq_some] at he he'
    rw [← h.txId_eq txId e he, ← h.txId_eq txId' e he']
  rw [List.perm_ext_iff_of_nodup h.nodup_allSorted hnodup]
  intro e
  rw [h.mem_allSorted_iff, mem_values]
  rfl

private theorem Coherent.length_allSorted (h : pool.Coherent) : pool.allSorted.length = pool.byId.size := by
  rw [h.allSorted_perm.length_eq, values_eq, List.length_map, Std.ExtTreeMap.length_toList]

private theorem Coherent.sum_allSorted (h : pool.Coherent) :
    (pool.allSorted.map fun e => e.size.toNat).sum = total (fun e => e.size.toNat) pool.byId := by
  rw [(h.allSorted_perm.map _).sum_eq, values_eq, List.map_map]
  rfl

/-- The kept entries leave room for one more of a size. Bytes count up to the largest word. -/
def Fits (config : ClearPoolConfig) (kept : List MempoolEntry) (size : UInt64) : Prop :=
  kept.length < config.maxTxCount.toNat ∧
    min ((kept.map fun e => e.size.toNat).sum + size.toNat) (2 ^ 64 - 1) ≤ config.maxPoolBytes.toNat

theorem Fits.of_prefix {kept kept' : List MempoolEntry} (h : Fits config kept size) (hfront : kept' <+: kept) :
    Fits config kept' size := by
  obtain ⟨rest, rfl⟩ := hfront
  obtain ⟨hcount, hbytes⟩ := h
  rw [List.map_append, List.sum_append] at hbytes
  rw [List.length_append] at hcount
  exact ⟨by omega, by omega⟩

private theorem hasRoom_iff (h : pool.Coherent) (hcounted : Counted config pool) :
    pool.HasRoom size ↔ Fits config pool.allSorted size := by
  have hmax : Word.max.toNat = 2 ^ 64 - 1 := rfl
  have hword := config.maxPoolBytes.toNat_lt
  rw [HasRoom, Fits, h.length_allSorted, hcounted.config_eq]
  apply and_congr_right
  intro _
  rw [h.sum_allSorted, UInt64.le_iff_toNat_le, Word.toNat_saturatingAdd]
  by_cases hlimit : config.maxPoolBytes < Word.max
  · rw [hcounted.bytes hlimit]
  · -- the largest word refuses nothing
    rw [UInt64.not_lt, UInt64.le_iff_toNat_le] at hlimit
    omega

theorem full_iff (h : pool.Coherent) (hcounted : Counted config pool) :
    (pool.byId.size ≥ pool.config.maxTxCount.toNat ∨
      Word.saturatingAdd pool.totalBytes size > pool.config.maxPoolBytes) ↔ ¬ Fits config pool.allSorted size := by
  rw [← hasRoom_iff h hcounted, HasRoom, not_and_or, Nat.not_lt, UInt64.not_le]

/-! ### Removals on the list -/

theorem Coherent.eq_of_txId_eq (h : pool.Coherent) {e' : MempoolEntry} (he : pool.Holds e) (he' : pool.Holds e')
    (hid : e.txId = e'.txId) : e = e' := by
  obtain ⟨txId, hget⟩ := he
  obtain ⟨txId', hget'⟩ := he'
  rw [h.txId_eq txId e hget, h.txId_eq txId' e' hget'] at hid
  subst hid
  exact Option.some.inj (hget.symm.trans hget')

theorem Coherent.holds_removeAll (h : pool.Coherent) (txIds : List TxId) :
    (pool.removeAll txIds).2.Holds e ↔ pool.Holds e ∧ e.txId ∉ txIds := by
  constructor
  · rintro ⟨txId, hget⟩
    rw [byId_removeAll, getElem?_eraseAll] at hget
    split at hget
    · cases hget
    · rename_i hkept
      rw [h.txId_eq txId e hget]
      exact ⟨⟨txId, hget⟩, hkept⟩
  · rintro ⟨⟨txId, hget⟩, hkept⟩
    rw [h.txId_eq txId e hget] at hkept
    refine ⟨txId, ?_⟩
    rw [byId_removeAll, getElem?_eraseAll, if_neg hkept]
    exact hget

theorem Coherent.allSorted_eq_filter (h : pool.Coherent) (h' : pool'.Coherent) {kept : MempoolEntry → Bool}
    (hkept : ∀ e, pool'.Holds e ↔ pool.Holds e ∧ kept e = true) : pool'.allSorted = pool.allSorted.filter kept := by
  have hperm : pool'.allSorted.Perm (pool.allSorted.filter kept) := by
    rw [List.perm_ext_iff_of_nodup h'.nodup_allSorted (h.nodup_allSorted.filter _)]
    intro e
    rw [h'.mem_allSorted_iff, hkept, List.mem_filter, h.mem_allSorted_iff]
  refine List.Perm.eq_of_pairwise (fun a b _ _ hab hba => ?_) h'.pairwise_allSorted (h.pairwise_allSorted.filter _) hperm
  rw [← compare_fromEntry_eq_lt] at hab hba
  exact absurd hba (Std.OrientedCmp.not_lt_of_lt hab)

def Expired (pool : ClearPool) (now : UInt64) (e : MempoolEntry) : Prop :=
  e.addedAt < Word.saturatingSub now pool.config.maxAgeSecs

instance (pool : ClearPool) (now : UInt64) (e : MempoolEntry) : Decidable (pool.Expired now e) :=
  inferInstanceAs (Decidable (_ < _))

theorem Coherent.allSorted_evictExpired (h : pool.Coherent) (now : UInt64) :
    (pool.evictExpired now).2.allSorted = pool.allSorted.filter fun e => ¬ pool.Expired now e := by
  refine h.allSorted_eq_filter (h.evictExpired now) fun e => ?_
  rw [ClearPool.evictExpired, h.holds_removeAll]
  refine and_congr_right fun hholds => ?_
  rw [decide_eq_true_iff, not_iff_not, List.mem_map]
  constructor
  · rintro ⟨e', he', hid⟩
    obtain ⟨hmem, hexpired⟩ := List.mem_filter.mp he'
    rw [h.eq_of_txId_eq (mem_values.mp hmem) hholds hid] at hexpired
    exact of_decide_eq_true hexpired
  · intro hexpired
    exact ⟨e, List.mem_filter.mpr ⟨mem_values.mpr hholds, decide_eq_true hexpired⟩, rfl⟩

theorem Coherent.maxKey?_byPriority (h : pool.Coherent) :
    pool.byPriority.maxKey? = (pool.allSorted.map PriorityKey.fromEntry).getLast? := by
  rw [h.map_allSorted, Std.ExtTreeMap.maxKey?_eq_getLast?_keys]

theorem Coherent.evictLowestFee_of_nil (h : pool.Coherent) (hnil : pool.allSorted = []) :
    pool.evictLowestFee = (false, pool) := by
  rw [ClearPool.evictLowestFee, h.maxKey?_byPriority, hnil]
  rfl

theorem Coherent.evictLowestFee_of_concat (h : pool.Coherent) {front : List MempoolEntry} {last : MempoolEntry}
    (hsorted : pool.allSorted = front ++ [last]) :
    ∃ pool', pool.evictLowestFee = (true, pool') ∧ pool'.allSorted = front := by
  have hremove : (pool.removeAll [last.txId]).2 = (pool.remove last.txId).2 := removeAll_snd pool [last.txId]
  refine ⟨(pool.remove last.txId).2, ?_, ?_⟩
  · rw [ClearPool.evictLowestFee, h.maxKey?_byPriority, hsorted, List.map_append, List.map_singleton,
      List.getLast?_concat]
    rfl
  · have hfilter : (pool.remove last.txId).2.allSorted = pool.allSorted.filter fun e => e.txId ∉ [last.txId] := by
      refine h.allSorted_eq_filter (h.remove _) fun e => ?_
      rw [← hremove, h.holds_removeAll, decide_eq_true_iff]
    have hfront : ∀ e ∈ front, e.txId ≠ last.txId := by
      intro e he hid
      have hmem : ∀ e ∈ front ++ [last], pool.Holds e := fun e he => h.mem_allSorted_iff.mp (hsorted ▸ he)
      have hsame := h.eq_of_txId_eq (hmem e (List.mem_append_left _ he)) (hmem last (by simp)) hid
      have hnodup := h.nodup_allSorted
      rw [hsorted, List.nodup_append] at hnodup
      exact hnodup.2.2 e he last (by simp) hsame
    rw [hfilter, hsorted, List.filter_append, List.filter_eq_self.mpr fun e he => by simpa using hfront e he]
    simp

/-! ### The capacity loop -/

/-- The loop is at a front of the list, and every front that leaves room is still ahead of it. -/
private structure Shrinking (config : ClearPoolConfig) (size : UInt64) (listed : List MempoolEntry) (x : ClearPool) :
    Prop where
  coherent : x.Coherent
  counted : Counted config x
  isFront : x.allSorted <+: listed
  ahead : ∀ front, front <+: listed → Fits config front size → front <+: x.allSorted

private theorem Shrinking.next {listed : List MempoolEntry} {x y : ClearPool} (h : Shrinking config size listed x)
    (hstep : makeRoomStep size x = .inl y) : Shrinking config size listed y ∧ y.byPriority.size < x.byPriority.size := by
  rw [makeRoomStep] at hstep
  split at hstep
  · rename_i hfull
    have hnot := (full_iff h.coherent h.counted).mp hfull
    split at hstep
    · rename_i hevict
      cases hstep
      obtain ⟨hcoherent, -, hlt⟩ := h.coherent.evictLowestFee hevict
      have hcounted := (Counted.removalInvariant config).evictLowestFee h.counted
      rw [hevict] at hcounted
      rcases List.eq_nil_or_concat' x.allSorted with hnil | ⟨front, last, hsorted⟩
      · rw [h.coherent.evictLowestFee_of_nil hnil] at hevict
        cases hevict
      · obtain ⟨y', hevict', hfront⟩ := h.coherent.evictLowestFee_of_concat hsorted
        rw [hevict] at hevict'
        cases hevict'
        refine ⟨⟨hcoherent, hcounted, ?_, fun front' hlisted hfits => ?_⟩, hlt⟩
        · rw [hfront]
          exact ((List.prefix_append front [last]).trans (hsorted ▸ List.prefix_rfl)).trans h.isFront
        · have hahead := h.ahead front' hlisted hfits
          rw [hsorted, List.prefix_concat_iff] at hahead
          rw [hfront]
          refine hahead.resolve_left fun hall => hnot ?_
          rwa [hsorted, ← hall]
    · cases hstep
  · cases hstep

/-- **The loop stops at the longest front of the list that leaves room.** If no front does, it has emptied the pool. -/
theorem Counted.makeRoom (h : pool.Coherent) (hcounted : Counted config pool) (size : UInt64) :
    ∃ result room, pool.makeRoom size = some (result, room) ∧ room.Coherent ∧ room.allSorted <+: pool.allSorted ∧
      (result = .ok () ∧ Fits config room.allSorted size ∧
          (∀ front, front <+: pool.allSorted → Fits config front size → front <+: room.allSorted) ∨
        (∃ e, result = .error e) ∧ room.allSorted = [] ∧
          ∀ front, front <+: pool.allSorted → ¬ Fits config front size) := by
  have hstart : Shrinking config size pool.allSorted pool := ⟨h, hcounted, List.prefix_rfl, fun _ hfront _ => hfront⟩
  obtain ⟨x, ⟨result, room⟩, hx, hdone, hrun⟩ :=
    Loop.exists_run (fun _ _ => Shrinking.next) hstart (Nat.lt_succ_self pool.byPriority.size)
  refine ⟨result, room, hrun, ?_⟩
  rw [makeRoomStep] at hdone
  split at hdone
  · rename_i hfull
    have hnot := (full_iff hx.coherent hx.counted).mp hfull
    rcases List.eq_nil_or_concat' x.allSorted with hnil | ⟨front, last, hsorted⟩
    · rw [hx.coherent.evictLowestFee_of_nil hnil] at hdone
      cases hdone
      refine ⟨hx.coherent, hx.isFront, .inr ⟨⟨_, rfl⟩, hnil, fun front hfront hfits => hnot ?_⟩⟩
      have hahead := hx.ahead front hfront hfits
      rw [hnil, List.prefix_nil] at hahead
      rwa [hnil, ← hahead]
    · obtain ⟨y, hevict, -⟩ := hx.coherent.evictLowestFee_of_concat hsorted
      rw [hevict] at hdone
      cases hdone
  · rename_i hroom
    cases hdone
    rw [full_iff hx.coherent hx.counted, not_not] at hroom
    exact ⟨hx.coherent, hx.isFront, .inl ⟨rfl, hroom, hx.ahead⟩⟩

/-! ### Admissions -/

/-- The entries that have not expired and pay more than the new one, in priority order. -/
def denser (pool : ClearPool) (now : UInt64) (entry : MempoolEntry) : List MempoolEntry :=
  pool.allSorted.filter fun e => ¬ pool.Expired now e ∧ entry.feeDensity < e.feeDensity

theorem mem_denser (h : pool.Coherent) : e ∈ pool.denser now entry ↔
    pool.Holds e ∧ ¬ pool.Expired now e ∧ entry.feeDensity < e.feeDensity := by
  rw [denser, List.mem_filter, h.mem_allSorted_iff, decide_eq_true_iff]

private theorem Coherent.denser_isPrefix (h : pool.Coherent) (now : UInt64) (entry : MempoolEntry) :
    pool.denser now entry <+: (pool.evictExpired now).2.allSorted := by
  have hdenser : pool.denser now entry =
      (pool.evictExpired now).2.allSorted.filter fun e => entry.feeDensity < e.feeDensity := by
    rw [h.allSorted_evictExpired, List.filter_filter, denser]
    congr 1
    funext e
    simp [and_comm]
  rw [hdenser]
  refine Sorting.filter_isPrefix (h.evictExpired now).pairwise_allSorted fun a b hbefore hb => ?_
  rw [decide_eq_true_iff] at hb ⊢
  rcases hbefore with hlt | ⟨heq, -⟩
  · exact UInt64.lt_trans hb hlt
  · rwa [heq]

/-- The entry is refused before anything is evicted. -/
def RefusedEarly (pool : ClearPool) (entry : MempoolEntry) : Prop :=
  entry.txId ∈ pool.byId ∨ entry.fee < pool.config.minFee ∨ pool.findDoubleSpend entry.tx ≠ none

/-- If the entry is refused, every entry that had not expired is still there, and no entry was evicted that pays more than it. -/
structure Harmless (pool : ClearPool) (now : UInt64) (entry : MempoolEntry) (result : Except MempoolError TxId)
    (pool' : ClearPool) : Prop where
  refused (herror : ∃ e, result = .error e) (e : MempoolEntry) (hholds : pool.Holds e) (hfresh : ¬ pool.Expired now e) :
    pool'.Holds e
  evicted (e : MempoolEntry) (hholds : pool.Holds e) (hfresh : ¬ pool.Expired now e) (hgone : ¬ pool'.Holds e) :
    e.feeDensity ≤ entry.feeDensity

private theorem add_of_refusedEarly (h : pool.RefusedEarly entry) (now : UInt64) :
    ∃ e, pool.add now entry = some (.error e, pool) := by
  rw [ClearPool.add]
  split
  · exact ⟨_, rfl⟩
  rename_i hnew
  split
  · exact ⟨_, rfl⟩
  rename_i hfee
  split
  · exact ⟨_, rfl⟩
  rename_i hdouble
  exact absurd h (by rw [RefusedEarly, not_or, not_or, not_not]; exact ⟨hnew, hfee, hdouble⟩)

private theorem add_of_not_refusedEarly (h : ¬ pool.RefusedEarly entry) (now : UInt64) : pool.add now entry =
    match (pool.evictExpired now).2.makeRoom entry.size with
    | none => none
    | some (.error e, pool') => some (.error e, pool')
    | some (.ok (), pool') => some (.ok entry.txId, pool'.insertEntry entry) := by
  rw [RefusedEarly, not_or, not_or, not_not] at h
  obtain ⟨hnew, hfee, hdouble⟩ := h
  rw [ClearPool.add, if_neg hnew, if_neg hfee]
  split
  · rename_i hspend
    cases hdouble.symm.trans hspend
  · rfl

private theorem Coherent.holds_insertEntry (h : pool.Coherent) (hid : e.txId ≠ entry.txId) :
    (pool.insertEntry entry).Holds e ↔ pool.Holds e := by
  have hget : ∀ txId, (pool.insertEntry entry).byId[txId]? = if entry.txId = txId then some entry else pool.byId[txId]? :=
    fun txId => getElem?_insert
  constructor
  · rintro ⟨txId, hholds⟩
    rw [hget] at hholds
    split at hholds
    · cases hholds
      exact absurd rfl hid
    · exact ⟨txId, hholds⟩
  · rintro ⟨txId, hholds⟩
    rw [h.txId_eq txId e hholds] at hid
    exact ⟨txId, by rw [hget, if_neg (Ne.symm hid), hholds]⟩

/-- **What decides the cost of an admission.** It is harmless when the entry is refused early, when nothing was there to lose, and otherwise exactly when the entries that pay more leave room for it. -/
theorem Coherent.harmless_iff (h : pool.Coherent) (hcounted : Counted config pool) (now : UInt64) (entry : MempoolEntry) :
    ∃ result pool', pool.add now entry = some (result, pool') ∧
      (pool.Harmless now entry result pool' ↔ pool.RefusedEarly entry ∨ (∀ e, pool.Holds e → pool.Expired now e) ∨
        Fits config (pool.denser now entry) entry.size) := by
  by_cases hearly : pool.RefusedEarly entry
  · obtain ⟨e, hadd⟩ := add_of_refusedEarly hearly now
    refine ⟨_, _, hadd, iff_of_true ⟨fun _ _ hholds _ => hholds, ?_⟩ (Or.inl hearly)⟩
    exact fun e hholds _ hgone => absurd hholds hgone
  rw [or_iff_right hearly]
  have hexpired := h.evictExpired now
  obtain ⟨result, room, hroom, hcoherent, hfront, houtcome⟩ :=
    Counted.makeRoom hexpired ((Counted.removalInvariant config).evictExpired hcounted now) entry.size
  have hlisted : ∀ e, e ∈ (pool.evictExpired now).2.allSorted ↔ pool.Holds e ∧ ¬ pool.Expired now e := by
    intro e
    rw [h.allSorted_evictExpired, List.mem_filter, h.mem_allSorted_iff, decide_eq_true_iff]
  have hdenser := h.denser_isPrefix now entry
  rw [add_of_not_refusedEarly hearly, hroom]
  obtain ⟨rfl, hfits, hlongest⟩ | ⟨⟨error, rfl⟩, hempty, hnone⟩ := houtcome
  · refine ⟨_, _, rfl, ?_⟩
    have hid : ∀ e, pool.Holds e → e.txId ≠ entry.txId := by
      intro e hholds hid
      obtain ⟨txId, hget⟩ := hholds
      rw [h.txId_eq txId e hget] at hid
      exact hearly (Or.inl (hid ▸ mem_of_getElem? hget))
    have hkept : ∀ e, pool.Holds e → ((room.insertEntry entry).Holds e ↔ e ∈ room.allSorted) := by
      intro e hholds
      rw [hcoherent.holds_insertEntry (hid e hholds), hcoherent.mem_allSorted_iff]
    constructor
    · intro hharmless
      refine Or.inr (hfits.of_prefix ?_)
      have hsubset : ∀ e ∈ pool.denser now entry, e ∈ room.allSorted := by
        intro e he
        obtain ⟨hholds, hfresh, hlt⟩ := (mem_denser h).mp he
        rw [← hkept e hholds]
        by_contra hgone
        exact UInt64.not_le.mpr hlt (hharmless.evicted e hholds hfresh hgone)
      have hnodup : (pool.denser now entry).Nodup := h.nodup_allSorted.filter _
      exact List.prefix_of_prefix_length_le hdenser hfront (List.Nodup.subperm hnodup hsubset).length_le
    · have hok : ¬ ∃ error, (Except.ok entry.txId : Except MempoolError TxId) = .error error := by
        rintro ⟨error, herror⟩
        cases herror
      rintro (hall | hdenserFits)
      · exact ⟨fun herror => absurd herror hok, fun e hholds hfresh => absurd (hall e hholds) hfresh⟩
      · refine ⟨fun herror => absurd herror hok, fun e hholds hfresh hgone => ?_⟩
        by_contra hlt
        have hmem := (hlongest _ hdenser hdenserFits).subset ((mem_denser h).mpr ⟨hholds, hfresh, UInt64.not_le.mp hlt⟩)
        exact hgone ((hkept e hholds).mpr hmem)
  · refine ⟨_, _, rfl, ?_⟩
    rw [or_iff_left (hnone _ hdenser)]
    constructor
    · intro hharmless e hholds
      by_contra hfresh
      have hstill := hcoherent.mem_allSorted_iff.mpr (hharmless.refused ⟨_, rfl⟩ e hholds hfresh)
      rw [hempty] at hstill
      cases hstill
    · exact fun hall => ⟨fun _ e hholds hfresh => absurd (hall e hholds) hfresh,
        fun e hholds hfresh => absurd (hall e hholds) hfresh⟩

end ClearPool

/-- **When an admission to the mempool costs no one their place.** In every pool that any operations on an empty one lead to, and for every entry and time: a refusal keeps all entries that had not expired, and no eviction hits an entry that pays more than the new one, exactly when the entry is refused before anything is evicted, or nothing unexpired is there, or the unexpired entries that pay more leave room for it. -/
theorem clearPool_add_harmless_iff (config : ClearPoolConfig) (ops : List ClearPool.Op) :
    ∃ pool, (ClearPool.new config).run ops = some pool ∧ ∀ (now : UInt64) (entry : MempoolEntry),
      ∃ result pool', pool.add now entry = some (result, pool') ∧
        (pool.Harmless now entry result pool' ↔ pool.RefusedEarly entry ∨ (∀ e, pool.Holds e → pool.Expired now e) ∨
          ClearPool.Fits config (pool.denser now entry) entry.size) := by
  obtain ⟨pool, hrun, hcoherent, hcounted⟩ := ClearPool.Counted.run config ops
  exact ⟨pool, hrun, fun now entry => hcoherent.harmless_iff hcounted now entry⟩

namespace ClearPool

/-- A transaction that spends nothing, entered with a fee and a size. -/
def pricedEntry (tag : UInt8) (fee size : UInt64) : MempoolEntry :=
  .new ⟨0, [], [], ⟨none, none⟩, 0, 0⟩ (repeatedByte tag) fee size 0

def smallConfig : ClearPoolConfig := ⟨10, 1000, 0, 3600⟩

private theorem run_pricedEntry : (new smallConfig).run [.add 0 (pricedEntry 1 1000 100)] =
    some ((new smallConfig).insertEntry (pricedEntry 1 1000 100)) := by
  have hroom : (new smallConfig).HasRoom (pricedEntry 1 1000 100).size := by
    refine ⟨?_, by decide⟩
    show (∅ : Std.ExtTreeMap TxId MempoolEntry).size < 10
    rw [Std.ExtTreeMap.size_empty]
    norm_num
  have hadd : (new smallConfig).add 0 (pricedEntry 1 1000 100) =
      some (.ok (pricedEntry 1 1000 100).txId, (new smallConfig).insertEntry (pricedEntry 1 1000 100)) :=
    add_of_hasRoom Std.ExtTreeMap.not_mem_empty (by decide) rfl hroom
  rw [run, List.foldlM_cons, step, hadd]
  rfl

end ClearPool

/-- An entry larger than the pool is refused, and the pool is empty afterwards. -/
theorem clearPool_refusal_empties_pool : ¬ ∀ (config : ClearPoolConfig) (ops : List ClearPool.Op) (pool : ClearPool),
    (ClearPool.new config).run ops = some pool → ∀ (now : UInt64) (entry : MempoolEntry) result pool',
      pool.add now entry = some (result, pool') → pool.Harmless now entry result pool' := by
  intro h
  obtain ⟨pool, hrun, hcoherent, hcounted⟩ :=
    ClearPool.Counted.run ClearPool.smallConfig [.add 0 (ClearPool.pricedEntry 1 1000 100)]
  obtain ⟨result, pool', hadd, hiff⟩ := hcoherent.harmless_iff hcounted 0 (ClearPool.pricedEntry 2 1 2000)
  have hcost := hiff.mp (h _ _ _ hrun _ _ _ _ hadd)
  rw [ClearPool.run_pricedEntry] at hrun
  cases hrun
  rcases hcost with (hmem | hlow | hspend) | hexpired | hfits
  · have hids := TreeMap.mem_insert.mp hmem
    rcases hids with hsame | hempty
    · exact absurd hsame (by decide)
    · exact absurd hempty Std.ExtTreeMap.not_mem_empty
  · exact absurd hlow (by decide)
  · exact hspend rfl
  · have hholds : ((ClearPool.new ClearPool.smallConfig).insertEntry (ClearPool.pricedEntry 1 1000 100)).Holds
        (ClearPool.pricedEntry 1 1000 100) := ⟨_, Std.ExtTreeMap.getElem?_insert_self⟩
    exact absurd (hexpired _ hholds) (by decide)
  · have hbytes := hfits.2
    have hsize : (ClearPool.pricedEntry 2 1 2000).size.toNat = 2000 := rfl
    have hlimit : ClearPool.smallConfig.maxPoolBytes.toNat = 1000 := rfl
    omega

end QuantumVault
