import QuantumVault.Mempool.ClearPool

/-!
# The indexes of the mempool agree

The pool keeps three indexes of one set of entries. Every operation keeps them in agreement, removals leave a part of the pool, and the capacity loop always ends.
-/

namespace QuantumVault

open TreeMap

namespace ClearPool

/-- The three indexes hold the same entries. -/
structure Coherent (pool : ClearPool) : Prop where
  txId_eq : ∀ (txId : TxId) (entry : MempoolEntry), pool.byId[txId]? = some entry → entry.txId = txId
  byPriority_iff : ∀ (key : PriorityKey) (txId : TxId),
    pool.byPriority[key]? = some txId ↔ ∃ entry, pool.byId[txId]? = some entry ∧ key = .fromEntry entry
  spent_iff : ∀ (outpoint : OutPoint) (txId : TxId),
    pool.spentOutpoints[outpoint]? = some txId ↔ ∃ entry, pool.byId[txId]? = some entry ∧ outpoint ∈ entry.tx.spends

def Holds (pool : ClearPool) (entry : MempoolEntry) : Prop := ∃ txId : TxId, pool.byId[txId]? = some entry

def Within (pool pool' : ClearPool) : Prop :=
  ∀ (txId : TxId) (entry : MempoolEntry), pool.byId[txId]? = some entry → pool'.byId[txId]? = some entry

variable {pool pool' pool'' : ClearPool} {txId : TxId} {entry : MempoolEntry}

theorem Within.refl (pool : ClearPool) : pool.Within pool := fun _ _ h => h

theorem Within.trans (h : pool.Within pool') (h' : pool'.Within pool'') : pool.Within pool'' :=
  fun txId entry hentry => h' txId entry (h txId entry hentry)

theorem Coherent.new (config : ClearPoolConfig) : (new config).Coherent := by
  constructor <;> simp [ClearPool.new]

theorem Coherent.disjoint (h : pool.Coherent) {txId' : TxId} {entry' : MempoolEntry} {outpoint : OutPoint}
    (hentry : pool.byId[txId]? = some entry) (hentry' : pool.byId[txId']? = some entry')
    (hop : outpoint ∈ entry.tx.spends) (hop' : outpoint ∈ entry'.tx.spends) : txId = txId' := by
  have hspent := (h.spent_iff outpoint txId).mpr ⟨entry, hentry, hop⟩
  have hspent' := (h.spent_iff outpoint txId').mpr ⟨entry', hentry', hop'⟩
  exact Option.some.inj (hspent.symm.trans hspent')

/-! ### Removing -/

theorem remove_of_none (h : pool.byId[txId]? = none) : pool.remove txId = (none, pool) := by
  rw [remove, h]

theorem byId_remove (pool : ClearPool) (txId : TxId) : (pool.remove txId).2.byId = pool.byId.erase txId := by
  unfold remove
  split
  · rename_i hnone
    refine Std.ExtTreeMap.ext_getElem? fun a => ?_
    rw [getElem?_erase]
    split
    · rename_i heq
      rw [← heq, hnone]
    · rfl
  · rfl

theorem within_remove (pool : ClearPool) (txId : TxId) : (pool.remove txId).2.Within pool := by
  intro txId' entry hentry
  rw [byId_remove, getElem?_erase] at hentry
  split at hentry
  · cases hentry
  · exact hentry

theorem Coherent.remove (h : pool.Coherent) (txId : TxId) : (pool.remove txId).2.Coherent := by
  cases hget : pool.byId[txId]? with
  | none =>
      rw [remove_of_none hget]
      exact h
  | some entry =>
      have hself := h.txId_eq txId entry hget
      rw [ClearPool.remove, hget]
      refine ⟨?_, ?_, ?_⟩
      · intro txId' entry' hentry'
        dsimp only at hentry'
        rw [getElem?_erase] at hentry'
        split at hentry'
        · cases hentry'
        · exact h.txId_eq txId' entry' hentry'
      · intro key txId'
        dsimp only
        rw [getElem?_erase, getElem?_erase]
        by_cases hid : txId = txId'
        · -- the removed entry has gone from both indexes
          subst hid
          simp only [if_true, reduceCtorEq, false_and, exists_false, iff_false]
          split
          · simp
          · rename_i hkey
            rw [h.byPriority_iff]
            intro h'
            obtain ⟨entry', hentry', rfl⟩ := h'
            cases hget.symm.trans hentry'
            exact hkey rfl
        · rw [if_neg hid]
          split
          · rename_i hkey
            simp only [reduceCtorEq, false_iff]
            intro h'
            obtain ⟨entry', hentry', rfl⟩ := h'
            have htxId := congrArg PriorityKey.txId hkey
            exact hid (hself.symm.trans (htxId.trans (h.txId_eq txId' entry' hentry')))
          · exact h.byPriority_iff key txId'
      · intro outpoint txId'
        dsimp only
        rw [getElem?_eraseAll, getElem?_erase]
        by_cases hid : txId = txId'
        · subst hid
          simp only [if_true, reduceCtorEq, false_and, exists_false, iff_false]
          split
          · simp
          · rename_i hop
            rw [h.spent_iff]
            intro h'
            obtain ⟨entry', hentry', hop'⟩ := h'
            cases hget.symm.trans hentry'
            exact hop hop'
        · rw [if_neg hid]
          split
          · rename_i hop
            simp only [reduceCtorEq, false_iff]
            intro h'
            obtain ⟨entry', hentry', hop'⟩ := h'
            exact hid (h.disjoint hget hentry' hop hop')
          · exact h.spent_iff outpoint txId'

theorem removeAll_snd (pool : ClearPool) (txIds : List TxId) :
    (pool.removeAll txIds).2 = txIds.foldl (fun pool txId => (pool.remove txId).2) pool := by
  rw [ClearPool.removeAll]
  refine (List.foldl_hom Prod.snd ?_).symm
  intro acc txId
  rcases acc.2.remove txId with ⟨_ | _, _⟩ <;> rfl

theorem byId_removeAll (pool : ClearPool) (txIds : List TxId) :
    (pool.removeAll txIds).2.byId = eraseAll pool.byId txIds := by
  rw [removeAll_snd]
  induction txIds generalizing pool with
  | nil => rfl
  | cons txId txIds ih => rw [List.foldl_cons, ih, byId_remove, eraseAll_cons]

theorem within_removeAll (pool : ClearPool) (txIds : List TxId) : (pool.removeAll txIds).2.Within pool := by
  intro txId entry hentry
  rw [byId_removeAll, getElem?_eraseAll] at hentry
  split at hentry
  · cases hentry
  · exact hentry

theorem Coherent.removeAll (h : pool.Coherent) (txIds : List TxId) : (pool.removeAll txIds).2.Coherent := by
  rw [removeAll_snd]
  induction txIds generalizing pool with
  | nil => exact h
  | cons txId txIds ih => exact ih (h.remove txId)

theorem Coherent.removeConfirmed (h : pool.Coherent) (spent : Std.ExtTreeSet OutPoint)
    (hentry : (pool.removeConfirmed spent).2.byId[txId]? = some entry) : ∀ outpoint ∈ entry.tx.spends, outpoint ∉ spent := by
  intro outpoint hop hspent
  rw [ClearPool.removeConfirmed, byId_removeAll, getElem?_eraseAll] at hentry
  split at hentry
  · cases hentry
  · rename_i hkept
    refine hkept (List.mem_filterMap.mpr ⟨outpoint, Std.ExtTreeSet.mem_toList.mpr hspent, ?_⟩)
    exact (h.spent_iff outpoint txId).mpr ⟨entry, hentry, hop⟩

theorem Coherent.evictExpired (h : pool.Coherent) (now : UInt64) : (pool.evictExpired now).2.Coherent := h.removeAll _

/-! ### Making room -/

theorem Coherent.evictLowestFee (h : pool.Coherent) (hevict : pool.evictLowestFee = (true, pool')) :
    pool'.Coherent ∧ pool'.Within pool ∧ pool'.byPriority.size < pool.byPriority.size := by
  unfold ClearPool.evictLowestFee at hevict
  split at hevict
  · cases hevict
  · rename_i key hkey
    cases hevict
    refine ⟨h.remove _, within_remove pool _, ?_⟩
    obtain ⟨txId, htxId⟩ := mem_iff.mp (Std.ExtTreeMap.maxKey?_mem hkey)
    obtain ⟨entry, hentry, rfl⟩ := (h.byPriority_iff key txId).mp htxId
    have hid : (PriorityKey.fromEntry entry).txId = txId := h.txId_eq txId entry hentry
    have hcontains : pool.byPriority.contains (.fromEntry entry) = true := mem_of_getElem? htxId
    rw [hid, ClearPool.remove, hentry]
    change (pool.byPriority.erase (.fromEntry entry)).size < _
    rw [Std.ExtTreeMap.size_erase, if_pos hcontains]
    have hpos : 0 < pool.byPriority.size := by
      by_contra hzero
      have hempty : pool.byPriority.isEmpty = true := by
        rw [Std.ExtTreeMap.isEmpty_eq_size_beq_zero]
        simpa using hzero
      rw [Std.ExtTreeMap.isEmpty_iff] at hempty
      rw [hempty] at htxId
      simp at htxId
    omega

def HasRoom (pool : ClearPool) (size : UInt64) : Prop :=
  pool.byId.size < pool.config.maxTxCount.toNat ∧ Word.saturatingAdd pool.totalBytes size ≤ pool.config.maxPoolBytes

theorem makeRoomStep_of_hasRoom {size : UInt64} (h : pool.HasRoom size) :
    makeRoomStep size pool = .inr (.ok (), pool) := by
  rw [makeRoomStep, if_neg]
  rw [not_or]
  exact ⟨Nat.not_le.mpr h.1, UInt64.not_lt.mpr h.2⟩

/-- A property that no removal breaks. -/
def RemovalInvariant (P : ClearPool → Prop) : Prop := ∀ (pool : ClearPool) (txId : TxId), P pool → P (pool.remove txId).2

theorem RemovalInvariant.within (pool : ClearPool) : RemovalInvariant fun pool' => pool'.Within pool :=
  fun pool' txId h => (within_remove pool' txId).trans h

variable {P : ClearPool → Prop}

theorem RemovalInvariant.removeAll (hP : RemovalInvariant P) (h : P pool) (txIds : List TxId) :
    P (pool.removeAll txIds).2 := by
  rw [removeAll_snd]
  exact List.foldlRecOn _ _ h fun pool hpool txId _ => hP pool txId hpool

theorem RemovalInvariant.evictExpired (hP : RemovalInvariant P) (h : P pool) (now : UInt64) :
    P (pool.evictExpired now).2 := hP.removeAll h _

theorem RemovalInvariant.evictLowestFee (hP : RemovalInvariant P) (h : P pool) : P pool.evictLowestFee.2 := by
  unfold ClearPool.evictLowestFee
  split
  · exact h
  · exact hP pool _ h

/-- **The capacity loop ends.** What removals keep still holds, and when it succeeds there is room. -/
theorem Coherent.makeRoom (h : pool.Coherent) (hP : RemovalInvariant P) (hpool : P pool) (size : UInt64) :
    ∃ result pool', pool.makeRoom size = some (result, pool') ∧ pool'.Coherent ∧ P pool' ∧
      (result = .ok () → pool'.HasRoom size) := by
  have hstep : ∀ x y : ClearPool, x.Coherent ∧ P x → makeRoomStep size x = .inl y →
      (y.Coherent ∧ P y) ∧ y.byPriority.size < x.byPriority.size := by
    intro x y hx hinl
    unfold makeRoomStep at hinl
    split at hinl
    · split at hinl
      · rename_i hevict
        cases hinl
        obtain ⟨hcoherent, -, hlt⟩ := hx.1.evictLowestFee hevict
        have hkept := hP.evictLowestFee hx.2
        rw [hevict] at hkept
        exact ⟨⟨hcoherent, hkept⟩, hlt⟩
      · cases hinl
    · cases hinl
  obtain ⟨x, ⟨result, pool'⟩, ⟨hx, hPx⟩, hdone, hrun⟩ :=
    Loop.exists_run hstep ⟨h, hpool⟩ (Nat.lt_succ_self pool.byPriority.size)
  refine ⟨result, pool', hrun, ?_⟩
  unfold makeRoomStep at hdone
  split at hdone
  · split at hdone
    · cases hdone
    · rename_i hevict
      cases hdone
      unfold ClearPool.evictLowestFee at hevict
      split at hevict
      · cases hevict
        exact ⟨hx, hPx, fun h => by cases h⟩
      · cases hevict
  · rename_i hroom
    cases hdone
    rw [not_or] at hroom
    exact ⟨hx, hPx, fun _ => ⟨Nat.not_le.mp hroom.1, UInt64.not_lt.mp hroom.2⟩⟩

/-! ### Adding -/

theorem Coherent.insertEntry (h : pool.Coherent) (hnew : entry.txId ∉ pool.byId)
    (hunspent : ∀ outpoint ∈ entry.tx.spends, pool.spentOutpoints[outpoint]? = none) :
    (pool.insertEntry entry).Coherent := by
  have hnone := notMem_iff.mp hnew
  refine ⟨?_, ?_, ?_⟩
  · intro txId entry' hentry'
    change (pool.byId.insert entry.txId entry)[txId]? = some entry' at hentry'
    rw [getElem?_insert] at hentry'
    split at hentry'
    · rename_i heq
      cases hentry'
      exact heq
    · exact h.txId_eq txId entry' hentry'
  · intro key txId
    change (pool.byPriority.insert (.fromEntry entry) entry.txId)[key]? = some txId ↔
      ∃ entry', (pool.byId.insert entry.txId entry)[txId]? = some entry' ∧ key = .fromEntry entry'
    rw [getElem?_insert, getElem?_insert]
    by_cases hid : entry.txId = txId
    · subst hid
      simp only [if_true, Option.some.injEq, exists_eq_left']
      split
      · rename_i hkey
        exact iff_of_true rfl hkey.symm
      · rename_i hkey
        rw [h.byPriority_iff, hnone]
        simp [Ne.symm hkey]
    · rw [if_neg hid]
      split
      · rename_i hkey
        simp only [Option.some.injEq, hid, false_iff]
        intro h'
        obtain ⟨entry', hentry', rfl⟩ := h'
        exact hid ((congrArg PriorityKey.txId hkey).trans (h.txId_eq txId entry' hentry'))
      · exact h.byPriority_iff key txId
  · intro outpoint txId
    change (insertAll pool.spentOutpoints (entry.tx.spends.map fun outpoint => (outpoint, entry.txId)))[outpoint]? =
        some txId ↔
      ∃ entry', (pool.byId.insert entry.txId entry)[txId]? = some entry' ∧ outpoint ∈ entry'.tx.spends
    rw [getElem?_insertAll_const, getElem?_insert]
    by_cases hid : entry.txId = txId
    · subst hid
      simp only [if_true, Option.some.injEq, exists_eq_left']
      split
      · rename_i hop
        exact iff_of_true rfl hop
      · rename_i hop
        rw [h.spent_iff, hnone]
        simp [hop]
    · rw [if_neg hid]
      split
      · rename_i hop
        simp only [Option.some.injEq, hid, false_iff]
        intro hother
        cases (hunspent outpoint hop).symm.trans ((h.spent_iff outpoint txId).mpr hother)
      · exact h.spent_iff outpoint txId

private theorem findDoubleSpend_eq_none {tx : Transaction} :
    pool.findDoubleSpend tx = none ↔ ∀ outpoint ∈ tx.spends, pool.spentOutpoints[outpoint]? = none := by
  simp [findDoubleSpend, List.findSome?_eq_none_iff]

private theorem Coherent.unspent_of_within (h : pool.Coherent) (h' : pool'.Coherent) (hwithin : pool'.Within pool)
    {outpoint : OutPoint} (hnone : pool.spentOutpoints[outpoint]? = none) : pool'.spentOutpoints[outpoint]? = none := by
  cases hsome : pool'.spentOutpoints[outpoint]? with
  | none => rfl
  | some txId =>
      obtain ⟨entry, hentry, hop⟩ := (h'.spent_iff outpoint txId).mp hsome
      cases hnone.symm.trans ((h.spent_iff outpoint txId).mpr ⟨entry, hwithin txId entry hentry, hop⟩)

/-- **Adding to the pool.** The call always returns. When it fails it has only removed entries. When it succeeds, the entry goes into a pool that removals have left, with room for it and without its id or any of its outpoints. -/
theorem Coherent.add_cases (h : pool.Coherent) (hP : RemovalInvariant P) (hpool : P pool) (now : UInt64)
    (entry : MempoolEntry) :
    ∃ result pool', pool.add now entry = some (result, pool') ∧
      ((∃ e, result = .error e) ∧ pool'.Coherent ∧ P pool' ∨
        result = .ok entry.txId ∧ ∃ room : ClearPool, room.Coherent ∧ P room ∧ room.HasRoom entry.size ∧
          entry.txId ∉ room.byId ∧ (∀ outpoint ∈ entry.tx.spends, room.spentOutpoints[outpoint]? = none) ∧
          pool' = room.insertEntry entry) := by
  unfold ClearPool.add
  split
  · exact ⟨_, pool, rfl, .inl ⟨⟨_, rfl⟩, h, hpool⟩⟩
  rename_i hnew
  split
  · exact ⟨_, pool, rfl, .inl ⟨⟨_, rfl⟩, h, hpool⟩⟩
  split
  · exact ⟨_, pool, rfl, .inl ⟨⟨_, rfl⟩, h, hpool⟩⟩
  rename_i hdouble
  have hboth : RemovalInvariant fun pool' => P pool' ∧ pool'.Within pool := fun pool' txId hp =>
    ⟨hP pool' txId hp.1, RemovalInvariant.within pool pool' txId hp.2⟩
  obtain ⟨result, room, hroom, hcoherent, ⟨hkept, hsub⟩, hfits⟩ :=
    (h.evictExpired now).makeRoom hboth (hboth.evictExpired ⟨hpool, Within.refl pool⟩ now) entry.size
  rw [hroom]
  cases result with
  | error e => exact ⟨_, room, rfl, .inl ⟨⟨e, rfl⟩, hcoherent, hkept⟩⟩
  | ok u =>
      have hfresh : entry.txId ∉ room.byId := by
        intro hmem
        obtain ⟨e, he⟩ := mem_iff.mp hmem
        exact hnew (mem_of_getElem? (hsub _ _ he))
      have hunspent : ∀ outpoint ∈ entry.tx.spends, room.spentOutpoints[outpoint]? = none := fun outpoint hop =>
        h.unspent_of_within hcoherent hsub (findDoubleSpend_eq_none.mp hdouble outpoint hop)
      exact ⟨_, _, rfl, .inr ⟨rfl, room, hcoherent, hkept, hfits rfl, hfresh, hunspent, rfl⟩⟩

theorem Coherent.add (h : pool.Coherent) (now : UInt64) (entry : MempoolEntry) :
    ∃ result pool', pool.add now entry = some (result, pool') ∧ pool'.Coherent ∧
      ∀ txId e, pool'.byId[txId]? = some e → pool.byId[txId]? = some e ∨ txId = entry.txId ∧ e = entry := by
  obtain ⟨result, pool', hadd, ⟨-, hcoherent, hsub⟩ | ⟨-, room, hcoherent, hsub, -, hfresh, hunspent, rfl⟩⟩ :=
    h.add_cases (RemovalInvariant.within pool) (Within.refl pool) now entry
  · exact ⟨result, pool', hadd, hcoherent, fun txId e he => .inl (hsub txId e he)⟩
  · refine ⟨result, _, hadd, hcoherent.insertEntry hfresh hunspent, ?_⟩
    intro txId e he
    change (room.byId.insert entry.txId entry)[txId]? = some e at he
    rw [getElem?_insert] at he
    split at he
    · rename_i heq
      cases he
      exact .inr ⟨heq.symm, rfl⟩
    · exact .inl (hsub txId e he)

/-! ### Reading -/

theorem mem_getBatch {n : Nat} (hmem : entry ∈ pool.getBatch n) : pool.Holds entry := by
  obtain ⟨txId, -, hentry⟩ := List.mem_filterMap.mp hmem
  exact ⟨txId, hentry⟩

theorem Coherent.nodup_getBatch (h : pool.Coherent) (n : Nat) : ((pool.getBatch n).map MempoolEntry.txId).Nodup := by
  have hids : (pool.byPriority.toList.map Prod.snd).Nodup := by
    refine List.Nodup.map_on ?_ (nodup_toList pool.byPriority)
    rintro ⟨key, txId⟩ hkey ⟨key', txId'⟩ hkey' rfl
    rw [Std.ExtTreeMap.mem_toList_iff_getElem?_eq_some] at hkey hkey'
    obtain ⟨entry, hentry, rfl⟩ := (h.byPriority_iff key txId).mp hkey
    obtain ⟨entry', hentry', rfl⟩ := (h.byPriority_iff key' txId).mp hkey'
    cases hentry.symm.trans hentry'
    rfl
  have hsub : ∀ txIds : List TxId,
      List.Sublist ((txIds.filterMap fun txId => pool.byId[txId]?).map MempoolEntry.txId) txIds := by
    intro txIds
    induction txIds with
    | nil => exact .slnil
    | cons txId txIds ih =>
        rw [List.filterMap_cons]
        split
        · exact ih.cons txId
        · rename_i entry hget
          rw [List.map_cons, h.txId_eq txId entry hget]
          exact ih.cons_cons txId
  exact hids.sublist ((hsub _).trans (List.take_sublist n _))

end ClearPool

end QuantumVault
