import QuantumVault.Lib.TreeMap
import QuantumVault.Mempool.EncryptedPool

/-!
# What the encrypted mempool keeps

The pool is emptied before anything is decrypted, and an envelope that does not decrypt is not put back. Apart from that the pool is a map with two counters: whatever is done with it, the byte counter stays the sum of the sizes, and both limits hold.
-/

namespace QuantumVault

open Result TreeMap

/-- The size of an envelope as a natural number, where the estimate of the source is a word. -/
def EncryptedTx.size (etx : EncryptedTx) : Nat := etx.kemCiphertext.length + etx.encryptedBody.length + 40

namespace EncryptedPool

variable {pool pool' : EncryptedPool} {config : EncryptedPoolConfig} {id : TxId} {etx : EncryptedTx}

/-! ### The counters -/

/-- The pooled byte strings are in the memory of one machine together. -/
def InMemory (pool : EncryptedPool) : Prop := total EncryptedTx.size pool.byId < 2 ^ 64

/-- The limits are respected and the byte counter is the sum of the sizes. -/
structure Accounted (config : EncryptedPoolConfig) (pool : EncryptedPool) : Prop where
  config_eq : pool.config = config
  totalBytes_eq : pool.totalBytes.toNat = total EncryptedTx.size pool.byId
  count_le : pool.byId.size ≤ config.maxTxCount.toNat
  bytes_le : pool.totalBytes ≤ config.maxPoolBytes

theorem Accounted.of_empty (hconfig : pool.config = config) (hbytes : pool.totalBytes = 0) (hempty : pool.byId = ∅) :
    Accounted config pool := by
  refine ⟨hconfig, ?_, ?_, ?_⟩
  · rw [hbytes, hempty, total_empty]
    rfl
  · simp [hempty]
  · rw [hbytes]
    exact UInt64.le_iff_toNat_le.mpr (Nat.zero_le _)

private theorem Accounted.inMemory (h : Accounted config pool) : pool.InMemory := by
  rw [InMemory, ← h.totalBytes_eq]
  exact pool.totalBytes.toNat_lt

private theorem toNat_estimatedSize (h : etx.size < 2 ^ 64) : etx.estimatedSize.toNat = etx.size := by
  rw [EncryptedTx.estimatedSize, UInt64.toNat_ofNat']
  exact Nat.mod_eq_of_lt h

theorem Accounted.remove (h : Accounted config pool) (id : TxId) : Accounted config (pool.remove id).2 := by
  rw [EncryptedPool.remove]
  split
  · exact h
  · next etx hget =>
      have hsum : total EncryptedTx.size pool.byId = etx.size + total EncryptedTx.size (pool.byId.erase id) :=
        total_erase hget
      have hmemory : total EncryptedTx.size pool.byId < 2 ^ 64 := h.inMemory
      have hsize : etx.estimatedSize.toNat = etx.size := toNat_estimatedSize (by omega)
      have hrest := Word.toNat_saturatingSub pool.totalBytes etx.estimatedSize
      have htotal := h.totalBytes_eq
      have hbytes := UInt64.le_iff_toNat_le.mp h.bytes_le
      refine ⟨h.config_eq, ?_, Std.ExtTreeMap.size_erase_le.trans h.count_le, UInt64.le_iff_toNat_le.mpr ?_⟩
      · dsimp only
        omega
      · dsimp only
        omega

theorem Accounted.removeAll (h : Accounted config pool) (ids : List TxId) :
    Accounted config (ids.foldl (fun pool id => (pool.remove id).2) pool) := by
  exact List.foldlRecOn _ _ h fun pool hpool id _ => hpool.remove id

/-- **An envelope that finds room is counted in full**: the saturating sum is the sum of sizes that fit into memory. -/
theorem Accounted.add (h : Accounted config pool) (hadd : pool.add etx = .ok (id, pool')) (hmemory : pool'.InMemory) :
    Accounted config pool' := by
  obtain ⟨-, hadd⟩ := require_bind_eq_ok.mp hadd
  obtain ⟨hnew, hadd⟩ := require_bind_eq_ok.mp hadd
  obtain ⟨hcount, hadd⟩ := require_bind_eq_ok.mp hadd
  obtain ⟨hbytes, hadd⟩ := require_bind_eq_ok.mp hadd
  cases pure_eq_ok.mp hadd
  rw [h.config_eq] at hcount hbytes
  have hinsert : total EncryptedTx.size (pool.byId.insert etx.id etx) = etx.size + total EncryptedTx.size pool.byId :=
    total_insert (notMem_iff.mp hnew)
  have hfits : etx.size + total EncryptedTx.size pool.byId < 2 ^ 64 := hinsert ▸ hmemory
  have hsize : etx.estimatedSize.toNat = etx.size := toNat_estimatedSize (by omega)
  have hsat := Word.toNat_saturatingAdd pool.totalBytes etx.estimatedSize
  have htotal := h.totalBytes_eq
  refine ⟨h.config_eq, ?_, Std.ExtTreeMap.size_insert_le.trans hcount, hbytes⟩
  dsimp only
  omega

/-! ### Runs -/

inductive Step : EncryptedPool → EncryptedPool → Prop
  | add {pool pool' : EncryptedPool} {etx : EncryptedTx} {id : TxId} (h : pool.add etx = .ok (id, pool')) : Step pool pool'
  | remove (pool : EncryptedPool) (id : TxId) : Step pool (pool.remove id).2
  | drainAll (pool : EncryptedPool) (order : pool.DrainOrder) : Step pool (pool.drainAll order).2
  | evictExpired (pool : EncryptedPool) (order : pool.DrainOrder) (now : UInt64) : Step pool (pool.evictExpired order now).2
  | advanceEpoch (pool : EncryptedPool) (newEpoch : Epoch) : Step pool (pool.advanceEpoch newEpoch)
  | decryptBatch (pool : EncryptedPool) (order : pool.DrainOrder) (decryptor : ThresholdDecryptor)
      (shares : List DecryptionShare) : Step pool (pool.decryptBatch order decryptor shares).2

theorem Accounted.step (h : Accounted config pool) (hstep : Step pool pool') (hmemory : pool'.InMemory) :
    Accounted config pool' := by
  cases hstep with
  | add hadd => exact h.add hadd hmemory
  | remove id => exact h.remove id
  | drainAll order => exact .of_empty h.config_eq rfl rfl
  | evictExpired order now => exact h.removeAll _
  | advanceEpoch newEpoch => exact .of_empty h.config_eq rfl rfl
  | decryptBatch order decryptor shares => exact .of_empty h.config_eq rfl rfl

/-- An operation after which the pool is still in memory. -/
def FittingStep (pool pool' : EncryptedPool) : Prop := Step pool pool' ∧ pool'.InMemory

theorem Accounted.run (h : Accounted config pool) (hrun : Relation.ReflTransGen FittingStep pool pool') :
    Accounted config pool' := by
  induction hrun with
  | refl => exact h
  | tail _ hstep ih => exact ih.step hstep.1 hstep.2

/-- Every envelope is stored under its own identifier. -/
def Keyed (pool : EncryptedPool) : Prop := ∀ (key : TxId) (etx : EncryptedTx), pool.byId[key]? = some etx → etx.id = key

theorem Keyed.of_empty (hempty : pool.byId = ∅) : pool.Keyed := by
  intro key etx hget
  rw [hempty] at hget
  exact absurd (mem_of_getElem? hget) Std.ExtTreeMap.not_mem_empty

theorem Keyed.remove (h : pool.Keyed) (id : TxId) : (pool.remove id).2.Keyed := by
  rw [EncryptedPool.remove]
  split
  · exact h
  · intro key etx hget
    dsimp only at hget
    rw [getElem?_erase] at hget
    split at hget
    · cases hget
    · exact h key etx hget

theorem Keyed.step (h : pool.Keyed) (hstep : Step pool pool') : pool'.Keyed := by
  cases hstep with
  | @add _ etx id hadd =>
      obtain ⟨-, hadd⟩ := require_bind_eq_ok.mp hadd
      obtain ⟨-, hadd⟩ := require_bind_eq_ok.mp hadd
      obtain ⟨-, hadd⟩ := require_bind_eq_ok.mp hadd
      obtain ⟨-, hadd⟩ := require_bind_eq_ok.mp hadd
      cases pure_eq_ok.mp hadd
      intro key stored hget
      dsimp only at hget
      rw [getElem?_insert] at hget
      split at hget
      · next heq =>
          cases hget
          exact heq
      · exact h key stored hget
  | remove id => exact h.remove id
  | drainAll order => exact .of_empty rfl
  | evictExpired order now =>
      rw [EncryptedPool.evictExpired]
      exact List.foldlRecOn _ _ h fun pool hpool id _ => hpool.remove id
  | advanceEpoch newEpoch => exact .of_empty rfl
  | decryptBatch order decryptor shares => exact .of_empty rfl

theorem Keyed.run {epoch : Epoch} (hrun : Relation.ReflTransGen Step (.new config epoch) pool) : pool.Keyed := by
  induction hrun with
  | refl => exact .of_empty rfl
  | tail _ hstep ih => exact ih.step hstep

/-! ### Decrypting -/

variable {order : pool.DrainOrder} {decryptor : ThresholdDecryptor} {shares : List DecryptionShare}

def Holds (pool : EncryptedPool) (etx : EncryptedTx) : Prop := ∃ key : TxId, pool.byId[key]? = some etx

def Decrypts (decryptor : ThresholdDecryptor) (shares : List DecryptionShare) (etx : EncryptedTx) : Prop :=
  ∃ plaintext, decryptor.decrypt etx shares = .ok plaintext

theorem mem_decryptBatch {plaintext : Bytes} : (id, plaintext) ∈ (pool.decryptBatch order decryptor shares).1 ↔
    ∃ etx, pool.Holds etx ∧ etx.id = id ∧ decryptor.decrypt etx shares = .ok plaintext := by
  show (id, plaintext) ∈ order.txs.filterMap _ ↔ _
  rw [List.mem_filterMap]
  refine exists_congr fun etx => ?_
  rw [order.perm.mem_iff, mem_values, Holds]
  cases decryptor.decrypt etx shares with
  | ok result => simp [Prod.ext_iff]
  | error e => simp

/-- Every envelope that was in the pool is among the plaintexts, or still in the pool and in its byte count. -/
def LosesNothing (pool : EncryptedPool) (order : pool.DrainOrder) (decryptor : ThresholdDecryptor)
    (shares : List DecryptionShare) : Prop :=
  ∀ etx, pool.Holds etx →
    (∃ plaintext, decryptor.decrypt etx shares = .ok plaintext ∧
      (etx.id, plaintext) ∈ (pool.decryptBatch order decryptor shares).1) ∨
    (pool.decryptBatch order decryptor shares).2.Holds etx ∧
      etx.estimatedSize ≤ (pool.decryptBatch order decryptor shares).2.totalBytes

theorem losesNothing_iff :
    pool.LosesNothing order decryptor shares ↔ ∀ etx, pool.Holds etx → Decrypts decryptor shares etx := by
  refine forall_congr' fun etx => imp_congr_right fun hholds => ?_
  have hgone : ¬ (pool.decryptBatch order decryptor shares).2.Holds etx := by
    rintro ⟨key, hget⟩
    exact absurd (mem_of_getElem? hget) Std.ExtTreeMap.not_mem_empty
  rw [or_iff_left fun h => hgone h.1]
  refine exists_congr fun plaintext => and_iff_left_of_imp fun hdecrypt => ?_
  exact mem_decryptBatch.mpr ⟨etx, hholds, rfl, hdecrypt⟩

end EncryptedPool

/-- **What a batch decryption leaves, and what the counters say.** The pool is empty afterwards, the plaintexts are those of the envelopes that decrypt, so an envelope is lost exactly if it does not decrypt. After any run from an empty pool, with any configuration, the byte counter is the sum of the sizes and both limits hold. -/
theorem encryptedPool_drains (pool : EncryptedPool) (order : pool.DrainOrder) (decryptor : ThresholdDecryptor)
    (shares : List DecryptionShare) :
    ((pool.decryptBatch order decryptor shares).2.byId = ∅ ∧ (pool.decryptBatch order decryptor shares).2.totalBytes = 0) ∧
    (∀ id plaintext, (id, plaintext) ∈ (pool.decryptBatch order decryptor shares).1 ↔
      ∃ etx, pool.Holds etx ∧ etx.id = id ∧ decryptor.decrypt etx shares = .ok plaintext) ∧
    (pool.LosesNothing order decryptor shares ↔
      ∀ etx, pool.Holds etx → EncryptedPool.Decrypts decryptor shares etx) ∧
    ∀ (config : EncryptedPoolConfig) (epoch : Epoch) (reached : EncryptedPool),
      Relation.ReflTransGen EncryptedPool.FittingStep (.new config epoch) reached → reached.Accounted config := by
  refine ⟨⟨rfl, rfl⟩, fun id plaintext => EncryptedPool.mem_decryptBatch, EncryptedPool.losesNothing_iff, ?_⟩
  intro config epoch reached hrun
  have hnew : EncryptedPool.Accounted config (.new config epoch) := .of_empty rfl rfl rfl
  exact hnew.run hrun

/-! ### A share too few -/

def waitingTx : EncryptedTx := ⟨.zero, [], [7], 0, 0⟩

def waitingPool : EncryptedPool where
  config := ⟨10, 1000, 60⟩
  byId := (∅ : Std.ExtTreeMap TxId EncryptedTx).insert .zero waitingTx
  currentEpoch := 0
  totalBytes := 41

def waitingOrder : waitingPool.DrainOrder := ⟨[waitingTx], List.Perm.of_eq rfl⟩

theorem add_waitingTx : (EncryptedPool.new ⟨10, 1000, 60⟩ 0).add waitingTx = .ok (.zero, waitingPool) := by
  have hnew : waitingTx.id ∉ (∅ : Std.ExtTreeMap TxId EncryptedTx) := Std.ExtTreeMap.not_mem_empty
  have hcount : (∅ : Std.ExtTreeMap TxId EncryptedTx).size < 10 := by
    rw [Std.ExtTreeMap.size_empty]
    decide
  have hfits : Word.saturatingAdd 0 waitingTx.estimatedSize ≤ 1000 := by decide +kernel
  exact require_bind_eq_ok.mpr ⟨rfl, require_bind_eq_ok.mpr ⟨hnew, require_bind_eq_ok.mpr
    ⟨hcount, require_bind_eq_ok.mpr ⟨hfits, rfl⟩⟩⟩⟩

private theorem holds_waitingTx : waitingPool.Holds waitingTx := ⟨.zero, Std.ExtTreeMap.getElem?_insert_self⟩

/-- One share where one is needed: nothing is lost, and the pool was accounted for. -/
theorem encryptedPool_drains_sample :
    waitingPool.LosesNothing waitingOrder (MockThresholdDecryptor.mk 1 1).toThresholdDecryptor [⟨0, [0]⟩] ∧
      waitingPool.Accounted ⟨10, 1000, 60⟩ := by
  obtain ⟨-, -, hiff, haccounted⟩ := encryptedPool_drains waitingPool waitingOrder
    (MockThresholdDecryptor.mk 1 1).toThresholdDecryptor [⟨0, [0]⟩]
  refine ⟨hiff.mpr fun etx hholds => ?_, haccounted ⟨10, 1000, 60⟩ 0 waitingPool ?_⟩
  · obtain ⟨key, hget⟩ := hholds
    rw [waitingPool, getElem?_insert] at hget
    split at hget
    · cases hget
      exact ⟨[7], by decide +kernel⟩
    · exact absurd (mem_of_getElem? hget) Std.ExtTreeMap.not_mem_empty
  · refine Relation.ReflTransGen.single ⟨.add add_waitingTx, ?_⟩
    rw [EncryptedPool.InMemory, waitingPool, total_insert Std.ExtTreeMap.getElem?_empty, total_empty]
    decide

/-- Two shares are needed and there is one: the envelope is gone. -/
theorem encryptedPool_loses_undecrypted :
    ¬ ∀ (pool : EncryptedPool) (order : pool.DrainOrder) (decryptor : ThresholdDecryptor) (shares : List DecryptionShare),
      (∃ config epoch, Relation.ReflTransGen EncryptedPool.Step (.new config epoch) pool) →
      pool.LosesNothing order decryptor shares := by
  intro h
  have hkept := h waitingPool waitingOrder (MockThresholdDecryptor.mk 2 2).toThresholdDecryptor [⟨0, [0]⟩]
    ⟨_, _, Relation.ReflTransGen.single (.add add_waitingTx)⟩
  obtain ⟨plaintext, hdecrypt⟩ := EncryptedPool.losesNothing_iff.mp hkept waitingTx holds_waitingTx
  have hfails : (MockThresholdDecryptor.mk 2 2).decrypt waitingTx [⟨0, [0]⟩] = .error (.insufficientShares 1 2) := by
    decide +kernel
  cases hfails.symm.trans hdecrypt

end QuantumVault
