import QuantumVault.Proof.Mempool.Draining
import QuantumVault.Proof.Miner.Decryption

/-!
# The order of the decrypted transactions

The producer appends the decrypted transactions in the order in which the hash map of the pool hands out its values, and nothing sorts them afterwards. Two producers with the same pools agree only if there is at most one transaction whose place could differ.
-/

namespace QuantumVault

open Result

/-! ### Selecting from a shuffled list -/

private theorem filterMap_eq_of_perm {α β : Type} {f : α → Option β} {xs ys : List α} (hnodup : xs.Nodup) (hperm : xs.Perm ys)
    (hone : ∀ a ∈ xs, ∀ b ∈ xs, (f a).isSome → (f b).isSome → a = b) : xs.filterMap f = ys.filterMap f := by
  have hpair : (xs.filterMap f).Pairwise fun _ _ => False := by
    rw [List.pairwise_filterMap]
    apply List.Pairwise.imp_of_mem _ hnodup
    intro a b ha hb hne c hc d hd
    exact hne (hone a ha b hb (Option.isSome_of_eq_some hc) (Option.isSome_of_eq_some hd))
  have hpair' : (ys.filterMap f).Pairwise fun _ _ => False :=
    (hperm.filterMap f).pairwise hpair fun h => h
  exact (hperm.filterMap f).eq_of_pairwise (fun _ _ _ _ h => h.elim) hpair hpair'

private theorem perm_swap_front {α : Type} [DecidableEq α] {a b : α} {xs : List α} (ha : a ∈ xs) (hb : b ∈ xs) (hne : a ≠ b) :
    ∃ rest, (a :: b :: rest).Perm xs ∧ (b :: a :: rest).Perm xs := by
  have hfront : (a :: b :: (xs.erase a).erase b).Perm xs := by
    have hmem : b ∈ xs.erase a := (List.mem_erase_of_ne hne.symm).mpr hb
    exact ((List.perm_cons_erase hmem).symm.cons a).trans (List.perm_cons_erase ha).symm
  exact ⟨_, hfront, (List.Perm.swap a b _).trans hfront⟩

namespace EncryptedPool

variable {pool pool' : EncryptedPool}

theorem Keyed.nodup_values (h : pool.Keyed) : pool.byId.values.Nodup := by
  rw [TreeMap.values_eq]
  refine List.Nodup.map_on ?_ (TreeMap.nodup_toList _)
  rintro ⟨key, etx⟩ hmem ⟨key', etx'⟩ hmem' rfl
  rw [Std.ExtTreeMap.mem_toList_iff_getElem?_eq_some] at hmem hmem'
  rw [← h key etx hmem, ← h key' etx hmem']

theorem holds_iff_mem_values {etx : EncryptedTx} : pool.Holds etx ↔ etx ∈ pool.byId.values := TreeMap.mem_values.symm

end EncryptedPool

/-! ### What a block carries -/

section Carried

variable [Crypto] {ctx : BlockProductionContext} {clearPool : ClearPool} {pool pool' : EncryptedPool}
  {order : pool.DrainOrder} {order' : pool'.DrainOrder} {decryptor : ThresholdDecryptor} {shares : List DecryptionShare}
  {vrfProof kesSignature : Bytes}

/-- The transactions of the block that is produced, in their order, and its Merkle root. -/
def carried (ctx : BlockProductionContext) (clearPool : ClearPool) (pool : EncryptedPool) (order : pool.DrainOrder)
    (decryptor : ThresholdDecryptor) (shares : List DecryptionShare) (vrfProof kesSignature : Bytes) :
    Except MinerError (List Transaction × Hash256) :=
  (produceBlockWithDecryption ctx clearPool pool order decryptor shares vrfProof kesSignature).1.map
    fun block => (block.transactions, block.header.merkleRoot)

/-- Whatever the iteration orders of the two hash maps, the blocks carry the same transactions in the same order under the same Merkle root. -/
def Canonical (ctx : BlockProductionContext) (clearPool : ClearPool) (pool pool' : EncryptedPool)
    (decryptor : ThresholdDecryptor) (shares : List DecryptionShare) (vrfProof kesSignature : Bytes) : Prop :=
  ∀ (order : pool.DrainOrder) (order' : pool'.DrainOrder),
    carried ctx clearPool pool order decryptor shares vrfProof kesSignature =
      carried ctx clearPool pool' order' decryptor shares vrfProof kesSignature

theorem carried_eq : carried ctx clearPool pool order decryptor shares vrfProof kesSignature =
    (okOr (Word.checkedSum (clearPool.allSorted.map MempoolEntry.fee)) (.blockProduction "fee sum overflow")).map
      fun _ => ((blockBody ctx clearPool pool order decryptor shares).map Prod.snd,
        merkleRootOf ((blockBody ctx clearPool pool order decryptor shares).map Prod.fst)) := by
  unfold carried produceBlockWithDecryption
  rw [blockBody, coinbaseFor, mergedBatch, ← deserialize_decryptBatch]
  dsimp only
  cases Word.checkedSum (clearPool.allSorted.map MempoolEntry.fee) with
  | none => rfl
  | some fees => rfl

theorem carried_eq_iff {fees : Amount} (hfees : Word.checkedSum (clearPool.allSorted.map MempoolEntry.fee) = some fees) :
    carried ctx clearPool pool order decryptor shares vrfProof kesSignature =
        carried ctx clearPool pool' order' decryptor shares vrfProof kesSignature ↔
      (blockBody ctx clearPool pool order decryptor shares).map Prod.snd =
        (blockBody ctx clearPool pool' order' decryptor shares).map Prod.snd ∧
      merkleRootOf ((blockBody ctx clearPool pool order decryptor shares).map Prod.fst) =
        merkleRootOf ((blockBody ctx clearPool pool' order' decryptor shares).map Prod.fst) := by
  rw [carried_eq, carried_eq, hfees]
  simp [Except.map]

theorem map_body_inj {γ : Type} {f : TxId × Transaction → γ} :
    (blockBody ctx clearPool pool order decryptor shares).map f =
        (blockBody ctx clearPool pool' order' decryptor shares).map f ↔
      (order.txs.filterMap fun etx => (etx.reveal decryptor shares).map fun tx => f (etx.id, tx)) =
        order'.txs.filterMap fun etx => (etx.reveal decryptor shares).map fun tx => f (etx.id, tx) := by
  have hmerged : (mergedBatch clearPool pool order decryptor shares).map f =
      (mergedBatch clearPool pool' order' decryptor shares).map f ↔
      (order.txs.filterMap fun etx => (etx.reveal decryptor shares).map fun tx => f (etx.id, tx)) =
        order'.txs.filterMap fun etx => (etx.reveal decryptor shares).map fun tx => f (etx.id, tx) := by
    rw [mergedBatch, mergedBatch, mergeBatches, mergeBatches, List.map_append, List.map_append, List.append_cancel_left_eq,
      List.map_filterMap, List.map_filterMap]
    simp only [Option.map_map, Function.comp_def]
  rw [blockBody, blockBody]
  cases coinbaseFor ctx clearPool with
  | none => exact hmerged
  | some coinbase =>
      rw [insertCoinbase, insertCoinbase, List.map_cons, List.map_cons, List.cons_inj_right]
      exact hmerged

/-- The identifiers over which the Merkle root of the block is taken. -/
def stampedIds (ctx : BlockProductionContext) (clearPool : ClearPool) (pool : EncryptedPool) (order : pool.DrainOrder)
    (decryptor : ThresholdDecryptor) (shares : List DecryptionShare) : List TxId :=
  (blockBody ctx clearPool pool order decryptor shares).map Prod.fst

private theorem length_stampedIds (heq : pool.byId = pool'.byId) :
    (stampedIds ctx clearPool pool order decryptor shares).length =
      (stampedIds ctx clearPool pool' order' decryptor shares).length := by
  have hperm : order.txs.Perm order'.txs := order.perm.trans (heq ▸ order'.perm.symm)
  have hlength := (hperm.filterMap fun etx => (etx.reveal decryptor shares).map fun tx => (etx.id, tx)).length_eq
  rw [stampedIds, stampedIds, blockBody, blockBody, mergedBatch, mergedBatch, mergeBatches, mergeBatches]
  cases coinbaseFor ctx clearPool with
  | none => simp only [insertCoinbase, List.length_map, List.length_append, hlength]
  | some coinbase => simp only [insertCoinbase, List.length_map, List.length_cons, List.length_append, hlength]

/-- At most one envelope of the pool decrypts to a transaction. -/
def EncryptedPool.RevealsAtMostOne (pool : EncryptedPool) (decryptor : ThresholdDecryptor)
    (shares : List DecryptionShare) : Prop :=
  ∀ etx etx', pool.Holds etx → pool.Holds etx' → (etx.reveal decryptor shares).isSome →
    (etx'.reveal decryptor shares).isSome → etx = etx'

/-- The hash tells apart the nodes of the Merkle trees that the orders of the two pools lead to. -/
def SeparatesOrders (ctx : BlockProductionContext) (clearPool : ClearPool) (pool pool' : EncryptedPool)
    (decryptor : ThresholdDecryptor) (shares : List DecryptionShare) : Prop :=
  ∀ (order : pool.DrainOrder) (order' : pool'.DrainOrder),
    Separates
      (merkleNodes (stampedIds ctx clearPool pool order decryptor shares).length
        (stampedIds ctx clearPool pool order decryptor shares))
      (merkleNodes (stampedIds ctx clearPool pool' order' decryptor shares).length
        (stampedIds ctx clearPool pool' order' decryptor shares))

theorem canonical_of_revealsAtMostOne (hkeyed : pool.Keyed) (heq : pool.byId = pool'.byId)
    (hone : pool.RevealsAtMostOne decryptor shares) :
    Canonical ctx clearPool pool pool' decryptor shares vrfProof kesSignature := by
  intro order order'
  have hperm : order.txs.Perm order'.txs := order.perm.trans (heq ▸ order'.perm.symm)
  have hbody : blockBody ctx clearPool pool order decryptor shares =
      blockBody ctx clearPool pool' order' decryptor shares := by
    rw [← List.map_id (blockBody ctx clearPool pool order decryptor shares),
      ← List.map_id (blockBody ctx clearPool pool' order' decryptor shares), map_body_inj]
    apply filterMap_eq_of_perm (order.perm.nodup_iff.mpr hkeyed.nodup_values) hperm
    intro a ha b hb hra hrb
    rw [Option.isSome_map] at hra hrb
    exact hone a b (EncryptedPool.holds_iff_mem_values.mpr (order.perm.mem_iff.mp ha))
      (EncryptedPool.holds_iff_mem_values.mpr (order.perm.mem_iff.mp hb)) hra hrb
  rw [carried_eq, carried_eq, hbody]

/-- Two envelopes at the front of the pool's values, in either order: the selections begin with what they reveal. -/
theorem head_eq_of_canonical {γ : Type} {f : TxId × Transaction → γ} {etx etx' : EncryptedTx} {tx tx' : Transaction}
    (heq : pool.byId = pool'.byId) (hholds : pool.Holds etx) (hholds' : pool.Holds etx')
    (hreveal : etx.reveal decryptor shares = some tx) (hreveal' : etx'.reveal decryptor shares = some tx')
    (hsame : ∀ (order : pool.DrainOrder) (order' : pool'.DrainOrder),
      (blockBody ctx clearPool pool order decryptor shares).map f =
        (blockBody ctx clearPool pool' order' decryptor shares).map f) : f (etx.id, tx) = f (etx'.id, tx') := by
  obtain rfl | hne := eq_or_ne etx etx'
  · rw [Option.some.inj (hreveal.symm.trans hreveal')]
  obtain ⟨rest, hfront, hback⟩ := perm_swap_front (EncryptedPool.holds_iff_mem_values.mp hholds)
    (EncryptedPool.holds_iff_mem_values.mp hholds') hne
  have hlists := map_body_inj.mp (hsame ⟨_, hfront⟩ ⟨_, heq ▸ hback⟩)
  simp only [List.filterMap_cons, hreveal, hreveal', Option.map_some] at hlists
  exact (List.cons.inj hlists).1

/-- **When the decrypted part of a block has a canonical order.** For every pool that its owner's operations lead to, and every pool with the same envelopes, the two producers carry the same transactions in the same order under the same Merkle root, whatever their hash maps do, if and only if the fees overflow, so that neither has a block, or at most one of the envelopes decrypts to a transaction. -/
theorem decrypted_order_canonical_iff {config : EncryptedPoolConfig} {epoch : Epoch}
    (hrun : Relation.ReflTransGen EncryptedPool.Step (.new config epoch) pool) (heq : pool.byId = pool'.byId)
    (hsep : SeparatesOrders ctx clearPool pool pool' decryptor shares) :
    Canonical ctx clearPool pool pool' decryptor shares vrfProof kesSignature ↔
      Word.checkedSum (clearPool.allSorted.map MempoolEntry.fee) = none ∨ pool.RevealsAtMostOne decryptor shares := by
  have hkeyed := EncryptedPool.Keyed.run hrun
  refine ⟨fun hcanonical => ?_, fun h => ?_⟩
  · cases hfees : Word.checkedSum (clearPool.allSorted.map MempoolEntry.fee) with
    | none => exact Or.inl rfl
    | some fees =>
        refine Or.inr fun etx etx' hholds hholds' hreveal hreveal' => ?_
        obtain ⟨tx, htx⟩ := Option.isSome_iff_exists.mp hreveal
        obtain ⟨tx', htx'⟩ := Option.isSome_iff_exists.mp hreveal'
        have hids : etx.id = etx'.id := head_eq_of_canonical heq hholds hholds' htx htx' fun order order' =>
          merkleRootOf_inj (length_stampedIds heq) (hsep order order') ((carried_eq_iff hfees).mp (hcanonical order order')).2
        obtain ⟨key, hget⟩ := hholds
        obtain ⟨key', hget'⟩ := hholds'
        obtain rfl : key = key' := (hkeyed key etx hget).symm.trans (hids.trans (hkeyed key' etx' hget'))
        exact Option.some.inj (hget.symm.trans hget')
  · obtain hfees | hone := h
    · intro order order'
      rw [carried_eq, carried_eq, hfees]
      rfl
    · exact canonical_of_revealsAtMostOne hkeyed heq hone

end Carried

/-! ### Two envelopes -/

def secondTx : Transaction := .new [⟨⟨.zero, 8⟩, []⟩] [.new 42 []]

def secondId : TxId := ⟨List.replicate 32 1, by decide⟩

def secondSealed : EncryptedTx := ⟨secondId, [], secondTx.canonicalBytes, 0, 0⟩

def sealedPair : EncryptedPool where
  config := ⟨10, 1000, 60⟩
  byId := (sealedPool .zero).byId.insert secondId secondSealed
  currentEpoch := 0
  totalBytes := Word.saturatingAdd (sealedTx .zero).estimatedSize secondSealed.estimatedSize

theorem zero_ne_secondId : (.zero : TxId) ≠ secondId := by decide

theorem sealedPair_get {key : TxId} : sealedPair.byId[key]? =
    if secondId = key then some secondSealed else if .zero = key then some (sealedTx .zero) else none := by
  rw [sealedPair, TreeMap.getElem?_insert, sealedPool, TreeMap.getElem?_insert, Std.ExtTreeMap.getElem?_empty]

theorem holds_sealedTx : sealedPair.Holds (sealedTx .zero) :=
  ⟨.zero, by rw [sealedPair_get, if_neg zero_ne_secondId.symm, if_pos rfl]⟩

theorem holds_secondSealed : sealedPair.Holds secondSealed := ⟨secondId, by rw [sealedPair_get, if_pos rfl]⟩

private theorem add_secondSealed : (sealedPool .zero).add secondSealed = .ok (secondId, sealedPair) := by
  have hnew : secondId ∉ (sealedPool .zero).byId := by
    rw [TreeMap.notMem_iff, sealedPool, TreeMap.getElem?_insert, if_neg zero_ne_secondId]
    rfl
  have hcount : (sealedPool .zero).byId.size < 10 :=
    lt_of_le_of_lt Std.ExtTreeMap.size_insert_le (by rw [Std.ExtTreeMap.size_empty]; decide)
  have hfits : Word.saturatingAdd (sealedPool .zero).totalBytes secondSealed.estimatedSize ≤ 1000 := by decide +kernel
  exact require_bind_eq_ok.mpr ⟨rfl, require_bind_eq_ok.mpr ⟨hnew, require_bind_eq_ok.mpr
    ⟨hcount, require_bind_eq_ok.mpr ⟨hfits, rfl⟩⟩⟩⟩

theorem run_sealedPair : Relation.ReflTransGen EncryptedPool.Step (.new ⟨10, 1000, 60⟩ 0) sealedPair :=
  (Relation.ReflTransGen.single (.add (add_sealedTx .zero))).tail (.add add_secondSealed)

theorem reveal_secondSealed :
    secondSealed.reveal (MockThresholdDecryptor.mk 1 1).toThresholdDecryptor [⟨0, [0]⟩] = some secondTx := by
  decide +kernel

/-- Two producers with equal pools of two envelopes: the blocks need not carry the transactions in the same order. -/
theorem decrypted_order_not_canonical :
    ¬ ∀ (_ : Crypto) (ctx : BlockProductionContext) (clearPool : ClearPool) (config : EncryptedPoolConfig) (epoch : Epoch)
      (pool pool' : EncryptedPool) (decryptor : ThresholdDecryptor) (shares : List DecryptionShare)
      (vrfProof kesSignature : Bytes), Relation.ReflTransGen EncryptedPool.Step (.new config epoch) pool →
      Relation.ReflTransGen EncryptedPool.Step (.new config epoch) pool' → pool.byId = pool'.byId →
      Canonical ctx clearPool pool pool' decryptor shares vrfProof kesSignature := by
  intro hclaim
  let crypto := sampleCrypto
  have hcanonical := hclaim sampleCrypto (leaderContext none) (.new .testnet) _ _ sealedPair sealedPair
    (MockThresholdDecryptor.mk 1 1).toThresholdDecryptor [⟨0, [0]⟩] [9] [8] run_sealedPair run_sealedPair rfl
  have hfees : Word.checkedSum ((ClearPool.new .testnet).allSorted.map MempoolEntry.fee) = some 0 := rfl
  have htxs : revealedTx = secondTx := head_eq_of_canonical (f := Prod.snd) rfl holds_sealedTx holds_secondSealed (reveal_sealedTx .zero)
    reveal_secondSealed fun order order' => ((carried_eq_iff hfees).mp (hcanonical order order')).1
  exact absurd htxs (by decide)

private theorem drainOrder_sealedPair (order : sealedPair.DrainOrder) :
    order.txs = [sealedTx .zero, secondSealed] ∨ order.txs = [secondSealed, sealedTx .zero] := by
  have hkeyed := EncryptedPool.Keyed.run run_sealedPair
  have hdiffer : sealedTx .zero ≠ secondSealed := fun h => zero_ne_secondId (congrArg EncryptedTx.id h)
  have hperm : order.txs.Perm [sealedTx .zero, secondSealed] := by
    refine (List.perm_ext_iff_of_nodup (order.perm.nodup_iff.mpr hkeyed.nodup_values) (by simpa using hdiffer)).mpr fun etx => ?_
    rw [order.perm.mem_iff, ← EncryptedPool.holds_iff_mem_values, List.mem_pair]
    constructor
    · intro hholds
      obtain ⟨key, hget⟩ := hholds
      rw [sealedPair_get] at hget
      split_ifs at hget with hsecond hfirst
      · exact Or.inr (Option.some.inj hget).symm
      · exact Or.inl (Option.some.inj hget).symm
    · intro hetx
      obtain rfl | rfl := hetx
      · exact holds_sealedTx
      · exact holds_secondSealed
  exact List.mem_pair.mp (List.mem_permutations'.mpr hperm)

private theorem reveal_nil (etx : EncryptedTx) :
    etx.reveal (MockThresholdDecryptor.mk 1 1).toThresholdDecryptor [] = none := rfl

/-- Equal pools of two envelopes: their order is not canonical with shares that open both, and it is without shares. -/
theorem decrypted_order_canonical_pair : ∃ _ : Crypto,
    ¬ Canonical (leaderContext none) (.new .testnet) sealedPair sealedPair
      (MockThresholdDecryptor.mk 1 1).toThresholdDecryptor [⟨0, [0]⟩] [9] [8] ∧
    Canonical (leaderContext none) (.new .testnet) sealedPair sealedPair
      (MockThresholdDecryptor.mk 1 1).toThresholdDecryptor [] [9] [8] := by
  let crypto := sampleCrypto
  have hsep : SeparatesOrders (leaderContext none) (.new .testnet) sealedPair sealedPair
      (MockThresholdDecryptor.mk 1 1).toThresholdDecryptor [⟨0, [0]⟩] := by
    have hstamped : ∀ order : sealedPair.DrainOrder, stampedIds (leaderContext none) (.new .testnet) sealedPair order
        (MockThresholdDecryptor.mk 1 1).toThresholdDecryptor [⟨0, [0]⟩] ∈ [[.zero, secondId], [secondId, .zero]] := by
      intro order
      rw [stampedIds, blockBody, mergedBatch, allSorted_new]
      obtain htxs | htxs := drainOrder_sealedPair order <;>
        rw [htxs, List.filterMap_cons, List.filterMap_cons, reveal_sealedTx, reveal_secondSealed]
      · exact List.mem_cons_self
      · exact List.mem_cons_of_mem _ List.mem_cons_self
    have hdistinct : ∀ ids ∈ [[Hash256.zero, secondId], [secondId, .zero]],
        ∀ ids' ∈ [[Hash256.zero, secondId], [secondId, .zero]],
          Separates (merkleNodes ids.length ids) (merkleNodes ids'.length ids') := by
      unfold Separates
      decide +kernel
    exact fun order order' => hdistinct _ (hstamped order) _ (hstamped order')
  have hclosed : sealedPair.RevealsAtMostOne (MockThresholdDecryptor.mk 1 1).toThresholdDecryptor [] :=
    fun etx _ _ _ hreveal _ => absurd hreveal (by rw [reveal_nil etx]; exact Bool.false_ne_true)
  refine ⟨sampleCrypto, ?_, ?_⟩
  · rw [decrypted_order_canonical_iff run_sealedPair rfl hsep]
    rintro (hfees | hone)
    · cases hfees
    · have hsame := hone _ _ holds_sealedTx holds_secondSealed (by rw [reveal_sealedTx]; rfl) (by rw [reveal_secondSealed]; rfl)
      exact zero_ne_secondId (congrArg EncryptedTx.id hsame)
  · exact canonical_of_revealsAtMostOne (EncryptedPool.Keyed.run run_sealedPair) rfl hclosed

end QuantumVault
