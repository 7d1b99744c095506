import QuantumVault.Miner.BlockProducer
import QuantumVault.Proof.Ledger.MerkleRoot
import QuantumVault.Proof.Ledger.Structure
import QuantumVault.Proof.Mempool.Representation

/-!
# Blocks of a committee member

The producer checks nothing of what it appends, and it stamps the Merkle root over identifiers that the senders chose. The block is valid exactly when the pools happen to deliver what a valid block needs: own identifiers, transactions that are well formed where they stand, and inputs that nobody else spends.
-/

namespace QuantumVault

open Result

/-! ### What the pools deliver -/

/-- The transaction in an envelope, if it decrypts to one. -/
def EncryptedTx.reveal (etx : EncryptedTx) (decryptor : ThresholdDecryptor) (shares : List DecryptionShare) :
    Option Transaction :=
  match decryptor.decrypt etx shares with
  | .ok plaintext => Transaction.decode plaintext
  | .error _ => none

variable {ctx : BlockProductionContext} {clearPool : ClearPool} {encryptedPool : EncryptedPool}
  {order : encryptedPool.DrainOrder} {decryptor : ThresholdDecryptor} {shares : List DecryptionShare}

theorem deserialize_decryptBatch :
    deserializeBatch (encryptedPool.decryptBatch order decryptor shares).1 =
      order.txs.filterMap fun etx => (etx.reveal decryptor shares).map fun tx => (etx.id, tx) := by
  show (order.txs.filterMap _).filterMap _ = _
  rw [List.filterMap_filterMap]
  apply List.filterMap_congr
  intro etx _
  unfold EncryptedTx.reveal
  cases decryptor.decrypt etx shares <;> rfl

/-- The transactions of the two pools in the order of the block, each with the identifier that goes into the Merkle root. -/
def mergedBatch (clearPool : ClearPool) (encryptedPool : EncryptedPool) (order : encryptedPool.DrainOrder)
    (decryptor : ThresholdDecryptor) (shares : List DecryptionShare) : List (TxId × Transaction) :=
  mergeBatches clearPool.allSorted
    (order.txs.filterMap fun etx => (etx.reveal decryptor shares).map fun tx => (etx.id, tx))

def coinbaseFor (ctx : BlockProductionContext) (clearPool : ClearPool) : Option Transaction :=
  (Word.checkedSum (clearPool.allSorted.map MempoolEntry.fee)).bind (buildCoinbase ctx)

theorem mem_mergedBatch {pair : TxId × Transaction} :
    pair ∈ mergedBatch clearPool encryptedPool order decryptor shares ↔
      (∃ entry ∈ clearPool.allSorted, pair = (entry.txId, entry.tx)) ∨
        ∃ etx ∈ order.txs, etx.reveal decryptor shares = some pair.2 ∧ pair.1 = etx.id := by
  rw [mergedBatch, mergeBatches, List.mem_append, List.mem_map, List.mem_filterMap]
  apply or_congr
  · exact exists_congr fun entry => and_congr_right fun _ => eq_comm
  · apply exists_congr
    intro etx
    apply and_congr_right
    intro _
    rw [Option.map_eq_some_iff]
    constructor
    · intro h
      obtain ⟨tx, htx, rfl⟩ := h
      exact ⟨htx, rfl⟩
    · intro h
      obtain ⟨htx, hid⟩ := h
      exact ⟨pair.2, htx, Prod.ext hid.symm rfl⟩

private theorem map_snd_mergedBatch : (mergedBatch clearPool encryptedPool order decryptor shares).map Prod.snd =
    clearPool.allSorted.map MempoolEntry.tx ++ order.txs.filterMap fun etx => etx.reveal decryptor shares := by
  rw [mergedBatch, mergeBatches, List.map_append, List.map_map, List.map_filterMap]
  congr 1
  apply List.filterMap_congr
  intro etx _
  rw [Option.map_map]
  exact Option.map_id'

/-! ### The block -/

variable [Crypto] {vrfProof kesSignature : Bytes} {block : Block}

/-- What goes into the block: the coinbase, if there is one, and the merged transactions. -/
def blockBody (ctx : BlockProductionContext) (clearPool : ClearPool) (encryptedPool : EncryptedPool)
    (order : encryptedPool.DrainOrder) (decryptor : ThresholdDecryptor) (shares : List DecryptionShare) :
    List (TxId × Transaction) :=
  insertCoinbase (coinbaseFor ctx clearPool) (mergedBatch clearPool encryptedPool order decryptor shares)

theorem produceBlockWithDecryption_eq_ok
    (h : (produceBlockWithDecryption ctx clearPool encryptedPool order decryptor shares vrfProof kesSignature).1 = .ok block) :
    block.header.height = ctx.height ∧
      block.transactions = (blockBody ctx clearPool encryptedPool order decryptor shares).map Prod.snd ∧
      block.header.merkleRoot =
        merkleRootOf ((blockBody ctx clearPool encryptedPool order decryptor shares).map Prod.fst) := by
  unfold produceBlockWithDecryption at h
  obtain ⟨fees, hfees, hblock⟩ := okOr_bind_eq_ok.mp h
  have hbody : blockBody ctx clearPool encryptedPool order decryptor shares =
      insertCoinbase (buildCoinbase ctx fees) (mergeBatches clearPool.allSorted
        (deserializeBatch (encryptedPool.decryptBatch order decryptor shares).1)) := by
    rw [blockBody, coinbaseFor, hfees, mergedBatch, deserialize_decryptBatch]
    rfl
  rw [hbody]
  cases pure_eq_ok.mp hblock
  exact ⟨rfl, rfl, rfl⟩

/-! ### Structure of the block -/

omit [Crypto] in
theorem Block.validateTransactionAt_eq_ok {height : Height} {index : Nat} {tx : Transaction} (hheight : height ≠ 0) :
    validateTransactionAt height index tx = .ok () ↔
      tx.validateStructure = .ok () ∨ index = 0 ∧ tx.validateCoinbaseStructure height = .ok () := by
  by_cases hinputs : tx.inputs = []
  · have hregular : ¬ tx.validateStructure = .ok () := fun h => (Transaction.validateStructure_eq_ok.mp h).1 hinputs
    rw [validateTransactionAt, hinputs, List.isEmpty_nil, if_pos rfl, if_neg hheight, or_iff_right hregular]
    split
    · rename_i hindex
      exact (and_iff_right hindex).symm
    · rename_i hindex
      constructor
      · intro h
        cases h
      · intro h
        exact absurd h.1 hindex
  · have hcoinbase : ¬ (index = 0 ∧ tx.validateCoinbaseStructure height = .ok ()) :=
      fun h => hinputs (Transaction.validateCoinbaseStructure_eq_ok.mp h.2).1
    rw [validateTransactionAt_of_inputs hinputs, or_iff_left hcoinbase]

/-- No outpoint is spent by both. -/
def Transaction.Independent (a b : Transaction) : Prop := ∀ outpoint ∈ a.spends, outpoint ∉ b.spends

omit [Crypto] in
theorem Transaction.independent_of_isCoinbase {a b : Transaction} (h : a.isCoinbase = true ∨ b.isCoinbase = true) :
    a.Independent b := by
  have hnone : ∀ {tx : Transaction}, tx.isCoinbase = true → tx.spends = [] := by
    intro tx htx
    rw [Transaction.spends, List.isEmpty_iff.mp htx, List.map_nil]
  intro outpoint ha hb
  obtain h | h := h
  · rw [hnone h] at ha
    cases ha
  · rw [hnone h] at hb
    cases hb

omit [Crypto] in
private theorem pairwise_independent_filter {txs : List Transaction} :
    (txs.filter fun tx => !tx.isCoinbase).Pairwise Transaction.Independent ↔ txs.Pairwise Transaction.Independent := by
  rw [List.pairwise_filter]
  apply List.Pairwise.iff
  intro a b
  constructor
  · intro h
    by_cases ha : a.isCoinbase = true
    · exact Transaction.independent_of_isCoinbase (Or.inl ha)
    by_cases hb : b.isCoinbase = true
    · exact Transaction.independent_of_isCoinbase (Or.inr hb)
    exact h (by simpa using ha) (by simpa using hb)
  · intro h _ _
    exact h

private theorem nodup_ids {txs : List Transaction} (hindep : txs.Pairwise Transaction.Independent)
    (hspends : ∀ tx ∈ txs.tail, tx.spends ≠ []) (hids : ∀ a ∈ txs, ∀ b ∈ txs, a.id = b.id → a = b) :
    (txs.map Transaction.id).Nodup := by
  induction txs with
  | nil => exact List.nodup_nil
  | cons tx txs ih =>
      rw [List.pairwise_cons] at hindep
      rw [List.map_cons, List.nodup_cons]
      constructor
      · intro hmem
        obtain ⟨other, hother, hid⟩ := List.mem_map.mp hmem
        obtain rfl := hids _ (List.mem_cons_of_mem _ hother) _ List.mem_cons_self hid
        obtain ⟨outpoint, hop⟩ := List.exists_mem_of_ne_nil _ (hspends other hother)
        exact hindep.1 other hother outpoint hop hop
      · apply ih hindep.2
        · intro other hother
          exact hspends other (List.mem_of_mem_tail hother)
        · intro a ha b hb
          exact hids a (List.mem_cons_of_mem _ ha) b (List.mem_cons_of_mem _ hb)

/-! ### When the block is valid -/

/-- The hash tells apart what this block asks it to: carried transactions with the same id are the same, and pairs of nodes with the same parent in the two Merkle trees, over the stamped identifiers and over the real ones, are the same. -/
structure HashSeparates (body : List (TxId × Transaction)) : Prop where
  ids : ∀ a ∈ body.map Prod.snd, ∀ b ∈ body.map Prod.snd, a.id = b.id → a = b
  nodes : Separates (merkleNodes (body.map fun pair => pair.2.id).length (body.map fun pair => pair.2.id))
    (merkleNodes (body.map Prod.fst).length (body.map Prod.fst))

/-- What the pools have to deliver. Only the first transaction of a block without a reward claim may be without inputs, and then it has to be a coinbase for the height. -/
structure Deliverable (ctx : BlockProductionContext) (clearPool : ClearPool) (encryptedPool : EncryptedPool)
    (order : encryptedPool.DrainOrder) (decryptor : ThresholdDecryptor) (shares : List DecryptionShare) : Prop where
  clear_id : ∀ entry, clearPool.Holds entry → entry.txId = entry.tx.id
  claimed_id : ∀ etx ∈ order.txs, ∀ tx, etx.reveal decryptor shares = some tx → etx.id = tx.id
  wellFormed : ∀ i tx, ((mergedBatch clearPool encryptedPool order decryptor shares).map Prod.snd)[i]? = some tx →
    tx.validateStructure = .ok () ∨
      i = 0 ∧ coinbaseFor ctx clearPool = none ∧ tx.validateCoinbaseStructure ctx.height = .ok ()
  unspent : ∀ etx ∈ order.txs, ∀ tx, etx.reveal decryptor shares = some tx →
    ∀ outpoint ∈ tx.spends, outpoint ∉ clearPool.spentOutpoints
  independent : (order.txs.filterMap fun etx => etx.reveal decryptor shares).Pairwise Transaction.Independent

omit [Crypto] in
theorem validateCoinbaseStructure_coinbaseFor {coinbase : Transaction} (h : coinbaseFor ctx clearPool = some coinbase) :
    coinbase.validateCoinbaseStructure ctx.height = .ok () := by
  unfold coinbaseFor buildCoinbase at h
  simp only [Option.bind_eq_bind, Option.bind_eq_some_iff] at h
  obtain ⟨fees, -, pkh, -, h⟩ := h
  split at h
  · cases h
  · cases h
    refine Transaction.validateCoinbaseStructure_eq_ok.mpr ⟨rfl, List.cons_ne_nil _ _, ?_, rfl⟩
    show (totalBlockReward ctx.height fees ctx.protocolParams.monetary).toNat + 0 < 2 ^ 64
    exact UInt64.toNat_lt _

theorem validateTransactionAt_body_iff (hheight : ctx.height ≠ 0) :
    (∀ tx ∈ ((blockBody ctx clearPool encryptedPool order decryptor shares).map Prod.snd).zipIdx,
      Block.validateTransactionAt ctx.height tx.2 tx.1 = .ok ()) ↔
      ∀ i tx, ((mergedBatch clearPool encryptedPool order decryptor shares).map Prod.snd)[i]? = some tx →
        tx.validateStructure = .ok () ∨
          i = 0 ∧ coinbaseFor ctx clearPool = none ∧ tx.validateCoinbaseStructure ctx.height = .ok () := by
  have hzip : ∀ txs : List Transaction, (∀ tx ∈ txs.zipIdx, Block.validateTransactionAt ctx.height tx.2 tx.1 = .ok ()) ↔
      ∀ i tx, txs[i]? = some tx → tx.validateStructure = .ok () ∨
        i = 0 ∧ tx.validateCoinbaseStructure ctx.height = .ok () := by
    intro txs
    constructor
    · intro h i tx htx
      exact (Block.validateTransactionAt_eq_ok hheight).mp (h (tx, i) (List.mem_zipIdx_iff_getElem?.mpr htx))
    · intro h pair hpair
      exact (Block.validateTransactionAt_eq_ok hheight).mpr (h _ _ (List.mem_zipIdx_iff_getElem?.mp hpair))
  rw [hzip, blockBody]
  cases hcoinbase : coinbaseFor ctx clearPool with
  | none => simp only [insertCoinbase, true_and]
  | some coinbase =>
      simp only [insertCoinbase, List.map_cons, reduceCtorEq, false_and, and_false, or_false]
      constructor
      · intro h i tx htx
        exact (h (i + 1) tx (by simpa using htx)).resolve_right fun hzero => absurd hzero.1 (Nat.succ_ne_zero i)
      · intro h i tx htx
        cases i with
        | zero =>
            cases htx
            exact Or.inr ⟨rfl, validateCoinbaseStructure_coinbaseFor hcoinbase⟩
        | succ i => exact Or.inl (h i tx (by simpa using htx))

omit [Crypto] in
theorem pairwise_allSorted (hpool : clearPool.Represented) :
    (clearPool.allSorted.map MempoolEntry.tx).Pairwise Transaction.Independent := by
  rw [List.pairwise_map]
  apply List.Pairwise.imp_of_mem _ hpool.allSorted_nodup
  intro entry entry' hentry hentry' hne outpoint hop hop'
  exact hne (hpool.spent_disjoint entry entry' ((hpool.mem_allSorted entry).mp hentry)
    ((hpool.mem_allSorted entry').mp hentry') outpoint hop hop')

omit [Crypto] in
theorem mem_spentOutpoints_iff (hpool : clearPool.Represented) {outpoint : OutPoint} :
    outpoint ∈ clearPool.spentOutpoints ↔ ∃ tx ∈ clearPool.allSorted.map MempoolEntry.tx, outpoint ∈ tx.spends := by
  rw [TreeMap.mem_iff]
  constructor
  · intro h
    obtain ⟨txId, hspent⟩ := h
    obtain ⟨entry, hget, hop⟩ := (hpool.spent_iff outpoint txId).mp hspent
    exact ⟨entry.tx, List.mem_map_of_mem ((hpool.mem_allSorted entry).mpr ⟨txId, hget⟩), hop⟩
  · intro h
    obtain ⟨tx, htx, hop⟩ := h
    obtain ⟨entry, hentry, rfl⟩ := List.mem_map.mp htx
    obtain ⟨txId, hget⟩ := (hpool.mem_allSorted entry).mp hentry
    exact ⟨txId, (hpool.spent_iff outpoint txId).mpr ⟨entry, hget, hop⟩⟩

theorem pairwise_body_iff (hpool : clearPool.Represented) :
    ((blockBody ctx clearPool encryptedPool order decryptor shares).map Prod.snd).Pairwise Transaction.Independent ↔
      (∀ etx ∈ order.txs, ∀ tx, etx.reveal decryptor shares = some tx →
        ∀ outpoint ∈ tx.spends, outpoint ∉ clearPool.spentOutpoints) ∧
      (order.txs.filterMap fun etx => etx.reveal decryptor shares).Pairwise Transaction.Independent := by
  have hmerged : ((blockBody ctx clearPool encryptedPool order decryptor shares).map Prod.snd).Pairwise
      Transaction.Independent ↔
      ((mergedBatch clearPool encryptedPool order decryptor shares).map Prod.snd).Pairwise Transaction.Independent := by
    rw [blockBody]
    cases hcoinbase : coinbaseFor ctx clearPool with
    | none => exact Iff.rfl
    | some coinbase =>
        have hinputs := (Transaction.validateCoinbaseStructure_eq_ok.mp (validateCoinbaseStructure_coinbaseFor hcoinbase)).1
        rw [insertCoinbase, List.map_cons, List.pairwise_cons]
        apply and_iff_right
        intro tx _
        exact Transaction.independent_of_isCoinbase (Or.inl (List.isEmpty_iff.mpr hinputs))
  rw [hmerged, map_snd_mergedBatch, List.pairwise_append, and_iff_right (pairwise_allSorted hpool), and_comm]
  apply and_congr_left
  intro _
  constructor
  · intro h etx hetx tx htx outpoint hop hspent
    obtain ⟨tx', htx', hop'⟩ := (mem_spentOutpoints_iff hpool).mp hspent
    exact h tx' htx' tx (List.mem_filterMap.mpr ⟨etx, hetx, htx⟩) outpoint hop' hop
  · intro h tx' htx' tx htx outpoint hop' hop
    obtain ⟨etx, hetx, hreveal⟩ := List.mem_filterMap.mp htx
    exact h etx hetx tx hreveal outpoint hop ((mem_spentOutpoints_iff hpool).mpr ⟨tx', htx', hop'⟩)

theorem stamped_iff (hpool : clearPool.Represented) :
    (∀ pair ∈ blockBody ctx clearPool encryptedPool order decryptor shares, pair.1 = pair.2.id) ↔
      (∀ entry, clearPool.Holds entry → entry.txId = entry.tx.id) ∧
        ∀ etx ∈ order.txs, ∀ tx, etx.reveal decryptor shares = some tx → etx.id = tx.id := by
  have hmerged : (∀ pair ∈ blockBody ctx clearPool encryptedPool order decryptor shares, pair.1 = pair.2.id) ↔
      ∀ pair ∈ mergedBatch clearPool encryptedPool order decryptor shares, pair.1 = pair.2.id := by
    rw [blockBody]
    cases coinbaseFor ctx clearPool with
    | none => exact Iff.rfl
    | some coinbase =>
        rw [insertCoinbase, List.forall_mem_cons]
        exact and_iff_right rfl
  rw [hmerged]
  constructor
  · intro h
    constructor
    · intro entry hentry
      exact h (entry.txId, entry.tx) (mem_mergedBatch.mpr (Or.inl ⟨entry, (hpool.mem_allSorted entry).mpr hentry, rfl⟩))
    · intro etx hetx tx htx
      exact h (etx.id, tx) (mem_mergedBatch.mpr (Or.inr ⟨etx, hetx, htx, rfl⟩))
  · intro h pair hpair
    obtain ⟨entry, hentry, rfl⟩ | ⟨etx, hetx, htx, hid⟩ := mem_mergedBatch.mp hpair
    · exact h.1 entry ((hpool.mem_allSorted entry).mp hentry)
    · exact hid.trans (h.2 etx hetx pair.2 htx)

/-- **When a block with decrypted transactions is valid.** For every clear pool that satisfies its representation invariant and every encrypted pool, decryptor, list of shares and context above height 0, the block that is returned is structurally valid and spends no outpoint twice if and only if the pools deliver own identifiers, transactions that are well formed where they stand, and decrypted inputs that neither the clear pool nor another envelope spends. -/
theorem produceBlockWithDecryption_valid_iff (hpool : clearPool.Represented) (hheight : 1 ≤ ctx.height)
    (hblock : (produceBlockWithDecryption ctx clearPool encryptedPool order decryptor shares vrfProof kesSignature).1 =
      .ok block)
    (hhash : HashSeparates (blockBody ctx clearPool encryptedPool order decryptor shares)) :
    (block.validateStructure = .ok () ∧
      (block.transactions.filter fun tx => !tx.isCoinbase).Pairwise Transaction.Independent) ↔
      Deliverable ctx clearPool encryptedPool order decryptor shares := by
  have hne : ctx.height ≠ 0 := by
    intro hzero
    rw [hzero] at hheight
    exact absurd hheight (by decide)
  obtain ⟨hblockHeight, htxs, hroot⟩ := produceBlockWithDecryption_eq_ok hblock
  have hids : block.txIds =
      (blockBody ctx clearPool encryptedPool order decryptor shares).map fun pair => pair.2.id := by
    rw [Block.txIds, htxs, List.map_map]
    rfl
  rw [Block.validateStructure_eq_ok, pairwise_independent_filter, hblockHeight, hids, hroot, htxs,
    validateTransactionAt_body_iff hne, pairwise_body_iff hpool]
  constructor
  · intro h
    obtain ⟨⟨hformed, -, hroots⟩, hunspent, hindep⟩ := h
    have hstamped := merkleRootOf_inj (by rw [List.length_map, List.length_map]) hhash.nodes hroots
    obtain ⟨hclear, hclaimed⟩ := (stamped_iff hpool).mp fun pair hpair => (List.map_inj_left.mp hstamped pair hpair).symm
    exact ⟨hclear, hclaimed, hformed, hunspent, hindep⟩
  · intro h
    have hstamped : (blockBody ctx clearPool encryptedPool order decryptor shares).map (fun pair => pair.2.id) =
        (blockBody ctx clearPool encryptedPool order decryptor shares).map Prod.fst :=
      List.map_inj_left.mpr fun pair hpair => ((stamped_iff hpool).mpr ⟨h.clear_id, h.claimed_id⟩ pair hpair).symm
    refine ⟨⟨h.wellFormed, ?_, congrArg merkleRootOf hstamped⟩, h.unspent, h.independent⟩
    have hspends : ∀ tx ∈ ((blockBody ctx clearPool encryptedPool order decryptor shares).map Prod.snd).tail,
        tx.spends ≠ [] := by
      intro tx htx
      obtain ⟨i, hi⟩ := List.mem_iff_getElem?.mp htx
      rw [List.getElem?_tail] at hi
      have hvalid := (validateTransactionAt_body_iff hne).mpr h.wellFormed (tx, i + 1) (List.mem_zipIdx_iff_getElem?.mpr hi)
      have hinputs := Block.inputs_ne_nil_of_index hne (Nat.succ_ne_zero i) hvalid
      rw [Transaction.spends]
      exact fun hnil => hinputs (List.map_eq_nil_iff.mp hnil)
    have hnodup := nodup_ids ((pairwise_body_iff hpool).mpr ⟨h.unspent, h.independent⟩) hspends hhash.ids
    rw [List.map_map] at hnodup
    exact hnodup

/-! ### One envelope -/

omit [Crypto]

/-- The transaction in the envelope, and the envelope for an identifier of the sender's choice. -/
def revealedTx : Transaction := .new [⟨⟨.zero, 7⟩, []⟩] [.new 42 []]

def sealedTx (id : TxId) : EncryptedTx := ⟨id, [], revealedTx.canonicalBytes, 0, 0⟩

def sealedPool (id : TxId) : EncryptedPool where
  config := ⟨10, 1000, 60⟩
  byId := (∅ : Std.ExtTreeMap TxId EncryptedTx).insert id (sealedTx id)
  currentEpoch := 0
  totalBytes := (sealedTx id).estimatedSize

theorem add_sealedTx (id : TxId) :
    (EncryptedPool.new ⟨10, 1000, 60⟩ 0).add (sealedTx id) = .ok (id, sealedPool id) := by
  have hnew : id ∉ (∅ : Std.ExtTreeMap TxId EncryptedTx) := Std.ExtTreeMap.not_mem_empty
  refine require_bind_eq_ok.mpr ⟨rfl, require_bind_eq_ok.mpr ⟨hnew, require_bind_eq_ok.mpr ⟨?_, ?_⟩⟩⟩
  · show (∅ : Std.ExtTreeMap TxId EncryptedTx).size < 10
    rw [Std.ExtTreeMap.size_empty]
    decide
  · have hfits : Word.saturatingAdd 0 (sealedTx .zero).estimatedSize ≤ 1000 := by decide +kernel
    exact require_bind_eq_ok.mpr ⟨hfits, rfl⟩

def sealedOrder (id : TxId) : (sealedPool id).DrainOrder := ⟨[sealedTx id], List.Perm.of_eq rfl⟩

theorem reveal_sealedTx (id : TxId) :
    (sealedTx id).reveal (MockThresholdDecryptor.mk 1 1).toThresholdDecryptor [⟨0, [0]⟩] = some revealedTx := by
  have hreveal : (sealedTx .zero).reveal (MockThresholdDecryptor.mk 1 1).toThresholdDecryptor [⟨0, [0]⟩] =
      some revealedTx := by decide +kernel
  exact hreveal

def leaderContext (reward : Option Hash256) : BlockProductionContext := ⟨100, .zero, 1, 1000000, .mainnet, reward⟩

theorem represented_new (config : ClearPoolConfig) : (ClearPool.new config).Represented :=
  .of_accounted (.new config) (.new config)

theorem allSorted_new (config : ClearPoolConfig) : (ClearPool.new config).allSorted = [] := rfl

theorem merkleRootOf_singleton [Crypto] (h : Hash256) : merkleRootOf [h] = h := rfl

section Sealed

variable [Crypto] {config : ClearPoolConfig} {reward : Option Hash256} {id : TxId}

omit [Crypto] in
theorem mergedBatch_sealed : mergedBatch (.new config) (sealedPool id) (sealedOrder id)
    (MockThresholdDecryptor.mk 1 1).toThresholdDecryptor [⟨0, [0]⟩] = [(id, revealedTx)] := by
  rw [mergedBatch, allSorted_new, sealedOrder, List.filterMap_cons, reveal_sealedTx]
  rfl

theorem produce_sealed (vrfProof kesSignature : Bytes) :
    ∃ block, (produceBlockWithDecryption (leaderContext reward) (.new config) (sealedPool id) (sealedOrder id)
      (MockThresholdDecryptor.mk 1 1).toThresholdDecryptor [⟨0, [0]⟩] vrfProof kesSignature).1 = .ok block :=
  ⟨_, okOr_bind_eq_ok.mpr ⟨0, rfl, rfl⟩⟩

end Sealed

/-- An envelope that claims a wrong identifier: the block carries the decrypted transaction and a Merkle root over the claim. -/
theorem produceBlockWithDecryption_trusts_claimed_id :
    ¬ ∀ (_ : Crypto) (ctx : BlockProductionContext) (clearPool : ClearPool) (encryptedPool : EncryptedPool)
      (order : encryptedPool.DrainOrder) (decryptor : ThresholdDecryptor) (shares : List DecryptionShare)
      (vrfProof kesSignature : Bytes) (block : Block), clearPool.Represented → 1 ≤ ctx.height →
      (produceBlockWithDecryption ctx clearPool encryptedPool order decryptor shares vrfProof kesSignature).1 = .ok block →
      block.validateStructure = .ok () ∧
        (block.transactions.filter fun tx => !tx.isCoinbase).Pairwise Transaction.Independent := by
  intro hclaim
  let crypto := sampleCrypto
  let config := ClearPoolConfig.testnet
  obtain ⟨block, hblock⟩ := @produce_sealed sampleCrypto config none .zero [9] [8]
  obtain ⟨hvalid, -⟩ := hclaim sampleCrypto (leaderContext none) (.new config) (sealedPool .zero) (sealedOrder .zero) _ _
    [9] [8] block (represented_new config) (by decide) hblock
  obtain ⟨-, htxs, hroot⟩ := produceBlockWithDecryption_eq_ok hblock
  have hbody : blockBody (leaderContext none) (.new config) (sealedPool .zero) (sealedOrder .zero)
      (MockThresholdDecryptor.mk 1 1).toThresholdDecryptor [⟨0, [0]⟩] = [(.zero, revealedTx)] := mergedBatch_sealed
  rw [hbody] at htxs hroot
  have hroots := (Block.validateStructure_eq_ok.mp hvalid).2.2
  rw [Block.txIds, htxs, hroot, List.map_cons, List.map_nil, List.map_cons, List.map_nil, List.map_cons, List.map_nil,
    merkleRootOf_singleton, merkleRootOf_singleton] at hroots
  exact sampleDigest_ne_zero revealedTx.canonicalBytes hroots

/-- An envelope that claims the identifier of its transaction, in a block with a reward claim. -/
theorem produceBlockWithDecryption_valid_honest : ∃ (_ : Crypto) (block : Block),
    (EncryptedPool.new ⟨10, 1000, 60⟩ 0).add (sealedTx revealedTx.id) = .ok (revealedTx.id, sealedPool revealedTx.id) ∧
    (produceBlockWithDecryption (leaderContext (some .zero)) (.new .testnet) (sealedPool revealedTx.id)
      (sealedOrder revealedTx.id) (MockThresholdDecryptor.mk 1 1).toThresholdDecryptor [⟨0, [0]⟩] [9] [8]).1 = .ok block ∧
      block.transactions.length = 2 ∧ block.validateStructure = .ok () := by
  let crypto := sampleCrypto
  let id := revealedTx.id
  let coinbase : Transaction := .newCoinbase 1 [.new 5000000000 (p2pkhPqc .zero)]
  obtain ⟨block, hblock⟩ := @produce_sealed sampleCrypto .testnet (some .zero) id [9] [8]
  have hcoinbase : coinbaseFor (leaderContext (some .zero)) (.new .testnet) = some coinbase := by
    rw [coinbaseFor, allSorted_new]
    decide +kernel
  have hbody : blockBody (leaderContext (some .zero)) (.new .testnet) (sealedPool id) (sealedOrder id)
      (MockThresholdDecryptor.mk 1 1).toThresholdDecryptor [⟨0, [0]⟩] = [(coinbase.id, coinbase), (id, revealedTx)] := by
    rw [blockBody, hcoinbase, mergedBatch_sealed]
    rfl
  have hhash : HashSeparates (blockBody (leaderContext (some .zero)) (.new .testnet) (sealedPool id) (sealedOrder id)
      (MockThresholdDecryptor.mk 1 1).toThresholdDecryptor [⟨0, [0]⟩]) := by
    rw [hbody]
    constructor
    · have hdiffer : coinbase.id ≠ id := by decide +kernel
      simp only [List.map_cons, List.map_nil, List.forall_mem_cons, List.not_mem_nil, false_implies, implies_true, and_true,
        true_and]
      exact ⟨fun heq => absurd heq hdiffer, fun heq => absurd heq.symm hdiffer⟩
    · intro p hp q hq _
      exact (List.mem_singleton.mp hp).trans (List.mem_singleton.mp hq).symm
  have hempty : ∀ entry, ¬ (ClearPool.new .testnet).Holds entry := by
    intro entry hholds
    have hmem := ((represented_new .testnet).mem_allSorted entry).mpr hholds
    rw [allSorted_new] at hmem
    cases hmem
  have hsealed : ∀ etx ∈ (sealedOrder id).txs, ∀ tx,
      etx.reveal (MockThresholdDecryptor.mk 1 1).toThresholdDecryptor [⟨0, [0]⟩] = some tx →
        etx.id = id ∧ tx = revealedTx := by
    intro etx hetx tx htx
    obtain rfl := List.mem_singleton.mp hetx
    exact ⟨rfl, Option.some.inj (htx.symm.trans (reveal_sealedTx id))⟩
  have hdeliverable : Deliverable (leaderContext (some .zero)) (.new .testnet) (sealedPool id) (sealedOrder id)
      (MockThresholdDecryptor.mk 1 1).toThresholdDecryptor [⟨0, [0]⟩] := by
    constructor
    · intro entry hentry
      exact absurd hentry (hempty entry)
    · intro etx hetx tx htx
      obtain ⟨hid, rfl⟩ := hsealed etx hetx tx htx
      exact hid
    · intro i tx htx
      rw [mergedBatch_sealed] at htx
      have htx' : tx = revealedTx := List.mem_singleton.mp (List.mem_of_getElem? htx)
      rw [htx']
      exact Or.inl (by decide +kernel)
    · intro etx _ tx _ outpoint _ hspent
      exact Std.ExtTreeMap.not_mem_empty hspent
    · rw [sealedOrder, List.filterMap_cons, reveal_sealedTx]
      exact List.pairwise_singleton _ _
  obtain ⟨hvalid, -⟩ := (@produceBlockWithDecryption_valid_iff _ _ _ _ _ _ sampleCrypto _ _ _ (represented_new .testnet)
    (by decide) hblock hhash).mpr hdeliverable
  refine ⟨crypto, block, add_sealedTx id, hblock, ?_, hvalid⟩
  rw [(produceBlockWithDecryption_eq_ok hblock).2.1, hbody]
  rfl

end QuantumVault
