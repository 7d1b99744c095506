import QuantumVault.Proof.Ledger.Maturity
import QuantumVault.Proof.Ledger.RewardsPass
import QuantumVault.Proof.Node.Mempool
import QuantumVault.Proof.Node.Supply
import QuantumVault.Proof.Script.P2pkh

/-!
# Produced blocks are accepted

The producer and the block path compute fees, reward, Merkle root and commitment each in their own way. On a node whose pool was filled by its own admission path they agree: what the producer builds, the block path takes. The pool's transactions stay mature because creation heights of live outputs never change and the tip only rises.
-/

namespace QuantumVault

open Result TreeMap Ledger

variable [Crypto]

/-! ### Independent transactions -/

namespace SlotTicker

theorem feeTotal_of_independent {view : UtxoMap} {txs : List Transaction}
    (h : Independent Transaction.move view txs) :
    feeTotal view txs = ((txs.filter fun tx => !tx.isCoinbase).map (Transaction.feeAt view)).sum := by
  have hsame : ∀ p ∈ meets Transaction.move view txs, p.2.feeAt p.1 = p.2.feeAt view := by
    intro p hp
    unfold Transaction.feeAt
    rw [NodeState.inputTotal_congr (h.getElem?_meets p hp)]
  unfold feeTotal
  rw [List.map_congr_left fun p hp => hsame p (List.mem_of_mem_filter hp)]
  have htxs : txs = (meets Transaction.move view txs).map Prod.snd := meets_map_snd.symm
  conv_rhs => rw [htxs, List.filter_map, List.map_map]
  rfl

end SlotTicker

namespace NodeState

variable {s s' : NodeState} {block genesis : Block} {path delivered : List Block} {known : List Transaction}
  {entry : MempoolEntry}

/-! ### A pool filled by the node's own admission path -/

/-- The block after the tip may spend the outpoint. -/
def Ripe (s : NodeState) (op : OutPoint) : Prop :=
  checkMature s.utxoStore s.chainState.tip.height.next s.params.consensus.kFinality op = .ok ()

/-- A consistent node on delivered blocks, with a pool that the next block may confirm. -/
structure Ready (known : List Transaction) (delivered : List Block) (genesis : Block) (path : List Block)
    (s : NodeState) : Prop where
  consistent : Consistent known genesis path s
  delivered : path ⊆ delivered
  ripe : ∀ entry, s.clearPool.Holds entry → ∀ op ∈ entry.tx.spends, s.Ripe op

omit [Crypto] in
theorem toNat_next (height : Height) : height.next.toNat = min (height.toNat + 1) (2 ^ 64 - 1) := by
  rw [Height.next, Word.toNat_saturatingAdd]
  rfl

theorem Ready.accepted (h : Ready known delivered genesis path s) (hacc : Accepted s block s')
    (hids : DistinctIds known) (hknown : block.transactions ⊆ known) (hdelivered : block ∈ delivered) :
    Ready known delivered genesis (path ++ [block]) s' := by
  refine ⟨h.consistent.accepted hacc hids hknown, ?_, ?_⟩
  · exact List.append_subset.mpr ⟨h.delivered, List.cons_subset.mpr ⟨hdelivered, List.nil_subset _⟩⟩
  · intro entry hentry op hop
    rw [hacc.clearPool_eq] at hentry
    obtain ⟨hold, hunspent⟩ := holds_evictConfirmed h.consistent.coherent hentry
    have hmem := (h.consistent.backed entry hold).1.spends_mem op hop
    have hget := hacc.getElem?_entries hmem (hunspent op hop)
    have hmem' : op ∈ s'.utxoStore.entries := by
      obtain ⟨output, houtput⟩ := mem_iff.mp hmem
      exact mem_of_getElem? (hget.trans houtput)
    have hripe := h.ripe entry hold op hop
    unfold Ripe at hripe ⊢
    rw [hacc.params_eq]
    apply checkMature_mono hripe (hacc.applied.coinbaseHeight_of_live hmem hmem')
    have hheight : block.chainEntry.height.toNat = s.chainState.tip.height.toNat + 1 := hacc.passed.linked.height_eq
    rw [(tip_of_linked hacc.chain hacc.passed.linked).2, UInt64.le_iff_toNat_le, toNat_next, toNat_next]
    omega

theorem Ready.reverted {utxo utxo' : UtxoStore} (h : Ready known delivered genesis path s)
    (happlied : s.utxoStore.applyBlock block = .ok utxo) (hback : UtxoStore.Reverted s.utxoStore block utxo') :
    Ready known delivered genesis path { s with utxoStore := utxo' } := by
  have hentries := hback.entries_eq
  have hconsistent := h.consistent
  refine ⟨⟨⟨hconsistent.recorded.one_chain.of_eq rfl rfl hentries, ?_⟩, hconsistent.chain_known,
    hconsistent.coherent, ?_⟩, h.delivered, ?_⟩
  · rw [hentries]
    exact hconsistent.recorded.past
  · rw [hentries]
    exact hconsistent.backed
  · intro entry hentry op hop
    have hmem := (hconsistent.backed entry hentry).1.spends_mem op hop
    apply checkMature_mono (h.ripe entry hentry op hop) _ (UInt64.le_refl _)
    rw [hback.coinbaseHeight_eq, if_neg ((UtxoStore.Applied.of_ok happlied).coinbaseOutpoint_fresh hmem)]

/-- **Step lemma, blocks.** -/
theorem Ready.handleBlock (h : Ready known delivered genesis path s) (hids : DistinctIds known)
    (hgenesis : genesis.header.height = 0) (havoids : AvoidsGenesis genesis block)
    (hknown : block.transactions ⊆ known) (hdelivered : block ∈ delivered) :
    ∃ path', Ready known delivered genesis path' (s.handleBlock block).2 := by
  have hout := s.handleBlock_outcome block
  generalize hresult : s.handleBlock block = result at hout
  cases hout with
  | refused => exact ⟨path, h⟩
  | reverted e hpassed _ hback => exact ⟨path, h.reverted hpassed.applied hback⟩
  | unstored e hpassed _ hchain hput =>
      obtain ⟨blocks, hok⟩ := h.consistent.recorded.one_chain.putBlock_isOk hpassed.valid_structure hpassed.linked
        hchain.fresh (havoids.hash_ne hgenesis hpassed.linked)
      cases hput.symm.trans hok
  | accepted =>
      have hacc := Accepted.of_ok (show (s.handleBlock block).1 = .ok () by rw [hresult])
      rw [hresult] at hacc
      exact ⟨path ++ [block], h.accepted hacc hids hknown hdelivered⟩

theorem Ready.handleTx {tx : Transaction} (h : Ready known delivered genesis path s) (hknown : tx ∈ known)
    (hadmits : Admits s (Gossiped s tx) s') : Ready known delivered genesis path s' := by
  refine ⟨h.consistent.admits hadmits fun e he => ⟨he.backed, he.tx_eq ▸ hknown⟩, h.delivered, ?_⟩
  intro entry hentry op hop
  unfold Ripe
  rw [hadmits.utxoStore_eq, hadmits.chainState_eq, hadmits.params_eq]
  rcases hadmits.holds entry hentry with hold | hnew
  · exact h.ripe entry hold op hop
  · exact hnew.mature op (hnew.tx_eq ▸ hop)

/-- Blocks, accepted or not, and transactions of the node's own admission path. -/
def OwnEvent (genesis : Block) (_ : NodeState) : NodeEvent → Prop
  | .blockReceived block => AvoidsGenesis genesis block
  | .txReceived _ _ => True
  | .sendTransaction _ _ => False

/-- **Run lemma.** -/
theorem Ready.run {events : List NodeEvent} (h : Ready known delivered genesis path s) (hids : DistinctIds known)
    (hgenesis : genesis.header.height = 0) (hknown : events.flatMap NodeEvent.transactions ⊆ known)
    (hdelivered : events.flatMap NodeEvent.blocks ⊆ delivered) (hrun : Run (OwnEvent genesis) s events s') :
    ∃ path', Ready known delivered genesis path' s' := by
  induction hrun generalizing path with
  | nil => exact ⟨path, h⟩
  | @cons s mid s' event events hok hevent _ ih =>
      rw [List.flatMap_cons, List.append_subset] at hknown hdelivered
      suffices hmid : ∃ path', Ready known delivered genesis path' mid by
        obtain ⟨path', hmid⟩ := hmid
        exact ih hmid hknown.2 hdelivered.2
      cases event with
      | blockReceived block =>
          cases hevent
          exact h.handleBlock hids hgenesis hok hknown.1 (hdelivered.1 (List.mem_singleton_self block))
      | txReceived now tx =>
          have hadmits := admits_of_txReceived h.consistent.coherent hevent
          exact ⟨path, h.handleTx (hknown.1 (List.mem_singleton_self tx)) hadmits⟩
      | sendTransaction now tx => exact absurd hok id

theorem Ready.start (config : NodeConfig) (params : ProtocolParams) (hparams : params.validate = .ok ())
    (keys : GenesisKeys) (hknown : chainTxs [genesisBlock config.network keys] ⊆ known) :
    Ready known delivered (genesisBlock config.network keys) [] (start config params hparams keys) := by
  refine ⟨.start config params hparams keys hknown, List.nil_subset _, ?_⟩
  intro entry hentry
  rw [(fresh_start config params hparams keys).clearPool_eq] at hentry
  simp [ClearPool.Holds, ClearPool.new] at hentry

end NodeState

/-! ### What the producer builds -/

namespace SlotTicker

variable {ticker : SlotTicker} {s : NodeState} {slot : Slot} {vrfProof : Bytes} {now : Timestamp} {block : Block}

omit [Crypto] in
theorem signHeader_eq_ok {header header' : BlockHeader} (hok : ticker.signHeader header = .ok header') :
    header' = { header with kesSig := header'.kesSig } := by
  unfold signHeader at hok
  split at hok
  · cases hok
    rfl
  · obtain ⟨kesSig, -, hok⟩ := okOr_bind_eq_ok.mp hok
    cases hok
    rfl

def batch (s : NodeState) : List Transaction := (s.clearPool.getBatch batchSize).map MempoolEntry.tx

/-- The reward claim of a producer for the block after the tip, with the exact fees of the batch. -/
def claim (ticker : SlotTicker) (s : NodeState) : List Transaction :=
  (ticker.coinbase.map fun cb =>
    let height := s.chainState.tip.height.next
    let fees := UInt64.ofNat (feeTotal s.utxoStore.entries (batch s))
    .newCoinbase height [.new (totalBlockReward height fees cb.monetary) (p2pkhPqc cb.rewardPubkeyHash)]).toList

structure Produced (ticker : SlotTicker) (s : NodeState) (slot : Slot) (block : Block) : Prop where
  linked : s.chainState.tip.slot < slot → NodeState.Linked s.chainState.tip block
  merkleRoot_eq : block.header.merkleRoot = QuantumVault.merkleRootOf block.txIds
  commitment : speculativeUtxoCommitment s.utxoStore block.transactions = .ok block.header.utxoCommitment
  transactions : ticker.prependCoinbase s.utxoStore block.header.height (batch s) = .ok block.transactions
  valid_structure : block.validateStructure = .ok ()

theorem Produced.of_ok (hok : ticker.produceBlock s slot vrfProof now = .ok block) : Produced ticker s slot block := by
  unfold produceBlock at hok
  simp only [bind_eq_ok, okOr_eq_ok, mapError_eq_ok, pure_eq_ok, Word.checkedAdd_eq_some] at hok
  obtain ⟨height, hheight, txs, htxs, commitment, hcommitment, header, hsigned, _, hstructure, rfl⟩ := hok
  have hheader := signHeader_eq_ok hsigned
  rw [hheader] at hstructure ⊢
  refine ⟨fun hslot => ⟨rfl, hslot, hheight⟩, ?_, hcommitment, htxs, hstructure⟩
  exact merkleRootOf_eq _

/-- What the producer puts into the block: a reward claim for the exact fees, if it is to claim one and there is one, and the batch. -/
theorem prependCoinbase_eq_ok {store : UtxoStore} {height : Height} {batch txs : List Transaction}
    (hok : ticker.prependCoinbase store height batch = .ok txs) :
    (ticker.coinbase = none ∧ txs = batch) ∨
      ∃ cb fees, ticker.coinbase = some cb ∧ fees.toNat = feeTotal store.entries batch ∧
        (totalBlockReward height fees cb.monetary = 0 ∧ txs = batch ∨
          txs = .newCoinbase height [.new (totalBlockReward height fees cb.monetary) (p2pkhPqc cb.rewardPubkeyHash)]
            :: batch) := by
  unfold prependCoinbase at hok
  cases hcb : ticker.coinbase with
  | none =>
      rw [hcb] at hok
      cases hok
      exact Or.inl ⟨rfl, rfl⟩
  | some cb =>
      rw [hcb] at hok
      obtain ⟨outcome, houtcome, hok⟩ := bind_eq_ok.mp hok
      have hfees := (speculativeApply_of_ok houtcome).2.2.2
      refine Or.inr ⟨cb, outcome.totalFees, rfl, hfees, ?_⟩
      dsimp only at hok
      split at hok
      · exact Or.inr (pure_eq_ok.mp hok).symm
      · rename_i hzero
        refine Or.inl ⟨?_, (pure_eq_ok.mp hok).symm⟩
        have hle := UInt64.le_iff_toNat_le.mp (UInt64.not_lt.mp hzero)
        rw [UInt64.toNat_zero] at hle
        apply UInt64.toNat_inj.mp
        rw [UInt64.toNat_zero]
        omega

private theorem claim_eq {cb : CoinbaseConfig} {height : Height} {fees : Amount} (hcb : ticker.coinbase = some cb)
    (hheight : height.toNat = s.chainState.tip.height.toNat + 1)
    (hfees : fees.toNat = feeTotal s.utxoStore.entries (batch s)) :
    ticker.claim s =
      [.newCoinbase height [.new (totalBlockReward height fees cb.monetary) (p2pkhPqc cb.rewardPubkeyHash)]] := by
  have hnext : s.chainState.tip.height.next = height := by
    apply UInt64.toNat_inj.mp
    have hlt := UInt64.toNat_lt height
    rw [NodeState.toNat_next]
    omega
  have hword : UInt64.ofNat (feeTotal s.utxoStore.entries (batch s)) = fees := by
    rw [← hfees]
    exact UInt64.ofNat_toNat
  rw [claim, hcb, hnext, hword]
  rfl

end SlotTicker

/-! ### Both sides agree -/

namespace NodeState

open SlotTicker

variable {s s' : NodeState} {block genesis : Block} {path delivered : List Block} {known : List Transaction}
  {ticker : SlotTicker} {slot : Slot}

theorem Ready.batch_backed (h : Ready known delivered genesis path s) {tx : Transaction} (htx : tx ∈ batch s) :
    tx ∈ known ∧ tx.isCoinbase = false ∧ tx.outputTotal < 2 ^ 64 ∧ (∀ op ∈ tx.spends, op ∈ s.utxoStore.entries) ∧
      tx.Covered s.utxoStore.entries ∧ ∀ op ∈ tx.spends, s.Ripe op := by
  obtain ⟨entry, hentry, rfl⟩ := List.mem_map.mp htx
  have hholds := ClearPool.mem_getBatch hentry
  obtain ⟨hbacked, hmem⟩ := h.consistent.backed entry hholds
  exact ⟨hmem, hbacked.not_coinbase, (Transaction.validateStructure_eq_ok.mp hbacked.valid_structure).2.2.2,
    hbacked.spends_mem, hbacked.covered, h.ripe entry hholds⟩

private theorem independent_cons {view : UtxoMap} {tx : Transaction} {txs : List Transaction}
    (h : Independent Transaction.move view txs) (hinputs : tx.inputs = []) (hfits : tx.IndexFits)
    (hfresh : ∀ op ∈ tx.move.created, op ∉ view) (hother : ∀ y ∈ txs, y.id ≠ tx.id) :
    Independent Transaction.move view (tx :: txs) := by
  have hspends : tx.move.spends = [] := spends_eq_nil.mpr hinputs
  refine ⟨?_, ?_, ?_, ?_, ?_, ?_⟩
  · exact List.forall_mem_cons.mpr ⟨by rw [hspends]; exact List.nodup_nil, h.spends_nodup⟩
  · exact List.forall_mem_cons.mpr ⟨by rw [hspends]; simp, h.spends_mem⟩
  · exact List.forall_mem_cons.mpr ⟨Transaction.created_nodup hfits, h.created_nodup⟩
  · exact List.forall_mem_cons.mpr ⟨hfresh, h.created_fresh⟩
  · exact List.pairwise_cons.mpr ⟨by rw [hspends]; simp, h.spends_disjoint⟩
  · refine List.pairwise_cons.mpr ⟨?_, h.created_disjoint⟩
    intro y hy op hop hop'
    apply hother y hy
    rw [← Transaction.txId_of_mem_created hop, ← Transaction.txId_of_mem_created hop']

/-- What the producer puts into a block at the next height: at most one reward claim, before the batch, and no transaction depends on another. -/
structure Body (ticker : SlotTicker) (s : NodeState) (block : Block) : Prop where
  independent : Independent Transaction.move s.utxoStore.entries block.transactions
  mem : ∀ tx ∈ block.transactions, tx ∈ batch s ∨ tx.inputs = [] ∧ tx.outputTotal < 2 ^ 64
  fees : feeTotal s.utxoStore.entries block.transactions = feeTotal s.utxoStore.entries (batch s)
  claim : ∃ fees : Amount, fees.toNat = feeTotal s.utxoStore.entries (batch s) ∧
    block.coinbaseTotal = (ticker.coinbase.map fun cb =>
      (totalBlockReward block.header.height fees cb.monetary).toNat).getD 0

/-- A claim at the next height is new, so it can stand before the batch. -/
theorem Ready.independent_claim (h : Ready known delivered genesis path s) {height : Height}
    (hheight : height.toNat = s.chainState.tip.height.toNat + 1) {output : TxOutput}
    (hids : DistinctIds (known ++ [.newCoinbase height [output]]))
    (hbatch : Independent Transaction.move s.utxoStore.entries (batch s)) :
    Independent Transaction.move s.utxoStore.entries (.newCoinbase height [output] :: batch s) := by
  have hself : Transaction.newCoinbase height [output] ∈ known ++ [.newCoinbase height [output]] := by simp
  apply independent_cons hbatch rfl (by change 1 ≤ 2 ^ 32; omega)
  · -- no transaction of the past without inputs names this height
    intro op hop hlive
    obtain ⟨y, hy, heq⟩ := h.consistent.recorded.past.history.origin op hlive
    have hlock : s.chainState.tip.height.toNat < (Transaction.newCoinbase height [output]).lockTime.toNat := by
      change _ < height.toNat
      omega
    refine h.consistent.recorded.past.coinbase_fresh (fun z hz heq => ?_) rfl hlock y hy ?_
    · exact hids z (List.mem_append_left _ (h.consistent.chain_known hz)) _ hself heq
    · rw [heq, Transaction.txId_of_mem_created hop]
  · intro y hy heq
    obtain ⟨hknown, hinputs, -⟩ := h.batch_backed hy
    have hsame := hids y (List.mem_append_left _ hknown) _ hself heq
    rw [hsame] at hinputs
    cases hinputs

/-- The batch, or a new claim at this height and the batch. -/
def Fills (known : List Transaction) (s : NodeState) (height : Height) (txs : List Transaction) : Prop :=
  txs = batch s ∨ ∃ output, txs = .newCoinbase height [output] :: batch s ∧
    DistinctIds (known ++ [.newCoinbase height [output]])

private theorem Fills.batch_subset {height : Height} {txs : List Transaction} (h : Fills known s height txs) :
    batch s ⊆ txs := by
  rcases h with rfl | ⟨output, rfl, -⟩
  · exact List.Subset.refl _
  · exact List.subset_cons_self _ _

theorem Ready.independent (h : Ready known delivered genesis path s) (hids : DistinctIds known) {height : Height}
    (hheight : height.toNat = s.chainState.tip.height.toNat + 1) {txs : List Transaction}
    (hfills : Fills known s height txs) (hfits : ∀ tx ∈ txs, tx.IndexFits) :
    Independent Transaction.move s.utxoStore.entries txs ∧
      feeTotal s.utxoStore.entries txs = feeTotal s.utxoStore.entries (batch s) := by
  have hbatch : Independent Transaction.move s.utxoStore.entries (batch s) :=
    h.consistent.independent hids fun tx htx => hfits tx (hfills.batch_subset htx)
  rcases hfills with rfl | ⟨output, rfl, hdistinct⟩
  · exact ⟨hbatch, rfl⟩
  · have hclaim := h.independent_claim hheight hdistinct hbatch
    refine ⟨hclaim, ?_⟩
    rw [feeTotal_of_independent hclaim, feeTotal_of_independent hbatch, List.filter_cons]
    rfl

theorem Fills.of_ok {height : Height} (hheight : height.toNat = s.chainState.tip.height.toNat + 1)
    (hids : DistinctIds (known ++ ticker.claim s))
    {txs : List Transaction} (hok : ticker.prependCoinbase s.utxoStore height (batch s) = .ok txs) :
    Fills known s height txs := by
  rcases prependCoinbase_eq_ok hok with ⟨-, htxs⟩ | ⟨cb, fees, hcb, hfees, ⟨-, htxs⟩ | htxs⟩
  · exact Or.inl htxs
  · exact Or.inl htxs
  · rw [claim_eq hcb hheight hfees] at hids
    exact Or.inr ⟨_, htxs, hids⟩

theorem Ready.body (h : Ready known delivered genesis path s) (hproduced : Produced ticker s slot block)
    (hheight : block.header.height.toNat = s.chainState.tip.height.toNat + 1)
    (hids : DistinctIds (known ++ ticker.claim s)) : Body ticker s block := by
  obtain ⟨outcome, houtcome, -⟩ := bind_eq_ok.mp hproduced.commitment
  obtain ⟨hfits, -, -, hpaid⟩ := speculativeApply_of_ok houtcome
  obtain ⟨hindependent, hfeesEq⟩ := h.independent (hids.mono (List.subset_append_left _ _)) hheight
    (Fills.of_ok hheight hids hproduced.transactions) hfits
  have hcoinbase : (batch s).filter Transaction.isCoinbase = [] := by
    refine List.filter_eq_nil_iff.mpr fun tx htx => ?_
    simp [(h.batch_backed htx).2.1]
  have hnone (htxs : block.transactions = batch s) : block.coinbaseTotal = 0 := by
    rw [Block.coinbaseTotal, htxs, hcoinbase]
    rfl
  refine ⟨hindependent, ?_, hfeesEq, ?_⟩
  · intro tx htx
    rcases Fills.of_ok hheight hids hproduced.transactions with htxs | ⟨output, htxs, -⟩
    · exact Or.inl (htxs ▸ htx)
    · rw [htxs] at htx
      rcases List.mem_cons.mp htx with rfl | hlater
      · refine Or.inr ⟨rfl, ?_⟩
        change output.value.toNat + 0 < 2 ^ 64
        exact UInt64.toNat_lt output.value
      · exact Or.inl hlater
  · rcases prependCoinbase_eq_ok hproduced.transactions with
      ⟨hcb, htxs⟩ | ⟨cb, fees, hcb, hfees, ⟨hzero, htxs⟩ | htxs⟩
    · exact ⟨outcome.totalFees, by rw [hpaid, htxs], by rw [hnone htxs, hcb]; rfl⟩
    · exact ⟨fees, hfees, by rw [hnone htxs, hcb, Option.map_some, hzero]; rfl⟩
    · refine ⟨fees, hfees, ?_⟩
      rw [Block.coinbaseTotal, htxs, List.filter_cons, hcoinbase, hcb]
      simp [Transaction.isCoinbase, Transaction.newCoinbase, Transaction.outputTotal, Transaction.outputValues,
        TxOutput.new]

theorem Ready.passed (h : Ready known delivered genesis path s) {poolId : Hash256}
    {kesSk : Option (Bytes → Option Bytes)} {rewardPubkeyHash : Option Hash256}
    (hproduced : Produced (spawn s poolId kesSk rewardPubkeyHash) s slot block) (hslot : s.chainState.tip.slot < slot)
    (hids : DistinctIds (known ++ (spawn s poolId kesSk rewardPubkeyHash).claim s)) : ∃ utxo, s.Passed block utxo := by
  have hlinked := hproduced.linked hslot
  have hbody := h.body hproduced hlinked.height_eq hids
  obtain ⟨outcome, houtcome, -⟩ := bind_eq_ok.mp hproduced.commitment
  obtain ⟨hfits, -, hcovered, -⟩ := speculativeApply_of_ok houtcome
  have hvalid : Valid Transaction.move s.utxoStore.entries [] block.transactions := hbody.independent.valid (by simp)
  obtain ⟨utxo, happlied⟩ := UtxoStore.applyBlock_isOk.mpr ⟨hproduced.valid_structure, hvalid, hfits⟩
  refine ⟨utxo, hproduced.valid_structure, hlinked, ?_, happlied⟩
  have hne : block.header.height ≠ 0 := by
    intro hzero
    have hheight := hlinked.height_eq
    rw [hzero, UInt64.toNat_zero] at hheight
    omega
  have hnext : s.chainState.tip.height.next = block.header.height := by
    apply UInt64.toNat_inj.mp
    have hlt := UInt64.toNat_lt block.header.height
    rw [toNat_next, hlinked.height_eq]
    have := hlinked.height_eq
    omega
  obtain ⟨fees, hfees, hclaim⟩ := hbody.claim
  apply validateBlockRewards_isOk hne hproduced.valid_structure hvalid _ hcovered (hfees.trans hbody.fees.symm)
  · rw [hclaim]
    cases rewardPubkeyHash with
    | none => exact Nat.zero_le _
    | some pkh => exact le_rfl
  · intro tx htx
    rcases hbody.mem tx htx with hbatch | ⟨hinputs, hout⟩
    · obtain ⟨-, -, hout, hmem, -, hripe⟩ := h.batch_backed hbatch
      refine ⟨hfits tx htx, hout, hmem, fun op hop => ?_⟩
      rw [← hnext]
      exact hripe op hop
    · have hspends := spends_eq_nil.mpr hinputs
      exact ⟨hfits tx htx, hout, by rw [hspends]; simp, by rw [hspends]; simp⟩

/-- No other header that is around has the hash of the block, and the placeholder's hash is not it either. -/
def FreshHash (others : List Block) (block : Block) : Prop :=
  block.hash ≠ .zero ∧ ∀ b ∈ others, b.hash = block.hash → b.header = block.header

instance (others : List Block) (block : Block) : Decidable (FreshHash others block) :=
  inferInstanceAs (Decidable (_ ∧ _))

private theorem Ready.hash_fresh (h : Ready known delivered genesis path s) (hgenesis : genesis.header.height = 0)
    (hfresh : FreshHash (genesis :: delivered) block) (hlinked : Linked s.chainState.tip block) :
    block.hash ∉ s.chainState.entries ∧ block.hash ≠ genesis.hash := by
  have hheight := hlinked.height_eq
  have htip := h.consistent.recorded.one_chain.tip_height
  constructor
  · intro hmem
    rcases h.consistent.recorded.one_chain.on_path block.hash hmem with hzero | ⟨b, hb, heq⟩
    · exact hfresh.1 hzero
    · have hle := h.consistent.recorded.one_chain.height_le b hb
      rw [hfresh.2 b (List.mem_cons_of_mem _ (h.delivered hb)) heq] at hle
      omega
  · intro heq
    rw [← hfresh.2 genesis List.mem_cons_self heq.symm, hgenesis, UInt64.toNat_zero] at hheight
    omega

/-! ### The producer gets through -/

theorem Ready.speculativeApply_isOk (h : Ready known delivered genesis path s) (hids : DistinctIds known)
    {height : Height} (hheight : height.toNat = s.chainState.tip.height.toNat + 1)
    (hfits : ∀ entry, s.clearPool.Holds entry → entry.tx.IndexFits)
    (htotal : utxoTotal s.utxoStore.entries < 2 ^ 64) {txs : List Transaction} (hfills : Fills known s height txs) :
    ∃ outcome, speculativeApply s.utxoStore txs = .ok outcome := by
  obtain ⟨outcome, hbatch⟩ := h.consistent.speculativeApply_isOk hids hfits htotal batchSize
  obtain ⟨hbatchFits, -, -, hfees⟩ := speculativeApply_of_ok hbatch
  have htxsFits : ∀ tx ∈ txs, tx.IndexFits := by
    rcases hfills with rfl | ⟨output, rfl, -⟩
    · exact hbatchFits
    · refine List.forall_mem_cons.mpr ⟨?_, hbatchFits⟩
      change 1 ≤ 2 ^ 32
      omega
  obtain ⟨hindependent, hsame⟩ := h.independent hids hheight hfills htxsFits
  apply SlotTicker.speculativeApply_isOk (hindependent.valid (by simp)) htxsFits
  · intro p hp hother
    have hmem : p.2 ∈ batch s := by
      rcases hfills with rfl | ⟨output, rfl, -⟩
      · exact mem_of_mem_meets hp
      · rcases List.mem_cons.mp (mem_of_mem_meets hp) with heq | hlater
        · rw [heq] at hother
          cases hother
        · exact hlater
    unfold Transaction.Covered
    rw [inputTotal_congr (hindependent.getElem?_meets p hp)]
    exact (h.batch_backed hmem).2.2.2.2.1
  · rw [hsame]
    change outcome.totalFees.toNat = feeTotal s.utxoStore.entries (batch s) at hfees
    rw [← hfees]
    exact UInt64.toNat_lt outcome.totalFees

theorem Ready.validateStructure (h : Ready known delivered genesis path s)
    (hheight : block.header.height.toNat = s.chainState.tip.height.toNat + 1)
    (hmerkle : block.header.merkleRoot = QuantumVault.merkleRootOf block.txIds)
    (htxs : Fills known s block.header.height block.transactions) : block.validateStructure = .ok () := by
  have hne : block.header.height ≠ 0 := by
    intro hzero
    rw [hzero, UInt64.toNat_zero] at hheight
    omega
  have hbatch : ∀ tx ∈ batch s, ∀ index, Block.validateTransactionAt block.header.height index tx = .ok () := by
    intro tx htx index
    obtain ⟨entry, hentry, rfl⟩ := List.mem_map.mp htx
    have hstructure := (h.consistent.backed entry (ClearPool.mem_getBatch hentry)).1.valid_structure
    rw [Block.validateTransactionAt_of_inputs (Transaction.validateStructure_eq_ok.mp hstructure).1]
    exact hstructure
  have hnodup : ((batch s).map Transaction.id).Nodup := by
    have hids := h.consistent.coherent.nodup_getBatch batchSize
    rw [batch, List.map_map]
    rwa [List.map_congr_left fun entry hentry =>
      (h.consistent.backed entry (ClearPool.mem_getBatch hentry)).1.txId_eq] at hids
  rw [Block.validateStructure_eq_ok]
  refine ⟨?_, ?_, hmerkle.symm⟩
  · intro tx htx
    have hmem := List.fst_mem_of_mem_zipIdx htx
    rcases htxs with hplain | ⟨output, hclaim, -⟩
    · exact hbatch tx.1 (hplain ▸ hmem) tx.2
    · rw [hclaim, List.zipIdx_cons] at htx
      rcases List.mem_cons.mp htx with rfl | hlater
      · have hempty : (Transaction.newCoinbase block.header.height [output]).inputs.isEmpty = true := rfl
        simp only [Block.validateTransactionAt, hempty, if_true, hne, if_false]
        apply Transaction.validateCoinbaseStructure_eq_ok.mpr
        refine ⟨rfl, by simp [Transaction.newCoinbase], ?_, rfl⟩
        change (output.value.toNat + 0) < 2 ^ 64
        have := UInt64.toNat_lt output.value
        omega
      · exact hbatch tx.1 (List.fst_mem_of_mem_zipIdx hlater) tx.2
  · unfold Block.txIds
    rcases htxs with hplain | ⟨output, hclaim, hids⟩
    · rw [hplain]
      exact hnodup
    · rw [hclaim, List.map_cons, List.nodup_cons]
      refine ⟨fun hmem => ?_, hnodup⟩
      obtain ⟨tx, htx, heq⟩ := List.mem_map.mp hmem
      obtain ⟨hknown, hinputs, -⟩ := h.batch_backed htx
      have hsame := hids tx (List.mem_append_left _ hknown) _ (by simp) heq
      rw [hsame] at hinputs
      cases hinputs

/-- **The producer builds a block** when the height after the tip fits, every pooled transaction can number its outputs, the ledger's total fits its word and signing does not fail. -/
theorem Ready.produceBlock_isOk (h : Ready known delivered genesis path s) (hids : DistinctIds (known ++ ticker.claim s))
    (hheight : s.chainState.tip.height.toNat + 1 < 2 ^ 64)
    (hfits : ∀ entry, s.clearPool.Holds entry → entry.tx.IndexFits) (htotal : utxoTotal s.utxoStore.entries < 2 ^ 64)
    (hsigns : ∀ sign ∈ ticker.kesSk, ∀ bytes, (sign bytes).isSome = true) (slot : Slot) (vrfProof : Bytes)
    (now : Timestamp) : ∃ block, ticker.produceBlock s slot vrfProof now = .ok block := by
  obtain ⟨height, hnext⟩ : ∃ w : UInt64, w.toNat = s.chainState.tip.height.toNat + 1 := Word.exists_toNat_eq hheight
  have hadd : Word.checkedAdd s.chainState.tip.height 1 = some height := Word.checkedAdd_eq_some.mpr hnext
  have hknown : DistinctIds known := hids.mono (List.subset_append_left _ _)
  obtain ⟨txs, hprepend⟩ : ∃ txs, ticker.prependCoinbase s.utxoStore height (batch s) = .ok txs := by
    obtain ⟨outcome, hbatch⟩ := h.speculativeApply_isOk hknown hnext hfits htotal (Or.inl rfl)
    unfold prependCoinbase
    cases ticker.coinbase with
    | none => exact ⟨batch s, rfl⟩
    | some cb =>
        dsimp only
        rw [hbatch, ok_bind]
        split
        · exact ⟨_, rfl⟩
        · exact ⟨_, rfl⟩
  have hfills := Fills.of_ok hnext hids hprepend
  obtain ⟨outcome, houtcome⟩ := h.speculativeApply_isOk hknown hnext hfits htotal hfills
  have hcommitment : speculativeUtxoCommitment s.utxoStore txs = .ok (commitmentRoot outcome.set) := by
    rw [speculativeUtxoCommitment, houtcome]
    rfl
  have hsigned (header : BlockHeader) : ∃ header', ticker.signHeader header = .ok header' := by
    unfold signHeader
    cases hsk : ticker.kesSk with
    | none => exact ⟨header, rfl⟩
    | some sign =>
        obtain ⟨kesSig, hsig⟩ := Option.isSome_iff_exists.mp (hsigns sign hsk header.canonicalBytes)
        exact ⟨{ header with kesSig := kesSig }, by simp only [hsig, okOr_some]; rfl⟩
  unfold produceBlock
  simp only [bind_eq_ok, okOr_eq_ok, mapError_eq_ok, pure_eq_ok]
  obtain ⟨header', hheader'⟩ := hsigned
    { version := blockVersion, prevHash := s.chainState.tip.hash, height := height, slot := slot, timestamp := now,
      merkleRoot := SlotTicker.merkleRootOf (txs.map Transaction.id), utxoCommitment := commitmentRoot outcome.set,
      vrfProof := vrfProof, kesSig := [], producerKeyHash := sha3_256 ticker.poolId.bytes }
  have heq := signHeader_eq_ok hheader'
  refine ⟨⟨header', txs⟩, height, hadd, txs, hprepend, _, hcommitment, header', hheader', (), ?_, rfl⟩
  rw [heq]
  exact h.validateStructure hnext (merkleRootOf_eq _) hfills

/-- **Producer and validator agree.** On a node whose pool was filled by its own admission path, a block that the producer builds for a slot after the tip's is accepted: its commitment is that of the ledger after the block, its Merkle root is that of its transactions, and its coinbase claims exactly the reward for the exact fees. The producer gets through unless a word is too small or signing fails. -/
theorem producer_validator_agree (config : NodeConfig) (params : ProtocolParams) (hparams : params.validate = .ok ())
    (keys : GenesisKeys) {events : List NodeEvent}
    (hrun : Run (OwnEvent (genesisBlock config.network keys)) (start config params hparams keys) events s)
    (poolId : Hash256) (kesSk : Option (Bytes → Option Bytes)) (rewardPubkeyHash : Option Hash256)
    (hids : DistinctIds (chainTxs [genesisBlock config.network keys] ++ events.flatMap NodeEvent.transactions ++
      (spawn s poolId kesSk rewardPubkeyHash).claim s))
    {slot : Slot} (hslot : s.chainState.tip.slot < slot) (vrfProof : Bytes) (now : Timestamp) :
    (∀ block, (spawn s poolId kesSk rewardPubkeyHash).produceBlock s slot vrfProof now = .ok block →
      FreshHash (genesisBlock config.network keys :: events.flatMap NodeEvent.blocks) block →
      (s.handleBlock block).1 = .ok () ∧
        block.header.utxoCommitment = commitmentRoot (s.handleBlock block).2.utxoStore.entries ∧
        block.header.merkleRoot = QuantumVault.merkleRootOf block.txIds ∧
        ∃ fees : Amount, fees.toNat = block.fees s.utxoStore.entries ∧
          block.coinbaseTotal = (rewardPubkeyHash.map fun _ =>
            (totalBlockReward block.header.height fees s.params.monetary).toNat).getD 0) ∧
      (s.chainState.tip.height.toNat + 1 < 2 ^ 64 → (∀ entry, s.clearPool.Holds entry → entry.tx.IndexFits) →
        utxoTotal s.utxoStore.entries < 2 ^ 64 → (∀ sign ∈ kesSk, ∀ bytes, (sign bytes).isSome = true) →
        ∃ block, (spawn s poolId kesSk rewardPubkeyHash).produceBlock s slot vrfProof now = .ok block) := by
  have hstart : Ready _ (events.flatMap NodeEvent.blocks) _ _ _ := Ready.start config params hparams keys
    (List.subset_append_left _ (events.flatMap NodeEvent.transactions))
  obtain ⟨path, h⟩ := hstart.run (hids.mono (List.subset_append_left _ _)) genesisBlock_height
    (List.subset_append_right _ _) (List.Subset.refl _) hrun
  refine ⟨fun block hok hfresh => ?_, fun hheight hfits htotal hsigns => ?_⟩
  · have hproduced := Produced.of_ok hok
    have hlinked := hproduced.linked hslot
    obtain ⟨utxo, hpassed⟩ := h.passed hproduced hslot hids
    obtain ⟨outcome, houtcome, hcommitment⟩ := bind_eq_ok.mp hproduced.commitment
    have hset := (speculativeApply_of_ok houtcome).2.1
    have hentries : outcome.set = utxo.entries := by
      rw [hset, (UtxoStore.Applied.of_ok hpassed.applied).entries_eq]
      rfl
    have hroot : block.header.utxoCommitment = commitmentRoot utxo.entries := by
      rw [← hentries]
      exact (pure_eq_ok.mp hcommitment).symm
    have hmatches : { s with utxoStore := utxo }.commitmentMatches block = true := by
      simp [commitmentMatches, hroot]
    obtain ⟨hunknown, hother⟩ := h.hash_fresh genesisBlock_height hfresh hlinked
    have haccepted := h.consistent.recorded.one_chain.takes hpassed hmatches hunknown hother
    have hstore := hpassed.unique (Accepted.of_ok haccepted).passed
    have hbody := h.body hproduced hlinked.height_eq hids
    obtain ⟨fees, hfees, hclaim⟩ := hbody.claim
    refine ⟨haccepted, by rw [← hstore]; exact hroot, hproduced.merkleRoot_eq, fees, hfees.trans hbody.fees.symm, ?_⟩
    rw [hclaim]
    cases rewardPubkeyHash <;> rfl
  · exact h.produceBlock_isOk hids hheight hfits htotal hsigns slot vrfProof now

/-! ### A signed spend -/

/-- Primitives for a small example in which every signature of the right length verifies. -/
@[reducible] def verifyingCrypto : Crypto := ⟨sampleDigest, sampleDigest, fun _ _ _ _ => true⟩

/-- A fresh node whose foundation key is the one of the honest witness. -/
def signedNode : NodeState :=
  @startPreset verifyingCrypto ⟨.mainnet, 1, true⟩ ⟨fun _ => [], List.replicate 1312 0⟩

/-- The foundation spends its genesis output with its signature and key. -/
def signedSpend : Transaction :=
  .new [⟨⟨@Transaction.id verifyingCrypto
      (@genesisTransaction verifyingCrypto .mainnet ⟨fun _ => [], List.replicate 1312 0⟩), 0⟩, honestWitness⟩]
    [.new 2099999999999993 []]

omit [Crypto] in
/-- The node with the foundation's signed spend in its pool produces a block with a claim and the spend, and accepts it. -/
theorem producer_validator_agree_signedSpend :
    ∃ s, @handleEvent verifyingCrypto signedNode (.txReceived 0 signedSpend) = some s ∧
      ∃ block, @produceBlock verifyingCrypto (spawn s .zero none (some .zero)) s 1 [] 0 = .ok block ∧
        block.transactions.length = 2 ∧ (@handleBlock verifyingCrypto s block).1 = .ok () := by
  let genesis := @genesisBlock verifyingCrypto .mainnet ⟨fun _ => [], List.replicate 1312 0⟩
  have hsteps : ∃ s ∈ @handleEvent verifyingCrypto signedNode (.txReceived 0 signedSpend),
      s.chainState.tip.slot < 1 ∧
      @DistinctIds verifyingCrypto (chainTxs [genesis] ++ [signedSpend] ++
        @SlotTicker.claim verifyingCrypto (spawn s .zero none (some .zero)) s) ∧
      ∃ block ∈ (@produceBlock verifyingCrypto (spawn s .zero none (some .zero)) s 1 [] 0).toOption,
        block.transactions.length = 2 ∧ @FreshHash verifyingCrypto [genesis] block := by
    decide +kernel
  obtain ⟨s, hs, hslot, hids, block, hblock, hlength, hfresh⟩ := hsteps
  have hok : @produceBlock verifyingCrypto (spawn s .zero none (some .zero)) s 1 [] 0 = .ok block := by
    cases hproduced : @produceBlock verifyingCrypto (spawn s .zero none (some .zero)) s 1 [] 0 with
    | error e =>
        rw [hproduced] at hblock
        cases hblock
    | ok b =>
        rw [hproduced] at hblock
        cases hblock
        rfl
  refine ⟨s, hs, block, hok, hlength, ?_⟩
  exact ((@producer_validator_agree verifyingCrypto s ⟨.mainnet, 1, true⟩ (.preset .mainnet)
    (ProtocolParams.validate_preset .mainnet) ⟨fun _ => [], List.replicate 1312 0⟩ [.txReceived 0 signedSpend]
    (@Run.cons verifyingCrypto _ _ _ _ _ _ trivial hs (@Run.nil verifyingCrypto _ _))
    .zero none (some .zero) hids 1 hslot [] 0).1 block hok hfresh).1

end NodeState

end QuantumVault
