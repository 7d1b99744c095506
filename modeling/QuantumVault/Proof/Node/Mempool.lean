import QuantumVault.Proof.Ledger.Speculative
import QuantumVault.Proof.Mempool.Coherent
import QuantumVault.Proof.Node.Admission
import QuantumVault.Proof.Node.History

/-!
# The mempool and the ledger

Every event leaves a pool whose transactions are backed by the ledger: their inputs are unspent and worth at least what they create. Blocks keep it so because they evict whatever conflicts with them. An RPC submission keeps it so only if the submitted transaction is backed itself, which the RPC path does not check.
-/

namespace QuantumVault

open Result TreeMap Ledger

variable [Crypto]

def NodeEvent.transactions : NodeEvent → List Transaction
  | .blockReceived block => block.transactions
  | .txReceived _ tx => [tx]
  | .sendTransaction _ tx => [tx]

def NodeEvent.blocks : NodeEvent → List Block
  | .blockReceived block => [block]
  | _ => []

namespace NodeState

/-- A sequence of events that all meet a condition where they arrive. -/
inductive Run (ok : NodeState → NodeEvent → Prop) : NodeState → List NodeEvent → NodeState → Prop where
  | nil {s : NodeState} : Run ok s [] s
  | cons {s s' t : NodeState} {event : NodeEvent} {events : List NodeEvent} (hok : ok s event)
      (hevent : s.handleEvent event = some s') (hrest : Run ok s' events t) : Run ok s (event :: events) t

/-- An entry of the pool that the ledger backs. -/
structure Backed (entries : UtxoMap) (entry : MempoolEntry) : Prop where
  txId_eq : entry.txId = entry.tx.id
  valid_structure : entry.tx.validateStructure = .ok ()
  spends_mem : ∀ op ∈ entry.tx.spends, op ∈ entries
  covered : entry.tx.Covered entries

variable {s s' : NodeState} {block : Block} {entry : MempoolEntry} {now : UInt64} {tx : Transaction}

theorem inputTotal_congr {view view' : UtxoMap} (h : ∀ op ∈ tx.spends, view'[op]? = view[op]?) :
    tx.inputTotal view' = tx.inputTotal view := by
  unfold Transaction.inputTotal Ledger.inputTotal
  congr 1
  refine List.map_congr_left fun op hop => ?_
  rw [weightAt, weightAt, h op hop]

theorem Backed.congr {view view' : UtxoMap} (h : Backed view entry)
    (hsame : ∀ op ∈ entry.tx.spends, view'[op]? = view[op]?) : Backed view' entry := by
  refine ⟨h.txId_eq, h.valid_structure, fun op hop => ?_, ?_⟩
  · obtain ⟨output, hget⟩ := mem_iff.mp (h.spends_mem op hop)
    exact mem_of_getElem? ((hsame op hop).trans hget)
  · unfold Transaction.Covered
    rw [inputTotal_congr hsame]
    exact h.covered

/-! ### What an event does to the pool -/

omit [Crypto] in
theorem holds_evictConfirmed (hcoherent : s.clearPool.Coherent)
    (hentry : (s.evictConfirmed block).clearPool.Holds entry) :
    s.clearPool.Holds entry ∧ ∀ op ∈ entry.tx.spends, ∀ tx ∈ block.transactions, op ∉ tx.spends := by
  obtain ⟨txId, hentry⟩ := hentry
  have hmem {op : OutPoint} {tx : Transaction} (htx : tx ∈ block.transactions) (hop : op ∈ tx.spends) :
      op ∈ block.spentOutpoints :=
    Std.ExtTreeSet.mem_ofList.mpr (List.contains_iff_mem.mpr (List.mem_flatMap.mpr ⟨tx, htx, hop⟩))
  unfold evictConfirmed at hentry
  split at hentry
  · rename_i hempty
    refine ⟨⟨txId, hentry⟩, fun op _ tx htx hop => ?_⟩
    rw [Std.ExtTreeSet.isEmpty_iff] at hempty
    have hnone := hmem htx hop
    rw [hempty] at hnone
    simp at hnone
  · refine ⟨⟨txId, ClearPool.within_removeAll _ _ _ _ hentry⟩, fun op hop tx htx hspent => ?_⟩
    exact hcoherent.removeConfirmed _ hentry op hop (hmem htx hspent)

omit [Crypto] in
theorem coherent_evictConfirmed (hcoherent : s.clearPool.Coherent) : (s.evictConfirmed block).clearPool.Coherent := by
  unfold evictConfirmed
  split
  · exact hcoherent
  · exact hcoherent.removeAll _

/-- What an admission leaves of the node and of the pool. -/
structure Admits (s : NodeState) (admitted : MempoolEntry → Prop) (s' : NodeState) : Prop where
  utxoStore_eq : s'.utxoStore = s.utxoStore
  blockStore_eq : s'.blockStore = s.blockStore
  chainState_eq : s'.chainState = s.chainState
  config_eq : s'.config = s.config
  params_eq : s'.params = s.params
  coherent : s'.clearPool.Coherent
  holds : ∀ entry, s'.clearPool.Holds entry → s.clearPool.Holds entry ∨ admitted entry

omit [Crypto] in
theorem Admits.refl {admitted : MempoolEntry → Prop} (hcoherent : s.clearPool.Coherent) : Admits s admitted s :=
  ⟨rfl, rfl, rfl, rfl, rfl, hcoherent, fun _ => Or.inl⟩

omit [Crypto] in
theorem admits_add (hcoherent : s.clearPool.Coherent) (now : UInt64) (entry : MempoolEntry) :
    ∃ result pool, s.clearPool.add now entry = some (result, pool) ∧
      Admits s (fun e => e = entry) { s with clearPool := pool } := by
  obtain ⟨result, pool, hadd, hpool, hentries⟩ := hcoherent.add now entry
  refine ⟨result, pool, hadd, rfl, rfl, rfl, rfl, rfl, hpool, ?_⟩
  intro e he
  obtain ⟨txId, hget⟩ := he
  exact (hentries txId e hget).imp (fun hold => ⟨txId, hold⟩) And.right

omit [Crypto] in
theorem Admits.imp {admitted admitted' : MempoolEntry → Prop} (h : Admits s admitted s')
    (himp : ∀ e, admitted e → admitted' e) : Admits s admitted' s' :=
  { h with holds := fun e he => (h.holds e he).imp_right (himp e) }

/-- The entry that the gossip path makes of a validated transaction. -/
structure Gossiped (s : NodeState) (tx : Transaction) (entry : MempoolEntry) : Prop where
  tx_eq : entry.tx = tx
  backed : Backed s.utxoStore.entries entry
  mature : ∀ op ∈ tx.spends,
    checkMature s.utxoStore s.chainState.tip.height.next s.params.consensus.kFinality op = .ok ()
  scripts : ScriptsPass s.utxoStore.entries tx s.chainState.tip.slot

/-- **A transaction from the network.** The handler always returns, and admits at most the validated transaction. -/
theorem handleTx_admits (hcoherent : s.clearPool.Coherent) (now : UInt64) (tx : Transaction) :
    ∃ result s', s.handleTx now tx = some (result, s') ∧ Admits s (Gossiped s tx) s' := by
  unfold handleTx
  dsimp only
  cases hmature : checkCoinbaseMaturity tx s.utxoStore s.chainState.tip.height.next s.params.consensus.kFinality with
  | error e => exact ⟨_, s, rfl, .refl hcoherent⟩
  | ok u =>
      cases hvalidated : validateTransaction tx s.utxoStore s.chainState.tip.slot s.config.minFeeRate with
      | error e => exact ⟨_, s, rfl, .refl hcoherent⟩
      | ok validated =>
          have hval := validateTransaction_isOk.mp ⟨validated, hvalidated⟩
          obtain ⟨result, pool, hadd, hadmits⟩ := admits_add hcoherent now
            (.new tx validated.txId validated.fee (UInt64.ofNat tx.canonicalBytes.length) now)
          refine ⟨result.mapError .mempool, { s with clearPool := pool }, ?_, hadmits.imp ?_⟩
          · dsimp only
            rw [insertValidatedTx, hadd]
            rfl
          · rintro e rfl
            refine ⟨rfl, ⟨?_, hval.valid_structure, hval.spends_mem, le_of_add_le_left hval.pays, hval.fits⟩, ?_,
              hval.scripts⟩
            · exact validateTransaction_txId hvalidated
            · intro op hop
              obtain ⟨input, hinput, rfl⟩ := List.mem_map.mp hop
              exact forM_eq_ok.mp hmature input hinput

/-- **A transaction over RPC** is admitted as it is, whatever its inputs are. -/
theorem sendTransaction_admits (hcoherent : s.clearPool.Coherent) (now : UInt64) (tx : Transaction) :
    ∃ result s', s.sendTransaction now tx = some (result, s') ∧
      Admits s (fun e => e.tx = tx ∧ e.txId = tx.id ∧ tx.validateStructure = .ok ()) s' := by
  unfold sendTransaction
  cases hstructure : tx.validateStructure with
  | error e => exact ⟨_, s, rfl, .refl hcoherent⟩
  | ok u =>
      obtain ⟨result, pool, hadd, hadmits⟩ := admits_add hcoherent now
        (.new tx tx.id 0 (UInt64.ofNat tx.canonicalBytes.length) now)
      refine ⟨result.mapError .mempool, { s with clearPool := pool }, ?_, hadmits.imp ?_⟩
      · dsimp only
        rw [hadd]
        rfl
      · rintro e rfl
        exact ⟨rfl, rfl, rfl⟩

theorem admits_of_txReceived {now : UInt64} {tx : Transaction} (hcoherent : s.clearPool.Coherent)
    (hevent : s.handleEvent (.txReceived now tx) = some s') : Admits s (Gossiped s tx) s' := by
  obtain ⟨result, s'', htx, hadmits⟩ := handleTx_admits hcoherent now tx
  rw [handleEvent, htx] at hevent
  cases hevent
  exact hadmits

theorem admits_of_sendTransaction {now : UInt64} {tx : Transaction} (hcoherent : s.clearPool.Coherent)
    (hevent : s.handleEvent (.sendTransaction now tx) = some s') :
    Admits s (fun e => e.tx = tx ∧ e.txId = tx.id ∧ tx.validateStructure = .ok ()) s' := by
  obtain ⟨result, s'', htx, hadmits⟩ := sendTransaction_admits hcoherent now tx
  rw [handleEvent, htx] at hevent
  cases hevent
  exact hadmits

/-! ### What holds in every state -/

variable {known : List Transaction} {genesis : Block} {path : List Block}

/-- The chain, the ledger and the pool of a node fit together; all their transactions are among the known ones. -/
structure Consistent (known : List Transaction) (genesis : Block) (path : List Block) (s : NodeState) : Prop where
  recorded : Recorded genesis path s
  chain_known : chainTxs (genesis :: path) ⊆ known
  coherent : s.clearPool.Coherent
  backed : ∀ entry, s.clearPool.Holds entry → Backed s.utxoStore.entries entry ∧ entry.tx ∈ known

theorem Fresh.clearPool_coherent {config : NodeConfig} {params : ProtocolParams} {keys : GenesisKeys}
    (h : Fresh config params keys s) : s.clearPool.Coherent := by
  rw [h.clearPool_eq]
  exact .new .testnet

theorem Fresh.not_holds {config : NodeConfig} {params : ProtocolParams} {keys : GenesisKeys}
    (h : Fresh config params keys s) (entry : MempoolEntry) : ¬ s.clearPool.Holds entry := by
  rw [h.clearPool_eq]
  simp [ClearPool.Holds, ClearPool.new]

theorem Consistent.start (config : NodeConfig) (params : ProtocolParams) (hparams : params.validate = .ok ())
    (keys : GenesisKeys) (hknown : chainTxs [genesisBlock config.network keys] ⊆ known) :
    Consistent known (genesisBlock config.network keys) [] (start config params hparams keys) := by
  have hfresh := fresh_start config params hparams keys
  refine ⟨.start config params hparams keys, hknown, hfresh.clearPool_coherent, ?_⟩
  intro entry hentry
  exact absurd hentry (hfresh.not_holds entry)

theorem Accepted.getElem?_entries (hacc : Accepted s block s') {op : OutPoint} (hmem : op ∈ s.utxoStore.entries)
    (hunspent : ∀ tx ∈ block.transactions, op ∉ tx.spends) :
    s'.utxoStore.entries[op]? = s.utxoStore.entries[op]? := by
  obtain ⟨output, hget⟩ := mem_iff.mp hmem
  rw [hget, hacc.applied.entries_eq]
  exact hacc.applied.valid.getElem?_advanceAll hget hunspent

/-- **Step lemma, accepted blocks.** What the block spends is evicted, and everything else in the pool stays backed. -/
theorem Consistent.accepted (h : Consistent known genesis path s) (hacc : Accepted s block s')
    (hids : DistinctIds known) (hknown : block.transactions ⊆ known) :
    Consistent known genesis (path ++ [block]) s' := by
  have hsub : chainTxs (genesis :: path) ++ block.transactions ⊆ known :=
    List.append_subset.mpr ⟨h.chain_known, hknown⟩
  refine ⟨(h.recorded.accepted hacc (hids.mono hsub)).1, ?_, ?_, ?_⟩
  · rw [← List.cons_append, chainTxs_append]
    exact hsub
  · rw [hacc.clearPool_eq]
    exact coherent_evictConfirmed h.coherent
  · intro entry hentry
    rw [hacc.clearPool_eq] at hentry
    obtain ⟨hold, hunspent⟩ := holds_evictConfirmed h.coherent hentry
    obtain ⟨hbacked, hmem⟩ := h.backed entry hold
    refine ⟨hbacked.congr fun op hop => ?_, hmem⟩
    exact hacc.getElem?_entries (hbacked.spends_mem op hop) (hunspent op hop)

/-- **Step lemma, transactions.** An admission keeps the rest of the pool as it is. -/
theorem Consistent.admits {admitted : MempoolEntry → Prop} (h : Consistent known genesis path s)
    (hadmits : Admits s admitted s')
    (hnew : ∀ e, admitted e → Backed s.utxoStore.entries e ∧ e.tx ∈ known) : Consistent known genesis path s' := by
  have hentries : s'.utxoStore.entries = s.utxoStore.entries := congrArg UtxoStore.entries hadmits.utxoStore_eq
  have hone := h.recorded.one_chain.of_eq hadmits.chainState_eq hadmits.blockStore_eq hentries
  refine ⟨⟨hone, ?_⟩, h.chain_known, hadmits.coherent, ?_⟩
  · rw [hadmits.chainState_eq, hentries]
    exact h.recorded.past
  · intro entry hentry
    rw [hentries]
    rcases hadmits.holds entry hentry with hold | hadmitted
    · exact h.backed entry hold
    · exact hnew entry hadmitted

/-! ### The speculative run of a batch -/

theorem Consistent.independent (h : Consistent known genesis path s) (hids : DistinctIds known) {n : Nat}
    (hfits : ∀ tx ∈ (s.clearPool.getBatch n).map MempoolEntry.tx, tx.IndexFits) :
    Independent Transaction.move s.utxoStore.entries ((s.clearPool.getBatch n).map MempoolEntry.tx) := by
  have hbatch {P : Transaction → Prop} (hP : ∀ entry, s.clearPool.Holds entry → P entry.tx) :
      ∀ tx ∈ (s.clearPool.getBatch n).map MempoolEntry.tx, P tx := by
    intro tx htx
    obtain ⟨entry, hentry, rfl⟩ := List.mem_map.mp htx
    exact hP entry (ClearPool.mem_getBatch hentry)
  have hdisjoint : (s.clearPool.getBatch n).Pairwise fun a b =>
      (∀ op ∈ a.tx.spends, op ∉ b.tx.spends) ∧ ∀ op ∈ a.tx.move.created, op ∉ b.tx.move.created := by
    refine List.Pairwise.imp_of_mem ?_ (List.pairwise_map.mp (h.coherent.nodup_getBatch n))
    intro a b ha hb hne
    have hholdsA := ClearPool.mem_getBatch ha
    have hholdsB := ClearPool.mem_getBatch hb
    constructor
    · intro op hop hop'
      obtain ⟨idA, hgetA⟩ := hholdsA
      obtain ⟨idB, hgetB⟩ := hholdsB
      apply hne
      rw [h.coherent.txId_eq idA a hgetA, h.coherent.txId_eq idB b hgetB]
      exact h.coherent.disjoint hgetA hgetB hop hop'
    · intro op hop hop'
      apply hne
      rw [(h.backed a hholdsA).1.txId_eq, (h.backed b hholdsB).1.txId_eq,
        ← Transaction.txId_of_mem_created hop, Transaction.txId_of_mem_created hop']
  refine ⟨?_, ?_, ?_, ?_, ?_, ?_⟩
  · exact hbatch fun entry hentry =>
      (Transaction.validateStructure_eq_ok.mp (h.backed entry hentry).1.valid_structure).2.2.1
  · exact hbatch fun entry hentry => (h.backed entry hentry).1.spends_mem
  · exact fun tx htx => Transaction.created_nodup (hfits tx htx)
  · -- a live outpoint belongs to a transaction of the past, and no pooled transaction is one
    refine hbatch fun entry hentry op hop hlive => ?_
    obtain ⟨hbacked, hmem⟩ := h.backed entry hentry
    have hinputs := (Transaction.validateStructure_eq_ok.mp hbacked.valid_structure).1
    obtain ⟨y, hy, heq⟩ := h.recorded.past.history.origin op hlive
    apply h.recorded.past.history.fresh (fun z hz => hids z (h.chain_known hz) entry.tx hmem) hbacked.spends_mem
      (fun hnil => hinputs (spends_eq_nil.mp hnil)) y hy
    rw [heq, Transaction.txId_of_mem_created hop]
  · exact List.pairwise_map.mpr (hdisjoint.imp And.left)
  · exact List.pairwise_map.mpr (hdisjoint.imp And.right)

theorem Backed.not_coinbase {entries : UtxoMap} (h : Backed entries entry) : entry.tx.isCoinbase = false := by
  have hinputs := (Transaction.validateStructure_eq_ok.mp h.valid_structure).1
  simpa [Transaction.isCoinbase] using hinputs

private theorem Consistent.batch_covered (h : Consistent known genesis path s) {n : Nat}
    (hindependent : Independent Transaction.move s.utxoStore.entries ((s.clearPool.getBatch n).map MempoolEntry.tx)) :
    ∀ p ∈ meets Transaction.move s.utxoStore.entries ((s.clearPool.getBatch n).map MempoolEntry.tx),
      p.2.isCoinbase = false ∧ p.2.Covered p.1 := by
  intro p hp
  obtain ⟨entry, hentry, heq⟩ := List.mem_map.mp (mem_of_mem_meets hp)
  have hbacked := (h.backed entry (ClearPool.mem_getBatch hentry)).1
  have hsame := hindependent.getElem?_meets p hp
  rw [← heq] at hsame ⊢
  exact ⟨hbacked.not_coinbase, (hbacked.congr hsame).covered⟩

/-- **The speculative run of any batch succeeds.** The fees are a part of what the ledger holds, so their sum fits whenever the ledger's total does. -/
theorem Consistent.speculativeApply_isOk (h : Consistent known genesis path s) (hids : DistinctIds known)
    (hfits : ∀ entry, s.clearPool.Holds entry → entry.tx.IndexFits) (htotal : utxoTotal s.utxoStore.entries < 2 ^ 64)
    (n : Nat) :
    ∃ outcome, SlotTicker.speculativeApply s.utxoStore ((s.clearPool.getBatch n).map MempoolEntry.tx) = .ok outcome := by
  have hbatchFits : ∀ tx ∈ (s.clearPool.getBatch n).map MempoolEntry.tx, tx.IndexFits := by
    intro tx htx
    obtain ⟨entry, hentry, rfl⟩ := List.mem_map.mp htx
    exact hfits entry (ClearPool.mem_getBatch hentry)
  have hindependent := h.independent hids hbatchFits
  have hcovered := h.batch_covered hindependent
  have hvalid : Valid Transaction.move s.utxoStore.entries [] ((s.clearPool.getBatch n).map MempoolEntry.tx) :=
    hindependent.valid (by simp)
  apply SlotTicker.speculativeApply_isOk hvalid hbatchFits
  · intro p hp _
    exact (hcovered p hp).2
  · have hbalance := balance_of_covered hvalid fun p hp _ => (hcovered p hp).2
    have hnone : ((s.clearPool.getBatch n).map MempoolEntry.tx).filter Transaction.isCoinbase = [] := by
      refine List.filter_eq_nil_iff.mpr fun tx htx => ?_
      obtain ⟨entry, hentry, rfl⟩ := List.mem_map.mp htx
      simp [(h.backed entry (ClearPool.mem_getBatch hentry)).1.not_coinbase]
    rw [hnone, List.map_nil, List.sum_nil] at hbalance
    unfold SlotTicker.feeTotal
    omega

/-! ### Runs -/

/-- What the RPC path does not look at: whether the ledger has the inputs and whether they pay for the outputs. -/
def Funded (entries : UtxoMap) (tx : Transaction) : Prop := (∀ op ∈ tx.spends, op ∈ entries) ∧ tx.Covered entries

/-- Blocks are accepted, and transactions submitted over RPC are funded. -/
def FundedEvent (s : NodeState) : NodeEvent → Prop
  | .blockReceived block => (s.handleBlock block).1 = .ok ()
  | .txReceived _ _ => True
  | .sendTransaction _ tx => Funded s.utxoStore.entries tx

/-- **Step lemma.** -/
theorem Consistent.handleEvent {event : NodeEvent} (h : Consistent known genesis path s) (hids : DistinctIds known)
    (hknown : event.transactions ⊆ known) (hok : s.FundedEvent event) (hevent : s.handleEvent event = some s') :
    ∃ path', Consistent known genesis path' s' := by
  cases event with
  | blockReceived block =>
      cases hevent
      exact ⟨path ++ [block], h.accepted (.of_ok hok) hids hknown⟩
  | txReceived now tx =>
      have hadmits := admits_of_txReceived h.coherent hevent
      refine ⟨path, h.admits hadmits fun e he => ⟨he.backed, ?_⟩⟩
      rw [he.tx_eq]
      exact hknown (List.mem_singleton_self tx)
  | sendTransaction now tx =>
      have hadmits := admits_of_sendTransaction h.coherent hevent
      refine ⟨path, h.admits hadmits fun e he => ?_⟩
      obtain ⟨htxEq, hid, hstructure⟩ := he
      subst htxEq
      exact ⟨⟨hid, hstructure, hok.1, hok.2⟩, hknown (List.mem_singleton_self _)⟩

/-- **Run lemma.** -/
theorem Consistent.run {events : List NodeEvent} (h : Consistent known genesis path s) (hids : DistinctIds known)
    (hknown : events.flatMap NodeEvent.transactions ⊆ known) (hrun : Run FundedEvent s events s') :
    ∃ path', Consistent known genesis path' s' := by
  induction hrun generalizing path with
  | nil => exact ⟨path, h⟩
  | @cons s mid s' event events hok hevent _ ih =>
      rw [List.flatMap_cons, List.append_subset] at hknown
      obtain ⟨path', hmid⟩ := h.handleEvent hids hknown.1 hok hevent
      exact ih hmid hknown.2

private theorem Consistent.handleEvent_isSome (h : Consistent known genesis path s) (event : NodeEvent) :
    ∃ s', s.handleEvent event = some s' := by
  cases event with
  | blockReceived block => exact ⟨_, rfl⟩
  | txReceived now tx =>
      obtain ⟨result, s', htx, -⟩ := handleTx_admits h.coherent now tx
      exact ⟨s', by rw [NodeState.handleEvent, htx]; rfl⟩
  | sendTransaction now tx =>
      obtain ⟨result, s', htx, -⟩ := sendTransaction_admits h.coherent now tx
      exact ⟨s', by rw [NodeState.handleEvent, htx]; rfl⟩

/-- **The pool and the ledger agree.** In every run from genesis in which blocks are accepted and what comes over RPC is funded, the node gets through every further event, the inputs of every pooled transaction are unspent, no two pooled transactions share an input, and the speculative run of any batch succeeds as long as outputs can be numbered and the ledger's total fits its word. -/
theorem mempool_consistent (config : NodeConfig) (params : ProtocolParams) (hparams : params.validate = .ok ())
    (keys : GenesisKeys) {events : List NodeEvent} (hrun : Run FundedEvent (start config params hparams keys) events s)
    (hids : DistinctIds (chainTxs [genesisBlock config.network keys] ++ events.flatMap NodeEvent.transactions)) :
    (∀ event, ∃ s', s.handleEvent event = some s') ∧
      (∀ entry, s.clearPool.Holds entry → ∀ op ∈ entry.tx.spends, op ∈ s.utxoStore.entries) ∧
      (∀ entry entry', s.clearPool.Holds entry → s.clearPool.Holds entry' → entry ≠ entry' →
        ∀ op ∈ entry.tx.spends, op ∉ entry'.tx.spends) ∧
      ((∀ entry, s.clearPool.Holds entry → entry.tx.IndexFits) → utxoTotal s.utxoStore.entries < 2 ^ 64 →
        ∀ n, ∃ outcome,
          SlotTicker.speculativeApply s.utxoStore ((s.clearPool.getBatch n).map MempoolEntry.tx) = .ok outcome) := by
  have hstart := Consistent.start config params hparams keys
    (List.subset_append_left _ (events.flatMap NodeEvent.transactions))
  obtain ⟨path, h⟩ := hstart.run hids (List.subset_append_right _ _) hrun
  refine ⟨h.handleEvent_isSome, ?_, ?_, fun hfits htotal => h.speculativeApply_isOk hids hfits htotal⟩
  · intro entry hentry
    exact (h.backed entry hentry).1.spends_mem
  · intro entry entry' hentry hentry' hne op hop hop'
    obtain ⟨txId, hget⟩ := hentry
    obtain ⟨txId', hget'⟩ := hentry'
    have hsame := h.coherent.disjoint hget hget' hop hop'
    subst hsame
    exact hne (Option.some.inj (hget.symm.trans hget'))

omit [Crypto] in
/-- A funded transaction over RPC is pooled, and its input is there. -/
theorem mempool_consistent_sampleSpend :
    ∃ s, @handleEvent sampleCrypto (sampleNode .mainnet) (.sendTransaction 0 sampleSpend) = some s ∧
      s.clearPool.byId.size = 1 ∧
      ∀ entry, s.clearPool.Holds entry → ∀ op ∈ entry.tx.spends, op ∈ s.utxoStore.entries := by
  have hsome : (@handleEvent sampleCrypto (sampleNode .mainnet) (.sendTransaction 0 sampleSpend)).isSome = true := by
    decide +kernel
  obtain ⟨s, hs⟩ := Option.isSome_iff_exists.mp hsome
  have hfunded : @FundedEvent sampleCrypto (sampleNode .mainnet) (.sendTransaction 0 sampleSpend) := by
    unfold FundedEvent Funded Transaction.Covered
    decide +kernel
  have hids : @DistinctIds sampleCrypto (chainTxs [@genesisBlock sampleCrypto .mainnet sampleKeys] ++ [sampleSpend]) := by
    decide +kernel
  have hsize : (@handleEvent sampleCrypto (sampleNode .mainnet) (.sendTransaction 0 sampleSpend)).map
      (fun s => s.clearPool.byId.size) = some 1 := by
    decide +kernel
  refine ⟨s, hs, ?_, ?_⟩
  · rw [hs] at hsize
    exact Option.some.inj hsize
  · rw [sampleNode_eq] at hs hfunded
    exact (@mempool_consistent sampleCrypto s ⟨.mainnet, 1, true⟩ (.preset .mainnet)
      (ProtocolParams.validate_preset .mainnet) sampleKeys [.sendTransaction 0 sampleSpend]
      (@Run.cons sampleCrypto _ _ _ _ _ _ hfunded hs (@Run.nil sampleCrypto _ _)) hids).2.1

def AcceptedEvent (s : NodeState) : NodeEvent → Prop
  | .blockReceived block => (s.handleBlock block).1 = .ok ()
  | _ => True

/-- A spend of an output that never was. -/
def unfundedSpend : Transaction := .new [⟨⟨.zero, 0⟩, []⟩] [.new 1 [1]]

omit [Crypto] in
/-- **The RPC path pools transactions without inputs in the ledger.** -/
theorem unfunded_submission_pooled :
    ¬ ∀ (_ : Crypto) (config : NodeConfig) (keys : GenesisKeys) (events : List NodeEvent) (s : NodeState),
      Run AcceptedEvent (startPreset config keys) events s →
      (∀ entry, s.clearPool.Holds entry → ∀ op ∈ entry.tx.spends, op ∈ s.utxoStore.entries) ∧
        ∀ n, ∃ outcome,
          SlotTicker.speculativeApply s.utxoStore ((s.clearPool.getBatch n).map MempoolEntry.tx) = .ok outcome := by
  intro hclaim
  let submitted := @handleEvent sampleCrypto (sampleNode .mainnet) (.sendTransaction 0 unfundedSpend)
  have hsome : submitted.isSome = true := by decide +kernel
  obtain ⟨s, hs⟩ := Option.isSome_iff_exists.mp hsome
  have hbatch : submitted.map (fun s => (@SlotTicker.speculativeApply sampleCrypto s.utxoStore
      ((s.clearPool.getBatch 1).map MempoolEntry.tx)).isOk) = some false := by
    decide +kernel
  rw [hs] at hbatch
  obtain ⟨outcome, hok⟩ := (hclaim sampleCrypto ⟨.mainnet, 1, true⟩ sampleKeys [.sendTransaction 0 unfundedSpend] s
    (@Run.cons sampleCrypto _ _ _ _ _ _ trivial hs (@Run.nil sampleCrypto _ _))).2 1
  have hfalse : (@SlotTicker.speculativeApply sampleCrypto s.utxoStore
      ((s.clearPool.getBatch 1).map MempoolEntry.tx)).isOk = false := Option.some.inj hbatch
  rw [hok] at hfalse
  cases hfalse

end NodeState

end QuantumVault
