import QuantumVault.Lib.Provenance
import QuantumVault.Proof.Node.Chain

/-!
# The history of the ledger

As long as no two transactions of a run share an id, no transaction enters the chain twice: one with inputs would have to spend what it has already spent, and a coinbase names its height in its lock time. So no outpoint is created twice and none comes back once it is spent.
-/

namespace QuantumVault

open Result TreeMap Ledger

variable [Crypto]

def DistinctIds (txs : List Transaction) : Prop := ∀ a ∈ txs, ∀ b ∈ txs, a.id = b.id → a = b

instance (txs : List Transaction) : Decidable (DistinctIds txs) :=
  inferInstanceAs (Decidable (∀ a ∈ txs, ∀ b ∈ txs, a.id = b.id → a = b))

theorem DistinctIds.mono {txs txs' : List Transaction} (h : DistinctIds txs') (hsub : txs ⊆ txs') : DistinctIds txs :=
  fun a ha b hb => h a (hsub ha) b (hsub hb)

def chainTxs (blocks : List Block) : List Transaction := blocks.flatMap Block.transactions

omit [Crypto] in
theorem chainTxs_append {blocks : List Block} {block : Block} :
    chainTxs (blocks ++ [block]) = chainTxs blocks ++ block.transactions := by
  simp [chainTxs]

omit [Crypto] in
theorem chainTxs_subset {blocks blocks' : List Block} (h : blocks ⊆ blocks') : chainTxs blocks ⊆ chainTxs blocks' := by
  intro tx htx
  obtain ⟨b, hb, hmem⟩ := List.mem_flatMap.mp htx
  exact List.mem_flatMap.mpr ⟨b, h hb, hmem⟩

/-- What the past of a ledger with this tip height says: where its entries come from, and that its transactions without inputs are bound to the heights passed. -/
structure Past (past : List Transaction) (height : Nat) (entries : UtxoMap) : Prop where
  history : History Transaction.id OutPoint.txId Transaction.move past entries
  bound : ∀ tx ∈ past, tx.inputs = [] → tx.lockTime.toNat ≤ height

variable {past : List Transaction} {height : Nat} {entries : UtxoMap} {block : Block} {tx : Transaction}

omit [Crypto] in
theorem spends_eq_nil : tx.spends = [] ↔ tx.inputs = [] := by
  rw [Transaction.spends, List.map_eq_nil_iff]

theorem lockTime_of_root (hheight : block.header.height ≠ 0) (hstructure : block.validateStructure = .ok ())
    {first : Transaction} {rest : List Transaction} (htxs : block.transactions = first :: rest) :
    (first.inputs = [] → first.lockTime = block.header.height) ∧ ∀ tx ∈ rest, tx.inputs ≠ [] := by
  constructor
  · intro hnil
    have hmem : (first, 0) ∈ block.transactions.zipIdx := by simp [htxs]
    have hok := (Block.validateStructure_eq_ok.mp hstructure).1 _ hmem
    unfold Block.validateTransactionAt at hok
    rw [hnil, List.isEmpty_nil, if_pos rfl, if_neg hheight, if_pos rfl] at hok
    exact (Transaction.validateCoinbaseStructure_eq_ok.mp hok).2.2.2
  · intro tx htx
    have hfalse := isCoinbase_of_mem_tail htxs hheight hstructure tx htx
    simpa [Transaction.isCoinbase] using hfalse

private theorem lockTime_of_coinbase (hheight : block.header.height ≠ 0) (hstructure : block.validateStructure = .ok ())
    (hmem : tx ∈ block.transactions) (hcoinbase : tx.isCoinbase = true) : tx.lockTime = block.header.height := by
  have hnil : tx.inputs = [] := by simpa [Transaction.isCoinbase] using hcoinbase
  cases htxs : block.transactions with
  | nil =>
      rw [htxs] at hmem
      cases hmem
  | cons first rest =>
      obtain ⟨hlock, hrest⟩ := lockTime_of_root hheight hstructure htxs
      rw [htxs] at hmem
      rcases List.mem_cons.mp hmem with rfl | hlater
      · exact hlock hnil
      · exact absurd hnil (hrest tx hlater)

theorem Past.coinbase_fresh (h : Past past height entries) (hids : ∀ y ∈ past, y.id = tx.id → y = tx)
    (hinputs : tx.inputs = []) (hlock : height < tx.lockTime.toNat) : ∀ y ∈ past, y.id ≠ tx.id := by
  intro y hy heq
  have hsame := hids y hy heq
  have hle := h.bound y hy (hsame ▸ hinputs)
  rw [hsame] at hle
  omega

theorem Past.fresh (h : Past past height entries) (hheight : block.header.height.toNat = height + 1)
    (hstructure : block.validateStructure = .ok ()) (hvalid : Valid Transaction.move entries [] block.transactions)
    (hids : DistinctIds (past ++ block.transactions)) :
    Past (past ++ block.transactions) (height + 1) (block.advance entries) ∧
      ∀ tx ∈ block.transactions, ∀ y ∈ past, y.id ≠ tx.id := by
  have hne : block.header.height ≠ 0 := by
    intro hzero
    rw [hzero, UInt64.toNat_zero] at hheight
    omega
  have howner : ∀ tx : Transaction, ∀ op ∈ tx.move.created, op.txId = tx.id := fun tx op => Transaction.txId_of_mem_created
  unfold Block.advance
  cases htxs : block.transactions with
  | nil =>
      rw [List.append_nil]
      refine ⟨⟨h.history, fun tx htx hnil => ?_⟩, by simp⟩
      exact Nat.le_succ_of_le (h.bound tx htx hnil)
  | cons first rest =>
      obtain ⟨hlock, hrest⟩ := lockTime_of_root hne hstructure htxs
      rw [htxs] at hids hvalid
      obtain ⟨hadm, hvalid'⟩ := hvalid
      have hidsFirst : ∀ y ∈ past, y.id = first.id → y = first := fun y hy heq =>
        hids y (List.mem_append_left _ hy) first (by simp) heq
      have hfirst : ∀ y ∈ past, y.id ≠ first.id := by
        by_cases hnil : first.inputs = []
        · refine h.coinbase_fresh hidsFirst hnil ?_
          rw [hlock hnil]
          omega
        · exact h.history.fresh hidsFirst hadm.spends_mem (fun heq => hnil (spends_eq_nil.mp heq))
      have hstep := h.history.advance (howner first) hadm hfirst
      rw [List.append_cons] at hids ⊢
      have hspends : ∀ tx ∈ rest, tx.move.spends ≠ [] := fun tx htx heq => hrest tx htx (spends_eq_nil.mp heq)
      obtain ⟨hall, hnew⟩ := hstep.advanceAll (fun tx _ => howner tx) hvalid' hids hspends
      refine ⟨⟨hall, ?_⟩, ?_⟩
      · intro tx htx hnil
        rcases List.mem_append.mp htx with hold | hlate
        · rcases List.mem_append.mp hold with hpast | hself
          · exact Nat.le_succ_of_le (h.bound tx hpast hnil)
          · rw [List.mem_singleton.mp hself] at hnil ⊢
            rw [hlock hnil]
            omega
        · exact absurd hnil (hrest tx hlate)
      · refine List.forall_mem_cons.mpr ⟨hfirst, fun tx htx y hy => ?_⟩
        exact hnew tx htx y (List.mem_append_left _ hy)

namespace NodeState

variable {s s' : NodeState} {genesis : Block} {path : List Block}

/-- The one chain of a node with the past of its ledger. -/
structure Recorded (genesis : Block) (path : List Block) (s : NodeState) : Prop where
  one_chain : OneChain genesis path s
  past : Past (chainTxs (genesis :: path)) s.chainState.tip.height.toNat s.utxoStore.entries

theorem Recorded.start (config : NodeConfig) (params : ProtocolParams) (hparams : params.validate = .ok ())
    (keys : GenesisKeys) : Recorded (genesisBlock config.network keys) [] (start config params hparams keys) := by
  have hfresh := fresh_start config params hparams keys
  have htxs : chainTxs [genesisBlock config.network keys] = [genesisTransaction config.network keys] := by
    simp [chainTxs, genesisBlock_transactions]
  refine ⟨OneChain.start config params hparams keys, ?_, ?_⟩
  · have hadm : Admissible (∅ : UtxoMap) [] (genesisTransaction config.network keys).move := genesis_admissible
    have hstep := History.empty.advance (fun op => Transaction.txId_of_mem_created) hadm (by simp)
    rw [htxs, (UtxoStore.Applied.of_ok hfresh.applied).entries_eq, Block.advance, genesisBlock_transactions]
    exact hstep
  · intro tx htx _
    rw [htxs, List.mem_singleton] at htx
    rw [htx]
    exact Nat.zero_le _

/-- **Step lemma.** The transactions of an accepted block are new to the chain and join its past. -/
theorem Recorded.accepted (h : Recorded genesis path s) (hacc : Accepted s block s')
    (hids : DistinctIds (chainTxs (genesis :: path) ++ block.transactions)) :
    Recorded genesis (path ++ [block]) s' ∧
      ∀ tx ∈ block.transactions, ∀ y ∈ chainTxs (genesis :: path), y.id ≠ tx.id := by
  have hlinked := hacc.passed.linked
  obtain ⟨hpast, hnew⟩ := h.past.fresh hlinked.height_eq hacc.passed.valid_structure hacc.applied.valid hids
  refine ⟨⟨h.one_chain.accepted hacc, ?_⟩, hnew⟩
  rw [← List.cons_append, chainTxs_append, (tip_of_linked hacc.chain hlinked).2, hacc.applied.entries_eq]
  have hheight : block.chainEntry.height.toNat = s.chainState.tip.height.toNat + 1 := hlinked.height_eq
  rw [hheight]
  exact hpast

/-- No outpoint is created by two blocks of a list. -/
def CreatedOnce (blocks : List Block) : Prop := blocks.Pairwise fun a b => ∀ op ∈ a.created, op ∉ b.created

theorem CreatedOnce.append {blocks : List Block} (h : CreatedOnce blocks)
    (hnew : ∀ tx ∈ block.transactions, ∀ y ∈ chainTxs blocks, y.id ≠ tx.id) : CreatedOnce (blocks ++ [block]) := by
  refine List.pairwise_append.mpr ⟨h, List.pairwise_singleton _ _, ?_⟩
  intro a ha b hb op hop hop'
  rw [List.mem_singleton.mp hb] at hop'
  obtain ⟨y, hy, hcreated⟩ := List.mem_flatMap.mp hop
  obtain ⟨tx, htx, hcreated'⟩ := List.mem_flatMap.mp hop'
  refine hnew tx htx y (List.mem_flatMap.mpr ⟨a, ha, hy⟩) ?_
  rw [← Transaction.txId_of_mem_created hcreated, ← Transaction.txId_of_mem_created hcreated']

/-- **Run lemma.** -/
theorem Recorded.run {blocks : List Block} (h : Recorded genesis path s) (honce : CreatedOnce (genesis :: path))
    (hrun : s.AcceptsAll blocks) (hids : DistinctIds (chainTxs (genesis :: path ++ blocks))) :
    Recorded genesis (path ++ blocks) (s.handleBlocks blocks) ∧ CreatedOnce (genesis :: path ++ blocks) := by
  induction blocks generalizing path s with
  | nil =>
      rw [List.append_nil, List.append_nil]
      exact ⟨h, honce⟩
  | cons block blocks ih =>
      obtain ⟨hok, hrest⟩ := hrun
      rw [List.append_cons, List.cons_append] at hids
      have hsub : chainTxs (genesis :: path) ++ block.transactions ⊆ chainTxs (genesis :: (path ++ [block]) ++ blocks) := by
        rw [← chainTxs_append]
        exact chainTxs_subset (List.subset_append_left _ _)
      obtain ⟨hrec, hnew⟩ := h.accepted (.of_ok hok) (hids.mono hsub)
      rw [List.append_cons, List.append_cons (genesis :: path)]
      exact ih hrec (honce.append hnew) hrest hids

private theorem AcceptsAll.structure_of_mem {blocks : List Block} (h : s.AcceptsAll blocks) (hmem : block ∈ blocks) :
    block.validateStructure = .ok () ∧ block.header.height ≠ 0 := by
  induction blocks generalizing s with
  | nil => cases hmem
  | cons first blocks ih =>
      rcases List.mem_cons.mp hmem with rfl | hlater
      · have hacc := Accepted.of_ok h.1
        exact ⟨hacc.passed.valid_structure, hacc.height_ne_zero⟩
      · exact ih h.2 hlater

/-- **No outpoint is created twice.** In a run of accepted blocks from genesis in which no two transactions share an id, no outpoint is created by two blocks, no spent outpoint is in the UTXO set at any later time, and coinbases at different heights have different ids. -/
theorem outpoints_created_once (config : NodeConfig) (params : ProtocolParams) (hparams : params.validate = .ok ())
    (keys : GenesisKeys) {blocks : List Block} (hrun : (NodeState.start config params hparams keys).AcceptsAll blocks)
    (hids : DistinctIds (chainTxs (genesisBlock config.network keys :: blocks))) :
    (genesisBlock config.network keys :: blocks).Pairwise (fun a b => ∀ op ∈ a.created, op ∉ b.created) ∧
      (∀ done, done <+: blocks → ∀ tx ∈ chainTxs done, ∀ op ∈ tx.spends,
        op ∉ ((NodeState.start config params hparams keys).handleBlocks done).utxoStore.entries) ∧
      ∀ a ∈ blocks, ∀ b ∈ blocks, a.header.height ≠ b.header.height →
        ∀ tx ∈ a.transactions, ∀ tx' ∈ b.transactions, tx.isCoinbase = true → tx'.isCoinbase = true → tx.id ≠ tx'.id := by
  have hstart := Recorded.start config params hparams keys
  have honce : CreatedOnce [genesisBlock config.network keys] := List.pairwise_singleton _ _
  refine ⟨(hstart.run honce hrun hids).2, ?_, ?_⟩
  · rintro done ⟨more, rfl⟩ tx htx op hop
    have hsub : chainTxs (genesisBlock config.network keys :: done) ⊆
        chainTxs (genesisBlock config.network keys :: (done ++ more)) :=
      chainTxs_subset (List.cons_subset_cons _ (List.subset_append_left _ _))
    obtain ⟨hrec, -⟩ := hstart.run honce hrun.of_prefix (hids.mono hsub)
    exact hrec.past.history.spent tx (chainTxs_subset (List.subset_cons_self _ _) htx) op hop
  · intro a ha b hb hheight tx htx tx' htx' hcoinbase hcoinbase' heq
    have hmem {c : Block} (hc : c ∈ blocks) {t : Transaction} (ht : t ∈ c.transactions) :
        t ∈ chainTxs (genesisBlock config.network keys :: blocks) :=
      List.mem_flatMap.mpr ⟨c, List.mem_cons_of_mem _ hc, ht⟩
    have hlock {c : Block} (hc : c ∈ blocks) {t : Transaction} (ht : t ∈ c.transactions)
        (hnone : t.isCoinbase = true) : t.lockTime = c.header.height := by
      obtain ⟨hstructure, hne⟩ := hrun.structure_of_mem hc
      exact lockTime_of_coinbase hne hstructure ht hnone
    have hsame := hids tx (hmem ha htx) tx' (hmem hb htx') heq
    refine hheight ?_
    rw [← hlock ha htx hcoinbase, ← hlock hb htx' hcoinbase', hsame]

omit [Crypto] in
/-- The block with a coinbase and two chained spends. -/
theorem outpoints_created_once_sampleBlock :
    (@handleBlock sampleCrypto (sampleNode .mainnet) sampleBlock).1 = .ok () ∧
      ∀ tx ∈ sampleBlock.transactions, ∀ op ∈ tx.spends,
        op ∉ (@handleBlocks sampleCrypto (sampleNode .mainnet) [sampleBlock]).utxoStore.entries := by
  have hids : @DistinctIds sampleCrypto
      (chainTxs [@genesisBlock sampleCrypto .mainnet sampleKeys, sampleBlock]) := by
    decide +kernel
  have hmem : ∀ tx ∈ sampleBlock.transactions, tx ∈ chainTxs [sampleBlock] := by simp [chainTxs]
  refine ⟨sampleBlock_accepted, fun tx htx => ?_⟩
  rw [sampleNode_eq]
  exact (@outpoints_created_once sampleCrypto ⟨.mainnet, 1, true⟩ (.preset .mainnet)
    (ProtocolParams.validate_preset .mainnet) sampleKeys [sampleBlock] ⟨sampleBlock_accepted, trivial⟩ hids).2.1
    [sampleBlock] (List.prefix_refl _) tx (hmem tx htx)

end NodeState

end QuantumVault
