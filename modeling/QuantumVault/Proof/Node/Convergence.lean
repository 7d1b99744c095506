import QuantumVault.Lib.Branch
import QuantumVault.Proof.Node.Chain

/-!
# Convergence of nodes

The linkage check pins a node to the first valid child it sees of each block. Two nodes that receive the same tree of valid blocks, parents first, therefore end in the same state exactly when their first-seen branches are the same. On a tree without forks they always do.
-/

namespace QuantumVault

open Result TreeMap Ledger

variable [Crypto]

namespace NodeState

/-- The block is valid on top of a block with this entry and this ledger, and leads to the second ledger. -/
structure ValidOn (params : ProtocolParams) (enforce : Bool) (parent : ChainEntry) (utxo : UtxoStore) (block : Block)
    (utxo' : UtxoStore) : Prop where
  valid_structure : block.validateStructure = .ok ()
  linked : Linked parent block
  rewards : ∃ fees, validateBlockRewards block utxo params.monetary params.consensus.kFinality = .ok fees
  applied : utxo.applyBlock block = .ok utxo'
  committed : enforce = true → commitmentRoot utxo'.entries = block.header.utxoCommitment

/-- The ledger after a block of the tree and all blocks behind it. -/
inductive LedgerAt (params : ProtocolParams) (enforce : Bool) (genesis : Block) (tree : List Block) :
    ChainEntry → UtxoStore → Prop where
  | root {utxo : UtxoStore} (h : UtxoStore.new.applyBlock genesis = .ok utxo) :
      LedgerAt params enforce genesis tree ChainState.genesisEntry utxo
  | child {parent : ChainEntry} {block : Block} {utxo utxo' : UtxoStore}
      (hparent : LedgerAt params enforce genesis tree parent utxo) (hmem : block ∈ tree)
      (hvalid : ValidOn params enforce parent utxo block utxo') :
      LedgerAt params enforce genesis tree block.chainEntry utxo'

/-- A tree of blocks over the genesis block, each of them valid on the ledger of its parent. Blocks are told apart by their hash, also from the genesis block and the placeholder that stands for it. -/
structure BlockTree (params : ProtocolParams) (enforce : Bool) (genesis : Block) (tree : List Block) : Prop where
  hash_inj : ∀ a ∈ tree, ∀ b ∈ tree, a.hash = b.hash → a = b
  hash_ne_zero : ∀ b ∈ tree, b.hash ≠ .zero
  hash_ne_genesis : ∀ b ∈ tree, b.hash ≠ genesis.hash
  valid : ∀ b ∈ tree, ∃ parent utxo utxo', LedgerAt params enforce genesis tree parent utxo ∧
    ValidOn params enforce parent utxo b utxo'

structure Delivers (tree deliveries : List Block) : Prop where
  mem_iff : ∀ b, b ∈ deliveries ↔ b ∈ tree
  parent_first : ∀ earlier b later, deliveries = earlier ++ b :: later →
    ∀ parent ∈ tree, parent.hash = b.header.prevHash → parent ∈ earlier

abbrev FirstSeen (deliveries branch : List Block) : Prop :=
  Branch.FollowsFirst Block.hash (fun b => b.header.prevHash) deliveries Hash256.zero branch

variable {params : ProtocolParams} {enforce : Bool} {genesis block : Block} {tree deliveries branch : List Block}
  {s : NodeState}

theorem LedgerAt.unique {entry entry' : ChainEntry} {utxo utxo' : UtxoStore}
    (htree : BlockTree params enforce genesis tree) (h : LedgerAt params enforce genesis tree entry utxo)
    (h' : LedgerAt params enforce genesis tree entry' utxo') (hhash : entry.hash = entry'.hash) :
    entry = entry' ∧ utxo = utxo' := by
  induction h generalizing entry' utxo' with
  | root happlied =>
      cases h' with
      | root happlied' => exact ⟨rfl, Except.ok.inj (happlied.symm.trans happlied')⟩
      | child _ hmem' _ => exact absurd hhash.symm (htree.hash_ne_zero _ hmem')
  | child _ hmem hvalid ih =>
      cases h' with
      | root _ => exact absurd hhash (htree.hash_ne_zero _ hmem)
      | child hparent' hmem' hvalid' =>
          have hblock := htree.hash_inj _ hmem _ hmem' hhash
          subst hblock
          obtain ⟨-, rfl⟩ := ih hparent' (hvalid.linked.prevHash_eq.symm.trans hvalid'.linked.prevHash_eq)
          exact ⟨rfl, Except.ok.inj (hvalid.applied.symm.trans hvalid'.applied)⟩

structure Following (params : ProtocolParams) (enforce : Bool) (genesis : Block) (tree deliveries branch : List Block)
    (s : NodeState) : Prop where
  params_eq : s.params = params
  enforces : s.config.enforceUtxoCommitment = true → enforce = true
  one_chain : OneChain genesis branch s
  ledger : LedgerAt params enforce genesis tree s.chainState.tip s.utxoStore
  subset : deliveries ⊆ tree
  first_seen : FirstSeen deliveries branch
  end_eq : Branch.endOf Block.hash .zero branch = s.chainState.tip.hash

theorem Following.takes (h : Following params enforce genesis tree deliveries branch s)
    (htree : BlockTree params enforce genesis tree) (hmem : block ∈ tree)
    (hprev : block.header.prevHash = s.chainState.tip.hash) : (s.handleBlock block).1 = .ok () := by
  obtain ⟨parent, utxo, utxo', hledger, hvalid⟩ := htree.valid block hmem
  obtain ⟨rfl, rfl⟩ := hledger.unique htree h.ledger (hvalid.linked.prevHash_eq.symm.trans hprev)
  have hpassed : s.Passed block utxo' :=
    ⟨hvalid.valid_structure, hvalid.linked, h.params_eq ▸ hvalid.rewards, hvalid.applied⟩
  refine h.one_chain.takes hpassed ?_ ?_ (htree.hash_ne_genesis block hmem)
  · cases henforce : s.config.enforceUtxoCommitment with
    | false => simp [commitmentMatches, henforce]
    | true => simp [commitmentMatches, hvalid.committed (h.enforces henforce)]
  · intro hknown
    rcases h.one_chain.on_path _ hknown with hzero | ⟨b, hb, hhash⟩
    · exact htree.hash_ne_zero block hmem hzero
    · have hsame := htree.hash_inj b (h.subset (h.first_seen.subset hb)) block hmem hhash
      have hnone := Branch.firstChild_eq_none.mp h.first_seen.firstChild_endOf
      rw [h.end_eq] at hnone
      exact hnone block (h.first_seen.subset (hsame ▸ hb)) hprev

/-- **Step lemma.** One delivery makes the branch longer if it is the first on top of its end, and changes nothing otherwise. -/
theorem Following.step (h : Following params enforce genesis tree deliveries branch s)
    (htree : BlockTree params enforce genesis tree) (hmem : block ∈ tree)
    (hchild : ∀ b ∈ deliveries, b.header.prevHash = block.hash → block ∈ deliveries) :
    ∃ branch', Following params enforce genesis tree (deliveries ++ [block]) branch' (s.handleBlock block).2 := by
  have hsub : deliveries ++ [block] ⊆ tree := by
    refine List.append_subset.mpr ⟨h.subset, ?_⟩
    simpa using hmem
  by_cases hprev : block.header.prevHash = s.chainState.tip.hash
  · have hok := h.takes htree hmem hprev
    have hacc := Accepted.of_ok hok
    have hnone := Branch.firstChild_eq_none.mp h.first_seen.firstChild_endOf
    rw [h.end_eq] at hnone
    obtain ⟨htipHash, htip⟩ := tip_of_linked hacc.chain hacc.passed.linked
    refine ⟨branch ++ [block], hacc.params_eq.trans h.params_eq, hacc.config_eq ▸ h.enforces, h.one_chain.accepted hacc,
      ?_, hsub, ?_, ?_⟩
    · rw [htip]
      refine .child h.ledger hmem ?_
      obtain ⟨parent, utxo, utxo', hledger, hvalid⟩ := htree.valid block hmem
      obtain ⟨rfl, rfl⟩ := hledger.unique htree h.ledger (hvalid.linked.prevHash_eq.symm.trans hprev)
      rwa [Except.ok.inj (hacc.passed.applied.symm.trans hvalid.applied)]
    · refine h.first_seen.append_of_eq (hprev.trans h.end_eq.symm) ?_
      intro b hb heq
      rcases List.mem_append.mp hb with hold | hself
      · exact hnone block (hchild b hold heq) hprev
      · rw [List.mem_singleton.mp hself, hprev, h.one_chain.tip_hash] at heq
        have hknown : block.hash ∈ s.chainState.entries := heq ▸ s.chainState.tip_mem
        exact hacc.chain.fresh hknown
    · rw [Branch.endOf_append_singleton, htip]
      rfl
  · have hsame : (s.handleBlock block).2 = s := by
      have hout := s.handleBlock_outcome block
      generalize s.handleBlock block = result at hout
      cases hout with
      | refused => rfl
      | reverted e hpassed _ _ => exact absurd hpassed.linked.prevHash_eq hprev
      | unstored e hpassed _ _ _ => exact absurd hpassed.linked.prevHash_eq hprev
      | accepted hpassed _ _ _ => exact absurd hpassed.linked.prevHash_eq hprev
    rw [hsame]
    exact ⟨branch, h.params_eq, h.enforces, h.one_chain, h.ledger, hsub,
      h.first_seen.append_of_ne (h.end_eq.symm ▸ hprev), h.end_eq⟩

theorem Following.run {rest : List Block} (h : Following params enforce genesis tree deliveries branch s)
    (htree : BlockTree params enforce genesis tree) (hall : Delivers tree (deliveries ++ rest)) :
    ∃ branch', Following params enforce genesis tree (deliveries ++ rest) branch' (s.handleBlocks rest) := by
  induction rest generalizing deliveries branch s with
  | nil =>
      rw [List.append_nil]
      exact ⟨branch, h⟩
  | cons block rest ih =>
      have hmem : block ∈ tree := (hall.mem_iff block).mp (by simp)
      have hchild : ∀ b ∈ deliveries, b.header.prevHash = block.hash → block ∈ deliveries := by
        intro b hb heq
        obtain ⟨earlier, later, rfl⟩ := List.append_of_mem hb
        have hparent := hall.parent_first earlier b (later ++ block :: rest) (by simp) block hmem heq.symm
        exact List.mem_append_left _ hparent
      obtain ⟨branch', hstep⟩ := h.step htree hmem hchild
      rw [List.append_cons] at hall ⊢
      exact ih hstep hall

theorem following_start {config : NodeConfig} {keys : GenesisKeys} (hparams : params.validate = .ok ())
    (henforces : config.enforceUtxoCommitment = true → enforce = true)
    (htree : BlockTree params enforce (genesisBlock config.network keys) tree) (hall : Delivers tree deliveries) :
    ∃ branch, Following params enforce (genesisBlock config.network keys) tree deliveries branch
      ((start config params hparams keys).handleBlocks deliveries) := by
  have hfresh := fresh_start config params hparams keys
  have hone := OneChain.start config params hparams keys
  have htip := hfresh.tip_eq
  have hstart : Following params enforce (genesisBlock config.network keys) tree [] []
      (start config params hparams keys) := by
    refine ⟨hfresh.params_eq, ?_, hone, ?_, List.nil_subset _, .stop rfl, ?_⟩
    · rw [hfresh.config_eq]
      exact henforces
    · rw [htip]
      exact .root hfresh.applied
    · rw [htip]
      rfl
  exact hstart.run htree hall

/-- **When nodes converge.** Two nodes with one genesis block and one set of parameters receive a tree of valid blocks, each in its own order, parents first. They end with the same tip and the same UTXO entries exactly when their first-seen branches are the same. -/
theorem nodes_converge_iff {config config' : NodeConfig} {keys : GenesisKeys} {deliveries' : List Block}
    (hparams : params.validate = .ok ()) (hnetwork : config'.network = config.network)
    (htree : BlockTree params (config.enforceUtxoCommitment || config'.enforceUtxoCommitment)
      (genesisBlock config.network keys) tree)
    (hall : Delivers tree deliveries) (hall' : Delivers tree deliveries') :
    let s := (start config params hparams keys).handleBlocks deliveries
    let s' := (start config' params hparams keys).handleBlocks deliveries'
    (s.chainState.tip = s'.chainState.tip ∧ s.utxoStore.entries = s'.utxoStore.entries) ↔
      ∃ branch, FirstSeen deliveries branch ∧ FirstSeen deliveries' branch := by
  intro s s'
  have htree' := htree
  rw [← hnetwork] at htree'
  obtain ⟨branch, h⟩ := following_start hparams (fun henforce => by simp [henforce]) htree hall
  obtain ⟨branch', h'⟩ := following_start hparams (fun henforce => by simp [henforce]) htree' hall'
  rw [hnetwork] at h'
  constructor
  · intro hgiven
    obtain ⟨htip, -⟩ := hgiven
    have hend : Branch.endOf Block.hash .zero branch = Branch.endOf Block.hash .zero branch' := by
      rw [h.end_eq, h'.end_eq]
      exact congrArg ChainEntry.hash htip
    have hbranch := h.first_seen.connected.eq_of_endOf_eq h'.first_seen.connected htree.hash_ne_zero htree.hash_inj
      (fun b hb => h.subset (h.first_seen.subset hb)) (fun b hb => h'.subset (h'.first_seen.subset hb)) hend
    exact ⟨branch, h.first_seen, hbranch ▸ h'.first_seen⟩
  · intro hgiven
    obtain ⟨common, hfirst, hfirst'⟩ := hgiven
    have hhash : s.chainState.tip.hash = s'.chainState.tip.hash := by
      rw [← h.end_eq, ← h'.end_eq, h.first_seen.unique hfirst, h'.first_seen.unique hfirst']
    obtain ⟨htip, hutxo⟩ := h.ledger.unique htree h'.ledger hhash
    exact ⟨htip, congrArg UtxoStore.entries hutxo⟩

/-! ### Two siblings -/

private theorem valid_of_first {config : NodeConfig} {keys : GenesisKeys} (hparams : params.validate = .ok ())
    (hok : ((start config params hparams keys).handleBlock block).1 = .ok ()) :
    ∃ parent utxo utxo',
      LedgerAt params config.enforceUtxoCommitment (genesisBlock config.network keys) tree parent utxo ∧
        ValidOn params config.enforceUtxoCommitment parent utxo block utxo' := by
  have hfresh := fresh_start config params hparams keys
  have hacc := Accepted.of_ok hok
  have hrewards := hacc.passed.rewards
  rw [hfresh.params_eq] at hrewards
  refine ⟨ChainState.genesisEntry, _, _, .root hfresh.applied, hacc.passed.valid_structure, ?_, hrewards,
    hacc.passed.applied, fun henforce => ?_⟩
  · rw [← hfresh.tip_eq]
    exact hacc.passed.linked
  · have hcommit := hacc.taken.1
    rw [← hfresh.config_eq] at henforce
    simpa [commitmentMatches, henforce] using hcommit

omit [Crypto] in
theorem siblings_blockTree :
    @BlockTree sampleCrypto (.preset .mainnet) true (@genesisBlock sampleCrypto .mainnet sampleKeys)
      [sampleBlock, feeBlock] := by
  refine @BlockTree.mk sampleCrypto _ _ _ _ (by decide +kernel) (by decide +kernel) (by decide +kernel) ?_
  have hvalid (b : Block) (hok : (@handleBlock sampleCrypto (sampleNode .mainnet) b).1 = .ok ()) :=
    @valid_of_first sampleCrypto (.preset .mainnet) b [sampleBlock, feeBlock] ⟨.mainnet, 1, true⟩ sampleKeys
      (ProtocolParams.validate_preset .mainnet) hok
  intro b hb
  rw [List.mem_cons, List.mem_singleton] at hb
  rcases hb with rfl | rfl
  · exact hvalid sampleBlock sampleBlock_accepted
  · exact hvalid feeBlock feeBlock_accepted

omit [Crypto] in
theorem siblings_delivers {deliveries : List Block} (hmem : ∀ b, b ∈ deliveries ↔ b ∈ [sampleBlock, feeBlock]) :
    @Delivers sampleCrypto [sampleBlock, feeBlock] deliveries := by
  refine @Delivers.mk sampleCrypto _ _ hmem ?_
  rintro earlier b later rfl parent hparent heq
  have hb : b ∈ [sampleBlock, feeBlock] := (hmem b).mp (by simp)
  have hne : ∀ parent ∈ [sampleBlock, feeBlock], ∀ b ∈ [sampleBlock, feeBlock],
      @Block.hash sampleCrypto parent ≠ b.header.prevHash := by decide +kernel
  exact absurd heq (hne parent hparent b hb)

omit [Crypto] in
theorem nodes_converge_same_first :
    (@handleBlocks sampleCrypto (sampleNode .mainnet) [sampleBlock, feeBlock]).utxoStore.entries =
      (@handleBlocks sampleCrypto (sampleNode .mainnet) [sampleBlock, sampleBlock, feeBlock]).utxoStore.entries := by
  have hfirst : @FirstSeen sampleCrypto [sampleBlock, feeBlock] [sampleBlock] :=
    .next (by decide +kernel) (.stop (by decide +kernel))
  have hfirst' : @FirstSeen sampleCrypto [sampleBlock, sampleBlock, feeBlock] [sampleBlock] :=
    .next (by decide +kernel) (.stop (by decide +kernel))
  have hsame := (@nodes_converge_iff sampleCrypto (.preset .mainnet) [sampleBlock, feeBlock] _ ⟨.mainnet, 1, true⟩
    ⟨.mainnet, 1, true⟩ sampleKeys _ (ProtocolParams.validate_preset .mainnet) rfl siblings_blockTree
    (siblings_delivers (by simp)) (siblings_delivers (by simp))).mpr ⟨[sampleBlock], hfirst, hfirst'⟩
  rw [sampleNode_eq]
  exact hsame.2

omit [Crypto] in
/-- **Siblings in two orders keep two nodes apart.** Each node stays on the block it saw first. -/
theorem nodes_diverge_on_siblings :
    ¬ ∀ (_ : Crypto) (config : NodeConfig) (keys : GenesisKeys) (tree deliveries deliveries' : List Block),
      BlockTree (.preset config.network) config.enforceUtxoCommitment (genesisBlock config.network keys) tree →
      Delivers tree deliveries → Delivers tree deliveries' →
      ((startPreset config keys).handleBlocks deliveries).chainState.tip =
          ((startPreset config keys).handleBlocks deliveries').chainState.tip ∧
        ((startPreset config keys).handleBlocks deliveries).utxoStore.entries =
          ((startPreset config keys).handleBlocks deliveries').utxoStore.entries := by
  intro hclaim
  have hsame := (hclaim sampleCrypto ⟨.mainnet, 1, true⟩ sampleKeys _ _ _ siblings_blockTree
    (@siblings_delivers [sampleBlock, feeBlock] (by simp)) (@siblings_delivers [feeBlock, sampleBlock] (by simp [or_comm]))).1
  exact absurd hsame (by decide +kernel)

end NodeState

end QuantumVault
