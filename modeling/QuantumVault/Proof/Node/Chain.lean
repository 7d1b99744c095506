import QuantumVault.Proof.Chain.ForkChoice
import QuantumVault.Proof.Node.Supply

/-!
# One chain in three stores

The linkage check lets a node take only blocks that extend its tip, so its chain state is a single path. This module carries one list of blocks through every run: the path of the chain state, the index of the block store and the history of the ledger are all that list on top of the genesis block.
-/

namespace QuantumVault

open Result TreeMap Ledger

variable [Crypto]

/-- The entries on the parent links from a block down to the placeholder, lowest first. -/
inductive PathTo (E : Std.ExtTreeMap BlockHash ChainEntry) : BlockHash → List ChainEntry → Prop where
  | root (h : E[Hash256.zero]? = some ChainState.genesisEntry) : PathTo E .zero []
  | link {entry : ChainEntry} {path : List ChainEntry} (hentry : E[entry.hash]? = some entry)
      (hzero : entry.hash ≠ .zero) (hparent : PathTo E entry.parentHash path) : PathTo E entry.hash (path ++ [entry])

namespace PathTo

variable {E : Std.ExtTreeMap BlockHash ChainEntry} {hash : BlockHash} {path path' : List ChainEntry} {entry : ChainEntry}

omit [Crypto] in
theorem insert (h : PathTo E hash path) (hfresh : entry.hash ∉ E) : PathTo (E.insert entry.hash entry) hash path := by
  induction h with
  | root h => exact .root (ChainState.getElem?_insert_of_fresh hfresh h)
  | link hentry hzero _ ih => exact .link (ChainState.getElem?_insert_of_fresh hfresh hentry) hzero ih

omit [Crypto] in
private theorem hash_eq (h : PathTo E hash path) (hentry : E[hash]? = some entry) : entry.hash = hash := by
  cases h with
  | root hroot =>
      rw [hroot, Option.some.injEq] at hentry
      rw [← hentry]
      rfl
  | link hself _ _ =>
      rw [hself, Option.some.injEq] at hentry
      rw [← hentry]

omit [Crypto] in
theorem zero_mem (h : PathTo E hash path) : Hash256.zero ∈ E := by
  induction h with
  | root h => exact mem_of_getElem? h
  | link _ _ _ ih => exact ih

omit [Crypto] in
theorem unique (h : PathTo E hash path) (h' : PathTo E hash path') : path = path' := by
  induction h generalizing path' with
  | root hroot =>
      generalize hzero : Hash256.zero = hash at h'
      cases h' with
      | root => rfl
      | link _ hne _ => exact absurd hzero.symm hne
  | @link entry path hentry hne _ ih =>
      generalize hhash : entry.hash = hash at h'
      cases h' with
      | root => exact absurd hhash hne
      | @link entry' path' hentry' _ hparent' =>
          rw [hhash, hentry', Option.some.injEq] at hentry
          subst hentry
          rw [ih hparent']

end PathTo

namespace BlockStore

variable {s s' : BlockStore} {block : Block}

theorem putBlock_eq_ok :
    s.putBlock block = .ok s' ↔
      block.validateStructure = .ok () ∧ s.byHash[block.hash]? = none ∧
        (s.hashByHeight[block.header.height]? = some block.hash ∧ s' = s ∨
          s.hashByHeight[block.header.height]? = none ∧
            s' = ⟨s.byHash.insert block.hash block, s.hashByHeight.insert block.header.height block.hash⟩) := by
  unfold putBlock
  constructor
  · intro hok
    obtain ⟨_, hstructure, hok⟩ := bind_eq_ok.mp hok
    obtain ⟨hnew, hok⟩ := require_bind_eq_ok.mp hok
    refine ⟨mapError_eq_ok.mp hstructure, hnew, ?_⟩
    rw [getHashByHeight] at hok
    cases hindex : s.hashByHeight[block.header.height]? with
    | some existing =>
        rw [hindex] at hok
        obtain ⟨heq, hok⟩ := require_bind_eq_ok.mp hok
        exact Or.inl ⟨congrArg some heq, (pure_eq_ok.mp hok).symm⟩
    | none =>
        rw [hindex] at hok
        exact Or.inr ⟨rfl, (pure_eq_ok.mp hok).symm⟩
  · intro h
    obtain ⟨hstructure, hnew, hcases⟩ := h
    refine bind_eq_ok.mpr ⟨(), mapError_eq_ok.mpr hstructure, require_bind_eq_ok.mpr ⟨hnew, ?_⟩⟩
    rw [getHashByHeight]
    rcases hcases with ⟨hindex, rfl⟩ | ⟨hindex, rfl⟩
    · rw [hindex]
      exact require_bind_eq_ok.mpr ⟨rfl, rfl⟩
    · rw [hindex]
      rfl

end BlockStore

namespace NodeState

variable {s s' : NodeState} {block genesis : Block} {path : List Block}

/-- The three stores of a node describe the genesis block followed by one list of blocks. -/
structure OneChain (genesis : Block) (path : List Block) (s : NodeState) : Prop where
  path_to_tip : PathTo s.chainState.entries s.chainState.tipHash (path.map Block.chainEntry)
  tip_height : s.chainState.tip.height.toNat = path.length
  height_le : ∀ b ∈ path, b.header.height.toNat ≤ path.length
  on_path : ∀ hash ∈ s.chainState.entries, hash = .zero ∨ ∃ b ∈ path, b.hash = hash
  finality : s.chainState.FinalityInv
  final_behind : ChainState.Reaches s.chainState.entries s.chainState.finalHash s.chainState.finalHeight
    s.chainState.tipHash
  known : ∀ hash ∈ s.blockStore.byHash, hash = genesis.hash ∨ hash ∈ s.chainState.entries
  stored : ∀ b ∈ genesis :: path, s.blockStore.byHash[b.hash]? = some b
  indexed : ∀ height : Height, s.blockStore.hashByHeight[height]? = ((genesis :: path)[height.toNat]?).map Block.hash
  ledger : ∃ utxo, (genesis :: path).foldlM UtxoStore.applyBlock UtxoStore.new = .ok utxo ∧
    utxo.entries = s.utxoStore.entries

theorem Fresh.tip_eq {config : NodeConfig} {params : ProtocolParams} {keys : GenesisKeys}
    (h : Fresh config params keys s) : s.chainState.tip = ChainState.genesisEntry := by
  rw [h.chainState_eq]
  exact ChainState.tip_eq Std.ExtTreeMap.getElem?_insert_self

theorem OneChain.start (config : NodeConfig) (params : ProtocolParams) (hparams : params.validate = .ok ())
    (keys : GenesisKeys) : OneChain (genesisBlock config.network keys) [] (start config params hparams keys) := by
  have hfresh := fresh_start config params hparams keys
  constructor
  · rw [hfresh.chainState_eq]
    exact .root Std.ExtTreeMap.getElem?_insert_self
  · rw [hfresh.tip_eq]
    rfl
  · simp
  · intro hash hmem
    rw [hfresh.chainState_eq] at hmem
    rcases mem_insert.mp hmem with heq | hmem
    · exact Or.inl heq.symm
    · simp at hmem
  · rw [hfresh.chainState_eq]
    exact .new ChainState.genesisEntry params.consensus
  · rw [hfresh.chainState_eq]
    exact .refl
  · intro hash hmem
    rw [hfresh.blockStore_eq, mem_insert] at hmem
    rcases hmem with heq | hmem
    · exact Or.inl heq.symm
    · simp at hmem
  · intro b hb
    rw [List.mem_singleton.mp hb, hfresh.blockStore_eq]
    exact Std.ExtTreeMap.getElem?_insert_self
  · intro height
    rw [hfresh.blockStore_eq, getElem?_insert]
    split
    · rename_i heq
      rw [← heq]
      rfl
    · rename_i hne
      have hpos : height.toNat ≠ 0 := fun h => hne (UInt64.toNat_inj.mp h.symm)
      obtain ⟨n, hn⟩ := Nat.exists_eq_succ_of_ne_zero hpos
      rw [hn]
      simp
  · refine ⟨_, ?_, rfl⟩
    rw [List.foldlM_cons, hfresh.applied]
    rfl

theorem OneChain.getBlockByHeight (h : OneChain genesis path s) (height : Height) :
    s.blockStore.getBlockByHeight height = (genesis :: path)[height.toNat]? := by
  rw [BlockStore.getBlockByHeight, BlockStore.getHashByHeight, h.indexed]
  cases hget : (genesis :: path)[height.toNat]? with
  | none => rfl
  | some b => exact h.stored b (List.mem_of_getElem? hget)

theorem OneChain.unindexed (h : OneChain genesis path s) (hlinked : Linked s.chainState.tip block) :
    s.blockStore.hashByHeight[block.header.height]? = none := by
  have hheight := hlinked.height_eq
  have htip := h.tip_height
  rw [h.indexed, List.getElem?_eq_none (by rw [List.length_cons]; omega)]
  rfl

theorem OneChain.putBlock_isOk (h : OneChain genesis path s) (hstructure : block.validateStructure = .ok ())
    (hlinked : Linked s.chainState.tip block) (hfresh : block.hash ∉ s.chainState.entries)
    (hgenesis : block.hash ≠ genesis.hash) : ∃ blocks, s.blockStore.putBlock block = .ok blocks := by
  refine ⟨_, BlockStore.putBlock_eq_ok.mpr ⟨hstructure, ?_, Or.inr ⟨h.unindexed hlinked, rfl⟩⟩⟩
  rw [← notMem_iff]
  intro hmem
  rcases h.known block.hash hmem with heq | hknown
  · exact hgenesis heq
  · exact hfresh hknown

theorem Linked.prefers {chain : ChainState} (h : Linked chain.tip block) : chain.Prefers block.chainEntry := by
  refine Or.inl (UInt64.lt_iff_toNat_lt.mpr ?_)
  have hheight := h.height_eq
  change chain.tip.height.toNat < block.header.height.toNat
  omega

theorem tip_of_linked {chain chain' : ChainState} (hacc : ChainState.Accepted chain block.chainEntry chain')
    (hlinked : Linked chain.tip block) : chain'.tipHash = block.hash ∧ chain'.tip = block.chainEntry := by
  have hprefers := hlinked.prefers
  have htip : chain'.tipHash = block.hash := by
    rcases hacc.outcome with ⟨hnot, -⟩ | ⟨-, htip, -⟩
    · exact absurd hprefers hnot
    · exact htip
  exact ⟨htip, ChainState.tip_eq (htip ▸ hacc.getElem?_self)⟩

theorem OneChain.tip_hash (h : OneChain genesis path s) : s.chainState.tip.hash = s.chainState.tipHash :=
  h.path_to_tip.hash_eq s.chainState.getElem?_tipHash

theorem OneChain.parentHash_eq (h : OneChain genesis path s) (hlinked : Linked s.chainState.tip block) :
    block.chainEntry.parentHash = s.chainState.tipHash := hlinked.prevHash_eq.trans h.tip_hash

theorem OneChain.addBlock_isOk (h : OneChain genesis path s) (hlinked : Linked s.chainState.tip block)
    (hfresh : block.hash ∉ s.chainState.entries) : (s.chainState.addBlock block.chainEntry).1.isOk = true := by
  refine ChainState.addBlock_isOk ?_ hfresh ?_
  · rw [h.parentHash_eq hlinked]
    exact s.chainState.tip_mem
  · obtain ⟨e, he, hheight⟩ := h.finality.final_known
    rw [h.parentHash_eq hlinked]
    exact ChainState.isAncestor_eq_true.mpr ⟨e, he, hheight ▸ h.final_behind⟩

private theorem applyBlock_of_entries_eq {utxo utxo' utxo₂ : UtxoStore} (heq : utxo₂.entries = utxo.entries)
    (hok : utxo.applyBlock block = .ok utxo') :
    ∃ utxo₂', utxo₂.applyBlock block = .ok utxo₂' ∧ utxo₂'.entries = utxo'.entries := by
  have happlied := UtxoStore.Applied.of_ok hok
  obtain ⟨utxo₂', hok₂⟩ : ∃ utxo₂', utxo₂.applyBlock block = .ok utxo₂' :=
    UtxoStore.applyBlock_isOk.mpr ⟨happlied.valid_structure, heq ▸ happlied.valid, happlied.fits⟩
  refine ⟨utxo₂', hok₂, ?_⟩
  rw [(UtxoStore.Applied.of_ok hok₂).entries_eq, heq, happlied.entries_eq]

/-- **An accepted block is appended to the one chain.** -/
theorem OneChain.accepted (h : OneChain genesis path s) (hacc : Accepted s block s') :
    OneChain genesis (path ++ [block]) s' := by
  have hlinked := hacc.passed.linked
  obtain ⟨htipHash, htip⟩ := tip_of_linked hacc.chain hlinked
  have hentries := hacc.chain.entries_eq
  obtain ⟨-, hnew, ⟨hindex, -⟩ | ⟨-, hput⟩⟩ := BlockStore.putBlock_eq_ok.mp hacc.put
  · rw [h.unindexed hlinked] at hindex
    cases hindex
  have hexempt : s.chainState.NotExempt block.chainEntry := by
    intro hzero
    exact Or.inl (hzero ▸ h.path_to_tip.zero_mem)
  have hconsecutive : s.chainState.Consecutive block.chainEntry :=
    ⟨s.chainState.tip, by rw [h.parentHash_eq hlinked]; exact s.chainState.getElem?_tipHash, hlinked.height_eq⟩
  have hheight : block.header.height.toNat = path.length + 1 := h.tip_height ▸ hlinked.height_eq
  refine ⟨?_, ?_, ?_, ?_, ?_, ?_, ?_, ?_, ?_, ?_⟩
  · rw [htipHash, hentries, List.map_append, List.map_singleton]
    have hself : (s.chainState.entries.insert block.chainEntry.hash block.chainEntry)[block.chainEntry.hash]? =
        some block.chainEntry := Std.ExtTreeMap.getElem?_insert_self
    refine .link hself ?_ ?_
    · intro hzero
      exact hacc.chain.fresh (hzero ▸ h.path_to_tip.zero_mem)
    · rw [h.parentHash_eq hlinked]
      exact h.path_to_tip.insert hacc.chain.fresh
  · rw [htip, List.length_append, List.length_singleton]
    exact hheight
  · intro b hb
    rw [List.length_append, List.length_singleton]
    rcases List.mem_append.mp hb with hold | hnew
    · exact Nat.le_succ_of_le (h.height_le b hold)
    · rw [List.mem_singleton.mp hnew]
      exact hheight.le
  · intro hash hmem
    rw [hentries] at hmem
    rcases mem_insert.mp hmem with heq | hold
    · exact Or.inr ⟨block, List.mem_append_right _ (List.mem_singleton_self block), heq⟩
    · exact (h.on_path hash hold).imp_right fun ⟨b, hb, hhash⟩ => ⟨b, List.mem_append_left _ hb, hhash⟩
  · exact hacc.chain.finalityInv h.finality hexempt
  · exact hacc.chain.reaches_tip h.finality hexempt hconsecutive hlinked.prefers
  · intro hash hmem
    rw [hput, mem_insert] at hmem
    rw [hentries]
    rcases hmem with heq | hold
    · exact Or.inr (mem_insert.mpr (Or.inl heq))
    · exact (h.known hash hold).imp_right fun hknown => mem_insert.mpr (Or.inr hknown)
  · intro b hb
    rw [hput]
    rw [← List.cons_append, List.mem_append, List.mem_singleton] at hb
    rcases hb with hold | rfl
    · have hget := h.stored b hold
      have hne : block.hash ≠ b.hash := by
        intro heq
        rw [heq, hget] at hnew
        cases hnew
      rw [getElem?_insert_of_ne hne, hget]
    · exact Std.ExtTreeMap.getElem?_insert_self
  · intro height
    rw [hput, getElem?_insert, ← List.cons_append]
    split
    · rename_i heq
      rw [← heq, hheight, List.getElem?_append_right (by simp), List.length_cons]
      simp
    · rename_i hne
      rw [h.indexed]
      by_cases hlt : height.toNat < (genesis :: path).length
      · rw [List.getElem?_append_left hlt]
      · have hbeyond : (genesis :: path ++ [block]).length ≤ height.toNat := by
          rw [List.length_append, List.length_singleton]
          rw [List.length_cons] at hlt ⊢
          have : height.toNat ≠ block.header.height.toNat := fun heq => hne (UInt64.toNat_inj.mp heq).symm
          omega
        rw [List.getElem?_eq_none hbeyond, List.getElem?_eq_none (by omega)]
  · obtain ⟨utxo, hrun, heq⟩ := h.ledger
    obtain ⟨utxo', happly, heq'⟩ := applyBlock_of_entries_eq heq hacc.passed.applied
    refine ⟨utxo', ?_, heq'⟩
    rw [← List.cons_append, foldlM_append_eq_ok]
    refine ⟨utxo, hrun, ?_⟩
    rw [List.foldlM_cons, happly]
    rfl

/-- A block that neither moves the chain state nor adds to the stores leaves the one chain as it is. -/
theorem OneChain.of_eq (h : OneChain genesis path s) (hchain : s'.chainState = s.chainState)
    (hblocks : s'.blockStore = s.blockStore) (hentries : s'.utxoStore.entries = s.utxoStore.entries) :
    OneChain genesis path s' := by
  obtain ⟨hpath, hheight, hle, honPath, hfinality, hbehind, hknown, hstored, hindexed, hledger⟩ := h
  rw [← hchain] at hpath hheight honPath hfinality hbehind hknown
  rw [← hblocks] at hknown hstored hindexed
  rw [← hentries] at hledger
  exact ⟨hpath, hheight, hle, honPath, hfinality, hbehind, hknown, hstored, hindexed, hledger⟩

theorem OneChain.takes {utxo : UtxoStore} (h : OneChain genesis path s) (hpassed : s.Passed block utxo)
    (hcommit : { s with utxoStore := utxo }.commitmentMatches block = true)
    (hfresh : block.hash ∉ s.chainState.entries) (hgenesis : block.hash ≠ genesis.hash) :
    (s.handleBlock block).1 = .ok () := by
  have hadd := h.addBlock_isOk hpassed.linked hfresh
  have hout := s.handleBlock_outcome block
  generalize s.handleBlock block = result at hout
  cases hout with
  | refused e hnot => exact absurd hpassed (hnot utxo)
  | reverted e hpassed' htaken _ =>
      rw [hpassed'.unique hpassed] at htaken
      exact absurd ⟨hcommit, hadd⟩ htaken
  | unstored e _ _ _ hput =>
      obtain ⟨blocks, hok⟩ := h.putBlock_isOk hpassed.valid_structure hpassed.linked hfresh hgenesis
      cases hput.symm.trans hok
  | accepted => rfl

/-- A hash collision with the genesis block is not used: no other header has its hash. -/
def AvoidsGenesis (genesis block : Block) : Prop := block.hash = genesis.hash → block.header = genesis.header

theorem AvoidsGenesis.hash_ne (h : AvoidsGenesis genesis block) (hgenesis : genesis.header.height = 0)
    {tip : ChainEntry} (hlinked : Linked tip block) : block.hash ≠ genesis.hash := by
  intro heq
  have hheight := hlinked.height_eq
  rw [h heq, hgenesis, UInt64.toNat_zero] at hheight
  omega

/-- **Step lemma.** Whatever becomes of a block, the stores go on describing one chain: the old one, or the old one with the block on top. -/
theorem OneChain.handleBlock (h : OneChain genesis path s) (hgenesis : genesis.header.height = 0)
    (havoids : AvoidsGenesis genesis block) :
    OneChain genesis path (s.handleBlock block).2 ∨ OneChain genesis (path ++ [block]) (s.handleBlock block).2 := by
  have hout := s.handleBlock_outcome block
  generalize hresult : s.handleBlock block = result at hout
  cases hout with
  | refused => exact Or.inl h
  | reverted e hpassed htaken hback => exact Or.inl (h.of_eq rfl rfl hback.entries_eq)
  | unstored e hpassed htaken hchain hput =>
      obtain ⟨blocks, hok⟩ := h.putBlock_isOk hpassed.valid_structure hpassed.linked hchain.fresh
        (havoids.hash_ne hgenesis hpassed.linked)
      cases hput.symm.trans hok
  | accepted hpassed htaken hchain hput =>
      have hok : (s.handleBlock block).1 = .ok () := congrArg Prod.fst hresult
      have hacc := Accepted.of_ok hok
      rw [hresult] at hacc
      exact Or.inr (h.accepted hacc)

/-- **Run lemma.** -/
theorem OneChain.handleBlocks {blocks : List Block} (h : OneChain genesis path s) (hgenesis : genesis.header.height = 0)
    (havoids : ∀ b ∈ blocks, AvoidsGenesis genesis b) : ∃ path', OneChain genesis path' (s.handleBlocks blocks) := by
  induction blocks generalizing s path with
  | nil => exact ⟨path, h⟩
  | cons block blocks ih =>
      have hrest : ∀ b ∈ blocks, AvoidsGenesis genesis b := fun b hb => havoids b (List.mem_cons_of_mem _ hb)
      rcases h.handleBlock hgenesis (havoids block List.mem_cons_self) with hsame | hlonger
      · exact ih hsame hrest
      · exact ih hlonger hrest

/-- **The ledger, the chain state and the block store describe one chain.** After any sequence of blocks, accepted or not, there is one list of blocks above the genesis block that is the path of the chain state from its placeholder to its tip, that the block store gives height by height with nothing above it, and whose application to the empty set gives the UTXO entries. -/
theorem stores_describe_one_chain (config : NodeConfig) (params : ProtocolParams) (hparams : params.validate = .ok ())
    (keys : GenesisKeys) {blocks : List Block}
    (havoids : ∀ b ∈ blocks, AvoidsGenesis (genesisBlock config.network keys) b) :
    let s := (start config params hparams keys).handleBlocks blocks
    ∃ path : List Block,
      PathTo s.chainState.entries s.chainState.tipHash (path.map Block.chainEntry) ∧
      s.chainState.tip.height.toNat = path.length ∧
      (∀ b ∈ genesisBlock config.network keys :: path, s.blockStore.getBlock b.hash = some b) ∧
      (∀ height, s.blockStore.getBlockByHeight height = (genesisBlock config.network keys :: path)[height.toNat]?) ∧
      ∃ utxo, (genesisBlock config.network keys :: path).foldlM UtxoStore.applyBlock UtxoStore.new = .ok utxo ∧
        utxo.entries = s.utxoStore.entries := by
  intro s
  obtain ⟨path, h⟩ := (OneChain.start config params hparams keys).handleBlocks genesisBlock_height havoids
  exact ⟨path, h.path_to_tip, h.tip_height, h.stored, h.getBlockByHeight, h.ledger⟩

omit [Crypto] in
/-- A run with a block that is accepted and a sibling that is refused after it. -/
theorem stores_describe_one_chain_feeBlock :
    ∃ path : List Block, path.length = 1 ∧ ∀ height,
      (@handleBlocks sampleCrypto (sampleNode .mainnet) [feeBlock, sampleBlock]).blockStore.getBlockByHeight height =
        (@genesisBlock sampleCrypto .mainnet sampleKeys :: path)[height.toNat]? := by
  have havoids : ∀ b ∈ [feeBlock, sampleBlock],
      @AvoidsGenesis sampleCrypto (@genesisBlock sampleCrypto .mainnet sampleKeys) b := by
    unfold AvoidsGenesis
    decide +kernel
  obtain ⟨path, -, hheight, -, hindex, -⟩ := @stores_describe_one_chain sampleCrypto ⟨.mainnet, 1, true⟩
    (.preset .mainnet) (ProtocolParams.validate_preset .mainnet) sampleKeys _ havoids
  refine ⟨path, ?_, hindex⟩
  rw [← hheight]
  decide +kernel

omit [Crypto] in
/-- **The chain state's own genesis entry is not in the block store.** A fresh node stores its genesis block under that block's hash, and the path of its chain state ends at the all-zero placeholder. -/
theorem placeholder_not_stored :
    ¬ ∀ (_ : Crypto) (config : NodeConfig) (keys : GenesisKeys) (blocks : List Block) (hash : BlockHash),
      let s := (startPreset config keys).handleBlocks blocks
      ChainState.Descends s.chainState.entries s.chainState.tipHash hash →
        ∃ block, s.blockStore.getBlock hash = some block := by
  intro hclaim
  have hempty (s : NodeState) : @handleBlocks sampleCrypto s [] = s := rfl
  have hstart : @startPreset sampleCrypto ⟨.mainnet, 1, true⟩ sampleKeys = sampleNode .mainnet := rfl
  have hstored := hclaim sampleCrypto ⟨.mainnet, 1, true⟩ sampleKeys []
  simp only [hempty, hstart] at hstored
  obtain ⟨block, hblock⟩ := hstored _ .refl
  have hnone : (sampleNode .mainnet).blockStore.getBlock (sampleNode .mainnet).chainState.tipHash = none := by
    decide +kernel
  cases hnone.symm.trans hblock

end NodeState

end QuantumVault
