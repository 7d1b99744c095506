import QuantumVault.Proof.Ledger.Undo
import QuantumVault.Proof.Node.Mempool

/-!
# A failed block leaves no trace

A block that is refused late has already been written to the ledger. Taking it back deletes its undo record and the creation heights of its coinbase, and whether an older record goes with them depends on what the ledger holds. On a running node it holds undo records of the blocks of its chain only, and creation heights of live outputs only, so nothing is lost; and the block store takes every block that the chain state has taken, so nothing is left half done.
-/

namespace QuantumVault

open Result TreeMap

variable [Crypto]

/-- No two of these blocks have different headers with one hash. -/
def CollisionFree (blocks : List Block) : Prop := ∀ b ∈ blocks, ∀ b' ∈ blocks, b.hash = b'.hash → b.header = b'.header

namespace NodeState

variable {s s' : NodeState} {block genesis : Block} {path known : List Block} {utxo : UtxoStore}

private theorem reverted_eq (hback : UtxoStore.Reverted s.utxoStore block utxo) (hundo : block.hash ∉ s.utxoStore.undo)
    (hheights : ∀ op ∈ block.coinbaseOutpoints, op ∉ s.utxoStore.coinbaseHeights) : utxo = s.utxoStore := by
  have hcoinbase : utxo.coinbaseHeights = s.utxoStore.coinbaseHeights := by
    refine Std.ExtTreeMap.ext_getElem? fun op => ?_
    rw [hback.coinbaseHeight_eq]
    split
    · rename_i hop
      exact (notMem_iff.mp (hheights op hop)).symm
    · rfl
  have hlogs : utxo.undo = s.utxoStore.undo := by
    rw [hback.undo_eq]
    refine Std.ExtTreeMap.ext_getElem? fun h => ?_
    rw [getElem?_erase]
    split
    · rename_i heq
      rw [← heq, notMem_iff.mp hundo]
    · rfl
  exact UtxoStore.ext hback.entries_eq hcoinbase hlogs hback.snapshots_eq

/-- What the side tables of the ledger hold on a running node. -/
structure Settled (known : List Block) (genesis : Block) (path : List Block) (s : NodeState) : Prop where
  one_chain : OneChain genesis path s
  chain_known : genesis :: path ⊆ known
  logged : ∀ hash ∈ s.utxoStore.undo, ∃ b ∈ genesis :: path, b.hash = hash
  tidy : s.utxoStore.Tidy
  coherent : s.clearPool.Coherent

theorem Settled.start (config : NodeConfig) (params : ProtocolParams) (hparams : params.validate = .ok ())
    (keys : GenesisKeys) (hknown : genesisBlock config.network keys ∈ known) :
    Settled known (genesisBlock config.network keys) [] (start config params hparams keys) := by
  have hfresh := fresh_start config params hparams keys
  have happlied := UtxoStore.Applied.of_ok hfresh.applied
  refine ⟨.start config params hparams keys, List.cons_subset.mpr ⟨hknown, List.nil_subset _⟩, ?_,
    happlied.tidy UtxoStore.tidy_new, hfresh.clearPool_coherent⟩
  intro hash hmem
  obtain ⟨log, hlog⟩ := happlied.undo_eq
  rw [hlog, mem_insert] at hmem
  rcases hmem with heq | hold
  · exact ⟨_, List.mem_cons_self, heq⟩
  · simp [UtxoStore.new] at hold

variable (h : Settled known genesis path s)

include h

theorem Settled.hash_ne (hfree : CollisionFree known) (hgenesis : genesis.header.height = 0) (hknown : block ∈ known)
    (hlinked : Linked s.chainState.tip block) {b : Block} (hb : b ∈ genesis :: path) : b.hash ≠ block.hash := by
  intro heq
  have hheader := hfree b (h.chain_known hb) block hknown heq
  have hheight := hlinked.height_eq
  have htip := h.one_chain.tip_height
  have hle : b.header.height.toNat ≤ path.length := by
    rcases List.mem_cons.mp hb with rfl | hpath
    · rw [hgenesis, UInt64.toNat_zero]
      exact Nat.zero_le _
    · exact h.one_chain.height_le b hpath
  rw [hheader] at hle
  omega

/-- **Step lemma.** A block fails and changes nothing, or it is accepted. -/
theorem Settled.handleBlock (hfree : CollisionFree known) (hgenesis : genesis.header.height = 0)
    (hknown : block ∈ known) :
    (s.handleBlock block).2 = s ∨
      (s.handleBlock block).1 = .ok () ∧ Settled known genesis (path ++ [block]) (s.handleBlock block).2 := by
  have hout := s.handleBlock_outcome block
  generalize hresult : s.handleBlock block = result at hout
  cases hout with
  | refused => exact Or.inl rfl
  | reverted e hpassed _ hback =>
      have happlied := UtxoStore.Applied.of_ok hpassed.applied
      left
      dsimp only
      rw [reverted_eq hback]
      · intro hmem
        obtain ⟨b, hb, heq⟩ := h.logged block.hash hmem
        exact h.hash_ne hfree hgenesis hknown hpassed.linked hb heq
      · intro op hop hmem
        exact happlied.valid.notMem_of_created (fun _ hk => Or.inl hk) (UtxoStore.mem_created_of_coinbase hop)
          (h.tidy op hmem)
  | unstored e hpassed _ hchain hput =>
      obtain ⟨blocks, hok⟩ := h.one_chain.putBlock_isOk hpassed.valid_structure hpassed.linked hchain.fresh
        (h.hash_ne hfree hgenesis hknown hpassed.linked List.mem_cons_self).symm
      cases hput.symm.trans hok
  | accepted =>
      have hok : (s.handleBlock block).1 = .ok () := congrArg Prod.fst hresult
      have hacc := Accepted.of_ok hok
      rw [hresult] at hacc
      refine Or.inr ⟨rfl, h.one_chain.accepted hacc, ?_, ?_, hacc.applied.tidy h.tidy, ?_⟩
      · rw [← List.cons_append]
        exact List.append_subset.mpr ⟨h.chain_known, List.cons_subset.mpr ⟨hknown, List.nil_subset _⟩⟩
      · intro hash hmem
        obtain ⟨log, hlog⟩ := hacc.applied.undo_eq
        rw [hlog, mem_insert] at hmem
        rw [← List.cons_append]
        rcases hmem with heq | hold
        · exact ⟨block, List.mem_append_right _ (List.mem_singleton_self block), heq⟩
        · obtain ⟨b, hb, heq⟩ := h.logged hash hold
          exact ⟨b, List.mem_append_left _ hb, heq⟩
      · rw [hacc.clearPool_eq]
        exact coherent_evictConfirmed h.coherent

theorem Settled.admits {admitted : MempoolEntry → Prop} (hadmits : Admits s admitted s') :
    Settled known genesis path s' := by
  have hentries : s'.utxoStore.entries = s.utxoStore.entries := congrArg UtxoStore.entries hadmits.utxoStore_eq
  refine ⟨h.one_chain.of_eq hadmits.chainState_eq hadmits.blockStore_eq hentries, h.chain_known, ?_, ?_,
    hadmits.coherent⟩
  · rw [hadmits.utxoStore_eq]
    exact h.logged
  · rw [hadmits.utxoStore_eq]
    exact h.tidy

theorem Settled.handleEvent {event : NodeEvent} (hfree : CollisionFree known) (hgenesis : genesis.header.height = 0)
    (hknown : event.blocks ⊆ known) (hevent : s.handleEvent event = some s') :
    ∃ path', Settled known genesis path' s' := by
  cases event with
  | blockReceived block =>
      cases hevent
      rcases h.handleBlock hfree hgenesis (hknown (List.mem_singleton_self block)) with hsame | ⟨-, hnext⟩
      · exact ⟨path, hsame.symm ▸ h⟩
      · exact ⟨path ++ [block], hnext⟩
  | txReceived now tx =>
      have hadmits := admits_of_txReceived h.coherent hevent
      exact ⟨path, h.admits hadmits⟩
  | sendTransaction now tx =>
      have hadmits := admits_of_sendTransaction h.coherent hevent
      exact ⟨path, h.admits hadmits⟩

omit h in
/-- **Run lemma.** -/
theorem Settled.run {ok : NodeState → NodeEvent → Prop} {events : List NodeEvent} (h : Settled known genesis path s)
    (hfree : CollisionFree known) (hgenesis : genesis.header.height = 0)
    (hknown : events.flatMap NodeEvent.blocks ⊆ known) (hrun : Run ok s events s') :
    ∃ path', Settled known genesis path' s' := by
  induction hrun generalizing path with
  | nil => exact ⟨path, h⟩
  | cons _ hevent _ ih =>
      rw [List.flatMap_cons, List.append_subset] at hknown
      obtain ⟨path', hmid⟩ := h.handleEvent hfree hgenesis hknown.1 hevent
      exact ih hmid hknown.2

omit h in
/-- **A failed block leaves the node exactly as it was**: the ledger with its side tables, the chain state, the block store and the pool. It is so in every state that a node reaches from genesis, whatever it was handed before, as long as no two headers around have one hash. -/
theorem handleBlock_atomic (config : NodeConfig) (params : ProtocolParams) (hparams : params.validate = .ok ())
    (keys : GenesisKeys) {events : List NodeEvent}
    (hrun : Run (fun _ _ => True) (start config params hparams keys) events s) (block : Block)
    (hfree : CollisionFree (genesisBlock config.network keys :: block :: events.flatMap NodeEvent.blocks))
    {e : NodeError} (hfails : (s.handleBlock block).1 = .error e) : (s.handleBlock block).2 = s := by
  have hstart := Settled.start config params hparams keys (List.mem_cons_self (l := block :: events.flatMap NodeEvent.blocks))
  obtain ⟨path, h⟩ := hstart.run hfree genesisBlock_height
    (fun b hb => List.mem_cons_of_mem _ (List.mem_cons_of_mem _ hb)) hrun
  rcases h.handleBlock hfree genesisBlock_height (List.mem_cons_of_mem _ List.mem_cons_self) with hsame | ⟨hok, -⟩
  · exact hsame
  · cases hok.symm.trans hfails

omit h [Crypto] in
/-- After the first block, one with a reward claim and a wrong commitment: it is applied and taken back. -/
theorem handleBlock_atomic_feeBlock :
    let s := (@handleBlock sampleCrypto (sampleNode .mainnet) feeBlock).2
    let block := @childBlock sampleCrypto s 2 .zero [.newCoinbase 2 [.new 10 [3]]]
    (@UtxoStore.applyBlock sampleCrypto s.utxoStore block).isOk = true ∧
      (@handleBlock sampleCrypto s block).1.isOk = false ∧ (@handleBlock sampleCrypto s block).2 = s := by
  intro s block
  have happlied : (@UtxoStore.applyBlock sampleCrypto s.utxoStore block).isOk = true := by decide +kernel
  have hfails : (@handleBlock sampleCrypto s block).1.isOk = false := by decide +kernel
  have hfree : @CollisionFree sampleCrypto [@genesisBlock sampleCrypto .mainnet sampleKeys, block, feeBlock] := by
    unfold CollisionFree
    decide +kernel
  have hevent : @NodeState.handleEvent sampleCrypto (sampleNode .mainnet) (.blockReceived feeBlock) = some s := rfl
  refine ⟨happlied, hfails, ?_⟩
  cases hresult : (@handleBlock sampleCrypto s block).1 with
  | ok u =>
      rw [hresult] at hfails
      cases hfails
  | error e =>
      exact @handleBlock_atomic sampleCrypto s ⟨.mainnet, 1, true⟩ (.preset .mainnet)
        (ProtocolParams.validate_preset .mainnet) sampleKeys [.blockReceived feeBlock]
        (@Run.cons sampleCrypto _ _ _ _ _ _ trivial hevent (@Run.nil sampleCrypto _ _)) block hfree e hresult

end NodeState

end QuantumVault
