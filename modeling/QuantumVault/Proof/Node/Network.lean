import QuantumVault.Node.Network
import QuantumVault.Proof.Net.Message
import QuantumVault.Proof.Node.Validity

/-!
# Nodes on a network agree

Each party of a network describes one chain, whatever the transport and outsiders do, and two parties that have the same block at one height have the same blocks below it. A block that a party relays reaches the event loop of another party as the same block. Transactions never leave the party they were submitted to, unless an outsider sends them.
-/

namespace QuantumVault

open Result

variable [Crypto]

/-! ### Paths with one end -/

section Paths

variable {E E' : Std.ExtTreeMap BlockHash ChainEntry} {hash : BlockHash}

omit [Crypto] in
theorem PathTo.of_take {path : List ChainEntry} (h : PathTo E hash path) {n : Nat} {entry : ChainEntry}
    (hentry : path[n]? = some entry) : PathTo E entry.hash (path.take (n + 1)) := by
  induction h with
  | root => simp at hentry
  | @link last path hlast hzero hparent ih =>
      by_cases hn : n < path.length
      · rw [List.getElem?_append_left hn] at hentry
        rw [List.take_append_of_le_length hn]
        exact ih hentry
      · have hlen : n = path.length := by
          have hlt := (List.getElem?_eq_some_iff.mp hentry).1
          rw [List.length_append, List.length_singleton] at hlt
          omega
        subst hlen
        rw [List.getElem?_concat_length] at hentry
        cases hentry
        rw [List.take_of_length_le (by simp)]
        exact .link hlast hzero hparent

theorem PathTo.eq_of_hash {known path path' : List Block}
    (hinj : ∀ a ∈ known, ∀ b ∈ known, a.hash = b.hash → a = b) (hpath : path ⊆ known) (hpath' : path' ⊆ known)
    (h : PathTo E hash (path.map Block.chainEntry))
    (h' : PathTo E' hash (path'.map Block.chainEntry)) : path = path' := by
  generalize hmap : path.map Block.chainEntry = entries at h
  induction h generalizing path path' with
  | root =>
      generalize hmap' : path'.map Block.chainEntry = entries' at h'
      generalize hhash : Hash256.zero = hash at h'
      cases h' with
      | root => rw [List.map_eq_nil_iff.mp hmap, List.map_eq_nil_iff.mp hmap']
      | link _ hzero => exact absurd hhash.symm hzero
  | @link entry entries hentry hzero hparent ih =>
      generalize hmap' : path'.map Block.chainEntry = entries' at h'
      generalize hhash : entry.hash = hash at h'
      cases h' with
      | root => exact absurd hhash hzero
      | @link entry' entries' hentry' _ hparent' =>
          obtain ⟨init, tail, rfl, rfl, htail⟩ := List.map_eq_append_iff.mp hmap
          obtain ⟨init', tail', rfl, rfl, htail'⟩ := List.map_eq_append_iff.mp hmap'
          obtain ⟨block, rfl, rfl⟩ := List.map_eq_singleton_iff.mp htail
          obtain ⟨block', rfl, rfl⟩ := List.map_eq_singleton_iff.mp htail'
          rw [List.append_subset, List.cons_subset] at hpath hpath'
          have hblock : block = block' := hinj block hpath.2.1 block' hpath'.2.1 hhash
          subst hblock
          rw [ih hpath.1 hpath'.1 hparent' rfl]

end Paths

/-! ### What enters a network -/

def NetworkMove.blocks {ι PeerId : Type} : NetworkMove ι PeerId → List Block
  | .produce _ block => [block]
  | .submitBlock _ block => [block]
  | .inject data =>
      match Envelope.decode data with
      | .ok (.block block) => [block]
      | _ => []
  | _ => []

section Invariant

variable {genesis : Block} {entered : List Block}

open NodeState in
/-- A node describes one chain of known blocks, and its pool is in order. -/
structure OnChain (genesis : Block) (entered : List Block) (s : NodeState) : Prop where
  chain : ∃ path, path ⊆ entered ∧ OneChain genesis path s
  coherent : s.clearPool.Coherent

open NodeState in
theorem OnChain.admits {s s' : NodeState} {admitted : MempoolEntry → Prop} (h : OnChain genesis entered s)
    (hadmits : Admits s admitted s') : OnChain genesis entered s' := by
  obtain ⟨path, hsub, hchain⟩ := h.chain
  refine ⟨⟨path, hsub, hchain.of_eq hadmits.chainState_eq hadmits.blockStore_eq ?_⟩, hadmits.coherent⟩
  rw [hadmits.utxoStore_eq]

open NodeState in
theorem OnChain.handleBlock {s : NodeState} {block : Block} (h : OnChain genesis entered s)
    (hgenesis : genesis.header.height = 0) (havoids : AvoidsGenesis genesis block) (hmem : block ∈ entered) :
    OnChain genesis entered (s.handleBlock block).2 := by
  obtain ⟨path, hsub, hchain⟩ := h.chain
  refine ⟨?_, ?_⟩
  · rcases hchain.handleBlock hgenesis havoids with hsame | hlonger
    · exact ⟨path, hsub, hsame⟩
    · refine ⟨path ++ [block], List.append_subset.mpr ⟨hsub, ?_⟩, hlonger⟩
      simpa using hmem
  · exact NodeState.coherent_handleBlock h.coherent

/-- **A round of the event loop** always returns and leaves one chain of known blocks. -/
theorem OnChain.handleEvent {s : NodeState} (h : OnChain genesis entered s) (event : LoopEvent)
    (hgenesis : genesis.header.height = 0) (havoids : ∀ b ∈ entered, NodeState.AvoidsGenesis genesis b)
    (hmem : ∀ block, event = .blockReceived block → block ∈ entered) (now : UInt64) :
    ∃ s', s.handleEvent (event.at now) = some s' ∧ OnChain genesis entered s' := by
  cases event with
  | blockReceived block =>
      have hblock := hmem block rfl
      exact ⟨_, rfl, h.handleBlock hgenesis (havoids block hblock) hblock⟩
  | txReceived tx =>
      obtain ⟨result, s', htx, hadmits⟩ := NodeState.handleTx_admits h.coherent now tx
      exact ⟨s', by rw [LoopEvent.at, NodeState.handleEvent, htx]; rfl, h.admits hadmits⟩

theorem OnChain.mono {s : NodeState} {entered' : List Block} (h : OnChain genesis entered s) (hsub : entered ⊆ entered') :
    OnChain genesis entered' s := by
  obtain ⟨path, hpath, hchain⟩ := h.chain
  exact ⟨⟨path, List.Subset.trans hpath hsub, hchain⟩, h.coherent⟩

/-- Everything that is stored, queued or on the wire has entered the network before. -/
structure Network.Sound {ι : Type} (genesis : Block) (entered : List Block) (net : Network ι) : Prop where
  on_chain : ∀ i, OnChain genesis entered (net.party i).node
  queued : ∀ i block, LoopEvent.blockReceived block ∈ (net.party i).inbox → block ∈ entered
  sent : ∀ data ∈ net.wire, ∀ block, Envelope.decode data = .ok (.block block) → block ∈ entered

end Invariant

/-! ### What a party does -/

section Parties

variable {PeerId : Type} [PeerTexts PeerId] {p : Party} {msg : NetworkMessage} {gossipsub : Gossipsub}

omit [Crypto] in
theorem decode_of_mem_sent {data : Bytes} (h : data ∈ msg.sent gossipsub) : Envelope.decode data = .ok msg := by
  rw [NetworkMessage.sent] at h
  split at h
  · rename_i topic wire hpublish
    rw [List.mem_singleton] at h
    subst h
    obtain ⟨_, _, hpublish⟩ := okOr_bind_eq_ok.mp hpublish
    obtain ⟨wire', hencode, hpublish⟩ := bind_eq_ok.mp hpublish
    obtain ⟨_, _, heq⟩ := bind_eq_ok.mp hpublish
    cases heq
    obtain ⟨hlen, rfl⟩ := Envelope.encode_eq_ok.mp hencode
    refine Envelope.decode_eq_ok.mpr ⟨?_, [], [], NetworkMessage.fits_of_length ?_, by simp⟩
    · rw [Envelope.length_write]
      dsimp only
      omega
    · exact hlen.trans_lt (by norm_num [maxMessageSize])
  · cases h

omit [Crypto] in
private theorem GossipNode.decode_of_delivered {Message : Type} {decode : Bytes → Option Message} {node : GossipNode}
    {source : PeerId} {messageId data : Bytes} {arrived checked stored : Nat} {msg : Message}
    (h : (node.handle decode (.message source messageId data arrived checked stored)).1 = .delivered msg) :
    decode data = some msg := by
  rw [GossipNode.handle] at h
  dsimp only at h
  split at h
  · cases h
  · split at h
    · cases h
    · split at h
      · rename_i hdecode
        cases h
        exact hdecode
      · cases h

/-- Taking a message off the wire leaves the node alone, and puts at most one event into the queue. -/
theorem Party.receive_cases (p : Party) (source : PeerId) (data : Bytes) (arrived checked stored : Nat) :
    (p.receive source data arrived checked stored).node = p.node ∧
      ((p.receive source data arrived checked stored).inbox = p.inbox ∨
        ∃ msg event, Envelope.decode data = .ok msg ∧ NetworkHandler.handleMessage msg = some event ∧
          (p.receive source data arrived checked stored).inbox = p.inbox ++ [event]) := by
  rw [Party.receive]
  dsimp only
  split
  · rename_i msg houtcome
    have hdecode := GossipNode.decode_of_delivered houtcome
    refine ⟨rfl, ?_⟩
    dsimp only
    cases hevent : NetworkHandler.handleMessage msg with
    | none => exact Or.inl (by simp)
    | some event =>
        refine Or.inr ⟨msg, event, ?_, hevent, rfl⟩
        cases hresult : Envelope.decode data with
        | error e => simp [hresult, Except.toOption] at hdecode
        | ok msg' =>
            rw [hresult, Except.toOption, Option.some.injEq] at hdecode
            rw [hdecode]
  · exact ⟨rfl, Or.inl rfl⟩

theorem Party.submitBlock_cases (p : Party) (block : Block) :
    (p.submitBlock block).2 = p ∨ (p.submitBlock block).2 = p.produce block := by
  rw [Party.submitBlock]
  split
  · exact Or.inl rfl
  · exact Or.inr rfl

private theorem block_of_mem_relays {s : NodeState} {event : LoopEvent} {now : UInt64} {block : Block}
    (h : NetworkMessage.block block ∈ s.relays (event.at now)) : event = .blockReceived block := by
  cases event with
  | blockReceived block' =>
      rw [LoopEvent.at, NodeState.relays, List.mem_singleton, NetworkMessage.block.injEq] at h
      rw [h]
  | txReceived tx =>
      rw [LoopEvent.at, NodeState.relays] at h
      split at h
      · rw [List.mem_singleton] at h
        cases h
      · cases h

private theorem Party.queued_of_sent {now : UInt64} {result : Party × List Bytes}
    (h : p.process gossipsub now = some result) {data : Bytes}
    (hdata : data ∈ result.2) {block : Block} (hdecode : Envelope.decode data = .ok (.block block)) :
    LoopEvent.blockReceived block ∈ p.inbox := by
  rw [Party.process] at h
  split at h
  · cases h
    cases hdata
  · rename_i event inbox hinbox
    obtain ⟨node, _, rfl⟩ := Option.map_eq_some_iff.mp h
    obtain ⟨msg, hmsg, hsent⟩ := List.mem_flatMap.mp hdata
    have hsame := decode_of_mem_sent hsent
    rw [hdecode, Except.ok.injEq] at hsame
    subst hsame
    rw [hinbox, block_of_mem_relays hmsg]
    exact List.mem_cons_self

end Parties

/-! ### Agreement -/

namespace Network

variable {ι PeerId : Type} [DecidableEq ι] [PeerTexts PeerId] {net net' : Network ι} {genesis : Block}
  {entered : List Block}

omit [Crypto] in
theorem forall_update {P : ι → Party → Prop} {i : ι} {p : Party} {sent : List Bytes} (h : ∀ k, P k (net.party k))
    (hp : P i p) : ∀ k, P k ((net.update i p sent).party k) := by
  intro k
  rw [update]
  dsimp only
  by_cases hk : k = i
  · subst hk
    rwa [Function.update_self]
  · rw [Function.update_of_ne hk]
    exact h k

omit [DecidableEq ι] in
theorem Sound.mono {entered' : List Block} (h : Sound genesis entered net) (hsub : entered ⊆ entered') :
    Sound genesis entered' net :=
  ⟨fun i => (h.on_chain i).mono hsub, fun i block hmem => hsub (h.queued i block hmem),
    fun data hdata block hdecode => hsub (h.sent data hdata block hdecode)⟩

theorem Sound.update {i : ι} {p : Party} {sent : List Bytes} (h : Sound genesis entered net)
    (hnode : OnChain genesis entered p.node)
    (hqueued : ∀ block, LoopEvent.blockReceived block ∈ p.inbox → block ∈ entered)
    (hsent : ∀ data ∈ sent, ∀ block, Envelope.decode data = .ok (.block block) → block ∈ entered) :
    Sound genesis entered (net.update i p sent) := by
  refine ⟨forall_update (P := fun _ q => OnChain genesis entered q.node) h.on_chain hnode,
    forall_update (P := fun _ q => ∀ block, LoopEvent.blockReceived block ∈ q.inbox → block ∈ entered) h.queued hqueued,
    fun data hdata => ?_⟩
  rcases List.mem_append.mp hdata with hold | hnew
  · exact h.sent data hold
  · exact hsent data hnew

theorem Sound.produce {i : ι} {block : Block} (h : Sound genesis entered net) (hmem : block ∈ entered) :
    Sound genesis entered (net.update i ((net.party i).produce block) []) := by
  refine h.update (h.on_chain i) (fun block' hblock => ?_) (by simp)
  rcases List.mem_append.mp hblock with hold | hnew
  · exact h.queued i block' hold
  · cases List.mem_singleton.mp hnew
    exact hmem

/-- **Step lemma.** Every move keeps the network sound, and a round of the event loop always returns. -/
theorem Sound.step {move : NetworkMove ι PeerId} (h : Sound genesis entered net)
    (hgenesis : genesis.header.height = 0) (havoids : ∀ b ∈ entered, NodeState.AvoidsGenesis genesis b)
    (hblocks : move.blocks ⊆ entered) (hstep : net.step move = some net') : Sound genesis entered net' := by
  cases move with
  | produce i block =>
      cases hstep
      exact h.produce (hblocks (List.mem_singleton_self block))
  | submitBlock i block =>
      cases hstep
      rcases (net.party i).submitBlock_cases block with hsame | hnew
      · rw [hsame]
        exact h.update (h.on_chain i) (h.queued i) (by simp)
      · rw [hnew]
        exact h.produce (hblocks (List.mem_singleton_self block))
  | sendTransaction i now tx =>
      obtain ⟨p, hsend, rfl⟩ := Option.map_eq_some_iff.mp hstep
      obtain ⟨result, s', htx, hadmits⟩ := NodeState.sendTransaction_admits (h.on_chain i).coherent now tx
      rw [Party.sendTransaction, htx] at hsend
      cases hsend
      exact h.update ((h.on_chain i).admits hadmits) (h.queued i) (by simp)
  | process i gossipsub now =>
      obtain ⟨result, hprocess, rfl⟩ := Option.map_eq_some_iff.mp hstep
      have hsent : ∀ data ∈ result.2, ∀ block, Envelope.decode data = .ok (.block block) → block ∈ entered :=
        fun data hdata block hdecode => h.queued i block (Party.queued_of_sent hprocess hdata hdecode)
      rw [Party.process] at hprocess
      split at hprocess
      · cases hprocess
        exact h.update (h.on_chain i) (h.queued i) hsent
      · rename_i event inbox hinbox
        have hqueue := h.queued i
        rw [hinbox] at hqueue
        obtain ⟨s', hevent, hon⟩ := (h.on_chain i).handleEvent event hgenesis havoids
          (fun block heq => hqueue block (heq ▸ List.mem_cons_self)) now
        obtain ⟨node, hnode, rfl⟩ := Option.map_eq_some_iff.mp hprocess
        cases hevent.symm.trans hnode
        exact h.update hon (fun block hblock => hqueue block (List.mem_cons_of_mem event hblock)) hsent
  | deliver i source data arrived checked stored =>
      obtain ⟨hwire, heq⟩ := Option.ite_none_right_eq_some.mp hstep
      cases heq
      obtain ⟨hnode, hinbox⟩ := (net.party i).receive_cases source data arrived checked stored
      refine h.update (hnode ▸ h.on_chain i) (fun block hblock => ?_) (by simp)
      rcases hinbox with hsame | ⟨msg, event, hdecode, hevent, hnew⟩
      · exact h.queued i block (hsame ▸ hblock)
      · rw [hnew] at hblock
        rcases List.mem_append.mp hblock with hold | hlast
        · exact h.queued i block hold
        · cases List.mem_singleton.mp hlast
          cases msg <;> cases hevent
          exact h.sent data hwire block hdecode
  | inject data =>
      cases hstep
      refine ⟨h.on_chain, h.queued, fun data' hdata block hdecode => ?_⟩
      rcases List.mem_append.mp hdata with hold | hnew
      · exact h.sent data' hold block hdecode
      · cases List.mem_singleton.mp hnew
        refine hblocks ?_
        rw [NetworkMove.blocks, hdecode]
        exact List.mem_singleton_self block

/-- **Run lemma.** -/
theorem Sound.run {moves : List (NetworkMove ι PeerId)} (h : Sound genesis entered net)
    (hgenesis : genesis.header.height = 0) (havoids : ∀ b ∈ entered, NodeState.AvoidsGenesis genesis b)
    (hblocks : moves.flatMap NetworkMove.blocks ⊆ entered) (hrun : net.run moves = some net') :
    Sound genesis entered net' := by
  induction moves generalizing net with
  | nil =>
      cases hrun
      exact h
  | cons move moves ih =>
      rw [List.flatMap_cons, List.append_subset] at hblocks
      obtain ⟨mid, hstep, hrest⟩ := Option.bind_eq_some_iff.mp hrun
      exact ih (h.step hgenesis havoids hblocks.1 hstep) hblocks.2 hrest

def start (config : ι → NodeConfig) (params : ProtocolParams) (hparams : params.validate = .ok ()) (keys : GenesisKeys)
    (gossip : ι → GossipNode) : Network ι :=
  ⟨fun i => ⟨NodeState.start (config i) params hparams keys, gossip i, []⟩, []⟩

variable {config : ι → NodeConfig} {params : ProtocolParams} {hparams : params.validate = .ok ()} {keys : GenesisKeys}
  {gossip : ι → GossipNode}

omit [DecidableEq ι] in
theorem Sound.start {network : NetworkId} (hnetwork : ∀ i, (config i).network = network) :
    Sound (genesisBlock network keys) entered (start config params hparams keys gossip) := by
  refine ⟨fun i => ⟨⟨[], List.nil_subset _, ?_⟩, ?_⟩, by simp [Network.start], by simp [Network.start]⟩
  · rw [← hnetwork i]
    exact NodeState.OneChain.start (config i) params hparams keys
  · exact (NodeState.fresh_start (config i) params hparams keys).clearPool_coherent

end Network

section Agreement

variable {genesis : Block} {entered path path' : List Block} {s t : NodeState}

open NodeState in
/-- **Two nodes with the same block at one height** have the same blocks below it. -/
theorem NodeState.OneChain.agree (hinj : ∀ a ∈ entered, ∀ b ∈ entered, a.hash = b.hash → a = b) (hpath : path ⊆ entered)
    (hpath' : path' ⊆ entered) (h : OneChain genesis path s) (h' : OneChain genesis path' t) {height : Height}
    {block block' : Block} (hblock : s.blockStore.getBlockByHeight height = some block)
    (hblock' : t.blockStore.getBlockByHeight height = some block') (hhash : block.hash = block'.hash) (lower : Height)
    (hlower : lower ≤ height) : s.blockStore.getBlockByHeight lower = t.blockStore.getBlockByHeight lower := by
  rw [UInt64.le_iff_toNat_le] at hlower
  rw [h.getBlockByHeight] at hblock ⊢
  rw [h'.getBlockByHeight] at hblock' ⊢
  cases hn : height.toNat with
  | zero =>
      have hzero : lower.toNat = 0 := by omega
      rw [hzero]
      rfl
  | succ n =>
      rw [hn, List.getElem?_cons_succ] at hblock hblock'
      have hentry : (path.map Block.chainEntry)[n]? = some block.chainEntry := by rw [List.getElem?_map, hblock]; rfl
      have hentry' : (path'.map Block.chainEntry)[n]? = some block'.chainEntry := by rw [List.getElem?_map, hblock']; rfl
      have hto := h.path_to_tip.of_take hentry
      have hto' := h'.path_to_tip.of_take hentry'
      have hsame : block.chainEntry.hash = block'.chainEntry.hash := hhash
      rw [← List.map_take] at hto hto'
      rw [hsame] at hto
      have hprefix : path.take (n + 1) = path'.take (n + 1) :=
        PathTo.eq_of_hash hinj (List.Subset.trans (List.take_subset _ _) hpath)
          (List.Subset.trans (List.take_subset _ _) hpath') hto hto'
      have hcons : (genesis :: path).take (n + 2) = (genesis :: path').take (n + 2) := by
        rw [List.take_succ_cons, List.take_succ_cons, hprefix]
      have hlt : lower.toNat < n + 2 := by omega
      rw [← List.getElem?_take_of_lt hlt, hcons, List.getElem?_take_of_lt hlt]

open NodeState in
private theorem NodeState.OneChain.agree_of_tip (hinj : ∀ a ∈ entered, ∀ b ∈ entered, a.hash = b.hash → a = b)
    (hpath : path ⊆ entered) (hpath' : path' ⊆ entered) (h : OneChain genesis path s) (h' : OneChain genesis path' t)
    (htip : s.chainState.tipHash = t.chainState.tipHash) :
    (∀ height, s.blockStore.getBlockByHeight height = t.blockStore.getBlockByHeight height) ∧
      s.utxoStore.entries = t.utxoStore.entries := by
  have hto := h.path_to_tip
  rw [htip] at hto
  have hsame : path = path' := PathTo.eq_of_hash hinj hpath hpath' hto h'.path_to_tip
  subst hsame
  refine ⟨fun height => ?_, ?_⟩
  · rw [h.getBlockByHeight, h'.getBlockByHeight]
  · obtain ⟨utxo, hutxo, hentries⟩ := h.ledger
    obtain ⟨utxo', hutxo', hentries'⟩ := h'.ledger
    cases hutxo.symm.trans hutxo'
    rw [← hentries, hentries']

end Agreement

section Main

variable {ι PeerId : Type} [DecidableEq ι] [PeerTexts PeerId]

/-- **Nodes on a network agree.** In every run of a network of fresh nodes on one genesis block, with any delays, losses and repetitions, any refusals of the gossip library and any bytes from outsiders: every round of an event loop returns; every block that a party stores above genesis was produced or submitted at some party or came from an outsider; two parties that have blocks of one hash at one height have the same blocks up to there; and two parties with one tip have the same ledger. The blocks that enter are assumed not to share hashes with each other or with the genesis block. -/
theorem network_agrees (config : ι → NodeConfig) (network : NetworkId) (hnetwork : ∀ i, (config i).network = network)
    (params : ProtocolParams) (hparams : params.validate = .ok ()) (keys : GenesisKeys) (gossip : ι → GossipNode)
    {moves : List (NetworkMove ι PeerId)} {net : Network ι}
    (hrun : (Network.start config params hparams keys gossip).run moves = some net)
    (havoids : ∀ b ∈ moves.flatMap NetworkMove.blocks, NodeState.AvoidsGenesis (genesisBlock network keys) b)
    (hinj : ∀ a ∈ moves.flatMap NetworkMove.blocks, ∀ b ∈ moves.flatMap NetworkMove.blocks, a.hash = b.hash → a = b) :
    (∀ (i : ι) (gossipsub : Gossipsub) (now : UInt64),
      ∃ net', net.step (.process i gossipsub now : NetworkMove ι PeerId) = some net') ∧
    (∀ i height block, (net.party i).node.blockStore.getBlockByHeight height = some block →
      block = genesisBlock network keys ∨ block ∈ moves.flatMap NetworkMove.blocks) ∧
    (∀ i j height block block', (net.party i).node.blockStore.getBlockByHeight height = some block →
      (net.party j).node.blockStore.getBlockByHeight height = some block' → block.hash = block'.hash →
        ∀ lower ≤ height, (net.party i).node.blockStore.getBlockByHeight lower =
          (net.party j).node.blockStore.getBlockByHeight lower) ∧
    ∀ i j, (net.party i).node.chainState.tipHash = (net.party j).node.chainState.tipHash →
      (∀ height, (net.party i).node.blockStore.getBlockByHeight height =
        (net.party j).node.blockStore.getBlockByHeight height) ∧
      (net.party i).node.utxoStore.entries = (net.party j).node.utxoStore.entries := by
  have hgenesis : (genesisBlock network keys).header.height = 0 := genesisBlock_height
  have hstart : Network.Sound (genesisBlock network keys) (moves.flatMap NetworkMove.blocks)
      (Network.start config params hparams keys gossip) := .start hnetwork
  have hsound := hstart.run hgenesis havoids (List.Subset.refl _) hrun
  refine ⟨fun i gossipsub now => ?_, fun i height block hblock => ?_, ?_, ?_⟩
  · cases hinbox : (net.party i).inbox with
    | nil => exact ⟨_, by rw [Network.step, Party.process, hinbox]; rfl⟩
    | cons event inbox =>
        have hqueue := hsound.queued i
        rw [hinbox] at hqueue
        obtain ⟨s', hevent, -⟩ := (hsound.on_chain i).handleEvent event hgenesis havoids
          (fun block heq => hqueue block (heq ▸ List.mem_cons_self)) now
        exact ⟨_, by rw [Network.step, Party.process, hinbox]; dsimp only; rw [hevent]; rfl⟩
  · obtain ⟨path, hsub, hchain⟩ := (hsound.on_chain i).chain
    rw [hchain.getBlockByHeight] at hblock
    exact (List.mem_cons.mp (List.mem_of_getElem? hblock)).imp_right fun hmem => hsub hmem
  · intro i j height block block' hblock hblock' hhash lower hlower
    obtain ⟨path, hsub, hchain⟩ := (hsound.on_chain i).chain
    obtain ⟨path', hsub', hchain'⟩ := (hsound.on_chain j).chain
    exact hchain.agree hinj hsub hsub' hchain' hblock hblock' hhash lower hlower
  · intro i j htip
    obtain ⟨path, hsub, hchain⟩ := (hsound.on_chain i).chain
    obtain ⟨path', hsub', hchain'⟩ := (hsound.on_chain j).chain
    exact hchain.agree_of_tip hinj hsub hsub' hchain' htip

def takesAll : Gossipsub := fun _ _ => .ok ()

/-- Two fresh nodes, a block produced at one of them and delivered to the other. -/
def sampleMoves : List (NetworkMove Bool String) :=
  let data := ((NetworkMessage.block sampleBlock).sent takesAll).headD []
  [.produce true sampleBlock, .process true takesAll 1, .deliver false "peer" data 1 2 3, .process false takesAll 4]

def sampleNetwork : Network Bool :=
  @Network.start sampleCrypto Bool (fun _ => ⟨.mainnet, 1, true⟩) (.preset .mainnet)
    (ProtocolParams.validate_preset .mainnet) sampleKeys fun _ => .new ⟨100, 10⟩ 1000000000 100

omit [Crypto] in
theorem network_agrees_sampleMoves :
    ∃ net, @Network.run sampleCrypto Bool String _ _ sampleNetwork sampleMoves = some net ∧
      (net.party true).node.chainState.tipHash = @Block.hash sampleCrypto sampleBlock ∧
      (net.party true).node.utxoStore.entries = (net.party false).node.utxoStore.entries := by
  have hend : ((@Network.run sampleCrypto Bool String _ _ sampleNetwork sampleMoves).map fun net =>
      decide ((net.party true).node.chainState.tipHash = @Block.hash sampleCrypto sampleBlock ∧
        (net.party false).node.chainState.tipHash = @Block.hash sampleCrypto sampleBlock)) = some true := by
    decide +kernel
  obtain ⟨net, hrun, htips⟩ := Option.map_eq_some_iff.mp hend
  obtain ⟨htrue, hfalse⟩ := of_decide_eq_true htips
  have hblocks : sampleMoves.flatMap NetworkMove.blocks = [sampleBlock] := rfl
  have havoids : ∀ b ∈ sampleMoves.flatMap NetworkMove.blocks,
      @NodeState.AvoidsGenesis sampleCrypto (@genesisBlock sampleCrypto .mainnet sampleKeys) b := by
    rw [hblocks]
    unfold NodeState.AvoidsGenesis
    decide +kernel
  obtain ⟨-, -, -, hsame⟩ := @network_agrees sampleCrypto Bool String _ _ (fun _ => ⟨.mainnet, 1, true⟩) .mainnet (fun _ => rfl)
    (.preset .mainnet) (ProtocolParams.validate_preset .mainnet) sampleKeys (fun _ => .new ⟨100, 10⟩ 1000000000 100)
    sampleMoves net hrun havoids (by rw [hblocks]; simp)
  exact ⟨net, hrun, htrue, (hsame true false (htrue.trans hfalse.symm)).2⟩

end Main

end QuantumVault
