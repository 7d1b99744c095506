import QuantumVault.Proof.Node.Network

/-!
# What a network passes on

A block that a party has handled reaches the event loops of the others as it is, in its turn. Transactions from RPC clients are not passed on at all: without outsiders only blocks are ever sent.
-/

namespace QuantumVault

open Result

variable [Crypto]

namespace Network

variable {ι PeerId : Type} [DecidableEq ι] [PeerTexts PeerId] {net net' : Network ι}

/-! ### Queues and wires -/

def isRound (j : ι) : NetworkMove ι PeerId → Bool
  | .process i _ _ => decide (i = j)
  | _ => false

omit [Crypto] in
theorem party_update {i : ι} {p : Party} {sent : List Bytes} (j : ι) :
    (net.update i p sent).party j = if j = i then p else net.party j := by
  rw [update]
  dsimp only
  split
  · rename_i hj
    subst hj
    rw [Function.update_self]
  · rename_i hj
    rw [Function.update_of_ne hj]

/-- Outside the rounds of its event loop, the queue of a party only grows at its end. -/
theorem inbox_of_not_round {move : NetworkMove ι PeerId} {j : ι} (hround : isRound j move = false)
    (hstep : net.step move = some net') : ∃ arrivals, (net'.party j).inbox = (net.party j).inbox ++ arrivals := by
  have hkeep {i : ι} {p : Party} {sent : List Bytes} (hp : i = j → ∃ arrivals, p.inbox = (net.party j).inbox ++ arrivals) :
      ∃ arrivals, ((net.update i p sent).party j).inbox = (net.party j).inbox ++ arrivals := by
    rw [party_update]
    split
    · rename_i hj
      exact hp hj.symm
    · exact ⟨[], (List.append_nil _).symm⟩
  cases move with
  | produce i block =>
      cases hstep
      exact hkeep fun hi => ⟨[.blockReceived block], by rw [hi]; rfl⟩
  | submitBlock i block =>
      cases hstep
      refine hkeep fun hi => ?_
      subst hi
      rcases (net.party i).submitBlock_cases block with hsame | hnew
      · exact ⟨[], by rw [hsame, List.append_nil]⟩
      · exact ⟨[.blockReceived block], by rw [hnew]; rfl⟩
  | sendTransaction i now tx =>
      obtain ⟨p, hsend, rfl⟩ := Option.map_eq_some_iff.mp hstep
      obtain ⟨result, _, rfl⟩ := Option.map_eq_some_iff.mp hsend
      exact hkeep fun hi => ⟨[], by rw [hi, List.append_nil]⟩
  | process i gossipsub now =>
      obtain ⟨result, _, rfl⟩ := Option.map_eq_some_iff.mp hstep
      exact hkeep fun hi => absurd hi (of_decide_eq_false hround)
  | deliver i source data arrived checked stored =>
      obtain ⟨_, heq⟩ := Option.ite_none_right_eq_some.mp hstep
      cases heq
      refine hkeep fun hi => ?_
      subst hi
      rcases ((net.party i).receive_cases source data arrived checked stored).2 with hsame | ⟨_, event, _, _, hnew⟩
      · exact ⟨[], by rw [hsame, List.append_nil]⟩
      · exact ⟨[event], hnew⟩
  | inject data =>
      cases hstep
      exact ⟨[], (List.append_nil _).symm⟩

private theorem inbox_of_round {move : NetworkMove ι PeerId} {j : ι} (hround : isRound j move = true)
    (hstep : net.step move = some net') : (net'.party j).inbox = (net.party j).inbox.tail := by
  cases move with
  | process i gossipsub now =>
      have hi : i = j := of_decide_eq_true hround
      subst hi
      obtain ⟨result, hprocess, rfl⟩ := Option.map_eq_some_iff.mp hstep
      rw [party_update, if_pos rfl]
      rw [Party.process] at hprocess
      split at hprocess
      · rename_i hinbox
        cases hprocess
        rw [hinbox]
        rfl
      · rename_i event inbox hinbox
        obtain ⟨node, _, rfl⟩ := Option.map_eq_some_iff.mp hprocess
        rw [hinbox]
        rfl
  | _ => cases hround

/-- **The queue is served in order.** -/
theorem inbox_run {moves : List (NetworkMove ι PeerId)} {j : ι} (hrun : net.run moves = some net')
    (hrounds : moves.countP (isRound j) ≤ (net.party j).inbox.length) :
    ∃ arrivals, (net'.party j).inbox = (net.party j).inbox.drop (moves.countP (isRound j)) ++ arrivals := by
  induction moves generalizing net with
  | nil =>
      cases hrun
      exact ⟨[], by simp⟩
  | cons move moves ih =>
      obtain ⟨mid, hstep, hrest⟩ := Option.bind_eq_some_iff.mp hrun
      by_cases hround : isRound j move = true
      · have hinbox := inbox_of_round hround hstep
        rw [List.countP_cons_of_pos hround] at hrounds ⊢
        obtain ⟨arrivals, hlater⟩ := ih hrest (by rw [hinbox, List.length_tail]; omega)
        exact ⟨arrivals, by rw [hlater, hinbox, List.drop_tail]⟩
      · obtain ⟨more, hinbox⟩ := inbox_of_not_round (Bool.eq_false_iff.mpr hround) hstep
        rw [List.countP_cons_of_neg hround] at hrounds ⊢
        obtain ⟨arrivals, hlater⟩ := ih hrest (by rw [hinbox, List.length_append]; omega)
        refine ⟨more ++ arrivals, ?_⟩
        rw [hlater, hinbox, List.drop_append_of_le_length hrounds, List.append_assoc]

private theorem wire_step {move : NetworkMove ι PeerId} (hstep : net.step move = some net') : net.wire ⊆ net'.wire := by
  cases move with
  | produce i block =>
      cases hstep
      exact List.subset_append_left _ _
  | submitBlock i block =>
      cases hstep
      exact List.subset_append_left _ _
  | sendTransaction i now tx =>
      obtain ⟨p, _, rfl⟩ := Option.map_eq_some_iff.mp hstep
      exact List.subset_append_left _ _
  | process i gossipsub now =>
      obtain ⟨result, _, rfl⟩ := Option.map_eq_some_iff.mp hstep
      exact List.subset_append_left _ _
  | deliver i source data arrived checked stored =>
      obtain ⟨_, heq⟩ := Option.ite_none_right_eq_some.mp hstep
      cases heq
      exact List.subset_append_left _ _
  | inject data =>
      cases hstep
      exact List.subset_append_left _ _

private theorem wire_run {moves : List (NetworkMove ι PeerId)} (hrun : net.run moves = some net') : net.wire ⊆ net'.wire := by
  induction moves generalizing net with
  | nil =>
      cases hrun
      exact List.Subset.refl _
  | cons move moves ih =>
      obtain ⟨mid, hstep, hrest⟩ := Option.bind_eq_some_iff.mp hrun
      exact List.Subset.trans (wire_step hstep) (ih hrest)

end Network

/-! ### Blocks -/

section Blocks

variable {PeerId : Type} [PeerTexts PeerId]

/-- What the gossip layer of a party makes of a message. -/
def Party.outcome (p : Party) (source : PeerId) (data : Bytes) (arrived checked stored : Nat) :
    GossipOutcome NetworkMessage :=
  (p.gossip.handle (fun bytes => (Envelope.decode bytes).toOption)
    (.message source (sha3_256 data).bytes data arrived checked stored)).1

omit [Crypto] in
private theorem GossipNode.delivered_of_decode {Message : Type} {decode : Bytes → Option Message} {node : GossipNode}
    {source : PeerId} {messageId data : Bytes} {arrived checked stored : Nat} {msg : Message}
    (hlimit : (node.handle decode (.message source messageId data arrived checked stored)).1 ≠ .rateLimited)
    (hnew : (node.handle decode (.message source messageId data arrived checked stored)).1 ≠ .duplicate)
    (hdecode : decode data = some msg) :
    (node.handle decode (.message source messageId data arrived checked stored)).1 = .delivered msg := by
  rw [GossipNode.handle] at hlimit hnew ⊢
  dsimp only at hlimit hnew ⊢
  split
  · rename_i hallow
    rw [if_pos hallow] at hlimit
    exact absurd rfl hlimit
  · rename_i hallow
    rw [if_neg hallow] at hnew
    split
    · rename_i hseen
      rw [if_pos hseen] at hnew
      exact absurd rfl hnew
    · rw [hdecode]

private theorem Party.inbox_of_delivered {p : Party} {source : PeerId} {data : Bytes} {arrived checked stored : Nat}
    {block : Block}
    (h : p.outcome source data arrived checked stored = .delivered (.block block)) :
    (p.receive source data arrived checked stored).inbox = p.inbox ++ [.blockReceived block] := by
  rw [Party.receive]
  rw [Party.outcome] at h
  dsimp only
  rw [h]
  rfl

variable {ι : Type} [DecidableEq ι] {net : Network ι}

omit [Crypto] [PeerTexts PeerId] in
private theorem NetworkMessage.sent_block {gossipsub : Gossipsub} {block : Block} {data : Bytes}
    (hencode : Envelope.encode (.block block) = .ok data) :
    (NetworkMessage.block block).sent gossipsub = if gossipsub topicBlocks data = .ok () then [data] else [] := by
  have htopic : topicForKind (NetworkMessage.block block).kind = some topicBlocks := rfl
  rw [sent, publish, hencode, htopic]
  cases htaken : gossipsub topicBlocks data with
  | ok u => simp [okOr, htaken]
  | error e => simp [okOr, htaken, Except.mapError]

/-- **A relayed block is processed as it was sent.** A round of the event loop of a party puts a block that fits into a message on the wire exactly when the gossip library takes it. Whenever, after any moves, another party is handed it and neither its limiter nor its cache drops it, the block joins the queue there; and when, after any further moves, the events before it have had their rounds, the next round processes that block. -/
theorem relayed_block_processed {i : ι} {block : Block} {rest : List LoopEvent} {gossipsub : Gossipsub} {now : UInt64}
    {net₁ : Network ι} (hinbox : (net.party i).inbox = .blockReceived block :: rest)
    (hsize : (NetworkMessage.block block).encode.length ≤ maxMessageSize)
    (hround : net.step (.process i gossipsub now : NetworkMove ι PeerId) = some net₁) :
    ∃ data, Envelope.encode (.block block) = .ok data ∧
      net₁.wire = net.wire ++ (if gossipsub topicBlocks data = .ok () then [data] else []) ∧
      (gossipsub topicBlocks data = .ok () →
        ∀ (moves : List (NetworkMove ι PeerId)) (net₂ : Network ι), net₁.run moves = some net₂ →
          ∀ (j : ι) (source : PeerId) (arrived checked stored : Nat),
            (net₂.party j).outcome source data arrived checked stored ≠ .rateLimited →
            (net₂.party j).outcome source data arrived checked stored ≠ .duplicate →
            ∃ net₃, net₂.step (.deliver j source data arrived checked stored) = some net₃ ∧
              ∀ (moves' : List (NetworkMove ι PeerId)) (net₄ : Network ι), net₃.run moves' = some net₄ →
                moves'.countP (Network.isRound j) = (net₂.party j).inbox.length →
                  ∀ gossipsub' now', ∃ net₅,
                    net₄.step (.process j gossipsub' now' : NetworkMove ι PeerId) = some net₅ ∧
                    (net₅.party j).node = ((net₄.party j).node.handleBlock block).2) := by
  have hencode : Envelope.encode (.block block) = .ok (Envelope.write ⟨protocolVersion, (NetworkMessage.block block).encode⟩) :=
    Envelope.encode_eq_ok.mpr ⟨hsize, rfl⟩
  generalize Envelope.write ⟨protocolVersion, (NetworkMessage.block block).encode⟩ = data at hencode
  have hsent := @NetworkMessage.sent_block gossipsub block data hencode
  have hwire : net₁.wire = net.wire ++ (if gossipsub topicBlocks data = .ok () then [data] else []) := by
    obtain ⟨result, hprocess, rfl⟩ := Option.map_eq_some_iff.mp hround
    rw [Party.process, hinbox] at hprocess
    cases hprocess
    rw [Network.update, LoopEvent.at, NodeState.relays, List.flatMap_singleton, hsent]
  refine ⟨data, hencode, hwire, fun htaken moves net₂ hrun j source arrived checked stored hlimit hnew => ?_⟩
  rw [if_pos htaken] at hsent hwire
  have hwire₁ : data ∈ net₁.wire := hwire ▸ List.mem_append_right _ (List.mem_singleton_self data)
  have hdecode : Envelope.decode data = .ok (.block block) := decode_of_mem_sent (hsent ▸ List.mem_singleton_self data)
  have hdelivered := GossipNode.delivered_of_decode hlimit hnew
    (show (Envelope.decode data).toOption = some (.block block) by rw [hdecode]; rfl)
  refine ⟨_, if_pos (Network.wire_run hrun hwire₁), fun moves' net₄ hrun' hrounds gossipsub' now' => ?_⟩
  have hqueue : ((net₂.update j ((net₂.party j).receive source data arrived checked stored) []).party j).inbox =
      (net₂.party j).inbox ++ [.blockReceived block] := by
    rw [Network.party_update, if_pos rfl, Party.inbox_of_delivered hdelivered]
  obtain ⟨arrivals, hlater⟩ := Network.inbox_run (j := j) hrun' (by rw [hqueue, hrounds, List.length_append]; omega)
  rw [hqueue, hrounds, List.drop_left, List.singleton_append] at hlater
  refine ⟨_, by rw [Network.step, Party.process, hlater]; rfl, ?_⟩
  rw [Network.party_update, if_pos rfl]

def queuedNetwork : Network Bool :=
  sampleNetwork.update true ((sampleNetwork.party true).produce sampleBlock) []

omit [Crypto] in
theorem relayed_block_processed_sampleBlock :
    ∃ net₁ data net₃ net₅,
      @Network.step sampleCrypto Bool String _ _ queuedNetwork (.process true takesAll 1) = some net₁ ∧
      Envelope.encode (.block sampleBlock) = .ok data ∧
      @Network.step sampleCrypto Bool String _ _ net₁ (.deliver false "peer" data 1 2 3) = some net₃ ∧
      @Network.step sampleCrypto Bool String _ _ net₃ (.process false takesAll 4) = some net₅ ∧
      (net₅.party false).node = (@NodeState.handleBlock sampleCrypto (net₃.party false).node sampleBlock).2 := by
  have hsome : (@Network.step sampleCrypto Bool String _ _ queuedNetwork (.process true takesAll 1)).isSome = true := by
    decide +kernel
  obtain ⟨net₁, hround⟩ := Option.isSome_iff_exists.mp hsome
  have hsize : (NetworkMessage.block sampleBlock).encode.length ≤ maxMessageSize := by decide +kernel
  obtain ⟨data, hencode, -, hdeliver⟩ := @relayed_block_processed sampleCrypto String _ Bool _ queuedNetwork true sampleBlock
    [] takesAll 1 net₁ rfl hsize hround
  have hfresh : ((@Network.step sampleCrypto Bool String _ _ queuedNetwork (.process true takesAll 1)).map fun net =>
      decide ((net.party false).inbox.length = 0 ∧
        @Party.outcome sampleCrypto String _ (net.party false) "peer"
          (Envelope.write ⟨protocolVersion, (NetworkMessage.block sampleBlock).encode⟩) 1 2 3 =
            .delivered (.block sampleBlock))) = some true := by
    decide +kernel
  rw [hround, Option.map_some, Option.some.injEq] at hfresh
  obtain ⟨hempty, houtcome⟩ := of_decide_eq_true hfresh
  obtain ⟨-, hdata⟩ := Envelope.encode_eq_ok.mp hencode
  rw [← hdata] at houtcome
  obtain ⟨net₃, hstep, hlater⟩ := hdeliver rfl [] net₁ rfl false "peer" 1 2 3 (by rw [houtcome]; simp) (by rw [houtcome]; simp)
  obtain ⟨net₅, hlast, hnode⟩ := hlater [] net₃ rfl hempty.symm takesAll 4
  exact ⟨net₁, data, net₃, net₅, hround, hencode, hstep, hlast, hnode⟩

end Blocks

/-! ### Transactions -/

section Transactions

variable {ι PeerId : Type} [DecidableEq ι] [PeerTexts PeerId] {net net' : Network ι}
  {submitted : List (ι × Transaction)}

/-- The transaction that a move brings to a party. -/
def NetworkMove.submission : NetworkMove ι PeerId → Option (ι × Transaction)
  | .sendTransaction i _ tx => some (i, tx)
  | _ => none

def NetworkMove.isInject : NetworkMove ι PeerId → Bool
  | .inject _ => true
  | _ => false

/-- Only blocks are queued or sent, and what a party has in its pool was submitted to it. -/
structure Network.Local (submitted : List (ι × Transaction)) (net : Network ι) : Prop where
  coherent : ∀ i, (net.party i).node.clearPool.Coherent
  pooled : ∀ i entry, (net.party i).node.clearPool.Holds entry → (i, entry.tx) ∈ submitted
  queued : ∀ i tx, LoopEvent.txReceived tx ∉ (net.party i).inbox
  sent : ∀ data ∈ net.wire, ∃ block, Envelope.decode data = .ok (.block block)

namespace Network

omit [Crypto] in
theorem Local.update {i : ι} {p : Party} {sent : List Bytes} (h : Local submitted net)
    (hcoherent : p.node.clearPool.Coherent)
    (hpooled : ∀ entry, p.node.clearPool.Holds entry → (i, entry.tx) ∈ submitted)
    (hqueued : ∀ tx, LoopEvent.txReceived tx ∉ p.inbox)
    (hsent : ∀ data ∈ sent, ∃ block, Envelope.decode data = .ok (.block block)) : Local submitted (net.update i p sent) := by
  refine ⟨forall_update (P := fun _ q => q.node.clearPool.Coherent) h.coherent hcoherent,
    forall_update (P := fun k q => ∀ entry, q.node.clearPool.Holds entry → (k, entry.tx) ∈ submitted) h.pooled hpooled,
    forall_update (P := fun _ q => ∀ tx, LoopEvent.txReceived tx ∉ q.inbox) h.queued hqueued, fun data hdata => ?_⟩
  rcases List.mem_append.mp hdata with hold | hnew
  · exact h.sent data hold
  · exact hsent data hnew

omit [Crypto] in
theorem Local.produce {i : ι} {block : Block} (h : Local submitted net) :
    Local submitted (net.update i ((net.party i).produce block) []) := by
  refine h.update (h.coherent i) (h.pooled i) (fun tx htx => ?_) (by simp)
  rcases List.mem_append.mp htx with hold | hnew
  · exact h.queued i tx hold
  · cases List.mem_singleton.mp hnew

theorem Local.process {i : ι} {gossipsub : Gossipsub} {now : UInt64} {result : Party × List Bytes} (h : Local submitted net)
    (hprocess : (net.party i).process gossipsub now = some result) : Local submitted (net.update i result.1 result.2) := by
  have hqueue := h.queued i
  rw [Party.process] at hprocess
  split at hprocess
  · cases hprocess
    exact h.update (h.coherent i) (h.pooled i) hqueue (by simp)
  · rename_i event inbox hinbox
    rw [hinbox] at hqueue
    cases event with
    | txReceived tx => exact absurd List.mem_cons_self (hqueue tx)
    | blockReceived block =>
        cases hprocess
        refine h.update (NodeState.coherent_handleBlock (h.coherent i)) (fun entry hentry => ?_)
          (fun tx htx => hqueue tx (List.mem_cons_of_mem _ htx)) fun data hdata => ?_
        · exact h.pooled i entry (NodeState.holds_handleBlock (h.coherent i) hentry)
        · rw [LoopEvent.at, NodeState.relays, List.flatMap_singleton] at hdata
          exact ⟨block, decode_of_mem_sent hdata⟩

/-- **Step lemma.** -/
theorem Local.step {move : NetworkMove ι PeerId} (h : Local submitted net) (hinject : move.isInject = false)
    (hsubmitted : ∀ pair ∈ move.submission, pair ∈ submitted) (hstep : net.step move = some net') : Local submitted net' := by
  cases move with
  | produce i block =>
      cases hstep
      exact h.produce
  | submitBlock i block =>
      cases hstep
      rcases (net.party i).submitBlock_cases block with hsame | hnew
      · rw [hsame]
        exact h.update (h.coherent i) (h.pooled i) (h.queued i) (by simp)
      · rw [hnew]
        exact h.produce
  | sendTransaction i now tx =>
      obtain ⟨p, hsend, rfl⟩ := Option.map_eq_some_iff.mp hstep
      obtain ⟨result, s', htx, hadmits⟩ := NodeState.sendTransaction_admits (h.coherent i) now tx
      rw [Party.sendTransaction, htx] at hsend
      cases hsend
      refine h.update hadmits.coherent (fun entry hentry => ?_) (h.queued i) (by simp)
      rcases hadmits.holds entry hentry with hold | hnew
      · exact h.pooled i entry hold
      · rw [hnew.1]
        exact hsubmitted (i, tx) rfl
  | process i gossipsub now =>
      obtain ⟨result, hprocess, rfl⟩ := Option.map_eq_some_iff.mp hstep
      exact h.process hprocess
  | deliver i source data arrived checked stored =>
      obtain ⟨hwire, heq⟩ := Option.ite_none_right_eq_some.mp hstep
      cases heq
      obtain ⟨hnode, hinbox⟩ := (net.party i).receive_cases source data arrived checked stored
      refine h.update (hnode ▸ h.coherent i) (hnode ▸ h.pooled i) (fun tx htx => ?_) (by simp)
      rcases hinbox with hsame | ⟨msg, event, hdecode, hevent, hnew⟩
      · exact h.queued i tx (hsame ▸ htx)
      · rw [hnew] at htx
        rcases List.mem_append.mp htx with hold | hlast
        · exact h.queued i tx hold
        · obtain ⟨block, hblock⟩ := h.sent data hwire
          rw [hdecode, Except.ok.injEq] at hblock
          subst hblock
          cases hevent
          cases List.mem_singleton.mp hlast
  | inject data => cases hinject

/-- **Run lemma.** -/
theorem Local.run {moves : List (NetworkMove ι PeerId)} (h : Local submitted net)
    (hinject : ∀ move ∈ moves, move.isInject = false)
    (hsubmitted : ∀ move ∈ moves, ∀ pair ∈ move.submission, pair ∈ submitted) (hrun : net.run moves = some net') :
    Local submitted net' := by
  induction moves generalizing net with
  | nil =>
      cases hrun
      exact h
  | cons move moves ih =>
      rw [List.forall_mem_cons] at hinject hsubmitted
      obtain ⟨mid, hstep, hrest⟩ := Option.bind_eq_some_iff.mp hrun
      exact ih (h.step hinject.1 hsubmitted.1 hstep) hinject.2 hsubmitted.2 hrest

end Network

/-- **Transactions stay where they were submitted.** In every run of a network of fresh nodes into which no outsider sends anything, only blocks are ever on the wire, no event loop is ever handed a transaction, and every transaction in the pool of a party was submitted to that same party over RPC. -/
theorem transactions_stay_local (config : ι → NodeConfig) (params : ProtocolParams) (hparams : params.validate = .ok ())
    (keys : GenesisKeys) (gossip : ι → GossipNode) {moves : List (NetworkMove ι PeerId)}
    (hrun : (Network.start config params hparams keys gossip).run moves = some net)
    (hinject : ∀ move ∈ moves, move.isInject = false) :
    (∀ data ∈ net.wire, ∃ block, Envelope.decode data = .ok (.block block)) ∧
      ∀ i, (∀ tx, LoopEvent.txReceived tx ∉ (net.party i).inbox) ∧
        ∀ entry, (net.party i).node.clearPool.Holds entry → ∃ now, NetworkMove.sendTransaction i now entry.tx ∈ moves := by
  have hstart : Network.Local (moves.filterMap NetworkMove.submission) (Network.start config params hparams keys gossip) := by
    have hfresh (i : ι) := NodeState.fresh_start (config i) params hparams keys
    refine ⟨fun i => (hfresh i).clearPool_coherent, fun i entry hentry => absurd hentry ((hfresh i).not_holds entry), ?_, ?_⟩
    · simp [Network.start]
    · simp [Network.start]
  have hlocal := hstart.run hinject (fun move hmove pair hpair => List.mem_filterMap.mpr ⟨move, hmove, hpair⟩) hrun
  refine ⟨hlocal.sent, fun i => ⟨hlocal.queued i, fun entry hentry => ?_⟩⟩
  obtain ⟨move, hmove, hpair⟩ := List.mem_filterMap.mp (hlocal.pooled i entry hentry)
  cases move with
  | sendTransaction j now tx =>
      cases hpair
      exact ⟨now, hmove⟩
  | _ => cases hpair

omit [Crypto] in
/-- A client submits a spend to one node, then a block goes around. -/
theorem transactions_stay_local_sampleMoves :
    ∃ net, @Network.run sampleCrypto Bool String _ _ sampleNetwork (.sendTransaction false 1 sampleSpend :: sampleMoves) =
        some net ∧ net.wire ≠ [] ∧ ∀ data ∈ net.wire, ∃ block, Envelope.decode data = .ok (.block block) := by
  have hend : ((@Network.run sampleCrypto Bool String _ _ sampleNetwork
      (.sendTransaction false 1 sampleSpend :: sampleMoves)).map fun net => decide (net.wire ≠ [])) = some true := by
    decide +kernel
  obtain ⟨net, hrun, hwire⟩ := Option.map_eq_some_iff.mp hend
  have hinject : ∀ move ∈ (.sendTransaction false 1 sampleSpend : NetworkMove Bool String) :: sampleMoves,
      move.isInject = false := by
    simp [sampleMoves, NetworkMove.isInject]
  exact ⟨net, hrun, of_decide_eq_true hwire, (@transactions_stay_local sampleCrypto Bool String _ _ net
    (fun _ => ⟨.mainnet, 1, true⟩) (.preset .mainnet) (ProtocolParams.validate_preset .mainnet) sampleKeys
    (fun _ => .new ⟨100, 10⟩ 1000000000 100) _ hrun hinject).1⟩

end Transactions

end QuantumVault
