import QuantumVault.Net.Node
import QuantumVault.Proof.Privacy.Stealth
import QuantumVault.Proof.Wallet.Signing

/-!
# Whose session an event changes

The initiator recovers from an answer the secret that the responder has kept. The handlers file a session under the peer that the message names. When every message that is accepted names the peer it comes from, an event changes the session of its own peer only. A message that names another peer replaces the session of that peer.
-/

namespace QuantumVault

open Result HybridKem

/-! ### One handshake -/

section Handshakes

namespace SessionStore

variable {PeerId : Type} [DecidableEq PeerId] {store : SessionStore PeerId} {peer other : PeerId} {record : SessionRecord}

theorem insert_self : store.insert peer record peer = some record := by
  rw [insert, Function.update_self]

theorem insert_of_ne (h : other ≠ peer) : store.insert peer record other = store other := by
  rw [insert, Function.update_of_ne h]

theorem remove_self : store.remove peer peer = none := by
  rw [remove, Function.update_self]

theorem remove_of_ne (h : other ≠ peer) : store.remove peer other = store other := by
  rw [remove, Function.update_of_ne h]

end SessionStore

variable {PeerId : Type} [PeerIds PeerId] [Crypto] [HybridKem] {localPeer named : PeerId} {entropy : KemEntropy}
  {hello : HandshakeHello} {ack : HandshakeAck} {ss : Hash256} {localKp : HybridKeyPair}

theorem respondToHello_eq_ok : respondToHello hello localPeer entropy = .ok (ack, ss, named) ↔
    hello.version = handshakeVersion ∧ PeerIds.fromBytes hello.initiatorPeerId = .ok named ∧
      ∃ ciphertext, encapsulateHybrid hello.hybridPk entropy = .ok (ciphertext, ss) ∧
        ack = ⟨handshakeVersion, PeerIds.toBytes localPeer, ciphertext, computeSessionBinding ss named localPeer⟩ := by
  unfold respondToHello
  simp only [bind_eq_ok, require_eq_ok, mapError_eq_ok, pure_eq_ok, Prod.mk.injEq, Prod.exists]
  constructor
  · intro h
    obtain ⟨-, hversion, initPid, hnamed, ciphertext, ss', hencapsulate, hack, rfl, rfl⟩ := h
    exact ⟨hversion, hnamed, ciphertext, hencapsulate, hack.symm⟩
  · intro h
    obtain ⟨hversion, hnamed, ciphertext, hencapsulate, hack⟩ := h
    exact ⟨(), hversion, named, hnamed, ciphertext, ss, hencapsulate, hack.symm, rfl, rfl⟩

theorem processAck_eq_ok : processAck ack localKp localPeer = .ok (ss, named) ↔
    ack.version = handshakeVersion ∧ PeerIds.fromBytes ack.responderPeerId = .ok named ∧
      decapsulateHybrid localKp ack.ciphertext = .ok ss ∧
      computeSessionBinding ss localPeer named = ack.sessionBinding := by
  unfold processAck
  simp only [bind_eq_ok, require_eq_ok, mapError_eq_ok, pure_eq_ok, Prod.mk.injEq]
  constructor
  · intro h
    obtain ⟨-, hversion, respPid, hnamed, ss', hdecapsulate, -, hbinding, rfl, rfl⟩ := h
    exact ⟨hversion, hnamed, hdecapsulate, hbinding⟩
  · intro h
    obtain ⟨hversion, hnamed, hdecapsulate, hbinding⟩ := h
    exact ⟨(), hversion, named, hnamed, ss, hdecapsulate, (), hbinding, rfl, rfl⟩

/-- **An honest hello is answered, and the answer gives the initiator the responder's secret.** -/
theorem processAck_respondToHello (hkem : KemCorrect) (initiator responder : PeerId) (keyEntropy entropy : KemEntropy) :
    ∃ ack ss ciphertext,
      encapsulateHybrid (generateKeypair defaultKemLevel keyEntropy).pub entropy = .ok (ciphertext, ss) ∧
      respondToHello (makeHello initiator (generateKeypair defaultKemLevel keyEntropy)) responder entropy =
        .ok (ack, ss, initiator) ∧
      processAck ack (generateKeypair defaultKemLevel keyEntropy) initiator = .ok (ss, responder) := by
  obtain ⟨bytes, ss, hencapsulate, hdecapsulate⟩ := decapsulate_encapsulate hkem defaultKemLevel keyEntropy entropy
  refine ⟨⟨handshakeVersion, PeerIds.toBytes responder, ⟨bytes, defaultKemLevel⟩,
    computeSessionBinding ss initiator responder⟩, ss, ⟨bytes, defaultKemLevel⟩, hencapsulate, ?_, ?_⟩
  · exact respondToHello_eq_ok.mpr ⟨rfl, PeerIds.fromBytes_toBytes initiator, _, hencapsulate, rfl⟩
  · exact processAck_eq_ok.mpr ⟨rfl, PeerIds.fromBytes_toBytes responder, hdecapsulate, rfl⟩

end Handshakes

/-! ### Rounds -/

variable {PeerId : Type}

def SwarmEvent.transportPeer : SwarmEvent PeerId → PeerId
  | .connectionEstablished peerId _ => peerId
  | .request peer _ => peer
  | .response peer _ => peer
  | .outboundFailure peer => peer
  | .inboundFailure peer => peer
  | .connectionClosed peerId => peerId

/-- An event with the time and the randomness of its round. -/
structure NodeRound (PeerId : Type) where
  now : UInt64
  entropy : KemEntropy
  event : SwarmEvent PeerId

namespace NetworkNode

variable [PeerIds PeerId] [DecidableEq PeerId] [Crypto] [HybridKem] {node : NetworkNode PeerId} {round : NodeRound PeerId}

def afterRound (node : NetworkNode PeerId) (round : NodeRound PeerId) : NetworkNode PeerId :=
  (node.handle round.now round.entropy round.event).1

def afterRounds (node : NetworkNode PeerId) (rounds : List (NodeRound PeerId)) : NetworkNode PeerId :=
  rounds.foldl afterRound node

/-- A message that the node accepts names the peer it comes from. -/
def NamesItsPeer (node : NetworkNode PeerId) (round : NodeRound PeerId) : Prop :=
  match round.event with
  | .request peer hello =>
      (respondToHello hello node.localPeerId round.entropy).isOk = true → PeerIds.fromBytes hello.initiatorPeerId = .ok peer
  | .response peer ack =>
      (processAck ack node.localHybridKp node.localPeerId).isOk = true → PeerIds.fromBytes ack.responderPeerId = .ok peer
  | _ => True

/-! ### One round -/

/-- What a round can do to the session store: nothing, remove the session of its peer, or file a secret under the peer that an accepted message names. -/
theorem afterRound_cases (node : NetworkNode PeerId) (round : NodeRound PeerId) :
    node.afterRound round = node ∨
      node.afterRound round = { node with sessionStore := node.sessionStore.remove round.event.transportPeer } ∨
      (∃ peer hello ack ss named, round.event = .request peer hello ∧
        respondToHello hello node.localPeerId round.entropy = .ok (ack, ss, named) ∧
        node.afterRound round = { node with sessionStore := node.sessionStore.insert named ⟨ss, round.now⟩ }) ∨
      ∃ peer ack ss named, round.event = .response peer ack ∧
        processAck ack node.localHybridKp node.localPeerId = .ok (ss, named) ∧
        node.afterRound round = { node with sessionStore := node.sessionStore.insert named ⟨ss, round.now⟩ } := by
  obtain ⟨now, entropy, event⟩ := round
  cases event with
  | connectionEstablished peerId isDialer =>
      refine Or.inl ?_
      show (node.handle now entropy (.connectionEstablished peerId isDialer)).1 = node
      rw [handle]
      split <;> rfl
  | request peer hello =>
      cases hrespond : respondToHello hello node.localPeerId entropy with
      | error e =>
          refine Or.inl ?_
          show (node.handle now entropy (.request peer hello)).1 = node
          rw [handle, hrespond]
      | ok result =>
          refine Or.inr (Or.inr (Or.inl ⟨peer, hello, result.1, result.2.1, result.2.2, rfl, hrespond, ?_⟩))
          show (node.handle now entropy (.request peer hello)).1 = _
          rw [handle, hrespond]
  | response peer ack =>
      cases hprocess : processAck ack node.localHybridKp node.localPeerId with
      | error e =>
          refine Or.inl ?_
          show (node.handle now entropy (.response peer ack)).1 = node
          rw [handle, hprocess]
      | ok result =>
          refine Or.inr (Or.inr (Or.inr ⟨peer, ack, result.1, result.2, rfl, hprocess, ?_⟩))
          show (node.handle now entropy (.response peer ack)).1 = _
          rw [handle, hprocess]
  | outboundFailure peer => exact Or.inl rfl
  | inboundFailure peer => exact Or.inl rfl
  | connectionClosed peerId => exact Or.inr (Or.inl rfl)

private theorem afterRound_identity (node : NetworkNode PeerId) (round : NodeRound PeerId) :
    (node.afterRound round).localPeerId = node.localPeerId ∧
      (node.afterRound round).localHybridKp = node.localHybridKp := by
  obtain h | h | ⟨_, _, _, _, _, _, _, h⟩ | ⟨_, _, _, _, _, _, h⟩ := node.afterRound_cases round <;>
    rw [h] <;> exact ⟨rfl, rfl⟩

private theorem afterRound_session (h : node.NamesItsPeer round) {peer : PeerId} (hother : peer ≠ round.event.transportPeer) :
    (node.afterRound round).sessionStore peer = node.sessionStore peer := by
  obtain hround | hround | ⟨sender, hello, ack, ss, named, hevent, hrespond, hround⟩ |
    ⟨sender, ack, ss, named, hevent, hprocess, hround⟩ := node.afterRound_cases round
  · rw [hround]
  · rw [hround]
    exact SessionStore.remove_of_ne hother
  · rw [NamesItsPeer, hevent] at h
    have hnamed := h (isOk_iff.mpr ⟨_, hrespond⟩)
    rw [(respondToHello_eq_ok.mp hrespond).2.1, Except.ok.injEq] at hnamed
    rw [hevent] at hother
    rw [hround, hnamed]
    exact SessionStore.insert_of_ne hother
  · rw [NamesItsPeer, hevent] at h
    have hnamed := h (isOk_iff.mpr ⟨_, hprocess⟩)
    rw [(processAck_eq_ok.mp hprocess).2.1, Except.ok.injEq] at hnamed
    rw [hevent] at hother
    rw [hround, hnamed]
    exact SessionStore.insert_of_ne hother

theorem afterRound_request {peer named : PeerId} {hello : HandshakeHello} {ack : HandshakeAck} {ss : Hash256}
    (hevent : round.event = .request peer hello)
    (hrespond : respondToHello hello node.localPeerId round.entropy = .ok (ack, ss, named)) :
    (node.afterRound round).sessionStore named = some ⟨ss, round.now⟩ := by
  rw [afterRound, hevent, handle, hrespond]
  exact SessionStore.insert_self

/-! ### Runs -/

theorem afterRounds_identity (node : NetworkNode PeerId) (rounds : List (NodeRound PeerId)) :
    (node.afterRounds rounds).localPeerId = node.localPeerId ∧
      (node.afterRounds rounds).localHybridKp = node.localHybridKp := by
  induction rounds generalizing node with
  | nil => exact ⟨rfl, rfl⟩
  | cons round rounds ih =>
      obtain ⟨hid, hkeys⟩ := ih (node.afterRound round)
      obtain ⟨hid', hkeys'⟩ := node.afterRound_identity round
      exact ⟨hid.trans hid', hkeys.trans hkeys'⟩

omit [DecidableEq PeerId] in
private theorem namesItsPeer_congr {node' : NetworkNode PeerId} (hid : node'.localPeerId = node.localPeerId)
    (hkeys : node'.localHybridKp = node.localHybridKp) : node'.NamesItsPeer round ↔ node.NamesItsPeer round := by
  rw [NamesItsPeer, NamesItsPeer, hid, hkeys]

/-- **Sessions and the peers that change them.** In a run in which every accepted message names the peer it comes from, every event leaves the sessions of all other peers as they were. After any run, an accepted message replaces the session of the peer it names, whoever has sent it. -/
theorem sessions_bound_to_named_peer (node : NetworkNode PeerId) (rounds : List (NodeRound PeerId))
    (hnamed : ∀ round ∈ rounds, node.NamesItsPeer round) :
    (∀ before round after, rounds = before ++ round :: after → ∀ peer, peer ≠ round.event.transportPeer →
      (node.afterRounds (before ++ [round])).sessionStore peer = (node.afterRounds before).sessionStore peer) ∧
    (∀ round peer hello ack ss named, round.event = .request peer hello →
      respondToHello hello node.localPeerId round.entropy = .ok (ack, ss, named) →
      (node.afterRounds (rounds ++ [round])).sessionStore named = some ⟨ss, round.now⟩) ∧
    ∀ round peer ack ss named, round.event = .response peer ack →
      processAck ack node.localHybridKp node.localPeerId = .ok (ss, named) →
      (node.afterRounds (rounds ++ [round])).sessionStore named = some ⟨ss, round.now⟩ := by
  have hlast (before : List (NodeRound PeerId)) (round : NodeRound PeerId) :
      node.afterRounds (before ++ [round]) = (node.afterRounds before).afterRound round := List.foldl_append
  refine ⟨?_, ?_, ?_⟩
  · intro before round after hrounds peer hother
    obtain ⟨hid, hkeys⟩ := node.afterRounds_identity before
    have hround : node.NamesItsPeer round := by
      apply hnamed
      rw [hrounds]
      exact List.mem_append_right before List.mem_cons_self
    rw [hlast]
    exact afterRound_session ((namesItsPeer_congr hid hkeys).mpr hround) hother
  · intro round peer hello ack ss named hevent hrespond
    rw [hlast]
    rw [← (node.afterRounds_identity rounds).1] at hrespond
    exact afterRound_request hevent hrespond
  · intro round peer ack ss named hevent hprocess
    rw [hlast, afterRound, hevent, handle, (node.afterRounds_identity rounds).1, (node.afterRounds_identity rounds).2,
      hprocess]
    exact SessionStore.insert_self

/-- The first hello is from the peer it names. The second one is from another, with a key of its own and the id of the first: from the answer it gets, the sender computes the secret that the node now keeps for the first peer. -/
theorem forged_hello (hkem : KemCorrect) (node : NetworkNode PeerId) {victim impostor : PeerId} (hne : victim ≠ impostor)
    (victimKey impostorKey : KemEntropy) (first second : NodeRound PeerId)
    (hfirst : first.event = .request victim (makeHello victim (generateKeypair defaultKemLevel victimKey)))
    (hsecond : second.event = .request impostor (makeHello victim (generateKeypair defaultKemLevel impostorKey)))
    (hdiffer : ((node.afterRounds [first]).sessionStore victim).map SessionRecord.sharedSecret ≠
      ((node.afterRounds [first, second]).sessionStore victim).map SessionRecord.sharedSecret) :
    ∃ (impostorKey : HybridKeyPair) (ack : HandshakeAck) (record : SessionRecord) (ss : Hash256),
      second.event = .request impostor (makeHello victim impostorKey) ∧ victim ≠ impostor ∧
        (node.afterRounds [first]).sessionStore victim = some record ∧
        (node.afterRounds [first, second]).sessionStore victim = some ⟨ss, second.now⟩ ∧ record.sharedSecret ≠ ss ∧
        ((node.afterRounds [first]).handle second.now second.entropy second.event).2 = [.sendResponse impostor ack] ∧
        decapsulateHybrid impostorKey ack.ciphertext = .ok ss := by
  obtain ⟨ack₁, ss₁, _, -, hrespond₁, -⟩ :=
    processAck_respondToHello hkem victim node.localPeerId victimKey first.entropy
  obtain ⟨ack₂, ss₂, _, -, hrespond₂, hprocess⟩ :=
    processAck_respondToHello hkem victim node.localPeerId impostorKey second.entropy
  rw [← (node.afterRounds_identity [first]).1] at hrespond₂
  have hbefore : (node.afterRounds [first]).sessionStore victim = some ⟨ss₁, first.now⟩ :=
    afterRound_request hfirst hrespond₁
  have hafter : (node.afterRounds [first, second]).sessionStore victim = some ⟨ss₂, second.now⟩ :=
    afterRound_request hsecond hrespond₂
  refine ⟨generateKeypair defaultKemLevel impostorKey, ack₂, ⟨ss₁, first.now⟩, ss₂, hsecond, hne, hbefore, hafter, ?_, ?_,
    (processAck_eq_ok.mp hprocess).2.2.1⟩
  · intro heq
    rw [hbefore, hafter] at hdiffer
    exact hdiffer (congrArg some heq)
  · rw [hsecond, handle, hrespond₂]

end NetworkNode

/-! ### An impostor -/

/-- A peer id made from an Ed25519 key: the key behind the six bytes that say so. -/
structure EdPeerId where
  key : Hash256
deriving DecidableEq

def edPeerIdHeader : Bytes := [0x00, 0x24, 0x08, 0x01, 0x12, 0x20]

@[reducible] def edPeerIds : PeerIds EdPeerId where
  toBytes peer := edPeerIdHeader ++ peer.key.bytes
  fromBytes bytes :=
    if h : bytes.take 6 = edPeerIdHeader ∧ (bytes.drop 6).length = 32 then .ok ⟨⟨bytes.drop 6, h.2⟩⟩
    else .error "invalid multihash"
  fromBytes_toBytes peer := by
    have hdrop : (edPeerIdHeader ++ peer.key.bytes).drop 6 = peer.key.bytes := List.drop_left' rfl
    rw [dif_pos ⟨List.take_left' rfl, hdrop ▸ peer.key.length_eq⟩]
    congr 1

/-- **A session is replaced by a peer it does not belong to**, with a secret that this peer can compute from the answer it gets. -/
theorem session_replaced_by_impostor :
    ∃ (_ : Crypto) (_ : HybridKem) (_ : PeerIds EdPeerId) (node : NetworkNode EdPeerId) (first second : NodeRound EdPeerId)
      (victim impostor : EdPeerId) (impostorKey : HybridKeyPair) (ack : HandshakeAck) (record : SessionRecord) (ss : Hash256),
      second.event = .request impostor (makeHello victim impostorKey) ∧ victim ≠ impostor ∧
        (node.afterRounds [first]).sessionStore victim = some record ∧
        (node.afterRounds [first, second]).sessionStore victim = some ⟨ss, second.now⟩ ∧ record.sharedSecret ≠ ss ∧
        ((node.afterRounds [first]).handle second.now second.entropy second.event).2 = [.sendResponse impostor ack] ∧
        decapsulateHybrid impostorKey ack.ciphertext = .ok ss := by
  let crypto := signingCrypto
  let kem := sampleKem
  let ids := edPeerIds
  obtain ⟨victim, impostor, hne, hdiffer⟩ : ∃ victim impostor : EdPeerId, victim ≠ impostor ∧
      let node : NetworkNode EdPeerId := .new ⟨sampleDigest [3]⟩ ⟨.zero, [3]⟩
      let first : NodeRound EdPeerId :=
        ⟨1, ⟨.zero, [4]⟩, .request victim (makeHello victim (generateKeypair defaultKemLevel ⟨.zero, [1]⟩))⟩
      let second : NodeRound EdPeerId :=
        ⟨2, ⟨.zero, [5]⟩, .request impostor (makeHello victim (generateKeypair defaultKemLevel ⟨.zero, [2]⟩))⟩
      ((node.afterRounds [first]).sessionStore victim).map SessionRecord.sharedSecret ≠
        ((node.afterRounds [first, second]).sessionStore victim).map SessionRecord.sharedSecret :=
    ⟨⟨sampleDigest [1]⟩, ⟨sampleDigest [2]⟩, by decide +kernel, by decide +kernel⟩
  exact ⟨crypto, kem, ids, _, _, _, victim, impostor,
    NetworkNode.forged_hello kemCorrect_sample _ hne ⟨.zero, [1]⟩ ⟨.zero, [2]⟩ _ _ rfl rfl hdiffer⟩

/-- A peer shakes hands and goes away. -/
theorem sessions_bound_to_named_peer_honest :
    ∃ (_ : Crypto) (_ : HybridKem) (_ : PeerIds EdPeerId) (node : NetworkNode EdPeerId) (peer : EdPeerId)
      (rounds : List (NodeRound EdPeerId)), rounds.length = 2 ∧ (∀ round ∈ rounds, node.NamesItsPeer round) ∧
        ∀ other, other ≠ peer → (node.afterRounds rounds).sessionStore other = node.sessionStore other := by
  let crypto := signingCrypto
  let kem := sampleKem
  let ids := edPeerIds
  obtain ⟨peer, -⟩ : ∃ peer : EdPeerId, peer = ⟨sampleDigest [1]⟩ := ⟨_, rfl⟩
  obtain ⟨node, -⟩ : ∃ node : NetworkNode EdPeerId, node = .new ⟨sampleDigest [3]⟩ ⟨.zero, [3]⟩ := ⟨_, rfl⟩
  obtain ⟨key, -⟩ : ∃ key, key = generateKeypair defaultKemLevel ⟨.zero, [1]⟩ := ⟨_, rfl⟩
  let first : NodeRound EdPeerId := ⟨1, ⟨.zero, [4]⟩, .request peer (makeHello peer key)⟩
  let second : NodeRound EdPeerId := ⟨2, ⟨.zero, []⟩, .connectionClosed peer⟩
  have hnamed : ∀ round ∈ [first, second], node.NamesItsPeer round := by
    intro round hround
    obtain rfl | hround := List.mem_cons.mp hround
    · intro _
      exact PeerIds.fromBytes_toBytes peer
    · obtain rfl := List.mem_singleton.mp hround
      trivial
  refine ⟨crypto, kem, ids, node, peer, [first, second], rfl, hnamed, ?_⟩
  intro other hother
  have hkept := (NetworkNode.sessions_bound_to_named_peer node [first, second] hnamed).1
  have hfirst : (node.afterRounds [first]).sessionStore other = node.sessionStore other :=
    hkept [] first [second] rfl other hother
  have hsecond : (node.afterRounds [first, second]).sessionStore other = (node.afterRounds [first]).sessionStore other :=
    hkept [first] second [] rfl other hother
  rw [hsecond, hfirst]

end QuantumVault
