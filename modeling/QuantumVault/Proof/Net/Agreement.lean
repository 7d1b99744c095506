import QuantumVault.Net.Link
import QuantumVault.Proof.Net.Binding

/-!
# Two honest nodes and their secrets

The two nodes simulate the exchange of secrets: the slot of a side holds the secret that its store has for the other, a hello in flight stands for its sender, and an answer for the secret that its receiver will find in it. So the nodes agree whenever nothing is in flight, as long as no hello is sent while a message is. A hello that overlaps with another message can end in two different secrets.
-/

namespace QuantumVault

open Exchange HybridKem

section Nodes

variable {PeerId : Type} [PeerIds PeerId] [HybridKem]

abbrev nodeKeys (entropy : KemEntropy) : HybridKeyPair := generateKeypair defaultKemLevel entropy

variable [Crypto] (peerId : Side → PeerId) (entropy : Side → KemEntropy)

/-- A message that an honest node has sent. -/
def HandshakeMessage.Honest : HandshakeMessage → Prop
  | .hello receiver sent => sent = makeHello (peerId receiver.other) (nodeKeys (entropy receiver.other))
  | .ack receiver sent => ∃ ss, processAck sent (nodeKeys (entropy receiver)) (peerId receiver) = .ok (ss, peerId receiver.other)

def HandshakeMessage.packet : HandshakeMessage → Packet Hash256
  | .hello receiver _ => .hello receiver.other
  | .ack receiver sent =>
      match processAck sent (nodeKeys (entropy receiver)) (peerId receiver) with
      | .ok (ss, _) => .ack receiver ss
      | .error _ => .ack receiver .zero

namespace Link

/-- The nodes are the ones that have started, and every message is from one of them. -/
structure Honest (link : Link PeerId) : Prop where
  peerId_eq : ∀ side, (link.node side).localPeerId = peerId side
  keys_eq : ∀ side, (link.node side).localHybridKp = nodeKeys (entropy side)
  message : ∀ message ∈ link.flight, message.Honest peerId entropy

def withStore (link : Link PeerId) (side : Side) (store : SessionStore PeerId) (flight : Multiset HandshakeMessage) :
    Link PeerId :=
  ⟨Function.update link.node side { link.node side with sessionStore := store }, flight⟩

/-- The exchange that the two nodes take part in. -/
def view (link : Link PeerId) : State Hash256 where
  slot side := ((link.node side).sessionStore.get (peerId side.other)).map SessionRecord.sharedSecret
  flight := link.flight.map (·.packet peerId entropy)

/-- A hello is sent while a message is in flight. -/
def Overlaps (link : Link PeerId) (event : LinkEvent) : Prop :=
  ∃ side, event = .connectionEstablished side true ∧
    (link.node side).sessionStore.get (link.node side.other).localPeerId = none ∧ link.flight ≠ 0

variable {peerId entropy} {link : Link PeerId} {round : LinkRound} {side : Side}

theorem honest_start : (start peerId entropy).Honest peerId entropy where
  peerId_eq _ := rfl
  keys_eq _ := rfl
  message message hmessage := absurd hmessage (Multiset.notMem_zero message)

theorem Honest.withStore (h : link.Honest peerId entropy) (store : SessionStore PeerId) {flight : Multiset HandshakeMessage}
    (hflight : ∀ message ∈ flight, message.Honest peerId entropy) :
    (link.withStore side store flight).Honest peerId entropy where
  peerId_eq other := by
    by_cases hother : other = side
    · rw [Link.withStore, hother]
      simp [h.peerId_eq]
    · rw [Link.withStore]
      simp [hother, h.peerId_eq]
  keys_eq other := by
    by_cases hother : other = side
    · rw [Link.withStore, hother]
      simp [h.keys_eq]
    · rw [Link.withStore]
      simp [hother, h.keys_eq]
  message := hflight

theorem view_withStore (store : SessionStore PeerId) (flight : Multiset HandshakeMessage) :
    (link.withStore side store flight).view peerId entropy =
      ⟨Function.update (link.view peerId entropy).slot side ((store (peerId side.other)).map SessionRecord.sharedSecret),
        flight.map (·.packet peerId entropy)⟩ := by
  rw [view, State.mk.injEq]
  refine ⟨?_, rfl⟩
  funext other
  by_cases hother : other = side
  · rw [hother, Function.update_self, withStore]
    simp [SessionStore.get]
  · rw [Function.update_of_ne hother, withStore]
    simp [view, hother]

theorem packet_ack {receiver : Side} {ack : HandshakeAck} {ss : Hash256} {named : PeerId}
    (h : processAck ack (nodeKeys (entropy receiver)) (peerId receiver) = .ok (ss, named)) :
    (HandshakeMessage.ack receiver ack).packet peerId entropy = .ack receiver ss := by
  rw [HandshakeMessage.packet, h]

/-! ### What a round does -/

variable [DecidableEq PeerId]

theorem Honest.dial (h : link.Honest peerId entropy) (hround : round.event = .connectionEstablished side true)
    (hstore : (link.node side).sessionStore.get (link.node side.other).localPeerId = none) :
    link.step round =
      { link with flight := .hello side.other (makeHello (peerId side) (nodeKeys (entropy side))) ::ₘ link.flight } := by
  rw [step, hround]
  dsimp only
  rw [handleAt, NetworkNode.handle, if_pos ⟨rfl, hstore⟩]
  dsimp only
  rw [Function.update_eq_self, h.peerId_eq side, h.keys_eq]
  rfl

private theorem step_of_established {isDialer : Bool} (hround : round.event = .connectionEstablished side isDialer)
    (hsilent : ¬ (isDialer = true ∧ (link.node side).sessionStore.get (link.node side.other).localPeerId = none)) :
    link.step round = link := by
  rw [step, hround]
  dsimp only
  rw [handleAt, NetworkNode.handle, if_neg hsilent]
  simp

theorem Honest.deliver_hello (h : link.Honest peerId entropy) (hkem : KemCorrect) {receiver : Side} {hello : HandshakeHello}
    (hmem : .hello receiver hello ∈ link.flight) (hround : round.event = .deliver (.hello receiver hello)) :
    ∃ ack ss ciphertext,
      encapsulateHybrid (nodeKeys (entropy receiver.other)).pub round.entropy = .ok (ciphertext, ss) ∧
      processAck ack (nodeKeys (entropy receiver.other)) (peerId receiver.other) = .ok (ss, peerId receiver) ∧
      link.step round =
        link.withStore receiver ((link.node receiver).sessionStore.insert (peerId receiver.other) ⟨ss, round.now⟩)
          (.ack receiver.other ack ::ₘ link.flight.erase (.hello receiver hello)) := by
  obtain ⟨ack, ss, ciphertext, hencapsulate, hrespond, hprocess⟩ :=
    processAck_respondToHello hkem (peerId receiver.other) (peerId receiver) (entropy receiver.other) round.entropy
  refine ⟨ack, ss, ciphertext, hencapsulate, hprocess, ?_⟩
  have hhello : hello = makeHello (peerId receiver.other) (nodeKeys (entropy receiver.other)) := h.message _ hmem
  rw [step, hround]
  dsimp only
  rw [if_pos hmem, handleAt]
  dsimp only [received, HandshakeMessage.receiver]
  rw [NetworkNode.handle, h.peerId_eq, hhello, hrespond]
  simp [Link.withStore, h.peerId_eq, Outbound.message]

theorem Honest.deliver_ack (h : link.Honest peerId entropy) {receiver : Side} {ack : HandshakeAck}
    (hmem : .ack receiver ack ∈ link.flight) (hround : round.event = .deliver (.ack receiver ack)) :
    ∃ ss, processAck ack (nodeKeys (entropy receiver)) (peerId receiver) = .ok (ss, peerId receiver.other) ∧
      link.step round =
        link.withStore receiver ((link.node receiver).sessionStore.insert (peerId receiver.other) ⟨ss, round.now⟩)
          (link.flight.erase (.ack receiver ack)) := by
  obtain ⟨ss, hprocess⟩ : ∃ ss, processAck ack (nodeKeys (entropy receiver)) (peerId receiver) = .ok (ss, peerId receiver.other) :=
    h.message _ hmem
  refine ⟨ss, hprocess, ?_⟩
  rw [step, hround]
  dsimp only
  rw [if_pos hmem, handleAt]
  dsimp only [received, HandshakeMessage.receiver]
  rw [NetworkNode.handle, h.peerId_eq, h.keys_eq, hprocess]
  simp [Link.withStore, h.peerId_eq, h.keys_eq]

theorem Honest.closed (h : link.Honest peerId entropy) (hround : round.event = .connectionClosed side) :
    link.step round =
      link.withStore side ((link.node side).sessionStore.remove (peerId side.other)) link.flight := by
  rw [step, hround]
  dsimp only
  rw [handleAt, NetworkNode.handle, h.peerId_eq side.other, Link.withStore]
  simp

/-! ### The simulation -/

omit [DecidableEq PeerId] in
theorem Honest.erased (h : link.Honest peerId entropy) (message : HandshakeMessage) :
    ∀ m ∈ link.flight.erase message, m.Honest peerId entropy :=
  fun m hm => h.message m (Multiset.mem_of_mem_erase hm)

theorem Honest.simulates_dial (h : link.Honest peerId entropy) (hround : round.event = .connectionEstablished side true)
    (hstore : (link.node side).sessionStore.get (link.node side.other).localPeerId = none) :
    (link.step round).Honest peerId entropy ∧ (link.view peerId entropy).slot side = none ∧
      (link.step round).view peerId entropy = (link.view peerId entropy).step (.dial side) := by
  have hslot : (link.view peerId entropy).slot side = none := by
    rw [h.peerId_eq] at hstore
    simp [view, hstore]
  rw [h.dial hround hstore]
  refine ⟨⟨h.peerId_eq, h.keys_eq, ?_⟩, hslot, ?_⟩
  · refine Multiset.forall_mem_cons.mpr ⟨?_, h.message⟩
    simp [HandshakeMessage.Honest]
  · rw [State.step, if_pos hslot]
    simp [view, HandshakeMessage.packet]

theorem Honest.simulates_hello (h : link.Honest peerId entropy) (hkem : KemCorrect) {receiver : Side} {hello : HandshakeHello}
    (hmem : .hello receiver hello ∈ link.flight) (hround : round.event = .deliver (.hello receiver hello)) :
    ∃ ss ciphertext, encapsulateHybrid (nodeKeys (entropy receiver.other)).pub round.entropy = .ok (ciphertext, ss) ∧
      (link.step round).Honest peerId entropy ∧
      (link.step round).view peerId entropy = (link.view peerId entropy).step (.answer receiver.other ss) := by
  obtain ⟨ack, ss, ciphertext, hencapsulate, hprocess, hstep⟩ := h.deliver_hello hkem hmem hround
  have hpacket : .hello receiver.other ∈ (link.view peerId entropy).flight := Multiset.mem_map_of_mem _ hmem
  refine ⟨ss, ciphertext, hencapsulate, ?_, ?_⟩
  · rw [hstep]
    refine h.withStore _ (Multiset.forall_mem_cons.mpr ⟨?_, h.erased _⟩)
    exact ⟨ss, by rw [hprocess, Side.other_other]⟩
  · rw [hstep, view_withStore, State.step, if_pos hpacket, SessionStore.insert_self, Side.other_other, Multiset.map_cons,
      packet_ack hprocess, Multiset.map_erase_of_mem _ _ hmem]
    rfl

theorem Honest.simulates_ack (h : link.Honest peerId entropy) {receiver : Side} {ack : HandshakeAck}
    (hmem : .ack receiver ack ∈ link.flight) (hround : round.event = .deliver (.ack receiver ack)) :
    ∃ ss, (HandshakeMessage.ack receiver ack).packet peerId entropy = .ack receiver ss ∧
      (link.step round).Honest peerId entropy ∧
      (link.step round).view peerId entropy = (link.view peerId entropy).step (.accept receiver ss) := by
  obtain ⟨ss, hprocess, hstep⟩ := h.deliver_ack hmem hround
  have hpacket : .ack receiver ss ∈ (link.view peerId entropy).flight := by
    rw [← packet_ack hprocess]
    exact Multiset.mem_map_of_mem _ hmem
  refine ⟨ss, packet_ack hprocess, ?_, ?_⟩
  · rw [hstep]
    exact h.withStore _ (h.erased _)
  · rw [hstep, view_withStore, State.step, if_pos hpacket, SessionStore.insert_self, Multiset.map_erase_of_mem _ _ hmem,
      packet_ack hprocess]
    rfl

theorem Honest.simulates_lose (h : link.Honest peerId entropy) {message : HandshakeMessage} (hmem : message ∈ link.flight)
    (hround : round.event = .lose message) :
    (link.step round).Honest peerId entropy ∧
      (link.step round).view peerId entropy =
        (link.view peerId entropy).step (.lose (message.packet peerId entropy)) := by
  rw [step, hround]
  refine ⟨⟨h.peerId_eq, h.keys_eq, h.erased message⟩, ?_⟩
  simp [view, State.step, Multiset.map_erase_of_mem _ _ hmem]

/-- Every round is a step of the exchange or none, and the exchange sees an overlapping hello only if one is sent. -/
theorem Honest.simulates (h : link.Honest peerId entropy) (hkem : KemCorrect) (round : LinkRound) :
    (link.step round).Honest peerId entropy ∧
      ((link.step round).view peerId entropy = link.view peerId entropy ∨
        ∃ event, (link.step round).view peerId entropy = (link.view peerId entropy).step event ∧
          ((link.view peerId entropy).Overlaps event → link.Overlaps round.event)) := by
  have hnone {event : Event Hash256} (hevent : ∀ side, event ≠ .dial side) :
      (link.view peerId entropy).Overlaps event → link.Overlaps round.event :=
    fun ⟨side, hdial, _⟩ => absurd hdial (hevent side)
  cases hround : round.event with
  | connectionEstablished side isDialer =>
      by_cases hdial : isDialer = true ∧ (link.node side).sessionStore.get (link.node side.other).localPeerId = none
      · obtain ⟨rfl, hstore⟩ := hdial
        obtain ⟨hhonest, -, hview⟩ := h.simulates_dial hround hstore
        refine ⟨hhonest, Or.inr ⟨.dial side, hview, ?_⟩⟩
        intro hoverlap
        obtain ⟨-, -, -, hflight⟩ := hoverlap
        refine ⟨side, rfl, hstore, ?_⟩
        intro hempty
        exact hflight (by simp [view, hempty])
      · rw [step_of_established hround hdial]
        exact ⟨h, Or.inl rfl⟩
  | deliver message =>
      by_cases hmem : message ∈ link.flight
      · cases message with
        | hello receiver hello =>
            obtain ⟨ss, _, -, hhonest, hview⟩ := h.simulates_hello hkem hmem hround
            exact ⟨hhonest, Or.inr ⟨_, hview, hround ▸ hnone (by simp)⟩⟩
        | ack receiver ack =>
            obtain ⟨ss, -, hhonest, hview⟩ := h.simulates_ack hmem hround
            exact ⟨hhonest, Or.inr ⟨_, hview, hround ▸ hnone (by simp)⟩⟩
      · have hstep : link.step round = link := by
          simp [step, hround, hmem]
        rw [hstep]
        exact ⟨h, Or.inl rfl⟩
  | lose message =>
      by_cases hmem : message ∈ link.flight
      · obtain ⟨hhonest, hview⟩ := h.simulates_lose hmem hround
        exact ⟨hhonest, Or.inr ⟨_, hview, hround ▸ hnone (by simp)⟩⟩
      · have hstep : link.step round = link := by
          simp [step, hround, Multiset.erase_of_notMem hmem]
        rw [hstep]
        exact ⟨h, Or.inl rfl⟩
  | connectionClosed side =>
      rw [h.closed hround]
      refine ⟨h.withStore _ h.message, Or.inr ⟨.close side, ?_, hround ▸ hnone (by simp)⟩⟩
      rw [view_withStore, SessionStore.remove_self]
      rfl

theorem honest_run (hkem : KemCorrect) (rounds : List LinkRound) :
    ((start peerId entropy).run rounds).Honest peerId entropy := by
  induction rounds using List.reverseRecOn with
  | nil => exact honest_start
  | append_singleton rounds round ih =>
      rw [run, List.foldl_append]
      exact (ih.simulates hkem round).1

/-- No hello of the run is sent while a message is in flight. -/
def OneAtATime (link : Link PeerId) (rounds : List LinkRound) : Prop :=
  ∀ before round after, rounds = before ++ round :: after → ¬ (link.run before).Overlaps round.event

private theorem exclusive_run (hkem : KemCorrect) (rounds : List LinkRound)
    (hrounds : (start peerId entropy).OneAtATime rounds) :
    (((start peerId entropy).run rounds).view peerId entropy).Exclusive := by
  induction rounds using List.reverseRecOn with
  | nil =>
      refine .quiet rfl ?_
      intro x y hx
      cases hx
  | append_singleton rounds round ih =>
      have hbefore := ih (fun before round' after heq => hrounds before round' (after ++ [round]) (by simp [heq]))
      have hopen : ¬ ((start peerId entropy).run rounds).Overlaps round.event := hrounds rounds round [] rfl
      have hlast : (start peerId entropy).run (rounds ++ [round]) = ((start peerId entropy).run rounds).step round :=
        List.foldl_append
      have hhonest : ((start peerId entropy).run rounds).Honest peerId entropy := honest_run hkem rounds
      rw [hlast]
      obtain ⟨-, hview | ⟨event, hview, hoverlap⟩⟩ := hhonest.simulates hkem round
      · rw [hview]
        exact hbefore
      · rw [hview]
        exact hbefore.step (fun hevent => hopen (hoverlap hevent))

/-! ### The other way round -/

/-- The secrets that an encapsulation to a key of this randomness can give. -/
def secrets (entropy : KemEntropy) : Set Hash256 :=
  { ss | ∃ fresh ciphertext, encapsulateHybrid (nodeKeys entropy).pub fresh = .ok (ciphertext, ss) }

/-- A round that brings a message to its end. -/
def Settles (round : LinkRound) : Prop := ∃ message, round.event = .deliver message ∨ round.event = .lose message

/-- Whatever can still happen to the messages of the exchange can happen to those between the nodes. -/
theorem Honest.realizes (h : link.Honest peerId entropy) (hkem : KemCorrect) {event : Event Hash256}
    (hevent : event.Settles fun side => secrets (entropy side)) :
    ∃ rounds : List LinkRound, (∀ round ∈ rounds, Settles round) ∧ (link.run rounds).Honest peerId entropy ∧
      (link.run rounds).view peerId entropy = (link.view peerId entropy).step event := by
  have hskip (hstep : (link.view peerId entropy).step event = link.view peerId entropy) :
      ∃ rounds : List LinkRound, (∀ round ∈ rounds, Settles round) ∧ (link.run rounds).Honest peerId entropy ∧
        (link.run rounds).view peerId entropy = (link.view peerId entropy).step event :=
    ⟨[], by simp, h, hstep.symm⟩
  cases event with
  | dial side => exact absurd hevent id
  | close side => exact absurd hevent id
  | answer initiator secret =>
      by_cases hpacket : .hello initiator ∈ (link.view peerId entropy).flight
      · obtain ⟨message, hmem, hmessage⟩ := Multiset.mem_map.mp hpacket
        obtain ⟨fresh, ciphertext, hencapsulate⟩ := hevent
        cases message with
        | hello receiver hello =>
            obtain rfl : receiver.other = initiator := Packet.hello.inj hmessage
            let round : LinkRound := ⟨0, fresh, .deliver (.hello receiver hello)⟩
            have hround : round.event = .deliver (.hello receiver hello) := rfl
            obtain ⟨ss, ciphertext', hencapsulate', hhonest, hview⟩ := h.simulates_hello hkem hmem hround
            obtain rfl : secret = ss := by
              rw [hencapsulate] at hencapsulate'
              simp only [Except.ok.injEq, Prod.mk.injEq] at hencapsulate'
              exact hencapsulate'.2
            exact ⟨[round], by simp [Settles, round], hhonest, hview⟩
        | ack receiver ack =>
            obtain ⟨ss, hss⟩ : ∃ ss, processAck ack (nodeKeys (entropy receiver)) (peerId receiver) =
                .ok (ss, peerId receiver.other) := h.message _ hmem
            rw [packet_ack hss] at hmessage
            cases hmessage
      · exact hskip (by rw [State.step, if_neg hpacket])
  | accept receiver secret =>
      by_cases hpacket : .ack receiver secret ∈ (link.view peerId entropy).flight
      · obtain ⟨message, hmem, hmessage⟩ := Multiset.mem_map.mp hpacket
        cases message with
        | hello receiver hello => cases hmessage
        | ack receiver' ack =>
            let round : LinkRound := ⟨0, ⟨.zero, []⟩, .deliver (.ack receiver' ack)⟩
            have hround : round.event = .deliver (.ack receiver' ack) := rfl
            obtain ⟨ss, hss, hhonest, hview⟩ := h.simulates_ack hmem hround
            rw [hss, Packet.ack.injEq] at hmessage
            obtain ⟨rfl, rfl⟩ := hmessage
            exact ⟨[round], by simp [Settles, round], hhonest, hview⟩
      · exact hskip (by rw [State.step, if_neg hpacket])
  | lose packet =>
      by_cases hpacket : packet ∈ (link.view peerId entropy).flight
      · obtain ⟨message, hmem, rfl⟩ := Multiset.mem_map.mp hpacket
        let round : LinkRound := ⟨0, ⟨.zero, []⟩, .lose message⟩
        have hround : round.event = .lose message := rfl
        obtain ⟨hhonest, hview⟩ := h.simulates_lose hmem hround
        exact ⟨[round], by simp [Settles, round], hhonest, hview⟩
      · exact hskip (by rw [State.step, Multiset.erase_of_notMem hpacket])

private theorem Honest.realizes_run (hkem : KemCorrect) (events : List (Event Hash256)) (h : link.Honest peerId entropy)
    (hevents : ∀ event ∈ events, event.Settles fun side => secrets (entropy side)) :
    ∃ rounds : List LinkRound, (∀ round ∈ rounds, Settles round) ∧
      (link.run rounds).view peerId entropy = (link.view peerId entropy).run events := by
  induction events generalizing link with
  | nil => exact ⟨[], by simp, rfl⟩
  | cons event events ih =>
      obtain ⟨hevent, hevents⟩ := List.forall_mem_cons.mp hevents
      obtain ⟨first, hfirst, hhonest, hview⟩ := h.realizes hkem hevent
      obtain ⟨rest, hrest, hrun⟩ := ih hhonest hevents
      refine ⟨first ++ rest, List.forall_mem_append.mpr ⟨hfirst, hrest⟩, ?_⟩
      rw [run, List.foldl_append]
      change ((link.run first).run rest).view peerId entropy = _
      rw [hrun, hview]
      rfl

theorem Overlaps.view (h : link.Honest peerId entropy) (hoverlap : link.Overlaps round.event) :
    ∃ event, (link.step round).view peerId entropy = (link.view peerId entropy).step event ∧
      (link.view peerId entropy).Overlaps event := by
  obtain ⟨side, hround, hstore, hflight⟩ := hoverlap
  obtain ⟨-, hslot, hview⟩ := h.simulates_dial hround hstore
  refine ⟨.dial side, hview, side, rfl, hslot, ?_⟩
  intro hempty
  exact hflight (Multiset.map_eq_zero.mp hempty)

/-! ### The secrets of two nodes -/

/-- The two records, whenever there are two, hold the same secret. -/
def Agree (link : Link PeerId) : Prop :=
  ∀ x y, (link.node .a).sessionStore.get (link.node .b).localPeerId = some x →
    (link.node .b).sessionStore.get (link.node .a).localPeerId = some y → x.sharedSecret = y.sharedSecret

omit [DecidableEq PeerId] in
theorem Honest.agrees_iff (h : link.Honest peerId entropy) : (link.view peerId entropy).Agrees ↔ link.Agree := by
  simp only [State.Agrees, Agree, view, h.peerId_eq, Side.other, Option.map_eq_some_iff]
  constructor
  · intro hagrees x y hx hy
    exact hagrees _ _ ⟨x, hx, rfl⟩ ⟨y, hy, rfl⟩
  · intro hagree _ _ hx hy
    obtain ⟨x, hx, rfl⟩ := hx
    obtain ⟨y, hy, rfl⟩ := hy
    exact hagree x y hx hy

theorem exists_disagreement_run (hkem : KemCorrect) (peerId : Side → PeerId) (entropy : Side → KemEntropy)
    (hvary : ∀ side, (secrets (entropy side)).Nontrivial) (rounds : List LinkRound) (round : LinkRound)
    (hoverlap : ((start peerId entropy).run rounds).Overlaps round.event) :
    ∃ more, (∀ round ∈ more, Settles round) ∧ ((start peerId entropy).run (rounds ++ round :: more)).flight = 0 ∧
      ¬ ((start peerId entropy).run (rounds ++ round :: more)).Agree := by
  have hhonest : ((start peerId entropy).run rounds).Honest peerId entropy := honest_run hkem rounds
  obtain ⟨event, hview, hevent⟩ := hoverlap.view hhonest
  obtain ⟨events, hevents, hquiet, hdisagree⟩ := State.exists_disagreement hvary hevent
  obtain ⟨more, hmore, hrun⟩ := (hhonest.simulates hkem round).1.realizes_run hkem events hevents
  have hlast : (start peerId entropy).run (rounds ++ round :: more) =
      (((start peerId entropy).run rounds).step round).run more := List.foldl_append
  have hend : ((start peerId entropy).run (rounds ++ round :: more)).Honest peerId entropy := honest_run hkem _
  rw [hview, ← hlast] at hrun
  refine ⟨more, hmore, ?_, ?_⟩
  · rw [← hrun] at hquiet
    exact Multiset.map_eq_zero.mp hquiet
  · rw [← hrun, hend.agrees_iff] at hdisagree
    exact hdisagree

/-- **Two honest nodes agree on their secret** in every state of a run in which nothing is in flight, as long as no hello is sent while a message is under way. Any other hello can still end in two different secrets, by deliveries and losses alone. -/
theorem two_nodes_agree (hkem : KemCorrect) (peerId : Side → PeerId) (entropy : Side → KemEntropy)
    (rounds : List LinkRound) :
    ((start peerId entropy).OneAtATime rounds → ∀ before after, rounds = before ++ after →
      ((start peerId entropy).run before).flight = 0 → ((start peerId entropy).run before).Agree) ∧
    ((∀ side, (secrets (entropy side)).Nontrivial) → ∀ round, ((start peerId entropy).run rounds).Overlaps round.event →
      ∃ more, (∀ round ∈ more, Settles round) ∧ ((start peerId entropy).run (rounds ++ round :: more)).flight = 0 ∧
        ¬ ((start peerId entropy).run (rounds ++ round :: more)).Agree) := by
  refine ⟨?_, fun hvary round => exists_disagreement_run hkem peerId entropy hvary rounds round⟩
  intro hrounds before after hsplit hquiet
  have hhonest : ((start peerId entropy).run before).Honest peerId entropy := honest_run hkem before
  have hbefore : (start peerId entropy).OneAtATime before := by
    intro first round rest heq
    exact hrounds first round (rest ++ after) (by simp [hsplit, heq])
  rw [← hhonest.agrees_iff]
  exact (exclusive_run hkem before hbefore).agrees (by simp [view, hquiet])

private theorem oneAtATime_of_first (first : LinkRound) (rest : List LinkRound) (hflight : link.flight = 0)
    (hrest : ∀ round ∈ rest, Settles round) : link.OneAtATime (first :: rest) := by
  intro before round after heq hoverlap
  obtain ⟨side, hevent, -, hbusy⟩ := hoverlap
  cases before with
  | nil => exact hbusy hflight
  | cons head before =>
      have hround : round ∈ rest := by
        rw [List.cons_append, List.cons.injEq] at heq
        simp [heq.2]
      obtain ⟨message, hmessage | hmessage⟩ := hrest round hround <;> rw [hevent] at hmessage <;> cases hmessage

private theorem handshake_run (hkem : KemCorrect) (peerId : Side → PeerId) (entropy : Side → KemEntropy) :
    ∃ rounds, (start peerId entropy).OneAtATime rounds ∧ ((start peerId entropy).run rounds).flight = 0 ∧
      ∀ side, (((start peerId entropy).run rounds).node side).sessionStore.get (peerId side.other) ≠ none := by
  obtain ⟨dial, hdial⟩ : ∃ round : LinkRound, round.event = .connectionEstablished .a true := ⟨⟨0, ⟨.zero, []⟩, _⟩, rfl⟩
  obtain ⟨hello, hhello⟩ : ∃ hello, hello = makeHello (peerId .a) (nodeKeys (entropy .a)) := ⟨_, rfl⟩
  obtain ⟨ask, hask⟩ : ∃ round : LinkRound, round.event = .deliver (.hello .b hello) := ⟨⟨0, ⟨.zero, []⟩, _⟩, rfl⟩
  have hstart : (start peerId entropy).Honest peerId entropy := honest_start
  have hdialed := (hstart.simulates_dial hdial rfl).1
  have hflight : ((start peerId entropy).step dial).flight = {.hello .b hello} := by
    rw [hstart.dial hdial rfl, hhello]
    rfl
  have hmem : .hello .b hello ∈ ((start peerId entropy).step dial).flight := by
    rw [hflight]
    exact Multiset.mem_singleton_self _
  obtain ⟨ack, ss, -, -, -, hanswer⟩ := hdialed.deliver_hello hkem hmem hask
  obtain ⟨-, -, -, hasked, -⟩ := hdialed.simulates_hello hkem hmem hask
  obtain ⟨answer, hround⟩ : ∃ round : LinkRound, round.event = .deliver (.ack .a ack) := ⟨⟨0, ⟨.zero, []⟩, _⟩, rfl⟩
  rw [hanswer, hflight, Multiset.erase_singleton] at hasked
  obtain ⟨ss', -, hlast⟩ := hasked.deliver_ack (by simp [withStore, Side.other]) hround
  refine ⟨[dial, ask, answer], ?_, ?_, ?_⟩
  · apply oneAtATime_of_first dial [ask, answer] rfl
    simp [Settles, hask, hround]
  · show (((((start peerId entropy).step dial).step ask).step answer)).flight = 0
    rw [hanswer, hflight, Multiset.erase_singleton, hlast]
    simp [withStore, Side.other]
  · intro side
    show (((((start peerId entropy).step dial).step ask).step answer).node side).sessionStore.get (peerId side.other) ≠ none
    rw [hanswer, hflight, Multiset.erase_singleton, hlast]
    cases side <;> simp [withStore, Side.other, SessionStore.get, SessionStore.insert]

omit [PeerIds PeerId] [DecidableEq PeerId] in
private theorem secrets_nontrivial (hkem : KemCorrect) {entropy : KemEntropy} (fresh fresh' : KemEntropy)
    (hne : (encapsulateHybrid (nodeKeys entropy).pub fresh).toOption.map Prod.snd ≠
      (encapsulateHybrid (nodeKeys entropy).pub fresh').toOption.map Prod.snd) : (secrets entropy).Nontrivial := by
  obtain ⟨bytes, ss, hencapsulate, -⟩ := decapsulate_encapsulate hkem defaultKemLevel entropy fresh
  obtain ⟨bytes', ss', hencapsulate', -⟩ := decapsulate_encapsulate hkem defaultKemLevel entropy fresh'
  refine ⟨ss, ⟨fresh, _, hencapsulate⟩, ss', ⟨fresh', _, hencapsulate'⟩, ?_⟩
  intro heq
  rw [hencapsulate, hencapsulate', heq] at hne
  exact hne rfl

end Link

end Nodes

/-- One handshake between two nodes, from the dial to the last message. -/
theorem two_nodes_agree_handshake :
    ∃ (_ : Crypto) (_ : HybridKem) (_ : PeerIds EdPeerId) (peerId : Side → EdPeerId) (entropy : Side → KemEntropy)
      (rounds : List LinkRound), (Link.start peerId entropy).OneAtATime rounds ∧
        ((Link.start peerId entropy).run rounds).flight = 0 ∧
        (∀ side, (((Link.start peerId entropy).run rounds).node side).sessionStore.get (peerId side.other) ≠ none) ∧
        ((Link.start peerId entropy).run rounds).Agree := by
  let crypto := signingCrypto
  let kem := sampleKem
  let ids := edPeerIds
  obtain ⟨peerId, -⟩ : ∃ peerId : Side → EdPeerId, peerId .a ≠ peerId .b :=
    ⟨fun side => if side = .a then ⟨sampleDigest [1]⟩ else ⟨sampleDigest [2]⟩, by decide +kernel⟩
  obtain ⟨entropy, -⟩ : ∃ entropy : Side → KemEntropy, entropy .a ≠ entropy .b :=
    ⟨fun side => if side = .a then ⟨.zero, [1]⟩ else ⟨.zero, [2]⟩, by simp⟩
  obtain ⟨rounds, hrounds, hquiet, hrecords⟩ := Link.handshake_run kemCorrect_sample peerId entropy
  have hagree := (Link.two_nodes_agree kemCorrect_sample peerId entropy rounds).1 hrounds rounds [] (by simp) hquiet
  exact ⟨crypto, kem, ids, peerId, entropy, rounds, hrounds, hquiet, hrecords, hagree⟩

/-- **Two nodes that dial each other at once** can end with different secrets. -/
theorem simultaneous_dials_disagree :
    ∃ (_ : Crypto) (_ : HybridKem) (_ : PeerIds EdPeerId) (peerId : Side → EdPeerId) (entropy : Side → KemEntropy)
      (first second : LinkRound) (more : List LinkRound), KemCorrect ∧
        first.event = .connectionEstablished .a true ∧ second.event = .connectionEstablished .b true ∧
        (∀ round ∈ more, Link.Settles round) ∧ ((Link.start peerId entropy).run (first :: second :: more)).flight = 0 ∧
        ¬ ((Link.start peerId entropy).run (first :: second :: more)).Agree := by
  let crypto := signingCrypto
  let kem := sampleKem
  let ids := edPeerIds
  obtain ⟨peerId, -⟩ : ∃ peerId : Side → EdPeerId, peerId .a ≠ peerId .b :=
    ⟨fun side => if side = .a then ⟨sampleDigest [1]⟩ else ⟨sampleDigest [2]⟩, by decide +kernel⟩
  let entropy : Side → KemEntropy := fun _ => ⟨.zero, [1]⟩
  have hvary (side : Side) : (Link.secrets (entropy side)).Nontrivial :=
    Link.secrets_nontrivial kemCorrect_sample ⟨.zero, [2]⟩ ⟨.zero, [3]⟩ (by decide +kernel)
  let first : LinkRound := ⟨0, ⟨.zero, []⟩, .connectionEstablished .a true⟩
  let second : LinkRound := ⟨0, ⟨.zero, []⟩, .connectionEstablished .b true⟩
  have hoverlap : ((Link.start peerId entropy).run [first]).Overlaps second.event := by
    refine ⟨.b, rfl, rfl, ?_⟩
    show ((Link.start peerId entropy).step first).flight ≠ 0
    rw [Link.honest_start.dial rfl rfl]
    exact Multiset.cons_ne_zero (m := 0)
  obtain ⟨more, hmore, hquiet, hdisagree⟩ :=
    Link.exists_disagreement_run kemCorrect_sample peerId entropy hvary [first] second hoverlap
  exact ⟨crypto, kem, ids, peerId, entropy, first, second, more, kemCorrect_sample, rfl, rfl, hmore, hquiet, hdisagree⟩

end QuantumVault
