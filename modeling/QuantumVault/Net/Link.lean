import QuantumVault.Lib.Exchange
import QuantumVault.Net.Node

/-!
# Two nodes and the messages between them

The handshake as a system: two nodes that run the event loop, and the hellos and answers under way from one to the other. The transport reports connections that open and close to either node at any time, delivers messages in any order, each at most once, and may lose them.
-/

namespace QuantumVault

open Exchange

/-- A message under way, with the side it goes to. -/
inductive HandshakeMessage where
  | hello (receiver : Side) (hello : HandshakeHello)
  | ack (receiver : Side) (ack : HandshakeAck)
deriving DecidableEq

def HandshakeMessage.receiver : HandshakeMessage → Side
  | .hello receiver _ => receiver
  | .ack receiver _ => receiver

structure Link (PeerId : Type) where
  node : Side → NetworkNode PeerId
  flight : Multiset HandshakeMessage

inductive LinkEvent where
  | connectionEstablished (side : Side) (isDialer : Bool)
  | deliver (message : HandshakeMessage)
  | lose (message : HandshakeMessage)
  | connectionClosed (side : Side)

/-- An event with the time and the randomness of its round. -/
structure LinkRound where
  now : UInt64
  entropy : KemEntropy
  event : LinkEvent

/-- What a node sends goes to the other side. -/
def Outbound.message {PeerId : Type} (receiver : Side) : Outbound PeerId → HandshakeMessage
  | .sendRequest _ hello => .hello receiver hello
  | .sendResponse _ ack => .ack receiver ack

namespace Link

variable {PeerId : Type} [PeerIds PeerId] [HybridKem]

/-- Two fresh nodes. -/
def start (peerId : Side → PeerId) (entropy : Side → KemEntropy) : Link PeerId where
  node side := .new (peerId side) (entropy side)
  flight := 0

variable [DecidableEq PeerId] [Crypto]

/-- One side handles an event. -/
def handleAt (link : Link PeerId) (side : Side) (now : UInt64) (entropy : KemEntropy) (event : SwarmEvent PeerId) :
    Link PeerId :=
  let result := (link.node side).handle now entropy event
  ⟨Function.update link.node side result.1, (result.2.map (·.message side.other) : List HandshakeMessage) + link.flight⟩

/-- The event that a delivered message is to its receiver. The transport knows the sender. -/
def received (link : Link PeerId) : HandshakeMessage → SwarmEvent PeerId
  | .hello receiver hello => .request (link.node receiver.other).localPeerId hello
  | .ack receiver ack => .response (link.node receiver.other).localPeerId ack

def step (link : Link PeerId) (round : LinkRound) : Link PeerId :=
  match round.event with
  | .connectionEstablished side isDialer =>
      link.handleAt side round.now round.entropy (.connectionEstablished (link.node side.other).localPeerId isDialer)
  | .deliver message =>
      if message ∈ link.flight then
        { link with flight := link.flight.erase message }.handleAt message.receiver round.now round.entropy
          (link.received message)
      else link
  | .lose message => { link with flight := link.flight.erase message }
  | .connectionClosed side =>
      link.handleAt side round.now round.entropy (.connectionClosed (link.node side.other).localPeerId)

def run (link : Link PeerId) (rounds : List LinkRound) : Link PeerId := rounds.foldl step link

end Link

end QuantumVault
