import QuantumVault.Net.Gossip
import QuantumVault.Net.Message
import QuantumVault.Node.Node

/-!
# Nodes on a network

What the event loop of a node hands back to the network, the handler that stands between the gossip layer and the event loop, and several nodes that share a wire. Whatever was sent once stays on the wire: the transport may lose, repeat and reorder, and an outsider may send any bytes. The queue in front of the event loop is part of a party.
-/

namespace QuantumVault

/-- What stands in the queue of the event loop. A transaction gets its time when the loop takes it. -/
inductive LoopEvent where
  | blockReceived (block : Block)
  | txReceived (tx : Transaction)

def LoopEvent.at (now : UInt64) : LoopEvent → NodeEvent
  | .blockReceived block => .blockReceived block
  | .txReceived tx => .txReceived now tx

/-- Only blocks and transactions are for the event loop. The rest is logged. -/
def NetworkHandler.handleMessage : NetworkMessage → Option LoopEvent
  | .block block => some (.blockReceived block)
  | .transaction tx => some (.txReceived tx)
  | _ => none

variable [Crypto]

/-- What the event loop hands to the network after an event: a block whatever became of it, a transaction only when the pool has taken it. -/
def NodeState.relays (s : NodeState) : NodeEvent → List NetworkMessage
  | .blockReceived block => [.block block]
  | .txReceived now tx =>
      match s.handleTx now tx with
      | some (.ok _, _) => [.transaction tx]
      | _ => []
  | .sendTransaction _ _ => []

/-- A failure to publish is only logged. -/
def NetworkMessage.sent (gossipsub : Gossipsub) (msg : NetworkMessage) : List Bytes :=
  match msg.publish gossipsub with
  | .ok (_, wire) => [wire]
  | .error _ => []

/-- A node with its gossip layer and its queue. -/
structure Party where
  node : NodeState
  gossip : GossipNode
  inbox : List LoopEvent

namespace Party

/-- The gossip layer takes a message off the wire. Messages are named by the hash of their bytes. -/
def receive {PeerId : Type} [PeerTexts PeerId] (p : Party) (source : PeerId) (data : Bytes)
    (arrived checked stored : Nat) : Party :=
  let (outcome, gossip) := p.gossip.handle (fun bytes => (Envelope.decode bytes).toOption)
    (.message source (sha3_256 data).bytes data arrived checked stored)
  match outcome with
  | .delivered message =>
      { p with gossip := gossip, inbox := p.inbox ++ (NetworkHandler.handleMessage message).toList }
  | _ => { p with gossip := gossip }

/-- One round of the event loop, and what goes to the wire. There is no result when the loop does not get through the round. -/
def process (p : Party) (gossipsub : Gossipsub) (now : UInt64) : Option (Party × List Bytes) :=
  match p.inbox with
  | [] => some (p, [])
  | event :: inbox =>
      (p.node.handleEvent (event.at now)).map fun node =>
        ({ p with node := node, inbox := inbox }, (p.node.relays (event.at now)).flatMap (NetworkMessage.sent gossipsub))

def produce (p : Party) (block : Block) : Party := { p with inbox := p.inbox ++ [.blockReceived block] }

def submitBlock (p : Party) (block : Block) : Except BlockError BlockHash × Party :=
  match block.validateStructure with
  | .error e => (.error e, p)
  | .ok () => (.ok block.hash, p.produce block)

/-- A transaction from an RPC client goes into the pool past the event loop. -/
def sendTransaction (p : Party) (now : UInt64) (tx : Transaction) : Option Party :=
  (p.node.sendTransaction now tx).map fun result => { p with node := result.2 }

end Party

/-! ### The network -/

structure Network (ι : Type) where
  party : ι → Party
  wire : List Bytes

inductive NetworkMove (ι PeerId : Type) where
  | produce (i : ι) (block : Block)
  | submitBlock (i : ι) (block : Block)
  | sendTransaction (i : ι) (now : UInt64) (tx : Transaction)
  | process (i : ι) (gossipsub : Gossipsub) (now : UInt64)
  | deliver (i : ι) (source : PeerId) (data : Bytes) (arrived checked stored : Nat)
  | inject (data : Bytes)

namespace Network

variable {ι PeerId : Type} [DecidableEq ι] [PeerTexts PeerId]

def update (net : Network ι) (i : ι) (p : Party) (sent : List Bytes) : Network ι :=
  ⟨Function.update net.party i p, net.wire ++ sent⟩

def step (net : Network ι) : NetworkMove ι PeerId → Option (Network ι)
  | .produce i block => some (net.update i ((net.party i).produce block) [])
  | .submitBlock i block => some (net.update i ((net.party i).submitBlock block).2 [])
  | .sendTransaction i now tx => ((net.party i).sendTransaction now tx).map fun p => net.update i p []
  | .process i gossipsub now => ((net.party i).process gossipsub now).map fun result => net.update i result.1 result.2
  | .deliver i source data arrived checked stored =>
      if data ∈ net.wire then some (net.update i ((net.party i).receive source data arrived checked stored) []) else none
  | .inject data => some { net with wire := net.wire ++ [data] }

def run (net : Network ι) (moves : List (NetworkMove ι PeerId)) : Option (Network ι) := moves.foldlM step net

end Network

end QuantumVault
