import QuantumVault.Net.Handshake

/-!
# The network node

The part of the event loop that the session store depends on: connections that open and close, and the messages of the handshake. What a node sends is part of the result. The bookkeeping of peers does not enter here, nothing in the handshake reads it.
-/

namespace QuantumVault

structure SessionRecord where
  sharedSecret : Hash256
  completedAt : UInt64
deriving DecidableEq

/-- The most recent session with each peer. -/
abbrev SessionStore (PeerId : Type) := PeerId → Option SessionRecord

namespace SessionStore

variable {PeerId : Type}

def new : SessionStore PeerId := fun _ => none

def get (store : SessionStore PeerId) (peer : PeerId) : Option SessionRecord := store peer

variable [DecidableEq PeerId]

/-- The most recent handshake wins. -/
def insert (store : SessionStore PeerId) (peer : PeerId) (record : SessionRecord) : SessionStore PeerId :=
  Function.update store peer (some record)

def remove (store : SessionStore PeerId) (peer : PeerId) : SessionStore PeerId := Function.update store peer none

end SessionStore

/-- One key pair serves all handshakes of a node. -/
structure NetworkNode (PeerId : Type) where
  localPeerId : PeerId
  localHybridKp : HybridKeyPair
  sessionStore : SessionStore PeerId

/-- What the transport reports, with the peer it has authenticated. -/
inductive SwarmEvent (PeerId : Type) where
  | connectionEstablished (peerId : PeerId) (isDialer : Bool)
  | request (peer : PeerId) (hello : HandshakeHello)
  | response (peer : PeerId) (ack : HandshakeAck)
  | outboundFailure (peer : PeerId)
  | inboundFailure (peer : PeerId)
  | connectionClosed (peerId : PeerId)

/-- What a node hands to the transport. A response goes back to the peer the request came from. -/
inductive Outbound (PeerId : Type) where
  | sendRequest (peer : PeerId) (hello : HandshakeHello)
  | sendResponse (peer : PeerId) (ack : HandshakeAck)

namespace NetworkNode

variable {PeerId : Type} [PeerIds PeerId]

def new [HybridKem] (localPeerId : PeerId) (entropy : KemEntropy) : NetworkNode PeerId where
  localPeerId := localPeerId
  localHybridKp := HybridKem.generateKeypair defaultKemLevel entropy
  sessionStore := .new

variable [DecidableEq PeerId] [Crypto] [HybridKem]

/-- One round of the event loop, at a time and with the randomness the round draws. -/
def handle (node : NetworkNode PeerId) (now : UInt64) (entropy : KemEntropy) :
    SwarmEvent PeerId → NetworkNode PeerId × List (Outbound PeerId)
  | .connectionEstablished peerId isDialer =>
      if isDialer = true ∧ node.sessionStore.get peerId = none then
        (node, [.sendRequest peerId (makeHello node.localPeerId node.localHybridKp)])
      else (node, [])
  | .request peer hello =>
      match respondToHello hello node.localPeerId entropy with
      | .ok (ack, ss, initiatorPid) =>
          ({ node with sessionStore := node.sessionStore.insert initiatorPid ⟨ss, now⟩ }, [.sendResponse peer ack])
      | .error _ => (node, [])
  | .response _ ack =>
      match processAck ack node.localHybridKp node.localPeerId with
      | .ok (ss, responderPid) => ({ node with sessionStore := node.sessionStore.insert responderPid ⟨ss, now⟩ }, [])
      | .error _ => (node, [])
  | .outboundFailure _ => (node, [])
  | .inboundFailure _ => (node, [])
  | .connectionClosed peerId => ({ node with sessionStore := node.sessionStore.remove peerId }, [])

end NetworkNode

end QuantumVault
