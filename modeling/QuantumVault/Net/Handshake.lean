import QuantumVault.Core.HybridKem

/-!
# The session handshake

One round trip between two peers that are already connected. The initiator sends its hybrid public key, the responder encapsulates a secret to it and answers with the ciphertext and a hash that binds the secret to both peer ids. Each side keeps the secret in its session store. Both messages carry the id of their sender as bytes, next to the identity that the transport has authenticated.
-/

namespace QuantumVault

open Result HybridKem

/-- Peer ids come from the network library, which reads back what it writes. -/
class PeerIds (PeerId : Type) where
  toBytes : PeerId → Bytes
  fromBytes : Bytes → Except String PeerId
  fromBytes_toBytes : ∀ peer, fromBytes (toBytes peer) = .ok peer

/-- Failures of the network layer, those that the handshake reaches. -/
inductive NetError where
  | codec (reason : String)
  | unsupportedVersion (got expected : UInt16)
deriving DecidableEq

def defaultKemLevel : KyberLevel := .level3

def handshakeVersion : UInt16 := 1

def sessionBindingTag : Bytes := ascii "qv-hybrid-handshake-binding-v1"

structure HandshakeHello where
  version : UInt16
  initiatorPeerId : Bytes
  hybridPk : HybridPublicKey
deriving DecidableEq

structure HandshakeAck where
  version : UInt16
  responderPeerId : Bytes
  ciphertext : HybridCiphertext
  sessionBinding : Hash256
deriving DecidableEq

variable {PeerId : Type} [PeerIds PeerId]

/-- Initiator side. -/
def makeHello (localPeer : PeerId) (localKp : HybridKeyPair) : HandshakeHello :=
  ⟨handshakeVersion, PeerIds.toBytes localPeer, localKp.pub⟩

variable [Crypto]

def computeSessionBinding (ss : Hash256) (initiator responder : PeerId) : Hash256 :=
  sha3_256 (sessionBindingTag ++ ss.bytes ++ PeerIds.toBytes initiator ++ PeerIds.toBytes responder)

variable [HybridKem]

/-- Responder side: the answer, the secret to keep, and the peer that the message names. -/
def respondToHello (hello : HandshakeHello) (localPeer : PeerId) (entropy : KemEntropy) :
    Except NetError (HandshakeAck × Hash256 × PeerId) := do
  require (hello.version = handshakeVersion) (.unsupportedVersion hello.version handshakeVersion)
  let initPid ← (PeerIds.fromBytes hello.initiatorPeerId : Except String PeerId).mapError fun e =>
    NetError.codec ("invalid initiator peer id: " ++ e)
  let (ciphertext, ss) ← (encapsulateHybrid hello.hybridPk entropy).mapError fun e =>
    NetError.codec ("encapsulate failed: " ++ e.text)
  let binding := computeSessionBinding ss initPid localPeer
  return (⟨handshakeVersion, PeerIds.toBytes localPeer, ciphertext, binding⟩, ss, initPid)

/-- Initiator side: the secret, and the peer that the answer names. -/
def processAck (ack : HandshakeAck) (localKp : HybridKeyPair) (localPeer : PeerId) :
    Except NetError (Hash256 × PeerId) := do
  require (ack.version = handshakeVersion) (.unsupportedVersion ack.version handshakeVersion)
  let respPid ← (PeerIds.fromBytes ack.responderPeerId : Except String PeerId).mapError fun e =>
    NetError.codec ("invalid responder peer id: " ++ e)
  let ss ← (decapsulateHybrid localKp ack.ciphertext).mapError fun e =>
    NetError.codec ("decapsulate failed: " ++ e.text)
  let expected := computeSessionBinding ss localPeer respPid
  require (expected = ack.sessionBinding)
    (.codec "session binding mismatch: peer did not derive the expected shared secret")
  return (ss, respPid)

end QuantumVault
