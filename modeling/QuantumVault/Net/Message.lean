import QuantumVault.Core.Decode
import QuantumVault.Lib.Codec
import QuantumVault.Lib.Result

/-!
# Network messages

What nodes say to each other, its bytes, and the envelope with the protocol version around them. Readers ignore what stands after the value they read, inside the payload and behind the envelope alike. The texts that the serialiser itself puts into an error are left out.
-/

namespace QuantumVault

def protocolVersion : UInt16 := 1

/-- Four MiB. -/
def maxMessageSize : Nat := 4 * 1024 * 1024

inductive MessageKind where
  | block
  | transaction
  | vrfProof
  | vote
  | getHeaders
  | headers
  | getBlocks
  | ping
  | pong
deriving DecidableEq

/-- The name as it stands in an error. -/
def MessageKind.name : MessageKind → String
  | .block => "Block"
  | .transaction => "Transaction"
  | .vrfProof => "VrfProof"
  | .vote => "Vote"
  | .getHeaders => "GetHeaders"
  | .headers => "Headers"
  | .getBlocks => "GetBlocks"
  | .ping => "Ping"
  | .pong => "Pong"

structure VrfProofMsg where
  slot : UInt64
  vrfOutput : Bytes
  vrfProof : Bytes
  producerKeyHash : Hash256
deriving DecidableEq

structure VoteMsg where
  slot : UInt64
  blockHash : BlockHash
  voterKeyHash : Hash256
  signature : Bytes
deriving DecidableEq

/-- Locators are newest first. The zero hash asks for as many headers as there are. -/
structure GetHeadersMsg where
  locatorHashes : List BlockHash
  stopHash : BlockHash
deriving DecidableEq

structure HeadersMsg where
  headers : List BlockHeader
deriving DecidableEq

structure GetBlocksMsg where
  hashes : List BlockHash
deriving DecidableEq

structure PingMsg where
  nonce : UInt64
deriving DecidableEq

structure PongMsg where
  nonce : UInt64
deriving DecidableEq

inductive NetworkMessage where
  | block (block : Block)
  | transaction (tx : Transaction)
  | vrfProof (msg : VrfProofMsg)
  | vote (msg : VoteMsg)
  | getHeaders (msg : GetHeadersMsg)
  | headers (msg : HeadersMsg)
  | getBlocks (msg : GetBlocksMsg)
  | ping (msg : PingMsg)
  | pong (msg : PongMsg)
deriving DecidableEq

/-- The errors of the network that an envelope meets. -/
inductive EnvelopeError where
  | codec (stage : String)
  | messageTooLarge (size limit : Nat)
  | unsupportedVersion (got expected : UInt16)
  | config (reason : String)
  | gossip (reason : String)
deriving DecidableEq

/-! ### Bytes of the payloads -/

namespace VrfProofMsg

def encode (msg : VrfProofMsg) : Bytes :=
  Encode.u64 msg.slot ++ Encode.bytes msg.vrfOutput ++ Encode.bytes msg.vrfProof ++ msg.producerKeyHash.bytes

def decode (input : Bytes) : Option (VrfProofMsg × Bytes) := do
  let (slot, rest) ← Decode.u64 input
  let (vrfOutput, rest) ← Decode.bytes rest
  let (vrfProof, rest) ← Decode.bytes rest
  let (producerKeyHash, rest) ← Hash256.decode rest
  return (⟨slot, vrfOutput, vrfProof, producerKeyHash⟩, rest)

end VrfProofMsg

namespace VoteMsg

def encode (msg : VoteMsg) : Bytes :=
  Encode.u64 msg.slot ++ msg.blockHash.bytes ++ msg.voterKeyHash.bytes ++ Encode.bytes msg.signature

def decode (input : Bytes) : Option (VoteMsg × Bytes) := do
  let (slot, rest) ← Decode.u64 input
  let (blockHash, rest) ← Hash256.decode rest
  let (voterKeyHash, rest) ← Hash256.decode rest
  let (signature, rest) ← Decode.bytes rest
  return (⟨slot, blockHash, voterKeyHash, signature⟩, rest)

end VoteMsg

namespace GetHeadersMsg

def encode (msg : GetHeadersMsg) : Bytes := Encode.seq Hash256.bytes msg.locatorHashes ++ msg.stopHash.bytes

def decode (input : Bytes) : Option (GetHeadersMsg × Bytes) := do
  let (locatorHashes, rest) ← Decode.seq Hash256.decode input
  let (stopHash, rest) ← Hash256.decode rest
  return (⟨locatorHashes, stopHash⟩, rest)

end GetHeadersMsg

namespace HeadersMsg

def encode (msg : HeadersMsg) : Bytes := Encode.seq BlockHeader.canonicalBytes msg.headers

def decode (input : Bytes) : Option (HeadersMsg × Bytes) := do
  let (headers, rest) ← Decode.seq BlockHeader.decode input
  return (⟨headers⟩, rest)

end HeadersMsg

namespace GetBlocksMsg

def encode (msg : GetBlocksMsg) : Bytes := Encode.seq Hash256.bytes msg.hashes

def decode (input : Bytes) : Option (GetBlocksMsg × Bytes) := do
  let (hashes, rest) ← Decode.seq Hash256.decode input
  return (⟨hashes⟩, rest)

end GetBlocksMsg

namespace PingMsg

def encode (msg : PingMsg) : Bytes := Encode.u64 msg.nonce

def decode (input : Bytes) : Option (PingMsg × Bytes) := do
  let (nonce, rest) ← Decode.u64 input
  return (⟨nonce⟩, rest)

end PingMsg

namespace PongMsg

def encode (msg : PongMsg) : Bytes := Encode.u64 msg.nonce

def decode (input : Bytes) : Option (PongMsg × Bytes) := do
  let (nonce, rest) ← Decode.u64 input
  return (⟨nonce⟩, rest)

end PongMsg

namespace NetworkMessage

def kind : NetworkMessage → MessageKind
  | .block _ => .block
  | .transaction _ => .transaction
  | .vrfProof _ => .vrfProof
  | .vote _ => .vote
  | .getHeaders _ => .getHeaders
  | .headers _ => .headers
  | .getBlocks _ => .getBlocks
  | .ping _ => .ping
  | .pong _ => .pong

/-- The position of the variant, then its value. -/
def encode : NetworkMessage → Bytes
  | .block b => Encode.u32 0 ++ b.encode
  | .transaction tx => Encode.u32 1 ++ tx.canonicalBytes
  | .vrfProof msg => Encode.u32 2 ++ msg.encode
  | .vote msg => Encode.u32 3 ++ msg.encode
  | .getHeaders msg => Encode.u32 4 ++ msg.encode
  | .headers msg => Encode.u32 5 ++ msg.encode
  | .getBlocks msg => Encode.u32 6 ++ msg.encode
  | .ping msg => Encode.u32 7 ++ msg.encode
  | .pong msg => Encode.u32 8 ++ msg.encode

/-- A value of one variant. -/
def readAs {α : Type} (variant : α → NetworkMessage) (read : Bytes → Option (α × Bytes)) (input : Bytes) :
    Option (NetworkMessage × Bytes) :=
  (read input).map fun r => (variant r.1, r.2)

def decode (input : Bytes) : Option (NetworkMessage × Bytes) := do
  let (position, rest) ← Decode.u32 input
  match position.toNat with
  | 0 => readAs .block Block.decode rest
  | 1 => readAs .transaction Transaction.read rest
  | 2 => readAs .vrfProof VrfProofMsg.decode rest
  | 3 => readAs .vote VoteMsg.decode rest
  | 4 => readAs .getHeaders GetHeadersMsg.decode rest
  | 5 => readAs .headers HeadersMsg.decode rest
  | 6 => readAs .getBlocks GetBlocksMsg.decode rest
  | 7 => readAs .ping PingMsg.decode rest
  | 8 => readAs .pong PongMsg.decode rest
  | _ => none

end NetworkMessage

/-! ### The envelope -/

structure Envelope where
  version : UInt16
  payload : Bytes
deriving DecidableEq

namespace Envelope

def write (envelope : Envelope) : Bytes := Encode.u16 envelope.version ++ Encode.bytes envelope.payload

def read (input : Bytes) : Option (Envelope × Bytes) := do
  let (version, rest) ← Decode.u16 input
  let (payload, rest) ← Decode.bytes rest
  return (⟨version, payload⟩, rest)

def encode (msg : NetworkMessage) : Except EnvelopeError Bytes :=
  let payload := msg.encode
  if payload.length > maxMessageSize then .error (.messageTooLarge payload.length maxMessageSize)
  else .ok (write ⟨protocolVersion, payload⟩)

def decode (bytes : Bytes) : Except EnvelopeError NetworkMessage := do
  Result.require (¬ bytes.length > maxMessageSize + 64) (.messageTooLarge bytes.length maxMessageSize)
  let envelope ← Result.okOr (read bytes) (.codec "decode")
  Result.require (¬ envelope.1.version ≠ protocolVersion) (.unsupportedVersion envelope.1.version protocolVersion)
  let msg ← Result.okOr (NetworkMessage.decode envelope.1.payload) (.codec "payload")
  return msg.1

end Envelope

/-! ### Topics -/

def topicBlocks : String := "/qv/blocks/1"

def topicTransactions : String := "/qv/tx/1"

def topicVrfProofs : String := "/qv/vrf/1"

def topicVotes : String := "/qv/votes/1"

/-- Only what is gossiped has a topic. -/
def topicForKind : MessageKind → Option String
  | .block => some topicBlocks
  | .transaction => some topicTransactions
  | .vrfProof => some topicVrfProofs
  | .vote => some topicVotes
  | _ => none

/-- What the gossip library answers to a publication: it has a size limit of its own, and it needs peers. -/
abbrev Gossipsub : Type := String → Bytes → Except String Unit

/-- The topic of a message and what is sent there. -/
def NetworkMessage.publish (gossipsub : Gossipsub) (msg : NetworkMessage) : Except EnvelopeError (String × Bytes) := do
  let topic ← Result.okOr (topicForKind msg.kind) (.config ("no gossip topic for " ++ msg.kind.name))
  let wire ← Envelope.encode msg
  (gossipsub topic wire).mapError fun e => .gossip ("publish: " ++ e)
  return (topic, wire)

end QuantumVault
