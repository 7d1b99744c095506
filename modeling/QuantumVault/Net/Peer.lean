import QuantumVault.Lib.Signed
import QuantumVault.Lib.TreeMap
import QuantumVault.Lib.Word

/-!
# Known peers

What a node keeps of each peer it has met: addresses, the state and the direction of the connection, a reputation. The event loop changes the record of a peer in place, except when a connection is established: then it changes a copy, and the registry merges the copy into the record it has.
-/

namespace QuantumVault

/-- The text form of peer ids comes from the network library. It tells them apart. -/
class PeerTexts (PeerId : Type) where
  toText : PeerId → String
  toText_inj : ∀ p q, toText p = toText q → p = q

/-- Addresses and their text form also come from the network library. -/
class AddrTexts (Multiaddr : Type) where
  toText : Multiaddr → String
  parse : String → Option Multiaddr

/-- Peers and addresses that are their own text. -/
instance : PeerTexts String := ⟨id, fun _ _ h => h⟩

instance : AddrTexts String := ⟨id, some⟩

def defaultReputation : Int := 0

def maxAddrsPerPeer : Nat := 8

inductive Direction where
  | outbound
  | inbound
deriving DecidableEq

inductive ConnectionState where
  | disconnected
  | connecting
  | connected
deriving DecidableEq

/-- The reputation is a signed 32-bit integer. -/
structure PeerInfo (PeerId : Type) where
  peerId : PeerId
  addresses : List String
  state : ConnectionState
  direction : Option Direction
  reputation : Int
  firstSeen : UInt64
  lastSeen : UInt64
  successfulInteractions : UInt64
  failedInteractions : UInt64
  protocolVersion : Option String
  agentVersion : Option String
deriving DecidableEq

variable {PeerId Multiaddr : Type}

namespace PeerInfo

def new (peerId : PeerId) (now : UInt64) : PeerInfo PeerId where
  peerId := peerId
  addresses := []
  state := .disconnected
  direction := none
  reputation := defaultReputation
  firstSeen := now
  lastSeen := now
  successfulInteractions := 0
  failedInteractions := 0
  protocolVersion := none
  agentVersion := none

def recordFailure (info : PeerInfo PeerId) (now : UInt64) : PeerInfo PeerId :=
  { info with
    lastSeen := now
    failedInteractions := Word.saturatingAdd info.failedInteractions 1
    reputation := Signed.saturatingSub info.reputation 10 }

variable [AddrTexts Multiaddr]

def addAddress (info : PeerInfo PeerId) (addr : Multiaddr) : PeerInfo PeerId :=
  let s := AddrTexts.toText addr
  if info.addresses.length < maxAddrsPerPeer ∧ s ∉ info.addresses then { info with addresses := info.addresses ++ [s] }
  else info

variable (Multiaddr) in
def multiaddrs (info : PeerInfo PeerId) : List Multiaddr := info.addresses.filterMap AddrTexts.parse

variable (Multiaddr) in
/-- What an update does to the record that is there. -/
def merge (existing info : PeerInfo PeerId) : PeerInfo PeerId :=
  let existing := (info.multiaddrs Multiaddr).foldl addAddress existing
  { existing with
    state := info.state
    lastSeen := info.lastSeen
    protocolVersion := if info.protocolVersion.isSome then info.protocolVersion else existing.protocolVersion
    agentVersion := if info.agentVersion.isSome then info.agentVersion else existing.agentVersion }

end PeerInfo

/-- The registry, keyed by the texts of the peer ids. -/
structure PeerStore (PeerId : Type) where
  peers : Std.ExtTreeMap String (PeerInfo PeerId)

/-- What the event loop learns about a peer. A failure is a message that does not decode or a handshake that does not succeed. -/
inductive PeerEvent (PeerId Multiaddr : Type) where
  | identify (peerId : PeerId) (protocolVersion agentVersion : String) (listenAddrs : List Multiaddr)
  | connectionEstablished (peerId : PeerId) (isDialer : Bool)
  | failure (peer : PeerId)
  | connectionClosed (peerId : PeerId)

/-- The direction of a connection that one side has dialed. -/
def Direction.of (isDialer : Bool) : Direction := if isDialer then .outbound else .inbound

namespace PeerStore

def new : PeerStore PeerId := ⟨∅⟩

variable [PeerTexts PeerId]

def get (store : PeerStore PeerId) (peerId : PeerId) : Option (PeerInfo PeerId) := store.peers[PeerTexts.toText peerId]?

/-- Change the record of a peer in place, if there is one. -/
def modify (store : PeerStore PeerId) (peerId : PeerId) (f : PeerInfo PeerId → PeerInfo PeerId) : PeerStore PeerId :=
  match store.get peerId with
  | some info => ⟨store.peers.insert (PeerTexts.toText peerId) (f info)⟩
  | none => store

variable [AddrTexts Multiaddr]

variable (Multiaddr) in
def upsert (store : PeerStore PeerId) (info : PeerInfo PeerId) : PeerStore PeerId :=
  match store.get info.peerId with
  | some existing => ⟨store.peers.insert (PeerTexts.toText info.peerId) (existing.merge Multiaddr info)⟩
  | none => ⟨store.peers.insert (PeerTexts.toText info.peerId) info⟩

/-- One round of the event loop, as far as the registry is concerned. -/
def handle (store : PeerStore PeerId) (now : UInt64) : PeerEvent PeerId Multiaddr → PeerStore PeerId
  | .identify peerId protocolVersion agentVersion listenAddrs =>
      store.modify peerId fun info =>
        listenAddrs.foldl PeerInfo.addAddress
          { info with protocolVersion := some protocolVersion, agentVersion := some agentVersion }
  | .connectionEstablished peerId isDialer =>
      let info := (store.get peerId).getD (.new peerId now)
      store.upsert Multiaddr { info with state := .connected, direction := some (.of isDialer) }
  | .failure peer => store.modify peer fun info => info.recordFailure now
  | .connectionClosed peerId => store.modify peerId fun info => { info with state := .disconnected }

end PeerStore

end QuantumVault
