import QuantumVault.Lib.Run
import QuantumVault.Net.Peer

/-!
# The registry and the connections

What the records should say is read off the connections: how many of a peer's are open, which way the latest one went, how many failures were recorded. The reputation and the addresses always agree with that. The state is a single flag for any number of connections, and the direction is that of the first one, because a merge keeps it.
-/

namespace QuantumVault

variable {PeerId Multiaddr : Type}

/-! ### Contacts -/

def PeerEvent.peer : PeerEvent PeerId Multiaddr → PeerId
  | .identify peerId _ _ _ => peerId
  | .connectionEstablished peerId _ => peerId
  | .failure peer => peer
  | .connectionClosed peerId => peerId

/-- What has happened between a node and one peer: the connections that are open, the direction of the latest one, and the failures since the first one. -/
structure Contact where
  opened : Nat
  latest : Option Direction
  failures : Nat
deriving DecidableEq

namespace Contact

variable (contact : Contact)

def next : PeerEvent PeerId Multiaddr → Contact
  | .identify _ _ _ _ => contact
  | .connectionEstablished _ isDialer => { contact with opened := contact.opened + 1, latest := some (.of isDialer) }
  | .failure _ => if contact.latest = none then contact else { contact with failures := contact.failures + 1 }
  | .connectionClosed _ => { contact with opened := contact.opened - 1 }

/-- Only open connections are closed. -/
def Allows : PeerEvent PeerId Multiaddr → Prop
  | .connectionClosed _ => 0 < contact.opened
  | _ => True

/-- No connection is closed while there is another one, and none is established the other way than the one before. -/
def Plain : PeerEvent PeerId Multiaddr → Prop
  | .connectionEstablished _ isDialer => contact.latest = none ∨ contact.latest = some (.of isDialer)
  | .connectionClosed _ => contact.opened ≤ 1
  | _ => True

/-- No address twice, and no more than the cap. -/
def Capped (addresses : List String) : Prop := addresses.Nodup ∧ addresses.length ≤ maxAddrsPerPeer

/-- The record exists if there was a connection. It counts the failures, and its addresses are in order. -/
def Accounts (peer : PeerId) : Option (PeerInfo PeerId) → Prop
  | none => contact = ⟨0, none, 0⟩
  | some info => info.peerId = peer ∧ contact.latest ≠ none ∧
      info.reputation = Signed.clamp (defaultReputation - 10 * contact.failures) ∧ Capped info.addresses

/-- The record says whether a connection is open and which way the latest one went. -/
def Follows : Option (PeerInfo PeerId) → Prop
  | none => True
  | some info => (info.state = .connected ↔ 0 < contact.opened) ∧ info.direction = contact.latest

end Contact

def contacts [DecidableEq PeerId] (events : List (UInt64 × PeerEvent PeerId Multiaddr)) : PeerId → Contact :=
  events.foldl (fun contacts round => Function.update contacts round.2.peer ((contacts round.2.peer).next round.2))
    fun _ => ⟨0, none, 0⟩

def PeerStore.afterEvents [PeerTexts PeerId] [AddrTexts Multiaddr] (events : List (UInt64 × PeerEvent PeerId Multiaddr)) :
    PeerStore PeerId :=
  events.foldl (fun store round => store.handle round.1 round.2) .new

/-! ### Addresses -/

namespace PeerInfo

open Contact

variable [AddrTexts Multiaddr]

theorem foldl_addAddress (addrs : List Multiaddr) (info : PeerInfo PeerId) : ∃ addresses,
    addrs.foldl addAddress info = { info with addresses := addresses } ∧ (Capped info.addresses → Capped addresses) := by
  induction addrs generalizing info with
  | nil => exact ⟨info.addresses, rfl, id⟩
  | cons addr addrs ih =>
      rw [List.foldl_cons, addAddress]
      split
      · next hroom =>
          obtain ⟨addresses, heq, hcapped⟩ := ih { info with addresses := info.addresses ++ [AddrTexts.toText addr] }
          refine ⟨addresses, heq, fun h => hcapped ⟨?_, ?_⟩⟩
          · exact List.nodup_append.mpr ⟨h.1, List.nodup_singleton _, fun a ha b hb hab =>
              hroom.2 (List.mem_singleton.mp hb ▸ hab ▸ ha)⟩
          · rw [List.length_append]
            exact hroom.1
      · exact ih info

variable (Multiaddr) in
theorem merge_spec (existing info : PeerInfo PeerId) : ∃ addresses, (Capped existing.addresses → Capped addresses) ∧
    (existing.merge Multiaddr info).addresses = addresses ∧ (existing.merge Multiaddr info).peerId = existing.peerId ∧
    (existing.merge Multiaddr info).state = info.state ∧ (existing.merge Multiaddr info).direction = existing.direction ∧
    (existing.merge Multiaddr info).reputation = existing.reputation := by
  obtain ⟨addresses, heq, hcapped⟩ := foldl_addAddress (info.multiaddrs Multiaddr) existing
  rw [merge, heq]
  exact ⟨addresses, hcapped, rfl, rfl, rfl, rfl, rfl⟩

end PeerInfo

/-! ### The registry -/

namespace PeerStore

variable [PeerTexts PeerId] {store : PeerStore PeerId} {peer other : PeerId} {info : PeerInfo PeerId}

theorem get_modify [DecidableEq PeerId] {f : PeerInfo PeerId → PeerInfo PeerId} :
    (store.modify peer f).get other = if peer = other then (store.get other).map f else store.get other := by
  rw [modify]
  split
  · next info hinfo =>
      rw [get, TreeMap.getElem?_insert, ← get]
      by_cases heq : peer = other
      · rw [if_pos (congrArg _ heq), if_pos heq, ← heq, hinfo, Option.map_some]
      · rw [if_neg fun h => heq (PeerTexts.toText_inj _ _ h), if_neg heq]
  · next hnone =>
      split
      · next heq => rw [← heq, hnone, Option.map_none]
      · rfl

private theorem get_upsert [DecidableEq PeerId] [AddrTexts Multiaddr] : (store.upsert Multiaddr info).get other =
    if info.peerId = other then some (((store.get other).map fun existing => existing.merge Multiaddr info).getD info)
    else store.get other := by
  have hinsert (written : PeerInfo PeerId) :
      (PeerStore.mk (store.peers.insert (PeerTexts.toText info.peerId) written)).get other =
        if info.peerId = other then some written else store.get other := by
    rw [get, TreeMap.getElem?_insert, ← get]
    exact if_congr ⟨PeerTexts.toText_inj _ _, congrArg _⟩ rfl rfl
  rw [upsert]
  split
  · next existing hexisting =>
      rw [hinsert]
      split
      · next heq => rw [← heq, hexisting, Option.map_some, Option.getD_some]
      · rfl
  · next hnone =>
      rw [hinsert]
      split
      · next heq => rw [← heq, hnone, Option.map_none, Option.getD_none]
      · rfl

end PeerStore

/-! ### One event -/

section Event

variable [AddrTexts Multiaddr] {contact : Contact} {record : Option (PeerInfo PeerId)}

/-- What an event makes of the record of its peer. -/
def PeerEvent.update (now : UInt64) (record : Option (PeerInfo PeerId)) :
    PeerEvent PeerId Multiaddr → Option (PeerInfo PeerId)
  | .identify _ protocolVersion agentVersion listenAddrs =>
      record.map fun info => listenAddrs.foldl PeerInfo.addAddress
        { info with protocolVersion := some protocolVersion, agentVersion := some agentVersion }
  | .connectionEstablished peerId isDialer =>
      let info := { record.getD (.new peerId now) with state := .connected, direction := some (.of isDialer) }
      some ((record.map fun existing => existing.merge Multiaddr info).getD info)
  | .failure _ => record.map fun info => info.recordFailure now
  | .connectionClosed _ => record.map fun info => { info with state := .disconnected }

private theorem PeerStore.get_handle [DecidableEq PeerId] [PeerTexts PeerId] {store : PeerStore PeerId} {other : PeerId}
    {now : UInt64} {event : PeerEvent PeerId Multiaddr}
    (hkeyed : ∀ info, store.get event.peer = some info → info.peerId = event.peer) :
    (store.handle now event).get other = if event.peer = other then event.update now (store.get other) else store.get other := by
  cases event with
  | identify peerId protocolVersion agentVersion listenAddrs => exact get_modify
  | failure peer => exact get_modify
  | connectionClosed peerId => exact get_modify
  | connectionEstablished peerId isDialer =>
      have hpeer : ((store.get peerId).getD (.new peerId now)).peerId = peerId := by
        cases hget : store.get peerId with
        | none => rfl
        | some info => exact hkeyed info hget
      rw [PeerStore.handle, get_upsert, PeerEvent.peer]
      by_cases heq : peerId = other
      · subst heq
        rw [if_pos hpeer, if_pos rfl]
        rfl
      · rw [if_neg fun h => heq (hpeer.symm.trans h), if_neg heq]

theorem Contact.Accounts.update {now : UInt64} {event : PeerEvent PeerId Multiaddr} (h : contact.Accounts event.peer record) :
    (contact.next event).Accounts event.peer (event.update now record) := by
  cases record with
  | none =>
      obtain rfl : contact = ⟨0, none, 0⟩ := h
      cases event with
      | identify peerId protocolVersion agentVersion listenAddrs => rfl
      | failure peer => rfl
      | connectionClosed peerId => rfl
      | connectionEstablished peerId isDialer => exact ⟨rfl, Option.some_ne_none _, rfl, List.nodup_nil, Nat.zero_le _⟩
  | some info =>
      obtain ⟨hpeer, hlatest, hreputation, hcapped⟩ := h
      cases event with
      | identify peerId protocolVersion agentVersion listenAddrs =>
          obtain ⟨addresses, heq, hadded⟩ := PeerInfo.foldl_addAddress listenAddrs
            { info with protocolVersion := some protocolVersion, agentVersion := some agentVersion }
          rw [PeerEvent.update, Option.map_some, heq]
          exact ⟨hpeer, hlatest, hreputation, hadded hcapped⟩
      | failure peer =>
          rw [PeerEvent.update, Option.map_some, Contact.next, if_neg hlatest]
          refine ⟨hpeer, hlatest, ?_, hcapped⟩
          rw [PeerInfo.recordFailure, hreputation]
          dsimp only
          rw [Signed.saturatingSub_clamp (by unfold defaultReputation; omega) (by omega)]
          congr 1
          push_cast
          omega
      | connectionClosed peerId => exact ⟨hpeer, hlatest, hreputation, hcapped⟩
      | connectionEstablished peerId isDialer =>
          obtain ⟨addresses, hadded, haddresses, hpeer', -, -, hreputation'⟩ :=
            info.merge_spec Multiaddr { info with state := .connected, direction := some (.of isDialer) }
          refine ⟨hpeer'.trans hpeer, Option.some_ne_none _, hreputation'.trans hreputation, ?_⟩
          exact haddresses ▸ hadded hcapped

/-- **One event.** The record goes on following the contact exactly at the plain events. -/
theorem Contact.follows_update_iff (now : UInt64) {event : PeerEvent PeerId Multiaddr}
    (haccounts : contact.Accounts event.peer record) (h : contact.Follows record) (hallows : contact.Allows event) :
    (contact.next event).Follows (event.update now record) ↔ contact.Plain event := by
  cases record with
  | none =>
      obtain rfl : contact = ⟨0, none, 0⟩ := haccounts
      cases event with
      | identify peerId protocolVersion agentVersion listenAddrs => exact Iff.rfl
      | failure peer => exact Iff.rfl
      | connectionClosed peerId => exact iff_of_true trivial (Nat.zero_le 1)
      | connectionEstablished peerId isDialer =>
          exact iff_of_true ⟨iff_of_true rfl (Nat.succ_pos _), rfl⟩ (Or.inl rfl)
  | some info =>
      obtain ⟨hstate, hdirection⟩ := h
      cases event with
      | identify peerId protocolVersion agentVersion listenAddrs =>
          obtain ⟨addresses, heq, -⟩ := PeerInfo.foldl_addAddress listenAddrs
            { info with protocolVersion := some protocolVersion, agentVersion := some agentVersion }
          rw [PeerEvent.update, Option.map_some, heq]
          exact iff_of_true ⟨hstate, hdirection⟩ trivial
      | failure peer =>
          rw [PeerEvent.update, Option.map_some, Contact.next, if_neg haccounts.2.1]
          exact iff_of_true ⟨hstate, hdirection⟩ trivial
      | connectionClosed peerId =>
          have hopened : 0 < contact.opened := hallows
          show ((ConnectionState.disconnected = .connected ↔ 0 < contact.opened - 1) ∧ info.direction = contact.latest) ↔
            contact.opened ≤ 1
          rw [and_iff_left hdirection]
          simp only [reduceCtorEq, false_iff]
          omega
      | connectionEstablished peerId isDialer =>
          obtain ⟨addresses, -, -, -, hstate', hdirection', -⟩ :=
            info.merge_spec Multiaddr { info with state := .connected, direction := some (.of isDialer) }
          show ((_ = ConnectionState.connected ↔ 0 < contact.opened + 1) ∧ _ = some (Direction.of isDialer)) ↔
            contact.latest = none ∨ contact.latest = some (Direction.of isDialer)
          rw [or_iff_right haccounts.2.1, ← hdirection, ← hdirection']
          exact and_iff_right (iff_of_true hstate' (Nat.succ_pos _))

end Event

/-! ### Runs -/

section Events

variable [DecidableEq PeerId] [PeerTexts PeerId] [AddrTexts Multiaddr] {past : List (UInt64 × PeerEvent PeerId Multiaddr)}
  {round : UInt64 × PeerEvent PeerId Multiaddr} {peer : PeerId}

omit [PeerTexts PeerId] [AddrTexts Multiaddr] in
theorem contacts_concat : contacts (past ++ [round]) peer =
    if round.2.peer = peer then (contacts past peer).next round.2 else contacts past peer := by
  rw [contacts, List.foldl_concat, ← contacts, Function.update_apply]
  by_cases heq : round.2.peer = peer
  · rw [if_pos heq, if_pos heq.symm, heq]
  · rw [if_neg heq, if_neg (Ne.symm heq)]

def AccountedAfter (past : List (UInt64 × PeerEvent PeerId Multiaddr)) : Prop :=
  ∀ peer, (contacts past peer).Accounts peer ((PeerStore.afterEvents past).get peer)

def FollowedAfter (past : List (UInt64 × PeerEvent PeerId Multiaddr)) : Prop :=
  ∀ peer, (contacts past peer).Follows ((PeerStore.afterEvents past).get peer)

theorem AccountedAfter.get_concat (h : AccountedAfter past) : (PeerStore.afterEvents (past ++ [round])).get peer =
    if round.2.peer = peer then round.2.update round.1 ((PeerStore.afterEvents past).get peer)
    else (PeerStore.afterEvents past).get peer := by
  rw [PeerStore.afterEvents, List.foldl_concat, ← PeerStore.afterEvents, PeerStore.get_handle]
  intro info hinfo
  have hself := h round.2.peer
  rw [hinfo] at hself
  exact hself.1

omit [DecidableEq PeerId] in
theorem get_new : (PeerStore.new : PeerStore PeerId).get peer = none := Std.ExtTreeMap.getElem?_empty

theorem accountedAfter_nil : AccountedAfter ([] : List (UInt64 × PeerEvent PeerId Multiaddr)) := by
  intro peer
  show Contact.Accounts _ peer (PeerStore.new.get peer)
  rw [get_new]
  rfl

theorem AccountedAfter.concat (h : AccountedAfter past) : AccountedAfter (past ++ [round]) := by
  intro peer
  rw [contacts_concat, h.get_concat]
  by_cases heq : round.2.peer = peer
  · rw [if_pos heq, if_pos heq]
    obtain rfl := heq
    exact (h round.2.peer).update
  · rw [if_neg heq, if_neg heq]
    exact h peer

theorem followedAfter_concat_iff (round : UInt64 × PeerEvent PeerId Multiaddr) (haccounted : AccountedAfter past) (h : FollowedAfter past)
    (hallows : (contacts past round.2.peer).Allows round.2) :
    FollowedAfter (past ++ [round]) ↔ (contacts past round.2.peer).Plain round.2 := by
  have hself := Contact.follows_update_iff round.1 (haccounted round.2.peer) (h round.2.peer) hallows
  refine ⟨fun hfollowed => ?_, fun hplain peer => ?_⟩
  · have hpeer := hfollowed round.2.peer
    rw [contacts_concat, haccounted.get_concat, if_pos rfl, if_pos rfl] at hpeer
    exact hself.mp hpeer
  · rw [contacts_concat, haccounted.get_concat]
    by_cases heq : round.2.peer = peer
    · rw [if_pos heq, if_pos heq]
      obtain rfl := heq
      exact hself.mpr hplain
    · rw [if_neg heq, if_neg heq]
      exact h peer

/-- **When the registry follows the connections.** In every run in which only open connections are closed, every record exists exactly if there was a connection, counts the failures and keeps its addresses in order. The states and directions follow the connections throughout the run if and only if no connection is closed while its peer has another one open, and none is established the other way than the one before. -/
theorem peerStore_follows_iff (events : List (UInt64 × PeerEvent PeerId Multiaddr))
    (hallows : ∀ past round, past ++ [round] <+: events → (contacts past round.2.peer).Allows round.2) :
    ((∀ past, past <+: events → AccountedAfter past ∧ FollowedAfter past) ↔
      ∀ past round, past ++ [round] <+: events → (contacts past round.2.peer).Plain round.2) ∧
    ∀ past, past <+: events → AccountedAfter past := by
  refine ⟨Run.throughout_iff ⟨accountedAfter_nil, ?_⟩ ?_, Run.throughout accountedAfter_nil fun _ _ _ h => h.concat⟩
  · intro peer
    show Contact.Follows _ (PeerStore.new.get peer)
    rw [get_new]
    trivial
  · intro past round hleads h
    rw [and_iff_right h.1.concat]
    exact followedAfter_concat_iff round h.1 h.2 (hallows past round hleads)

end Events

/-! ### Two connections -/

/-- Two peers, one of which fails, leaves and comes back. -/
def returningContacts : List (UInt64 × PeerEvent String String) :=
  [(1, .connectionEstablished "a" true), (2, .connectionEstablished "b" false), (3, .failure "a"), (4, .connectionClosed "a"),
    (5, .connectionEstablished "a" true), (6, .connectionClosed "b")]

theorem peerStore_follows_returning : AccountedAfter returningContacts ∧ FollowedAfter returningContacts := by
  have hallows : ∀ past round, past ++ [round] <+: returningContacts → (contacts past round.2.peer).Allows round.2 := by
    simp only [returningContacts, Run.steps_cons_iff]
    exact ⟨trivial, trivial, trivial, Nat.zero_lt_one, trivial, Nat.zero_lt_one, Run.steps_nil⟩
  have hplain : ∀ past round, past ++ [round] <+: returningContacts → (contacts past round.2.peer).Plain round.2 := by
    simp only [returningContacts, Run.steps_cons_iff]
    exact ⟨Or.inl rfl, Or.inl rfl, trivial, le_rfl, Or.inr rfl, le_rfl, Run.steps_nil⟩
  exact (peerStore_follows_iff returningContacts hallows).1.mpr hplain returningContacts List.prefix_rfl

/-- Two connections to one peer, of which one is closed. -/
def doubleContact : List (UInt64 × PeerEvent String String) :=
  [(1, .connectionEstablished "a" true), (2, .connectionEstablished "a" true), (3, .connectionClosed "a")]

/-- The record says that the peer is not connected, but it is. -/
theorem peerStore_loses_open_connection :
    ¬ ∀ events : List (UInt64 × PeerEvent String String),
      (∀ past round, past ++ [round] <+: events → (contacts past round.2.peer).Allows round.2) →
      ∀ past, past <+: events → AccountedAfter past ∧ FollowedAfter past := by
  intro hclaim
  have hallows : ∀ past round, past ++ [round] <+: doubleContact → (contacts past round.2.peer).Allows round.2 := by
    simp only [doubleContact, Run.steps_cons_iff]
    exact ⟨trivial, trivial, Nat.succ_pos _, Run.steps_nil⟩
  have hthroughout := hclaim doubleContact hallows
  obtain ⟨haccounted, hfollowed⟩ := hthroughout (doubleContact.take 2) (List.take_prefix _ _)
  have hclosed : FollowedAfter (doubleContact.take 2 ++ [(3, .connectionClosed "a")]) :=
    (hthroughout doubleContact List.prefix_rfl).2
  have hplain : 2 ≤ 1 := (followedAfter_concat_iff (3, .connectionClosed "a") haccounted hfollowed
    (Nat.succ_pos _)).mp hclosed
  exact absurd hplain (by decide)

end QuantumVault
