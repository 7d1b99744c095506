import Mathlib

/-!
# Agreeing on a secret in one round trip

Two parties, each with room for one secret. A party without a secret may send a hello; whoever receives a hello picks a secret, keeps it and sends it back, and whoever receives such an answer keeps the secret in it. Messages arrive in any order or are lost, and a party may forget its secret at any time. The messages in flight are a multiset.

As long as no hello is sent while something is in flight, the two secrets are the same whenever nothing is. One overlapping hello is enough to end, in some order of arrival, with two different secrets.
-/

namespace QuantumVault

namespace Exchange

inductive Side where
  | a
  | b
deriving DecidableEq

def Side.other : Side → Side
  | a => b
  | b => a

@[simp] theorem Side.other_other (side : Side) : side.other.other = side := by cases side <;> rfl

theorem Side.other_ne (side : Side) : side.other ≠ side := by cases side <;> decide

theorem Side.eq_or_eq_other (x y : Side) : x = y ∨ x = y.other := by
  cases x <;> cases y <;> decide

/-- A hello is known by its sender, an answer by its receiver and the secret. -/
inductive Packet (S : Type*) where
  | hello (sender : Side)
  | ack (receiver : Side) (secret : S)
deriving DecidableEq

structure State (S : Type*) where
  slot : Side → Option S
  flight : Multiset (Packet S)

inductive Event (S : Type*) where
  | dial (side : Side)
  | answer (initiator : Side) (secret : S)
  | accept (receiver : Side) (secret : S)
  | lose (packet : Packet S)
  | close (side : Side)

variable {S : Type*}

/-- Whenever both sides have a secret, it is the same one. -/
def State.Agrees (s : State S) : Prop := ∀ x y, s.slot .a = some x → s.slot .b = some y → x = y

/-- A hello is sent while something is in flight. -/
def State.Overlaps (s : State S) (event : Event S) : Prop :=
  ∃ side, event = .dial side ∧ s.slot side = none ∧ s.flight ≠ 0

theorem State.agrees_iff (s : State S) (side : Side) :
    s.Agrees ↔ ∀ x y, s.slot side = some x → s.slot side.other = some y → x = y := by
  cases side with
  | a => rfl
  | b =>
      constructor
      · intro h x y hx hy
        exact (h y x hy hx).symm
      · intro h x y hx hy
        exact (h y x hy hx).symm

variable [DecidableEq S]

def State.step (s : State S) : Event S → State S
  | .dial side => if s.slot side = none then { s with flight := .hello side ::ₘ s.flight } else s
  | .answer initiator secret =>
      if .hello initiator ∈ s.flight then
        ⟨Function.update s.slot initiator.other (some secret),
          .ack initiator secret ::ₘ s.flight.erase (.hello initiator)⟩
      else s
  | .accept receiver secret =>
      if .ack receiver secret ∈ s.flight then
        ⟨Function.update s.slot receiver (some secret), s.flight.erase (.ack receiver secret)⟩
      else s
  | .lose packet => { s with flight := s.flight.erase packet }
  | .close side => { s with slot := Function.update s.slot side none }

def State.run (s : State S) (events : List (Event S)) : State S := events.foldl State.step s

theorem State.run_append (s : State S) (events more : List (Event S)) :
    s.run (events ++ more) = (s.run events).run more := List.foldl_append

/-! ### One exchange at a time -/

/-- Nothing is in flight and the sides agree; or one hello is, from a side without a secret; or one answer is, to a side without a secret, and the other side still has that secret or none. -/
inductive State.Exclusive (s : State S) : Prop where
  | quiet (hflight : s.flight = 0) (hagrees : s.Agrees)
  | asking (sender : Side) (hflight : s.flight = {.hello sender}) (hslot : s.slot sender = none)
  | answering (receiver : Side) (secret : S) (hflight : s.flight = {.ack receiver secret})
      (hslot : s.slot receiver = none) (hother : ∀ x, s.slot receiver.other = some x → x = secret)

variable {s : State S} {event : Event S}

omit [DecidableEq S] in
theorem State.agrees_of_slot_eq_none {side : Side} (h : s.slot side = none) : s.Agrees := by
  rw [s.agrees_iff side]
  intro x y hx hy
  rw [h] at hx
  cases hx

theorem erase_singleton {p q : Packet S} : (({p} : Multiset (Packet S)).erase q) = if p = q then 0 else {p} := by
  split
  · rename_i heq
    rw [heq, Multiset.erase_singleton]
  · rename_i hne
    exact Multiset.erase_of_notMem (fun hmem => hne (Multiset.mem_singleton.mp hmem).symm)

theorem State.Exclusive.dial (h : s.Exclusive) (side : Side) (hopen : ¬ s.Overlaps (.dial side)) :
    (s.step (.dial side)).Exclusive := by
  rw [State.step]
  split
  · rename_i hslot
    have hquiet : s.flight = 0 := by
      by_contra hflight
      exact hopen ⟨side, rfl, hslot, hflight⟩
    exact .asking side (by rw [hquiet]; rfl) hslot
  · exact h

theorem State.Exclusive.answer (h : s.Exclusive) (initiator : Side) (secret : S) :
    (s.step (.answer initiator secret)).Exclusive := by
  rw [State.step]
  split
  · rename_i hmem
    cases h with
    | quiet hflight hagrees =>
        rw [hflight] at hmem
        exact absurd hmem (Multiset.notMem_zero _)
    | asking sender hflight hslot =>
        rw [hflight, Multiset.mem_singleton] at hmem
        cases hmem
        refine .answering initiator secret ?_ ?_ ?_
        · rw [hflight, Multiset.erase_singleton]
          rfl
        · show Function.update s.slot initiator.other (some secret) initiator = none
          rw [Function.update_of_ne (Side.other_ne initiator).symm]
          exact hslot
        · intro x hx
          change Function.update s.slot initiator.other (some secret) initiator.other = some x at hx
          rw [Function.update_self] at hx
          exact (Option.some.inj hx).symm
    | answering receiver secret' hflight hslot hother =>
        rw [hflight, Multiset.mem_singleton] at hmem
        cases hmem
  · exact h

theorem State.Exclusive.accept (h : s.Exclusive) (receiver : Side) (secret : S) :
    (s.step (.accept receiver secret)).Exclusive := by
  rw [State.step]
  split
  · rename_i hmem
    cases h with
    | quiet hflight hagrees =>
        rw [hflight] at hmem
        exact absurd hmem (Multiset.notMem_zero _)
    | asking sender hflight hslot =>
        rw [hflight, Multiset.mem_singleton] at hmem
        cases hmem
    | answering receiver' secret' hflight hslot hother =>
        rw [hflight, Multiset.mem_singleton] at hmem
        cases hmem
        refine .quiet ?_ ?_
        · rw [hflight, Multiset.erase_singleton]
        · rw [State.agrees_iff _ receiver]
          intro x y hx hy
          change Function.update s.slot receiver (some secret) receiver = some x at hx
          change Function.update s.slot receiver (some secret) receiver.other = some y at hy
          rw [Function.update_self] at hx
          rw [Function.update_of_ne (Side.other_ne receiver)] at hy
          rw [hother y hy]
          exact (Option.some.inj hx).symm
  · exact h

theorem State.Exclusive.lose (h : s.Exclusive) (packet : Packet S) : (s.step (.lose packet)).Exclusive := by
  cases h with
  | quiet hflight hagrees =>
      refine .quiet ?_ hagrees
      rw [State.step, hflight]
      rfl
  | asking sender hflight hslot =>
      by_cases heq : Packet.hello sender = packet
      · refine .quiet ?_ (State.agrees_of_slot_eq_none hslot)
        rw [State.step, hflight, erase_singleton, if_pos heq]
      · refine .asking sender ?_ hslot
        rw [State.step, hflight, erase_singleton, if_neg heq]
  | answering receiver secret hflight hslot hother =>
      by_cases heq : Packet.ack receiver secret = packet
      · refine .quiet ?_ (State.agrees_of_slot_eq_none hslot)
        rw [State.step, hflight, erase_singleton, if_pos heq]
      · refine .answering receiver secret ?_ hslot hother
        rw [State.step, hflight, erase_singleton, if_neg heq]

theorem State.Exclusive.close (h : s.Exclusive) (side : Side) : (s.step (.close side)).Exclusive := by
  have hkept (x : Side) (hx : s.slot x = none) : Function.update s.slot side none x = none := by
    by_cases hside : x = side
    · rw [hside, Function.update_self]
    · rw [Function.update_of_ne hside, hx]
  cases h with
  | quiet hflight hagrees =>
      have hgone : (s.step (.close side)).slot side = none := by
        show Function.update s.slot side none side = none
        rw [Function.update_self]
      exact .quiet hflight (State.agrees_of_slot_eq_none hgone)
  | asking sender hflight hslot => exact .asking sender hflight (hkept sender hslot)
  | answering receiver secret hflight hslot hother =>
      refine .answering receiver secret hflight (hkept receiver hslot) ?_
      intro x hx
      change Function.update s.slot side none receiver.other = some x at hx
      by_cases hside : receiver.other = side
      · rw [hside, Function.update_self] at hx
        cases hx
      · rw [Function.update_of_ne hside] at hx
        exact hother x hx

theorem State.Exclusive.step (h : s.Exclusive) (hopen : ¬ s.Overlaps event) : (s.step event).Exclusive := by
  cases event with
  | dial side => exact h.dial side hopen
  | answer initiator secret => exact h.answer initiator secret
  | accept receiver secret => exact h.accept receiver secret
  | lose packet => exact h.lose packet
  | close side => exact h.close side

omit [DecidableEq S] in
/-- **Quiet states agree.** -/
theorem State.Exclusive.agrees (h : s.Exclusive) (hquiet : s.flight = 0) : s.Agrees := by
  cases h with
  | quiet _ hagrees => exact hagrees
  | asking sender hflight _ =>
      rw [hquiet] at hflight
      exact absurd hflight.symm (Multiset.singleton_ne_zero _)
  | answering receiver secret hflight _ _ =>
      rw [hquiet] at hflight
      exact absurd hflight.symm (Multiset.singleton_ne_zero _)

/-! ### Overlapping exchanges -/

/-- Events that only bring a message to its end, with answers from a given supply of secrets. -/
def Event.Settles (supply : Side → Set S) : Event S → Prop
  | .answer initiator secret => secret ∈ supply initiator
  | .accept _ _ => True
  | .lose _ => True
  | .dial _ => False
  | .close _ => False

section Heads

variable {slot : Side → Option S} {rest : Multiset (Packet S)}

theorem State.step_lose (packet : Packet S) :
    State.step ⟨slot, packet ::ₘ rest⟩ (.lose packet) = ⟨slot, rest⟩ := by
  rw [State.step, Multiset.erase_cons_head]

theorem State.step_answer (initiator : Side) (secret : S) :
    State.step ⟨slot, .hello initiator ::ₘ rest⟩ (.answer initiator secret) =
      ⟨Function.update slot initiator.other (some secret), .ack initiator secret ::ₘ rest⟩ := by
  rw [State.step, if_pos (Multiset.mem_cons_self _ _), Multiset.erase_cons_head]

theorem State.step_accept (receiver : Side) (secret : S) :
    State.step ⟨slot, .ack receiver secret ::ₘ rest⟩ (.accept receiver secret) =
      ⟨Function.update slot receiver (some secret), rest⟩ := by
  rw [State.step, if_pos (Multiset.mem_cons_self _ _), Multiset.erase_cons_head]

theorem State.run_lose (packets : List (Packet S)) :
    State.run ⟨slot, rest + packets⟩ (packets.map .lose) = ⟨slot, rest⟩ := by
  induction packets with
  | nil =>
      rw [Multiset.coe_nil, add_zero]
      rfl
  | cons packet packets ih =>
      rw [← Multiset.cons_coe, Multiset.add_cons, List.map_cons, State.run, List.foldl_cons, State.step_lose]
      exact ih

end Heads

omit [DecidableEq S] in
theorem State.not_agrees (side : Side) {x y : S} (hne : x ≠ y) (hx : s.slot side = some x)
    (hy : s.slot side.other = some y) : ¬ s.Agrees := by
  rw [s.agrees_iff side]
  intro h
  exact hne (h x y hx hy)

variable {supply : Side → Set S}

/-- A hello and an answer in flight at once. The hello is answered with another secret. If both answers are for the same side, the newer one is lost; otherwise both arrive. -/
theorem State.exists_disagreement_of_ack (hsupply : ∀ side, (supply side).Nontrivial) (slot : Side → Option S)
    (sender receiver : Side) (x : S) :
    ∃ events, (∀ event ∈ events, event.Settles supply) ∧
      (State.run ⟨slot, .hello sender ::ₘ {.ack receiver x}⟩ events).flight = 0 ∧
      ¬ (State.run ⟨slot, .hello sender ::ₘ {.ack receiver x}⟩ events).Agrees := by
  obtain ⟨y, hy, hne⟩ := (hsupply sender).exists_ne x
  obtain rfl | rfl := Side.eq_or_eq_other receiver sender
  · have hrun : State.run ⟨slot, .hello receiver ::ₘ {.ack receiver x}⟩
        [.answer receiver y, .lose (.ack receiver y), .accept receiver x] =
          ⟨Function.update (Function.update slot receiver.other (some y)) receiver (some x), 0⟩ := by
      simp only [State.run, List.foldl_cons, List.foldl_nil]
      rw [State.step_answer, State.step_lose, ← Multiset.cons_zero, State.step_accept]
    refine ⟨[.answer receiver y, .lose (.ack receiver y), .accept receiver x], ?_, ?_, ?_⟩
    · simp [Event.Settles, hy]
    · rw [hrun]
    · rw [hrun]
      apply State.not_agrees receiver hne.symm
      · exact Function.update_self ..
      · show Function.update (Function.update slot receiver.other (some y)) receiver (some x) receiver.other = some y
        rw [Function.update_of_ne (Side.other_ne receiver), Function.update_self]
  · have hrun : State.run ⟨slot, .hello sender ::ₘ {.ack sender.other x}⟩
        [.answer sender y, .accept sender y, .accept sender.other x] =
          ⟨Function.update (Function.update (Function.update slot sender.other (some y)) sender (some y)) sender.other
            (some x), 0⟩ := by
      simp only [State.run, List.foldl_cons, List.foldl_nil]
      rw [State.step_answer, State.step_accept, ← Multiset.cons_zero, State.step_accept]
    refine ⟨[.answer sender y, .accept sender y, .accept sender.other x], ?_, ?_, ?_⟩
    · simp [Event.Settles, hy]
    · rw [hrun]
    · rw [hrun]
      apply State.not_agrees sender hne
      · show Function.update (Function.update (Function.update slot sender.other (some y)) sender (some y)) sender.other
          (some x) sender = some y
        rw [Function.update_of_ne (Side.other_ne sender).symm, Function.update_self]
      · exact Function.update_self ..

/-- **One overlapping hello is enough.** -/
theorem State.exists_disagreement (hsupply : ∀ side, (supply side).Nontrivial) (hoverlap : s.Overlaps event) :
    ∃ events, (∀ event ∈ events, event.Settles supply) ∧ ((s.step event).run events).flight = 0 ∧
      ¬ ((s.step event).run events).Agrees := by
  obtain ⟨sender, rfl, hslot, hflight⟩ := hoverlap
  obtain ⟨packet, hpacket⟩ := Multiset.exists_mem_of_ne_zero hflight
  obtain ⟨rest, hrest⟩ := Multiset.exists_cons_of_mem hpacket
  have hsplit : s.step (.dial sender) = ⟨s.slot, (.hello sender ::ₘ {packet}) + (rest.toList : Multiset (Packet S))⟩ := by
    rw [State.step, if_pos hslot, hrest, Multiset.coe_toList, Multiset.cons_add, Multiset.singleton_add]
  have hlose : (s.step (.dial sender)).run (rest.toList.map .lose) = ⟨s.slot, .hello sender ::ₘ {packet}⟩ := by
    rw [hsplit, State.run_lose]
  have hsettles : ∀ event ∈ rest.toList.map Event.lose, event.Settles supply := by
    intro event hevent
    obtain ⟨p, -, rfl⟩ := List.mem_map.mp hevent
    trivial
  cases packet with
  | ack receiver x =>
      obtain ⟨events, hevents, hquiet⟩ := State.exists_disagreement_of_ack hsupply s.slot sender receiver x
      refine ⟨rest.toList.map .lose ++ events, List.forall_mem_append.mpr ⟨hsettles, hevents⟩, ?_⟩
      rw [State.run_append, hlose]
      exact hquiet
  | hello sender' =>
      obtain ⟨x, hx⟩ := (hsupply sender').nonempty
      let slot := Function.update s.slot sender'.other (some x)
      have hanswer : State.step ⟨s.slot, .hello sender ::ₘ {.hello sender'}⟩ (.answer sender' x) =
          ⟨slot, .hello sender ::ₘ {.ack sender' x}⟩ := by
        rw [← Multiset.cons_zero, Multiset.cons_swap, State.step_answer, Multiset.cons_swap, Multiset.cons_zero]
      obtain ⟨events, hevents, hquiet⟩ := State.exists_disagreement_of_ack hsupply slot sender sender' x
      refine ⟨rest.toList.map .lose ++ .answer sender' x :: events, ?_, ?_⟩
      · exact List.forall_mem_append.mpr ⟨hsettles, List.forall_mem_cons.mpr ⟨hx, hevents⟩⟩
      · rw [State.run_append, hlose, State.run, List.foldl_cons, hanswer]
        exact hquiet

end Exchange

end QuantumVault
