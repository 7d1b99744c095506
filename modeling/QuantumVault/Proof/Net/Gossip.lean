import QuantumVault.Lib.Run
import QuantumVault.Proof.Net.Admission

/-!
# Gossip is passed on once, at a bounded rate

A run of the handler leaves a trace, each event with its outcome, and what the cache and the limiter know is read off the trace. The limiter comes before the cache, so a message that it drops leaves no mark there. A cache of capacity zero makes room before it stores a message, and then holds it.
-/

namespace QuantumVault

open FixedWindow

variable {PeerId Message : Type}

/-! ### Traces -/

def GossipEvent.readings : GossipEvent PeerId → List Nat
  | .message _ _ _ arrived checked stored => [arrived, checked, stored]
  | .purgeExpired now => [now]

def GossipEvent.isMessage : GossipEvent PeerId → Bool
  | .message _ _ _ _ _ _ => true
  | .purgeExpired _ => false

/-- The message passed the limiter. -/
def GossipOutcome.accepted : GossipOutcome Message → Bool
  | .rateLimited => false
  | .purged => false
  | _ => true

/-- The message was new to the cache and went on to the decoder. -/
def GossipOutcome.stored : GossipOutcome Message → Bool
  | .delivered _ => true
  | .undecodable => true
  | _ => false

/-- What an event stored in the cache. -/
def storedEntry : GossipEvent PeerId × GossipOutcome Message → Option (Bytes × Nat)
  | (.message _ messageId _ _ _ stored, outcome) => if outcome.stored = true then some (messageId, stored) else none
  | (.purgeExpired _, _) => none

def acceptedTime [DecidableEq PeerId] (peer : PeerId) : GossipEvent PeerId × GossipOutcome Message → Option Nat
  | (.message source _ _ arrived _ _, outcome) => if source = peer ∧ outcome.accepted = true then some arrived else none
  | (.purgeExpired _, _) => none

namespace GossipNode

variable [PeerTexts PeerId] {decode : Bytes → Option Message} {node : GossipNode}
  {event : GossipEvent PeerId} {past events : List (GossipEvent PeerId)}

def after (decode : Bytes → Option Message) (node : GossipNode) (events : List (GossipEvent PeerId)) : GossipNode :=
  events.foldl (fun node event => (node.handle decode event).2) node

def trace (decode : Bytes → Option Message) (node : GossipNode) :
    List (GossipEvent PeerId) → List (GossipEvent PeerId × GossipOutcome Message)
  | [] => []
  | event :: events => (event, (node.handle decode event).1) :: trace decode (node.handle decode event).2 events

private theorem trace_concat : trace decode node (past ++ [event]) =
    trace decode node past ++ [(event, ((after decode node past).handle decode event).1)] := by
  induction past generalizing node with
  | nil => rfl
  | cons first past ih => rw [List.cons_append, trace, ih, trace, List.cons_append]; rfl

theorem after_concat : after decode node (past ++ [event]) = ((after decode node past).handle decode event).2 :=
  List.foldl_concat ..

private theorem map_fst_trace (decode : Bytes → Option Message) (node : GossipNode) (events : List (GossipEvent PeerId)) :
    (trace decode node events).map Prod.fst = events := by
  induction events generalizing node with
  | nil => rfl
  | cons event events ih => rw [trace, List.map_cons, ih]

theorem trace_split {front back : List (GossipEvent PeerId × GossipOutcome Message)}
    {entry : GossipEvent PeerId × GossipOutcome Message} (h : trace decode node events = front ++ entry :: back) :
    ∃ past event, past ++ [event] <+: events ∧ trace decode node past = front ∧
      entry = (event, ((after decode node past).handle decode event).1) := by
  induction front generalizing node events with
  | nil =>
      cases events with
      | nil => cases h
      | cons event events =>
          refine ⟨[], event, List.cons_prefix_cons.mpr ⟨rfl, List.nil_prefix⟩, rfl, ?_⟩
          exact (List.cons.inj h).1.symm
  | cons first front ih =>
      cases events with
      | nil => cases h
      | cons event events =>
          obtain ⟨hfirst, hrest⟩ := List.cons.inj h
          obtain ⟨past, later, hleads, htrace, hentry⟩ := ih hrest
          refine ⟨event :: past, later, List.cons_prefix_cons.mpr ⟨rfl, hleads⟩, ?_, hentry⟩
          rw [trace, htrace, hfirst]

/-- **One message.** It is dropped by the limiter, which leaves the cache alone; or it is a duplicate; or it is stored. -/
theorem handle_message_cases (decode : Bytes → Option Message) (node : GossipNode) (source : PeerId) (messageId data : Bytes)
    (arrived checked stored : Nat) :
    ((node.rateLimiter.allow source arrived).1 = false ∧
      node.handle decode (.message source messageId data arrived checked stored) =
        (.rateLimited, ⟨(node.rateLimiter.allow source arrived).2, node.seenCache⟩)) ∨
    (node.rateLimiter.allow source arrived).1 = true ∧ ∃ outcome : GossipOutcome Message,
      node.handle decode (.message source messageId data arrived checked stored) =
        (outcome, ⟨(node.rateLimiter.allow source arrived).2, (node.seenCache.insert messageId checked stored).2⟩) ∧
      outcome.accepted = true ∧ outcome.stored = !(node.seenCache.insert messageId checked stored).1 := by
  rw [handle]
  cases hallow : (node.rateLimiter.allow source arrived).1 with
  | false =>
      refine Or.inl ⟨rfl, ?_⟩
      dsimp only
      rw [hallow]
      exact if_pos rfl
  | true =>
      refine Or.inr ⟨rfl, ?_⟩
      dsimp only
      rw [hallow, if_neg (by decide)]
      cases hseen : (node.seenCache.insert messageId checked stored).1 with
      | true => exact ⟨.duplicate, if_pos rfl, rfl, rfl⟩
      | false =>
          rw [if_neg Bool.false_ne_true]
          cases decode data with
          | some message => exact ⟨.delivered message, rfl, rfl, rfl⟩
          | none => exact ⟨.undecodable, rfl, rfl, rfl⟩

end GossipNode

/-! ### What the node knows -/

/-- The cache remembers what the trace stored. -/
structure CacheKeeps (ttl : Nat) (capacity : UInt64) (trace : List (GossipEvent PeerId × GossipOutcome Message)) (now : Nat)
    (cache : SeenCache) : Prop where
  ttl_eq : cache.ttl = ttl
  capacity_eq : cache.capacity = capacity
  remembers : cache.Remembers (trace.filterMap storedEntry) now
  size_le : cache.entries.size ≤ max capacity.toNat 1

/-- The buckets of the limiter count what the trace accepted. -/
structure LimiterKeeps [DecidableEq PeerId] [PeerTexts PeerId] (config : RateLimitConfig)
    (trace : List (GossipEvent PeerId × GossipOutcome Message)) (now : Nat) (limiter : RateLimiter) : Prop where
  config_eq : limiter.config = config
  counts : ∀ peer : PeerId, ∃ admitted, admitted.map Prod.fst = trace.filterMap (acceptedTime peer) ∧
    Counts config.maxPerWindow.toNat (nanosOfSecs config.windowSecs) now (limiter.bucketOf peer) admitted

section Keeps

variable {ttl : Nat} {capacity : UInt64} {config : RateLimitConfig}
  {trace : List (GossipEvent PeerId × GossipOutcome Message)} {now later : Nat} {cache : SeenCache} {limiter : RateLimiter}
  {entry : GossipEvent PeerId × GossipOutcome Message}

theorem CacheKeeps.mono (h : CacheKeeps ttl capacity trace now cache) (hle : now ≤ later) :
    CacheKeeps ttl capacity trace later cache :=
  ⟨h.ttl_eq, h.capacity_eq, h.remembers.mono hle, h.size_le⟩

theorem CacheKeeps.pass (h : CacheKeeps ttl capacity trace now cache) (hentry : storedEntry entry = none) :
    CacheKeeps ttl capacity (trace ++ [entry]) now cache := by
  refine ⟨h.ttl_eq, h.capacity_eq, ?_, h.size_le⟩
  rw [List.filterMap_append, List.filterMap_cons_none hentry, List.filterMap_nil, List.append_nil]
  exact h.remembers

theorem CacheKeeps.evictExpired (h : CacheKeeps ttl capacity trace now cache) :
    CacheKeeps ttl capacity trace now (cache.evictExpired now) :=
  ⟨h.ttl_eq, h.capacity_eq, h.remembers.evictExpired, Std.ExtTreeMap.size_filter_le_size.trans h.size_le⟩

theorem CacheKeeps.insert {source : PeerId} {messageId data : Bytes} {arrived checked stored : Nat}
    {outcome : GossipOutcome Message} (h : CacheKeeps ttl capacity trace checked cache) (hlt : checked < stored)
    (hlater : stored < later) (houtcome : outcome.stored = !(cache.insert messageId checked stored).1) :
    CacheKeeps ttl capacity (trace ++ [(.message source messageId data arrived checked stored, outcome)]) later
      (cache.insert messageId checked stored).2 := by
  by_cases hmem : messageId ∈ (cache.evictExpired checked).entries
  · rw [SeenCache.insert_of_mem hmem] at houtcome ⊢
    have hentry : storedEntry (GossipEvent.message source messageId data arrived checked stored, outcome) = none := by
      rw [storedEntry, houtcome]
      rfl
    exact (h.evictExpired.pass hentry).mono (hlt.trans hlater).le
  · rw [SeenCache.insert_of_notMem hmem] at houtcome ⊢
    obtain ⟨httl, hcapacity⟩ := (cache.evictExpired checked).room_config
    refine ⟨httl.trans h.ttl_eq, hcapacity.trans h.capacity_eq, ?_, ?_⟩
    · have hentry : storedEntry (GossipEvent.message source messageId data arrived checked stored, outcome) =
          some (messageId, stored) := if_pos houtcome
      rw [List.filterMap_append, List.filterMap_cons_some hentry, List.filterMap_nil]
      exact (h.evictExpired.remembers.store hmem hlt.le).mono hlater
    · have hsize : (cache.evictExpired checked).entries.size ≤
          max (cache.evictExpired checked).capacity.toNat 1 := h.evictExpired.capacity_eq ▸ h.evictExpired.size_le
      have hroom := SeenCache.size_room hsize
      rw [h.evictExpired.capacity_eq] at hroom
      exact Std.ExtTreeMap.size_insert_le.trans hroom

variable [DecidableEq PeerId] [PeerTexts PeerId]

theorem LimiterKeeps.mono (h : LimiterKeeps config trace now limiter) (hle : now ≤ later) :
    LimiterKeeps config trace later limiter := by
  refine ⟨h.config_eq, fun peer => ?_⟩
  obtain ⟨admitted, htimes, hcounts⟩ := h.counts peer
  exact ⟨admitted, htimes, hcounts.mono hle⟩

theorem LimiterKeeps.allow {source : PeerId} {messageId data : Bytes} {arrived checked stored : Nat}
    {outcome : GossipOutcome Message} (h : LimiterKeeps config trace arrived limiter) (hlater : arrived < later)
    (houtcome : outcome.accepted = (limiter.allow source arrived).1) :
    LimiterKeeps config (trace ++ [(.message source messageId data arrived checked stored, outcome)]) later
      (limiter.allow source arrived).2 := by
  have hothers {b : PeerBucket} (peer : PeerId) (hne : source ≠ peer) : ∃ admitted,
      admitted.map Prod.fst = (trace ++ [(GossipEvent.message source messageId data arrived checked stored, outcome)]).filterMap
        (acceptedTime peer) ∧ Counts config.maxPerWindow.toNat (nanosOfSecs config.windowSecs) later
        ((limiter.withBucket source b).bucketOf peer) admitted := by
    obtain ⟨admitted, htimes, hcounts⟩ := h.counts peer
    have hother : acceptedTime peer (GossipEvent.message source messageId data arrived checked stored, outcome) = none :=
      if_neg fun hboth => hne hboth.1
    refine ⟨admitted, ?_, ?_⟩
    · rw [List.filterMap_append, List.filterMap_cons_none hother, List.filterMap_nil, List.append_nil, htimes]
    · rw [RateLimiter.bucketOf_withBucket_of_ne hne.symm]
      exact hcounts.mono hlater.le
  obtain ⟨admitted, htimes, hcounts⟩ := h.counts source
  have hcurrent : Counts config.maxPerWindow.toNat (nanosOfSecs config.windowSecs) arrived
      (some (limiter.currentOf source arrived)) admitted := by
    rw [RateLimiter.currentOf, RateLimiter.window, h.config_eq]
    exact hcounts.current
  obtain hfull | hroom := le_or_gt limiter.config.maxPerWindow.toNat (limiter.currentOf source arrived).count
  · rw [RateLimiter.allow_of_full hfull] at houtcome ⊢
    refine ⟨h.config_eq, fun peer => ?_⟩
    obtain rfl | hne := eq_or_ne source peer
    · refine ⟨admitted, ?_, ?_⟩
      · have hdropped : acceptedTime source (GossipEvent.message source messageId data arrived checked stored, outcome) =
            none := if_neg fun hboth => by rw [houtcome] at hboth; exact absurd hboth.2 Bool.false_ne_true
        rw [List.filterMap_append, List.filterMap_cons_none hdropped, List.filterMap_nil, List.append_nil, htimes]
      · rw [RateLimiter.bucketOf_withBucket_self, RateLimiter.toBucket_found]
        exact hcurrent.mono hlater.le
    · exact hothers peer hne
  · obtain ⟨b, hallow, hb⟩ := RateLimiter.allow_of_room hroom
    rw [hallow] at houtcome ⊢
    refine ⟨h.config_eq, fun peer => ?_⟩
    obtain rfl | hne := eq_or_ne source peer
    · refine ⟨admitted ++ [(arrived, (limiter.currentOf source arrived).start)], ?_, ?_⟩
      · have haccepted : acceptedTime source (GossipEvent.message source messageId data arrived checked stored, outcome) =
            some arrived := if_pos ⟨rfl, houtcome⟩
        rw [List.filterMap_append, List.filterMap_cons_some haccepted, List.filterMap_nil, List.map_append, htimes]
        rfl
      · rw [RateLimiter.bucketOf_withBucket_self, hb]
        exact hcurrent.admit (h.config_eq ▸ hroom) hlater
    · exact hothers peer hne

theorem LimiterKeeps.purgeExpired {outcome : GossipOutcome Message} (h : LimiterKeeps config trace now limiter) :
    LimiterKeeps config (trace ++ [(.purgeExpired now, outcome)]) now (limiter.purgeExpired now) := by
  refine ⟨h.config_eq, fun peer => ?_⟩
  obtain ⟨admitted, htimes, hcounts⟩ := h.counts peer
  refine ⟨admitted, ?_, ?_⟩
  · rw [List.filterMap_append, List.filterMap_cons_none rfl, List.filterMap_nil, List.append_nil, htimes]
  · rw [RateLimiter.bucketOf_purgeExpired, RateLimiter.window, h.config_eq]
    exact hcounts.purge

end Keeps

/-! ### Runs -/

/-- Every reading of the clock is later than the ones before. -/
def ClockIncreases (events : List (GossipEvent PeerId)) : Prop := (events.flatMap GossipEvent.readings).Pairwise (· < ·)

/-- Between two stored copies of a message its time was up, or as many others as the capacity were stored. -/
def PassesOnce (ttl : Nat) (capacity : UInt64) (trace : List (GossipEvent PeerId × GossipOutcome Message)) : Prop :=
  ∀ front first middle second back, trace = front ++ first :: (middle ++ second :: back) → ∀ messageId t t',
    storedEntry first = some (messageId, t) → storedEntry second = some (messageId, t') →
      ttl ≤ t' - t ∨ capacity.toNat ≤ (((middle.filterMap storedEntry).map Prod.fst).toFinset.erase messageId).card

/-- A duplicate is one of a copy that was stored, less than the time to live ago. -/
def DuplicatesStored (ttl : Nat) (trace : List (GossipEvent PeerId × GossipOutcome Message)) : Prop :=
  ∀ front source messageId data arrived checked stored back,
    trace = front ++ (.message source messageId data arrived checked stored, .duplicate) :: back →
      ∃ entry ∈ front, ∃ t, storedEntry entry = some (messageId, t) ∧ checked - t < ttl

section Run

variable [DecidableEq PeerId] [PeerTexts PeerId] {decode : Bytes → Option Message} {ttl : Nat} {capacity : UInt64}
  {config : RateLimitConfig} {past events : List (GossipEvent PeerId)} {event : GossipEvent PeerId} {now : Nat}

open GossipNode

omit [DecidableEq PeerId] [PeerTexts PeerId] in
theorem ClockIncreases.of_prefix (h : ClockIncreases events) (hleads : past <+: events) : ClockIncreases past := by
  obtain ⟨rest, rfl⟩ := hleads
  rw [ClockIncreases, List.flatMap_append] at h
  exact (List.pairwise_append.mp h).1

omit [DecidableEq PeerId] [PeerTexts PeerId] in
theorem clockIncreases_concat : ClockIncreases (past ++ [event]) ↔ ClockIncreases past ∧
    event.readings.Pairwise (· < ·) ∧ ∀ r ∈ past.flatMap GossipEvent.readings, ∀ r' ∈ event.readings, r < r' := by
  rw [ClockIncreases, List.flatMap_append, List.flatMap_singleton, List.pairwise_append]
  exact Iff.rfl

theorem keeps_after (decode : Bytes → Option Message) (config : RateLimitConfig) (ttl : Nat) (capacity : UInt64)
    (hclock : ClockIncreases past) (hnow : ∀ r ∈ past.flatMap GossipEvent.readings, r < now) :
    CacheKeeps ttl capacity (trace decode (.new config ttl capacity) past) now
        (after decode (.new config ttl capacity) past).seenCache ∧
      LimiterKeeps config (trace decode (.new config ttl capacity) past) now
        (after decode (.new config ttl capacity) past).rateLimiter := by
  induction past using List.reverseRecOn generalizing now with
  | nil =>
      refine ⟨⟨rfl, rfl, ⟨List.Pairwise.nil, ?_, ?_, ?_⟩, ?_⟩, rfl, fun peer => ⟨[], rfl, ?_⟩⟩
      · intro e he
        cases he
      · intro x t hget
        exact absurd (TreeMap.mem_of_getElem? hget) Std.ExtTreeMap.not_mem_empty
      · intro x t hmem
        cases hmem
      · exact (Std.ExtTreeMap.size_empty (α := Bytes) (β := Nat)).le.trans (Nat.zero_le _)
      · have hnone : (GossipNode.new config ttl capacity).rateLimiter.bucketOf peer = none := by
          rw [RateLimiter.bucketOf]
          exact congrArg _ Std.ExtTreeMap.getElem?_empty
        show Counts _ _ now ((GossipNode.new config ttl capacity).rateLimiter.bucketOf peer) []
        rw [hnone]
        exact .start _ _ _
  | append_singleton past event ih =>
      obtain ⟨hpast, hevent, hcross⟩ := clockIncreases_concat.mp hclock
      have hlast : ∀ r ∈ event.readings, r < now := fun r hr =>
        hnow r (by rw [List.flatMap_append]; exact List.mem_append_right _ (by simpa using hr))
      rw [trace_concat, after_concat]
      cases event with
      | purgeExpired time =>
          obtain ⟨hcache, hlimiter⟩ := ih hpast fun r hr => hcross r hr time (List.mem_singleton_self _)
          have hle : time ≤ now := (hlast time (List.mem_singleton_self _)).le
          exact ⟨(hcache.pass rfl).mono hle, hlimiter.purgeExpired.mono hle⟩
      | message source messageId data arrived checked stored =>
          obtain ⟨hcache, hlimiter⟩ := ih hpast fun r hr => hcross r hr arrived List.mem_cons_self
          have hchecked : arrived < checked := (List.pairwise_cons.mp hevent).1 checked List.mem_cons_self
          have hstored : checked < stored :=
            (List.pairwise_cons.mp (List.pairwise_cons.mp hevent).2).1 stored List.mem_cons_self
          have hlater : stored < now := hlast stored (by simp [GossipEvent.readings])
          have harrived : arrived < now := hchecked.trans (hstored.trans hlater)
          obtain ⟨hallow, heq⟩ | ⟨hallow, outcome, heq, haccepted, houtcome⟩ := handle_message_cases decode
            (after decode (.new config ttl capacity) past) source messageId data arrived checked stored
          · rw [heq]
            exact ⟨(hcache.pass rfl).mono harrived.le, hlimiter.allow harrived hallow.symm⟩
          · rw [heq]
            exact ⟨(hcache.mono hchecked.le).insert hstored hlater houtcome,
              hlimiter.allow harrived (haccepted.trans hallow.symm)⟩

theorem cacheKeeps_before (decode : Bytes → Option Message) (config : RateLimitConfig) (ttl : Nat) (capacity : UInt64)
    {source : PeerId} {messageId data : Bytes} {arrived checked stored : Nat}
    (hclock : ClockIncreases events) (hleads : past ++ [.message source messageId data arrived checked stored] <+: events) :
    CacheKeeps ttl capacity (trace decode (.new config ttl capacity) past) checked
      (after decode (.new config ttl capacity) past).seenCache ∧ checked < stored := by
  obtain ⟨hpast, hevent, hcross⟩ := clockIncreases_concat.mp (hclock.of_prefix hleads)
  have hchecked : arrived < checked := (List.pairwise_cons.mp hevent).1 checked List.mem_cons_self
  have harrived : ∀ r ∈ past.flatMap GossipEvent.readings, r < arrived := fun r hr => hcross r hr arrived List.mem_cons_self
  exact ⟨(keeps_after decode config ttl capacity hpast harrived).1.mono hchecked.le,
    (List.pairwise_cons.mp (List.pairwise_cons.mp hevent).2).1 stored List.mem_cons_self⟩

omit [DecidableEq PeerId] in
private theorem notMem_of_stored {node : GossipNode} {source : PeerId} {messageId data : Bytes} {arrived checked stored : Nat}
    (h : (node.handle decode (.message source messageId data arrived checked stored)).1.stored = true) :
    messageId ∉ (node.seenCache.evictExpired checked).entries := by
  intro hmem
  obtain ⟨-, heq⟩ | ⟨-, outcome, heq, -, houtcome⟩ := handle_message_cases decode node source messageId data arrived checked
    stored
  · rw [heq] at h
    cases h
  · rw [heq, houtcome, SeenCache.insert_of_mem hmem] at h
    cases h

omit [DecidableEq PeerId] in
private theorem mem_of_duplicate {node : GossipNode} {source : PeerId} {messageId data : Bytes} {arrived checked stored : Nat}
    (h : (node.handle decode (.message source messageId data arrived checked stored)).1 = .duplicate) :
    messageId ∈ (node.seenCache.evictExpired checked).entries := by
  by_contra hmem
  obtain ⟨-, heq⟩ | ⟨-, outcome, heq, -, houtcome⟩ := handle_message_cases decode node source messageId data arrived checked
    stored
  · rw [heq] at h
    cases h
  · rw [heq] at h
    obtain rfl : outcome = .duplicate := h
    rw [SeenCache.insert_of_notMem hmem] at houtcome
    cases houtcome

private theorem passesOnce_run (hclock : ClockIncreases events) :
    PassesOnce ttl capacity (trace decode (.new config ttl capacity) events) := by
  intro front first middle second back htrace messageId t t' hfirst hsecond
  have hsplit : trace decode (.new config ttl capacity) events = (front ++ first :: middle) ++ second :: back := by
    rw [htrace, List.append_assoc, List.cons_append]
  obtain ⟨past, event, hleads, hpast, rfl⟩ := trace_split hsplit
  cases event with
  | purgeExpired time => cases hsecond
  | message source messageId' data arrived checked stored =>
      obtain ⟨hcache, hlt⟩ := cacheKeeps_before decode config ttl capacity hclock hleads
      rw [storedEntry, Option.ite_none_right_eq_some] at hsecond
      obtain ⟨hstored, heq⟩ := hsecond
      cases heq
      have hfresh := notMem_of_stored hstored
      rw [hpast] at hcache
      have hmem : (messageId, t) ∈ (front ++ first :: middle).filterMap storedEntry :=
        List.mem_filterMap.mpr ⟨first, List.mem_append_right _ List.mem_cons_self, hfirst⟩
      obtain ⟨ts, hget, -⟩ | hold | hothers := hcache.evictExpired.remembers.forgotten messageId t hmem
      · exact absurd (TreeMap.mem_of_getElem? hget) hfresh
      · rw [hcache.evictExpired.ttl_eq] at hold
        exact Or.inl (hold.trans (Nat.sub_le_sub_right hlt.le t))
      · rw [hcache.evictExpired.capacity_eq] at hothers
        refine Or.inr (hothers.trans (Finset.card_le_card fun other hother => ?_))
        obtain ⟨hne, time, hlogged, hlater⟩ := SeenCache.mem_othersAfter.mp hother
        rw [Finset.mem_erase, List.mem_toFinset, List.mem_map]
        refine ⟨hne, (other, time), ?_, rfl⟩
        have hincreasing := hcache.remembers.increasing
        rw [List.filterMap_append, List.filterMap_cons_some hfirst] at hlogged hincreasing
        obtain hfront | hback := List.mem_append.mp hlogged
        · have hbefore := (List.pairwise_append.mp hincreasing).2.2 _ hfront (messageId, t) List.mem_cons_self
          exact absurd hbefore (Nat.not_lt_of_lt hlater)
        · obtain heq | hmiddle := List.mem_cons.mp hback
          · exact absurd (congrArg Prod.fst heq) hne
          · exact hmiddle

private theorem duplicatesStored_run (hclock : ClockIncreases events) :
    DuplicatesStored ttl (trace decode (.new config ttl capacity) events) := by
  intro front source messageId data arrived checked stored back htrace
  obtain ⟨past, event, hleads, hpast, hentry⟩ := trace_split htrace
  obtain ⟨rfl, houtcome⟩ := Prod.ext_iff.mp hentry
  obtain ⟨hcache, -⟩ := cacheKeeps_before decode config ttl capacity hclock hleads
  obtain ⟨t, hget⟩ := TreeMap.mem_iff.mp (mem_of_duplicate houtcome.symm)
  have hlogged := hcache.evictExpired.remembers.logged messageId t hget
  rw [hpast, List.mem_filterMap] at hlogged
  obtain ⟨entry, hentry, hstored⟩ := hlogged
  rw [SeenCache.evictExpired_get, Option.filter_eq_some_iff, hcache.ttl_eq, decide_eq_true_eq] at hget
  exact ⟨entry, hentry, t, hstored, hget.2⟩

omit [DecidableEq PeerId] in
private theorem seenCache_of_rateLimited {node : GossipNode} (h : (node.handle decode event).1 = .rateLimited) :
    (node.handle decode event).2.seenCache = node.seenCache := by
  cases event with
  | purgeExpired time => cases h
  | message source messageId data arrived checked stored =>
      obtain ⟨-, heq⟩ | ⟨-, outcome, heq, haccepted, -⟩ := handle_message_cases decode node source messageId data arrived
        checked stored
      · rw [heq]
      · rw [heq] at h
        obtain rfl : outcome = .rateLimited := h
        cases haccepted

omit [DecidableEq PeerId] [PeerTexts PeerId] in
theorem exists_gt_readings (events : List (GossipEvent PeerId)) :
    ∃ now, ∀ r ∈ events.flatMap GossipEvent.readings, r < now :=
  ⟨(events.flatMap GossipEvent.readings).sum + 1, fun _ hr => Nat.lt_succ_of_le (List.le_sum_of_mem hr)⟩

private theorem length_accepted_le (hclock : ClockIncreases events) (peer : PeerId) (start : Nat) :
    (((trace decode (.new config ttl capacity) events).filterMap (acceptedTime peer)).filter fun time =>
      start ≤ time ∧ time ≤ start + nanosOfSecs config.windowSecs).length ≤ 2 * config.maxPerWindow.toNat := by
  obtain ⟨now, hnow⟩ := exists_gt_readings events
  obtain ⟨-, hlimiter⟩ := keeps_after decode config ttl capacity hclock hnow
  obtain ⟨admitted, htimes, hcounts⟩ := hlimiter.counts peer
  rw [← htimes]
  exact hcounts.spaced.length_le start

/-! ### Capacity zero -/

omit [PeerTexts PeerId] in
private theorem filterMap_storedEntry_eq_nil {trace : List (GossipEvent PeerId × GossipOutcome Message)}
    (h : ∀ peer : PeerId, trace.filterMap (acceptedTime peer) = []) : trace.filterMap storedEntry = [] := by
  rw [List.filterMap_eq_nil_iff]
  rintro ⟨event, outcome⟩ hmem
  cases event with
  | purgeExpired time => rfl
  | message source messageId data arrived checked stored =>
      have hnone := List.filterMap_eq_nil_iff.mp (h source) _ hmem
      have hdropped : ¬ outcome.accepted = true := fun haccepted => by
        rw [acceptedTime, if_pos ⟨rfl, haccepted⟩] at hnone
        cases hnone
      refine if_neg fun hstored => hdropped ?_
      cases outcome with
      | rateLimited => cases hstored
      | duplicate => cases hstored
      | purged => cases hstored
      | delivered message => rfl
      | undecodable => rfl

omit [DecidableEq PeerId] [PeerTexts PeerId] in
private theorem size_eq_zero_of_log {trace : List (GossipEvent PeerId × GossipOutcome Message)} {cache : SeenCache}
    (h : CacheKeeps ttl capacity trace now cache) (hlog : trace.filterMap storedEntry = []) : cache.entries.size = 0 := by
  have hempty : cache.entries = ∅ := by
    refine Std.ExtTreeMap.ext_getElem? fun x => ?_
    rw [Std.ExtTreeMap.getElem?_empty]
    by_contra hsome
    obtain ⟨t, hget⟩ := Option.ne_none_iff_exists'.mp hsome
    have hmem := h.remembers.logged x t hget
    rw [hlog] at hmem
    cases hmem
  rw [hempty, Std.ExtTreeMap.size_empty]

private theorem filterMap_acceptedTime_eq_nil {trace : List (GossipEvent PeerId × GossipOutcome Message)}
    {limiter : RateLimiter}
    (h : LimiterKeeps config trace now limiter) (hmax : config.maxPerWindow = 0) (peer : PeerId) :
    trace.filterMap (acceptedTime peer) = [] := by
  obtain ⟨admitted, htimes, hcounts⟩ := h.counts peer
  have hempty : admitted = [] := by
    refine List.eq_nil_iff_forall_not_mem.mpr fun e he => ?_
    have hpos := List.count_pos_iff.mpr (List.mem_map_of_mem (f := Prod.snd) he)
    have hle := hcounts.spaced.count_le e.2
    rw [hmax] at hle
    exact absurd hpos (Nat.not_lt_of_le hle)
  rw [← htimes, hempty, List.map_nil]

omit [DecidableEq PeerId] in
private theorem rateLimiter_after_purges (decode : Bytes → Option Message) (config : RateLimitConfig) (ttl : Nat)
    (capacity : UInt64)
    (h : ∀ event ∈ past, event.isMessage = false) :
    (after decode (.new config ttl capacity) past).rateLimiter.config = config ∧
      ∀ peer : PeerId, (after decode (.new config ttl capacity) past).rateLimiter.bucketOf peer = none := by
  induction past using List.reverseRecOn with
  | nil => exact ⟨rfl, fun peer => congrArg (Option.map RateLimiter.toBucket) Std.ExtTreeMap.getElem?_empty⟩
  | append_singleton past event ih =>
      obtain ⟨hconfig, hnone⟩ := ih fun earlier hearlier => h earlier (List.mem_append_left _ hearlier)
      have hpurge := h event (List.mem_append_right _ (List.mem_singleton_self event))
      rw [after_concat]
      cases event with
      | purgeExpired time =>
          refine ⟨hconfig, fun peer => ?_⟩
          show (RateLimiter.purgeExpired _ time).bucketOf peer = none
          rw [RateLimiter.bucketOf_purgeExpired, hnone peer]
          rfl
      | message source messageId data arrived checked stored => cases hpurge

omit [DecidableEq PeerId] in
theorem first_message_stored {source : PeerId} {messageId data : Bytes} {arrived checked stored : Nat}
    (hmax : config.maxPerWindow ≠ 0) (hfirst : ∀ event ∈ past, event.isMessage = false) :
    0 < (after decode (.new config ttl capacity)
      (past ++ [.message source messageId data arrived checked stored])).seenCache.entries.size := by
  obtain ⟨hconfig, hnone⟩ := rateLimiter_after_purges decode config ttl capacity hfirst
  rw [after_concat]
  obtain ⟨hdropped, -⟩ | ⟨-, outcome, heq, -, -⟩ := handle_message_cases decode
    (after decode (.new config ttl capacity) past) source messageId data arrived checked stored
  · have hroom : ((after decode (.new config ttl capacity) past).rateLimiter.currentOf source arrived).count <
        (after decode (.new config ttl capacity) past).rateLimiter.config.maxPerWindow.toNat := by
      rw [RateLimiter.currentOf, hnone source, hconfig]
      exact Nat.pos_of_ne_zero fun hzero => hmax (UInt64.toNat_inj.mp hzero)
    obtain ⟨b, hallow, -⟩ := RateLimiter.allow_of_room hroom
    rw [hallow] at hdropped
    cases hdropped
  · rw [heq]
    exact SeenCache.size_insert_pos

private theorem size_le_capacity_iff (hclock : ClockIncreases events) :
    (∀ past, past <+: events →
      (after decode (.new config ttl capacity) past).seenCache.entries.size ≤ capacity.toNat) ↔
    capacity ≠ 0 ∨ config.maxPerWindow = 0 ∨ ∀ event ∈ events, event.isMessage = false := by
  refine ⟨fun h => ?_, fun h past hleads => ?_⟩
  · by_contra hnot
    simp only [not_or, not_not, not_forall, Bool.not_eq_false] at hnot
    obtain ⟨hcapacity, hmax, message, hmem, hmessage⟩ := hnot
    obtain ⟨first, hfound⟩ := Option.isSome_iff_exists.mp (List.find?_isSome.mpr ⟨message, hmem, hmessage⟩)
    obtain ⟨hfirst, before, rest, rfl, hbefore⟩ := List.find?_eq_some_iff_append.mp hfound
    cases first with
    | purgeExpired time => cases hfirst
    | message source messageId data arrived checked stored =>
        have hstored := h (before ++ [.message source messageId data arrived checked stored])
          ⟨rest, by rw [List.append_assoc]; rfl⟩
        rw [hcapacity] at hstored
        refine absurd hstored (Nat.not_le_of_lt (first_message_stored hmax fun event hevent => ?_))
        simpa using hbefore event hevent
  · obtain ⟨now, hnow⟩ := exists_gt_readings past
    obtain ⟨hcache, hlimiter⟩ := keeps_after decode config ttl capacity (hclock.of_prefix hleads) hnow
    obtain hcapacity | hnothing := h
    · have hpos : capacity.toNat ≠ 0 := fun hzero => hcapacity (UInt64.toNat_inj.mp hzero)
      have hsize := hcache.size_le
      omega
    · have hlog : (trace decode (.new config ttl capacity) past).filterMap storedEntry = [] := by
        obtain hmax | hpurges := hnothing
        · exact filterMap_storedEntry_eq_nil fun peer => filterMap_acceptedTime_eq_nil hlimiter hmax peer
        · rw [List.filterMap_eq_nil_iff]
          rintro ⟨event, outcome⟩ hentry
          have hevent : event ∈ past := by
            rw [← map_fst_trace decode (.new config ttl capacity) past]
            exact List.mem_map_of_mem hentry
          have hpurge := hpurges event (hleads.subset hevent)
          cases event with
          | purgeExpired time => rfl
          | message source messageId data arrived checked stored => cases hpurge
      rw [size_eq_zero_of_log hcache hlog]
      exact Nat.zero_le _

/-- **Gossip limits.** For every run with an increasing clock, every decoder, capacity, time to live and rate limit: the cache stays within its capacity exactly if that is not zero or nothing passes the limiter, a message goes on a second time only when its time was up or as many others as the capacity came in between, a duplicate is one of a copy that was stored and a dropped message leaves no mark, and no interval of one window sees more than twice the limit accepted from a peer, whenever the limiter is purged. -/
theorem gossip_limits_iff (decode : Bytes → Option Message) (config : RateLimitConfig) (ttl : Nat) (capacity : UInt64)
    (events : List (GossipEvent PeerId)) (hclock : ClockIncreases events) :
    ((∀ past, past <+: events →
        (after decode (.new config ttl capacity) past).seenCache.entries.size ≤ capacity.toNat) ↔
      capacity ≠ 0 ∨ config.maxPerWindow = 0 ∨ ∀ event ∈ events, event.isMessage = false) ∧
    PassesOnce ttl capacity (trace decode (.new config ttl capacity) events) ∧
    (DuplicatesStored ttl (trace decode (.new config ttl capacity) events) ∧
      ∀ (node : GossipNode) (event : GossipEvent PeerId), (node.handle decode event).1 = .rateLimited →
        (node.handle decode event).2.seenCache = node.seenCache) ∧
    ∀ (peer : PeerId) (start : Nat),
      (((trace decode (.new config ttl capacity) events).filterMap (acceptedTime peer)).filter fun time =>
        start ≤ time ∧ time ≤ start + nanosOfSecs config.windowSecs).length ≤ 2 * config.maxPerWindow.toNat :=
  ⟨size_le_capacity_iff hclock, passesOnce_run hclock, ⟨duplicatesStored_run hclock, fun _ _ => seenCache_of_rateLimited⟩,
    length_accepted_le hclock⟩

end Run

/-! ### Two copies -/

/-- Two copies of a message, and a purge between them. -/
def twoCopies : List (GossipEvent String) :=
  [.message "a" [1] [] 1 2 3, .purgeExpired 4, .message "b" [1] [] 5 6 7]

theorem clockIncreases_twoCopies : ClockIncreases twoCopies := by
  show ([1, 2, 3, 4, 5, 6, 7] : List Nat).Pairwise (· < ·)
  decide

/-- Within a capacity of two. -/
theorem gossip_limits_two :
    (GossipNode.after (fun data => some data) (.new ⟨100, 10⟩ 60 2) twoCopies).seenCache.entries.size ≤ 2 :=
  (gossip_limits_iff (fun data => some data) ⟨100, 10⟩ 60 2 twoCopies clockIncreases_twoCopies).1.mpr (Or.inl (by decide))
    twoCopies List.prefix_rfl

/-- A cache of capacity zero holds the message it has just seen. -/
theorem seenCache_of_capacity_zero_holds_one :
    ¬ ∀ (config : RateLimitConfig) (ttl : Nat) (capacity : UInt64) (events : List (GossipEvent String)),
      ClockIncreases events → ∀ past, past <+: events →
        (GossipNode.after (fun data => some data) (.new config ttl capacity) past).seenCache.entries.size ≤ capacity.toNat := by
  intro hclaim
  have hsize := hclaim ⟨100, 10⟩ 60 0 twoCopies clockIncreases_twoCopies [.message "a" [1] [] 1 2 3]
    (List.cons_prefix_cons.mpr ⟨rfl, List.nil_prefix⟩)
  have hmax : (⟨100, 10⟩ : RateLimitConfig).maxPerWindow ≠ 0 := by decide
  have hstored : 0 < (GossipNode.after (fun data => some data) (.new ⟨100, 10⟩ 60 0)
      ([] ++ [GossipEvent.message "a" [1] [] 1 2 3])).seenCache.entries.size :=
    first_message_stored hmax fun event hevent => absurd hevent List.not_mem_nil
  exact absurd hsize (Nat.not_le_of_lt hstored)

end QuantumVault
