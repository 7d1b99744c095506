import QuantumVault.Core.Types
import QuantumVault.Lib.Word
import QuantumVault.Net.Peer

/-!
# Gossip messages

What happens to a message before the rest of the node hears of it: a limiter per peer, then a cache of the messages seen recently, then the decoder. Times and durations are nanoseconds of the monotonic clock, and every reading is an argument.
-/

namespace QuantumVault

def nanosOfSecs (secs : UInt64) : Nat := secs.toNat * 10 ^ 9

/-! ### The messages seen -/

structure SeenCache where
  entries : Std.ExtTreeMap Bytes Nat
  ttl : Nat
  capacity : UInt64

namespace SeenCache

def new (ttl : Nat) (capacity : UInt64) : SeenCache := ⟨∅, ttl, capacity⟩

def evictExpired (cache : SeenCache) (now : Nat) : SeenCache :=
  { cache with entries := cache.entries.filter fun _ ts => now - ts < cache.ttl }

/-- The source takes any of the oldest entries. At different times there is only one. -/
def evictOldest (cache : SeenCache) : SeenCache :=
  match cache.entries.toList.argmin Prod.snd with
  | some (oldestKey, _) => { cache with entries := cache.entries.erase oldestKey }
  | none => cache

/-- Whether the message was already seen, and the cache afterwards. The clock is read when expired entries are dropped and again when the message is stored. -/
def insert (cache : SeenCache) (hash : Bytes) (checked stored : Nat) : Bool × SeenCache :=
  let cache := cache.evictExpired checked
  if hash ∈ cache.entries then (true, cache)
  else
    let cache := if cache.capacity.toNat ≤ cache.entries.size then cache.evictOldest else cache
    (false, { cache with entries := cache.entries.insert hash stored })

end SeenCache

/-! ### The limiter -/

structure RateLimitConfig where
  maxPerWindow : UInt64
  windowSecs : UInt64
deriving DecidableEq

structure PeerBucket where
  count : UInt64
  windowStart : Nat
deriving DecidableEq

structure RateLimiter where
  config : RateLimitConfig
  buckets : Std.ExtTreeMap String PeerBucket

namespace RateLimiter

def new (config : RateLimitConfig) : RateLimiter := ⟨config, ∅⟩

/-- Whether a message from the peer is within the limit, and the limiter afterwards. -/
def allow {PeerId : Type} [PeerTexts PeerId] (limiter : RateLimiter) (peer : PeerId) (now : Nat) : Bool × RateLimiter :=
  let key := PeerTexts.toText peer
  let window := nanosOfSecs limiter.config.windowSecs
  let bucket := limiter.buckets[key]?.getD ⟨0, now⟩
  let bucket := if window ≤ now - bucket.windowStart then ⟨0, now⟩ else bucket
  if limiter.config.maxPerWindow ≤ bucket.count then (false, { limiter with buckets := limiter.buckets.insert key bucket })
  else
    (true, { limiter with
      buckets := limiter.buckets.insert key { bucket with count := Word.saturatingAdd bucket.count 1 } })

def purgeExpired (limiter : RateLimiter) (now : Nat) : RateLimiter :=
  let window := nanosOfSecs limiter.config.windowSecs
  { limiter with buckets := limiter.buckets.filter fun _ b => now - b.windowStart < window }

end RateLimiter

/-! ### The handler -/

/-- A gossip message, with the readings of the clock while it is handled, or a purge of the limiter. -/
inductive GossipEvent (PeerId : Type) where
  | message (propagationSource : PeerId) (messageId data : Bytes) (arrived checked stored : Nat)
  | purgeExpired (now : Nat)

inductive GossipOutcome (Message : Type) where
  | rateLimited
  | duplicate
  | delivered (message : Message)
  | undecodable
  | purged
deriving DecidableEq

structure GossipNode where
  rateLimiter : RateLimiter
  seenCache : SeenCache

namespace GossipNode

variable {PeerId Message : Type} [PeerTexts PeerId]

def new (rateLimit : RateLimitConfig) (ttl : Nat) (capacity : UInt64) : GossipNode :=
  ⟨.new rateLimit, .new ttl capacity⟩

/-- One round of the event loop, for a decoder of envelopes. -/
def handle (decode : Bytes → Option Message) (node : GossipNode) :
    GossipEvent PeerId → GossipOutcome Message × GossipNode
  | .message propagationSource messageId data arrived checked stored =>
      let (allowed, rateLimiter) := node.rateLimiter.allow propagationSource arrived
      if allowed = false then (.rateLimited, { node with rateLimiter := rateLimiter })
      else
        let (seen, seenCache) := node.seenCache.insert messageId checked stored
        if seen = true then (.duplicate, ⟨rateLimiter, seenCache⟩)
        else
          match decode data with
          | some message => (.delivered message, ⟨rateLimiter, seenCache⟩)
          | none => (.undecodable, ⟨rateLimiter, seenCache⟩)
  | .purgeExpired now => (.purged, { node with rateLimiter := node.rateLimiter.purgeExpired now })

end GossipNode

end QuantumVault
