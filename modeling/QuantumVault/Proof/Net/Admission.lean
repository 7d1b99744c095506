import QuantumVault.Lib.FixedWindow
import QuantumVault.Net.Gossip

/-!
# What the cache and the limiter know of the past

The cache forgets a message only when its time is up or when enough others have come in since. The limiter counts in fixed windows, one bucket for each peer.
-/

namespace QuantumVault

open TreeMap

/-! ### The cache -/

namespace SeenCache

variable {cache : SeenCache} {now later : Nat} {log : List (Bytes × Nat)} {x y : Bytes} {t : Nat}

theorem evictExpired_get : (cache.evictExpired now).entries[x]? =
    cache.entries[x]?.filter fun ts => now - ts < cache.ttl :=
  Std.ExtTreeMap.getElem?_filter'

private theorem evictOldest_eq (h : 0 < cache.entries.size) : ∃ oldest ts, cache.entries[oldest]? = some ts ∧
    (∀ (other : Bytes) (ts' : Nat), cache.entries[other]? = some ts' → ts ≤ ts') ∧
    cache.evictOldest = { cache with entries := cache.entries.erase oldest } := by
  have hsome : cache.entries.toList.argmin Prod.snd ≠ none := by
    intro hnone
    rw [List.argmin_eq_none] at hnone
    rw [← Std.ExtTreeMap.length_toList, hnone] at h
    exact absurd h (lt_irrefl 0)
  obtain ⟨⟨oldest, ts⟩, hmin⟩ := Option.ne_none_iff_exists'.mp hsome
  refine ⟨oldest, ts, ?_, fun other ts' hget => ?_, ?_⟩
  · exact Std.ExtTreeMap.mem_toList_iff_getElem?_eq_some.mp (List.argmin_mem hmin)
  · exact List.le_of_mem_argmin (Std.ExtTreeMap.mem_toList_iff_getElem?_eq_some.mpr hget) hmin
  · rw [evictOldest, hmin]

/-- The ids stored after a time, apart from one. -/
def othersAfter (log : List (Bytes × Nat)) (x : Bytes) (t : Nat) : Finset Bytes :=
  ((log.filter fun e => t < e.2).map Prod.fst).toFinset.erase x

theorem mem_othersAfter : y ∈ othersAfter log x t ↔ y ≠ x ∧ ∃ t', (y, t') ∈ log ∧ t < t' := by
  simp [othersAfter]

/-- What the cache says before a time about everything that was stored in it. -/
structure Remembers (cache : SeenCache) (log : List (Bytes × Nat)) (now : Nat) : Prop where
  increasing : log.Pairwise fun a b => a.2 < b.2
  past : ∀ e ∈ log, e.2 < now
  logged : ∀ x t, cache.entries[x]? = some t → (x, t) ∈ log
  forgotten : ∀ x t, (x, t) ∈ log → (∃ t', cache.entries[x]? = some t' ∧ t ≤ t') ∨ cache.ttl ≤ now - t ∨
    cache.capacity.toNat ≤ (othersAfter log x t).card

theorem Remembers.mono (h : cache.Remembers log now) (hle : now ≤ later) : cache.Remembers log later where
  increasing := h.increasing
  past e he := (h.past e he).trans_le hle
  logged := h.logged
  forgotten x t hmem := (h.forgotten x t hmem).imp_right fun h => h.imp_left fun hold => hold.trans (Nat.sub_le_sub_right hle t)

theorem Remembers.evictExpired (h : cache.Remembers log now) : (cache.evictExpired now).Remembers log now where
  increasing := h.increasing
  past := h.past
  logged x t hget := by
    rw [evictExpired_get, Option.filter_eq_some_iff] at hget
    exact h.logged x t hget.1
  forgotten x t hmem := by
    obtain ⟨t', hget, hle⟩ | hgone := h.forgotten x t hmem
    · rw [evictExpired_get, hget, Option.filter_some]
      by_cases hnew : now - t' < cache.ttl
      · exact Or.inl ⟨t', by rw [if_pos (by simpa using hnew)], hle⟩
      · refine Or.inr (Or.inl ?_)
        show cache.ttl ≤ now - t
        omega
    · exact Or.inr hgone

private theorem Remembers.eq_of_time (h : cache.Remembers log now) (hx : (x, t) ∈ log) (hy : (y, t) ∈ log) : x = y := by
  have hnodup : (log.map Prod.snd).Nodup := List.pairwise_map.mpr (h.increasing.imp ne_of_lt)
  exact congrArg Prod.fst (List.inj_on_of_nodup_map hnodup hx hy rfl)

theorem card_keys (m : Std.ExtTreeMap Bytes Nat) : m.keys.toFinset.card = m.size := by
  rw [List.toFinset_card_of_nodup, Std.ExtTreeMap.length_keys]
  exact Std.ExtTreeMap.map_fst_toList_eq_keys (t := m) ▸ nodup_keys_toList m

theorem size_pos (hget : cache.entries[x]? = some t) : 0 < cache.entries.size := by
  rw [← card_keys, Finset.card_pos]
  refine ⟨x, ?_⟩
  rw [List.mem_toFinset, Std.ExtTreeMap.mem_keys]
  exact mem_of_getElem? hget

private theorem Remembers.size_le_others (h : cache.Remembers log now) (hfresh : y ∉ cache.entries) (hnow : now ≤ later)
    {oldest : Bytes} {ts : Nat} (hget : cache.entries[oldest]? = some ts)
    (hmin : ∀ (other : Bytes) (ts' : Nat), cache.entries[other]? = some ts' → ts ≤ ts') (hle : t ≤ ts) :
    cache.entries.size ≤ (othersAfter (log ++ [(y, later)]) oldest t).card := by
  have hold := h.logged oldest ts hget
  have hmem : oldest ∈ cache.entries.keys.toFinset := by
    rw [List.mem_toFinset, Std.ExtTreeMap.mem_keys]
    exact mem_of_getElem? hget
  have hnew : y ∉ cache.entries.keys.toFinset.erase oldest := by
    rw [Finset.mem_erase, List.mem_toFinset, Std.ExtTreeMap.mem_keys]
    exact fun hin => hfresh hin.2
  have hsub : (cache.entries.keys.toFinset.erase oldest).cons y hnew ⊆ othersAfter (log ++ [(y, later)]) oldest t := by
    intro z hz
    rw [mem_othersAfter]
    obtain rfl | hz := Finset.mem_cons.mp hz
    · refine ⟨?_, later, List.mem_append_right _ (List.mem_singleton_self _), hle.trans_lt ((h.past _ hold).trans_le hnow)⟩
      rintro rfl
      exact hfresh (mem_of_getElem? hget)
    · obtain ⟨hne, hkey⟩ := Finset.mem_erase.mp hz
      rw [List.mem_toFinset, Std.ExtTreeMap.mem_keys, mem_iff] at hkey
      obtain ⟨tz, hz⟩ := hkey
      have hlog := h.logged z tz hz
      refine ⟨hne, tz, List.mem_append_left _ hlog, hle.trans_lt (lt_of_le_of_ne (hmin z tz hz) ?_)⟩
      rintro rfl
      exact hne (h.eq_of_time hlog hold)
  refine le_trans (le_of_eq ?_) (Finset.card_le_card hsub)
  rw [Finset.card_cons, Finset.card_erase_of_mem hmem, card_keys]
  have hpos := size_pos hget
  omega

def room (cache : SeenCache) : SeenCache :=
  if cache.capacity.toNat ≤ cache.entries.size then cache.evictOldest else cache

theorem insert_of_mem {checked stored : Nat} (h : x ∈ (cache.evictExpired checked).entries) :
    cache.insert x checked stored = (true, cache.evictExpired checked) := by
  rw [SeenCache.insert]
  exact if_pos h

theorem insert_of_notMem {checked stored : Nat} (h : x ∉ (cache.evictExpired checked).entries) :
    cache.insert x checked stored = (false, { (cache.evictExpired checked).room with
      entries := (cache.evictExpired checked).room.entries.insert x stored }) := by
  rw [SeenCache.insert]
  exact if_neg h

theorem room_cases (cache : SeenCache) : (cache.room = cache ∧ (cache.capacity.toNat ≤ cache.entries.size → cache.entries.size = 0)) ∨
    cache.capacity.toNat ≤ cache.entries.size ∧ ∃ oldest ts, cache.entries[oldest]? = some ts ∧
      (∀ (other : Bytes) (ts' : Nat), cache.entries[other]? = some ts' → ts ≤ ts') ∧
      cache.room = { cache with entries := cache.entries.erase oldest } := by
  rw [room]
  by_cases hfull : cache.capacity.toNat ≤ cache.entries.size
  · rw [if_pos hfull]
    obtain hzero | hpos := Nat.eq_zero_or_pos cache.entries.size
    · refine Or.inl ⟨?_, fun _ => hzero⟩
      rw [evictOldest, List.length_eq_zero_iff.mp (Std.ExtTreeMap.length_toList.trans hzero)]
      rfl
    · exact Or.inr ⟨hfull, evictOldest_eq hpos⟩
  · exact Or.inl ⟨if_neg hfull, fun h => absurd h hfull⟩

theorem room_config (cache : SeenCache) : cache.room.ttl = cache.ttl ∧ cache.room.capacity = cache.capacity := by
  obtain ⟨heq, -⟩ | ⟨-, oldest, ts, -, -, heq⟩ := cache.room_cases
  · rw [heq]
    exact ⟨rfl, rfl⟩
  · rw [heq]
    exact ⟨rfl, rfl⟩

theorem Remembers.store (h : cache.Remembers log now) (hfresh : y ∉ cache.entries) (hnow : now ≤ later) :
    SeenCache.Remembers { cache.room with entries := cache.room.entries.insert y later } (log ++ [(y, later)]) (later + 1) := by
  have hkept {z : Bytes} {tz : Nat} (hz : cache.room.entries[z]? = some tz) : cache.entries[z]? = some tz := by
    obtain ⟨heq, -⟩ | ⟨-, oldest, ts, -, -, heq⟩ := cache.room_cases
    · rwa [heq] at hz
    · rw [heq, getElem?_erase] at hz
      split at hz
      · cases hz
      · exact hz
  refine ⟨?_, ?_, fun z tz hz => ?_, fun z tz hmem => ?_⟩
  · rw [List.pairwise_append]
    refine ⟨h.increasing, List.pairwise_singleton _ _, fun a ha b hb => ?_⟩
    obtain rfl := List.mem_singleton.mp hb
    exact (h.past a ha).trans_le hnow
  · intro e he
    obtain he | he := List.mem_append.mp he
    · exact ((h.past e he).trans_le hnow).trans (Nat.lt_succ_self later)
    · obtain rfl := List.mem_singleton.mp he
      exact Nat.lt_succ_self later
  · dsimp only at hz
    rw [getElem?_insert] at hz
    split at hz
    · next heq =>
        cases hz
        exact List.mem_append_right _ (heq ▸ List.mem_singleton_self _)
    · exact List.mem_append_left _ (h.logged z tz (hkept hz))
  · dsimp only
    rw [cache.room_config.1, cache.room_config.2]
    obtain hold | hnew := List.mem_append.mp hmem
    · obtain ⟨t', hget, hle⟩ | hgone | hgone := h.forgotten z tz hold
      · have hne : y ≠ z := by
          rintro rfl
          exact hfresh (mem_of_getElem? hget)
        rw [getElem?_insert_of_ne hne]
        obtain ⟨heq, -⟩ | ⟨hfull, oldest, ts, holdest, hmin, heq⟩ := cache.room_cases
        · rw [heq]
          exact Or.inl ⟨t', hget, hle⟩
        · rw [heq, getElem?_erase]
          by_cases hevicted : oldest = z
          · subst hevicted
            cases holdest.symm.trans hget
            exact Or.inr (Or.inr (hfull.trans (h.size_le_others hfresh hnow hget hmin hle)))
          · rw [if_neg hevicted]
            exact Or.inl ⟨t', hget, hle⟩
      · refine Or.inr (Or.inl (hgone.trans ?_))
        omega
      · refine Or.inr (Or.inr (hgone.trans (Finset.card_le_card fun w hw => ?_)))
        obtain ⟨hne, t', hmem', hlt⟩ := mem_othersAfter.mp hw
        exact mem_othersAfter.mpr ⟨hne, t', List.mem_append_left _ hmem', hlt⟩
    · cases List.mem_singleton.mp hnew
      exact Or.inl ⟨later, Std.ExtTreeMap.getElem?_insert_self, le_rfl⟩

theorem size_room (h : cache.entries.size ≤ max cache.capacity.toNat 1) :
    cache.room.entries.size + 1 ≤ max cache.capacity.toNat 1 := by
  obtain ⟨heq, hzero⟩ | ⟨-, oldest, ts, hget, -, heq⟩ := cache.room_cases
  · rw [heq]
    omega
  · rw [heq]
    dsimp only
    have hpos := size_pos hget
    rw [Std.ExtTreeMap.size_erase, if_pos (Std.ExtTreeMap.contains_iff_mem.mpr (mem_of_getElem? hget))]
    omega

theorem size_insert_pos {checked stored : Nat} : 0 < (cache.insert x checked stored).2.entries.size := by
  by_cases hmem : x ∈ (cache.evictExpired checked).entries
  · rw [insert_of_mem hmem]
    obtain ⟨t, hget⟩ := mem_iff.mp hmem
    exact size_pos hget
  · rw [insert_of_notMem hmem]
    exact size_pos Std.ExtTreeMap.getElem?_insert_self

end SeenCache

/-! ### The limiter -/

namespace RateLimiter

open FixedWindow

variable {PeerId : Type} [PeerTexts PeerId] {limiter : RateLimiter} {peer other : PeerId} {now : Nat}

def window (limiter : RateLimiter) : Nat := nanosOfSecs limiter.config.windowSecs

/-- The bucket, counting in natural numbers. -/
def toBucket (b : PeerBucket) : Bucket := ⟨b.count.toNat, b.windowStart⟩

def bucketOf (limiter : RateLimiter) (peer : PeerId) : Option Bucket :=
  limiter.buckets[PeerTexts.toText peer]?.map toBucket

/-- The bucket that counts a message of the peer. -/
def currentOf (limiter : RateLimiter) (peer : PeerId) (now : Nat) : Bucket :=
  current limiter.window now (limiter.bucketOf peer)

/-- The same bucket as the limiter finds it. -/
def found (limiter : RateLimiter) (peer : PeerId) (now : Nat) : PeerBucket :=
  let bucket := limiter.buckets[PeerTexts.toText peer]?.getD ⟨0, now⟩
  if limiter.window ≤ now - bucket.windowStart then ⟨0, now⟩ else bucket

theorem toBucket_found : toBucket (limiter.found peer now) = limiter.currentOf peer now := by
  rw [found, currentOf, bucketOf]
  cases limiter.buckets[PeerTexts.toText peer]? with
  | none =>
      dsimp only [Option.getD_none]
      split <;> rfl
  | some b =>
      dsimp only [Option.getD_some, Option.map_some, current, toBucket]
      split <;> rfl

def withBucket (limiter : RateLimiter) (peer : PeerId) (b : PeerBucket) : RateLimiter :=
  { limiter with buckets := limiter.buckets.insert (PeerTexts.toText peer) b }

theorem bucketOf_withBucket_self {b : PeerBucket} : (limiter.withBucket peer b).bucketOf peer = some (toBucket b) := by
  rw [bucketOf, withBucket, Std.ExtTreeMap.getElem?_insert_self, Option.map_some]

theorem bucketOf_withBucket_of_ne {b : PeerBucket} (h : other ≠ peer) :
    (limiter.withBucket peer b).bucketOf other = limiter.bucketOf other := by
  rw [bucketOf, withBucket, getElem?_insert_of_ne fun heq => h (PeerTexts.toText_inj _ _ heq.symm), bucketOf]

/-- **A message out of limit.** The bucket may be a new one. -/
theorem allow_of_full (h : limiter.config.maxPerWindow.toNat ≤ (limiter.currentOf peer now).count) :
    limiter.allow peer now = (false, limiter.withBucket peer (limiter.found peer now)) := by
  rw [← toBucket_found] at h
  exact if_pos (UInt64.le_iff_toNat_le.mpr h)

/-- **A message within the limit.** It is counted. -/
theorem allow_of_room (h : (limiter.currentOf peer now).count < limiter.config.maxPerWindow.toNat) :
    ∃ b, limiter.allow peer now = (true, limiter.withBucket peer b) ∧
      toBucket b = { limiter.currentOf peer now with count := (limiter.currentOf peer now).count + 1 } := by
  have hroom : ¬ limiter.config.maxPerWindow ≤ (limiter.found peer now).count := by
    rw [UInt64.le_iff_toNat_le]
    rw [← toBucket_found] at h
    exact Nat.not_le_of_lt h
  refine ⟨{ limiter.found peer now with count := Word.saturatingAdd (limiter.found peer now).count 1 }, if_neg hroom, ?_⟩
  have hsat := Word.toNat_saturatingAdd (limiter.found peer now).count 1
  have hmax := limiter.config.maxPerWindow.toNat_lt
  have hcount : (limiter.found peer now).count.toNat < limiter.config.maxPerWindow.toNat := by
    rw [← toBucket_found] at h
    exact h
  have hone : (1 : UInt64).toNat = 1 := rfl
  rw [← toBucket_found, toBucket, toBucket]
  congr 1
  dsimp only
  omega

theorem bucketOf_purgeExpired : (limiter.purgeExpired now).bucketOf peer = purge limiter.window now (limiter.bucketOf peer) := by
  rw [bucketOf, purgeExpired]
  dsimp only
  rw [Std.ExtTreeMap.getElem?_filter', purge, bucketOf]
  cases limiter.buckets[PeerTexts.toText peer]? with
  | none => rfl
  | some b =>
      rw [Option.filter_some, Option.map_some, Option.filter_some]
      exact apply_ite (Option.map toBucket) _ _ _

end RateLimiter

end QuantumVault
