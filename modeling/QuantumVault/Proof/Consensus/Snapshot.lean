import QuantumVault.Consensus.Stake
import QuantumVault.Lib.TreeMap

/-!
# Stake snapshots

A snapshot is built from one listing, the pledges of the active pools followed by the delegations to them. The stake of a pool is clamped to the word, the total is not: the snapshot fails when the clamped stakes do not add up within a word. So a clamped stake shows only when every other pool has none.
-/

namespace QuantumVault

open Result

namespace StakeDistribution

/-- What a snapshot adds up: the pledges of the active pools and the delegations to them. -/
def stakeEntries (pools : List StakePool) (delegations : List Delegation) : List (PoolId × UInt64) :=
  (pools.filter StakePool.active).map (fun pool => (pool.id, pool.pledge)) ++
    (delegations.filter fun d => d.poolId ∈ (pools.filter StakePool.active).map StakePool.id).map
      fun d => (d.poolId, d.amount)

/-- The exact stake of a pool: its pledge and all delegations to it. A pool that is not active has none. -/
def exactStake (entries : List (PoolId × UInt64)) (pool : PoolId) : Nat :=
  ((entries.filter fun entry => entry.1 = pool).map fun entry => entry.2.toNat).sum

def poolIds (entries : List (PoolId × UInt64)) : List PoolId := (entries.map Prod.fst).dedup

def exactTotal (entries : List (PoolId × UInt64)) : Nat := ((poolIds entries).map (exactStake entries)).sum

def stakeIn (stakes : Std.ExtTreeMap PoolId UInt64) (pool : PoolId) : Nat := (stakes[pool]?.getD (0 : UInt64)).toNat

variable {stakes : Std.ExtTreeMap PoolId UInt64} {entries : List (PoolId × UInt64)} {entry : PoolId × UInt64} {pool : PoolId}

theorem stakeIn_lt : stakeIn stakes pool < 2 ^ 64 := UInt64.toNat_lt _

theorem stakeIn_empty : stakeIn ∅ pool = 0 := by
  rw [stakeIn, Std.ExtTreeMap.getElem?_empty]
  rfl

theorem exactStake_cons : exactStake (entry :: entries) pool = exactStake [entry] pool + exactStake entries pool := by
  by_cases hpool : entry.1 = pool <;> simp [exactStake, hpool]

theorem exactStake_eq_zero (h : pool ∉ entries.map Prod.fst) : exactStake entries pool = 0 := by
  rw [exactStake, List.filter_eq_nil_iff.mpr]
  · rfl
  · intro entry hentry hpool
    exact h (List.mem_map.mpr ⟨entry, hentry, by simpa using hpool⟩)

/-! ### Adding stakes -/

theorem addStake_eq (stakes : Std.ExtTreeMap PoolId UInt64) (entry : PoolId × UInt64) :
    ∃ s, addStake stakes entry = stakes.insert entry.1 s ∧ s.toNat = min (stakeIn stakes entry.1 + entry.2.toNat) (2 ^ 64 - 1) := by
  have hentry := UInt64.toNat_lt entry.2
  cases h : stakes[entry.1]? with
  | some s =>
      refine ⟨Word.saturatingAdd s entry.2, by rw [addStake, h], ?_⟩
      rw [Word.toNat_saturatingAdd, stakeIn, h, Option.getD_some]
  | none =>
      refine ⟨entry.2, by rw [addStake, h], ?_⟩
      rw [stakeIn, h, Option.getD_none, UInt64.toNat_zero]
      omega

private theorem stakeIn_addStake (stakes : Std.ExtTreeMap PoolId UInt64) (entry : PoolId × UInt64) (pool : PoolId) :
    stakeIn (addStake stakes entry) pool = min (stakeIn stakes pool + exactStake [entry] pool) (2 ^ 64 - 1) := by
  obtain ⟨s, hstakes, hs⟩ := addStake_eq stakes entry
  by_cases hpool : entry.1 = pool
  · have hsame : exactStake [entry] pool = entry.2.toNat := by simp [exactStake, hpool]
    rw [hsame, ← hpool, ← hs, hstakes, stakeIn, Std.ExtTreeMap.getElem?_insert_self, Option.getD_some]
  · have hother : exactStake [entry] pool = 0 := by simp [exactStake, hpool]
    have hold : stakeIn stakes pool < 2 ^ 64 := stakeIn_lt
    rw [hother, hstakes, stakeIn, TreeMap.getElem?_insert_of_ne hpool, ← stakeIn]
    omega

/-- **The stake of every pool** is its exact stake, clamped. -/
theorem stakeIn_foldl_addStake (entries : List (PoolId × UInt64)) (stakes : Std.ExtTreeMap PoolId UInt64) (pool : PoolId) :
    stakeIn (entries.foldl addStake stakes) pool = min (stakeIn stakes pool + exactStake entries pool) (2 ^ 64 - 1) := by
  induction entries generalizing stakes with
  | nil =>
      have hold : stakeIn stakes pool < 2 ^ 64 := stakeIn_lt
      rw [List.foldl_nil, exactStake_eq_zero (by simp)]
      omega
  | cons entry entries ih =>
      have hsum : exactStake (entry :: entries) pool = exactStake [entry] pool + exactStake entries pool := exactStake_cons
      rw [List.foldl_cons, ih, stakeIn_addStake, hsum]
      omega

private theorem mem_foldl_addStake : pool ∈ entries.foldl addStake stakes ↔ pool ∈ stakes ∨ pool ∈ entries.map Prod.fst := by
  induction entries generalizing stakes with
  | nil => simp
  | cons entry entries ih =>
      obtain ⟨s, hstakes, -⟩ := addStake_eq stakes entry
      rw [List.foldl_cons, ih, hstakes, TreeMap.mem_insert, List.map_cons, List.mem_cons]
      tauto

theorem total_foldl_addStake (entries : List (PoolId × UInt64)) :
    TreeMap.total UInt64.toNat (entries.foldl addStake ∅) =
      ((poolIds entries).map fun pool => min (exactStake entries pool) (2 ^ 64 - 1)).sum := by
  have hvalue : ∀ entry ∈ (entries.foldl addStake ∅).toList,
      entry.2.toNat = min (exactStake entries entry.1) (2 ^ 64 - 1) := by
    intro entry hentry
    have hget := Std.ExtTreeMap.mem_toList_iff_getElem?_eq_some.mp hentry
    have hstake := stakeIn_foldl_addStake entries ∅ entry.1
    rw [stakeIn, hget, Option.getD_some, stakeIn_empty, Nat.zero_add] at hstake
    exact hstake
  have hkeys : (entries.foldl addStake ∅).keys.Perm (poolIds entries) := by
    refine (List.perm_ext_iff_of_nodup ?_ (List.nodup_dedup _)).mpr ?_
    · rw [← Std.ExtTreeMap.map_fst_toList_eq_keys]
      exact TreeMap.nodup_keys_toList _
    · intro pool
      rw [Std.ExtTreeMap.mem_keys, mem_foldl_addStake, List.mem_dedup]
      simp
  rw [TreeMap.total, List.map_congr_left hvalue, ← (hkeys.map _).sum_eq, ← Std.ExtTreeMap.map_fst_toList_eq_keys, List.map_map]
  rfl

/-! ### From the listing to the snapshot -/

private theorem foldlM_newStep (entries : List (PoolId × UInt64)) (acc acc' : Std.ExtTreeMap PoolId UInt64 × UInt64) :
    entries.foldlM newStep acc = .ok acc' ↔
      acc'.2.toNat = acc.2.toNat + (entries.map fun entry => entry.2.toNat).sum ∧
        acc'.1 = (entries.filter fun entry => entry.2 ≠ 0).foldl addStake acc.1 := by
  induction entries generalizing acc with
  | nil =>
      rw [List.foldlM_nil, pure_eq_ok, Prod.ext_iff, ← UInt64.toNat_inj]
      simp [eq_comm, and_comm]
  | cons entry entries ih =>
      rw [foldlM_cons_eq_ok, List.map_cons, List.sum_cons]
      by_cases hzero : entry.2 = 0
      · simp only [newStep, hzero, if_true, pure_eq_ok, exists_eq_left', ih, UInt64.toNat_zero, Nat.zero_add]
        simp [hzero]
      · simp only [newStep, hzero, if_false, okOr_bind_eq_ok, pure_eq_ok, Word.checkedAdd_eq_some, ih]
        rw [List.filter_cons_of_pos (by simpa using hzero), List.foldl_cons]
        constructor
        · intro h
          obtain ⟨_, ⟨total, htotal, rfl⟩, hsum, hstakes⟩ := h
          rw [htotal, Nat.add_assoc] at hsum
          exact ⟨hsum, hstakes⟩
        · intro h
          obtain ⟨hsum, hstakes⟩ := h
          have hword := UInt64.toNat_lt acc'.2
          obtain ⟨total, htotal⟩ := Word.exists_toNat_eq (show acc.2.toNat + entry.2.toNat < 2 ^ 64 by omega)
          refine ⟨(addStake acc.1 entry, total), ⟨total, htotal, rfl⟩, ?_, hstakes⟩
          rw [htotal, Nat.add_assoc]
          exact hsum

/-- Building a distribution fails exactly when the total leaves the word. -/
theorem new_eq_ok (epoch : Epoch) (entries : List (PoolId × UInt64)) (dist : StakeDistribution) :
    new epoch entries = .ok dist ↔ dist.totalStake.toNat = (entries.map fun entry => entry.2.toNat).sum ∧
      dist.epoch = epoch ∧ dist.poolStakes = (entries.filter fun entry => entry.2 ≠ 0).foldl addStake ∅ := by
  unfold new
  simp only [bind_eq_ok, foldlM_newStep, pure_eq_ok, UInt64.toNat_zero, Nat.zero_add]
  constructor
  · intro h
    obtain ⟨_, ⟨htotal, hstakes⟩, rfl⟩ := h
    exact ⟨htotal, rfl, hstakes⟩
  · intro h
    obtain ⟨htotal, rfl, hstakes⟩ := h
    exact ⟨(dist.poolStakes, dist.totalStake), ⟨htotal, hstakes⟩, rfl⟩

private theorem exactStake_filter (entries : List (PoolId × UInt64)) (pool : PoolId) :
    exactStake (entries.filter fun entry => entry.2 ≠ 0) pool = exactStake entries pool := by
  induction entries with
  | nil => rfl
  | cons entry entries ih =>
      by_cases hzero : entry.2 = 0
      · have hnone : exactStake [entry] pool = 0 := by
          by_cases hpool : entry.1 = pool <;> simp [exactStake, hpool, hzero]
        rw [List.filter_cons_of_neg (by simpa using hzero), ih, exactStake_cons, hnone, Nat.zero_add]
      · rw [List.filter_cons_of_pos (by simpa using hzero), exactStake_cons, ih, ← exactStake_cons]

private theorem exactStake_toList (stakes : Std.ExtTreeMap PoolId UInt64) (pool : PoolId) :
    exactStake stakes.toList pool = stakeIn stakes pool := by
  cases h : stakes[pool]? with
  | none =>
      rw [stakeIn, h, exactStake_eq_zero]
      · rfl
      · rw [Std.ExtTreeMap.map_fst_toList_eq_keys, Std.ExtTreeMap.mem_keys, TreeMap.notMem_iff]
        exact h
  | some s =>
      have hgone : (stakes.erase pool)[pool]? = none := Std.ExtTreeMap.getElem?_erase_self
      have hperm := TreeMap.toList_insert_perm (v := s) hgone
      rw [TreeMap.insert_erase h] at hperm
      have hrest : exactStake (stakes.erase pool).toList pool = 0 := by
        rw [exactStake_eq_zero]
        rw [Std.ExtTreeMap.map_fst_toList_eq_keys, Std.ExtTreeMap.mem_keys, TreeMap.notMem_iff]
        exact hgone
      have hsplit : exactStake stakes.toList pool = exactStake ((pool, s) :: (stakes.erase pool).toList) pool :=
        ((hperm.filter _).map _).sum_eq
      rw [hsplit, exactStake_cons, hrest, stakeIn, h]
      simp [exactStake]

/-! ### Snapshots -/

section Snapshot

variable {epoch : Epoch} {pools : List StakePool} {delegations : List Delegation} {dist : StakeDistribution}

theorem snapshot_eq (epoch : Epoch) (pools : List StakePool) (delegations : List Delegation) :
    snapshot epoch pools delegations = new epoch ((stakeEntries pools delegations).foldl addStake ∅).toList := by
  simp only [snapshot, stakeEntries, List.foldl_append, List.foldl_map, List.foldl_filter, decide_eq_true_eq]

/-- **What a snapshot holds**, and when there is one. -/
theorem snapshot_eq_ok (h : snapshot epoch pools delegations = .ok dist) :
    (∀ pool, (dist.poolStake pool).toNat = min (exactStake (stakeEntries pools delegations) pool) (2 ^ 64 - 1)) ∧
      dist.totalStake.toNat = ((poolIds (stakeEntries pools delegations)).map fun pool =>
        min (exactStake (stakeEntries pools delegations) pool) (2 ^ 64 - 1)).sum := by
  rw [snapshot_eq, new_eq_ok] at h
  obtain ⟨htotal, -, hstakes⟩ := h
  refine ⟨?_, ?_⟩
  · intro pool
    have hclamped : stakeIn ((stakeEntries pools delegations).foldl addStake ∅) pool < 2 ^ 64 := stakeIn_lt
    have hstake := stakeIn_foldl_addStake
      ((((stakeEntries pools delegations).foldl addStake ∅).toList).filter fun entry => entry.2 ≠ 0) ∅ pool
    rw [stakeIn_empty, Nat.zero_add, exactStake_filter, exactStake_toList, ← hstakes] at hstake
    rw [poolStake, ← stakeIn, hstake, min_eq_left (by omega), stakeIn_foldl_addStake, stakeIn_empty, Nat.zero_add]
  · rw [htotal, ← total_foldl_addStake]
    rfl

theorem snapshot_isOk (h : ((poolIds (stakeEntries pools delegations)).map fun pool =>
    min (exactStake (stakeEntries pools delegations) pool) (2 ^ 64 - 1)).sum < 2 ^ 64) :
    ∃ dist, snapshot epoch pools delegations = .ok dist := by
  rw [← total_foldl_addStake] at h
  obtain ⟨total, htotal⟩ := Word.exists_toNat_eq h
  obtain ⟨stakes, hstakes⟩ : ∃ stakes, stakes = ((((stakeEntries pools delegations).foldl addStake ∅).toList).filter
    fun entry => entry.2 ≠ 0).foldl addStake ∅ := ⟨_, rfl⟩
  refine ⟨⟨epoch, stakes, total⟩, ?_⟩
  rw [snapshot_eq, new_eq_ok]
  exact ⟨htotal, rfl, hstakes⟩

/-- What an exact snapshot would be: the stakes and the total are exact, and a sum that does not fit is an error. -/
def SnapshotExact (epoch : Epoch) (pools : List StakePool) (delegations : List Delegation) : Prop :=
  let entries := stakeEntries pools delegations
  (∀ dist, snapshot epoch pools delegations = .ok dist →
    (∀ pool, (dist.poolStake pool).toNat = exactStake entries pool) ∧ dist.totalStake.toNat = exactTotal entries) ∧
  ((∃ pool, 2 ^ 64 ≤ exactStake entries pool) ∨ 2 ^ 64 ≤ exactTotal entries →
    ∃ e, snapshot epoch pools delegations = .error e)

private theorem add_le_sum_clamped {entries : List (PoolId × UInt64)} {pool other : PoolId} (hne : other ≠ pool)
    (hpool : exactStake entries pool ≠ 0) (hother : exactStake entries other ≠ 0) :
    min (exactStake entries pool) (2 ^ 64 - 1) + min (exactStake entries other) (2 ^ 64 - 1) ≤
      ((poolIds entries).map fun pool => min (exactStake entries pool) (2 ^ 64 - 1)).sum := by
  have hmem {pool : PoolId} (h : exactStake entries pool ≠ 0) : pool ∈ poolIds entries := by
    by_contra hnot
    exact h (exactStake_eq_zero fun hmem => hnot (List.mem_dedup.mpr hmem))
  have hrest : other ∈ (poolIds entries).erase pool := (List.mem_erase_of_ne hne).mpr (hmem hother)
  rw [((List.perm_cons_erase (hmem hpool)).map _).sum_eq, List.map_cons, List.sum_cons]
  have hle : min (exactStake entries other) (2 ^ 64 - 1) ≤
      (((poolIds entries).erase pool).map fun pool => min (exactStake entries pool) (2 ^ 64 - 1)).sum :=
    List.le_sum_of_mem (List.mem_map.mpr ⟨other, hrest, rfl⟩)
  omega

/-- **A snapshot is exact** unless the stake of one pool does not fit the word while every other pool has none. -/
theorem snapshot_exact_iff (epoch : Epoch) (pools : List StakePool) (delegations : List Delegation) :
    SnapshotExact epoch pools delegations ↔
      ¬ ∃ pool, 2 ^ 64 ≤ exactStake (stakeEntries pools delegations) pool ∧
        ∀ other, other ≠ pool → exactStake (stakeEntries pools delegations) other = 0 := by
  rw [SnapshotExact]
  generalize hentries : stakeEntries pools delegations = entries
  constructor
  · intro hexact hbad
    obtain ⟨pool, hlarge, hothers⟩ := hbad
    have hrest : ((poolIds entries).erase pool).map (fun pool => min (exactStake entries pool) (2 ^ 64 - 1)) =
        ((poolIds entries).erase pool).map fun _ => 0 := by
      refine List.map_congr_left ?_
      intro other hother
      have hne : other ≠ pool := ((List.nodup_dedup _).mem_erase_iff.mp hother).1
      rw [hothers other hne, Nat.zero_min]
    have hmem : pool ∈ poolIds entries := by
      by_contra hnot
      have hzero := exactStake_eq_zero fun hmem => hnot (List.mem_dedup.mpr hmem)
      omega
    have hsum : ((poolIds entries).map fun pool => min (exactStake entries pool) (2 ^ 64 - 1)).sum = 2 ^ 64 - 1 := by
      rw [((List.perm_cons_erase hmem).map _).sum_eq, List.map_cons, List.sum_cons, hrest]
      simp
      omega
    rw [← hentries] at hsum
    obtain ⟨dist, hdist⟩ : ∃ dist, snapshot epoch pools delegations = .ok dist := by
      apply snapshot_isOk
      rw [hsum]
      decide
    obtain ⟨e, he⟩ := hexact.2 (Or.inl ⟨pool, hlarge⟩)
    rw [hdist] at he
    cases he
  · intro hgood
    have hok (dist : StakeDistribution) (h : snapshot epoch pools delegations = .ok dist) :
        (∀ pool, (dist.poolStake pool).toNat = exactStake entries pool) ∧ dist.totalStake.toNat = exactTotal entries := by
      obtain ⟨hstakes, htotal⟩ := snapshot_eq_ok h
      rw [hentries] at hstakes htotal
      have hword := UInt64.toNat_lt dist.totalStake
      have hfits (pool : PoolId) : exactStake entries pool < 2 ^ 64 := by
        by_contra hlarge
        refine hgood ⟨pool, by omega, ?_⟩
        intro other hne
        by_contra hother
        have hsum := add_le_sum_clamped hne (by omega) hother
        omega
      refine ⟨?_, ?_⟩
      · intro pool
        have hpool := hfits pool
        rw [hstakes]
        omega
      · have hexact : ∀ pool ∈ poolIds entries, min (exactStake entries pool) (2 ^ 64 - 1) = exactStake entries pool := by
          intro pool _
          have hpool := hfits pool
          omega
        rw [htotal, List.map_congr_left hexact]
        rfl
    refine ⟨hok, ?_⟩
    intro hlarge
    cases h : snapshot epoch pools delegations with
    | error e => exact ⟨e, rfl⟩
    | ok dist =>
        obtain ⟨hstakes, htotal⟩ := hok dist h
        rcases hlarge with ⟨pool, hpool⟩ | hsum
        · rw [← hstakes pool] at hpool
          exact absurd (UInt64.toNat_lt _) (not_lt.mpr hpool)
        · rw [← htotal] at hsum
          exact absurd (UInt64.toNat_lt _) (not_lt.mpr hsum)

/-- One pool, pledged the largest word and delegated one unit more. -/
theorem snapshot_clamps :
    ∃ (pool : StakePool) (d : Delegation) (dist : StakeDistribution), snapshot 0 [pool] [d] = .ok dist ∧
      d.poolId = pool.id ∧ pool.active = true ∧ pool.pledge.toNat + d.amount.toNat = 2 ^ 64 ∧
      (dist.poolStake pool.id).toNat = 2 ^ 64 - 1 := by
  obtain ⟨pool, hpool⟩ : ∃ pool : StakePool, pool = ⟨.zero, [], [], Word.max, 0, 1, 0, true⟩ := ⟨_, rfl⟩
  obtain ⟨d, hd⟩ : ∃ d : Delegation, d = ⟨.zero, .zero, 1⟩ := ⟨_, rfl⟩
  have hentries : stakeEntries [pool] [d] = [(.zero, Word.max), (.zero, 1)] := by
    rw [hpool, hd]
    rfl
  obtain ⟨dist, hdist⟩ : ∃ dist, snapshot 0 [pool] [d] = .ok dist := by
    apply snapshot_isOk
    rw [hentries]
    decide
  refine ⟨pool, d, dist, hdist, ?_, ?_, ?_, ?_⟩
  · rw [hd, hpool]
  · rw [hpool]
  · rw [hd, hpool]
    decide
  · rw [(snapshot_eq_ok hdist).1, hentries, hpool]
    decide

end Snapshot

end StakeDistribution

end QuantumVault
