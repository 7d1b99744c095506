import QuantumVault.Proof.Chain.Selection

/-!
# Header sync

A node names blocks of its own chain at growing gaps, and the server answers with a segment of its chain that starts after the first of them it has. Because a block hash fixes the whole chain below the block, that block lies in the common prefix, so nothing the node is missing is skipped.
-/

namespace QuantumVault

/-- A chain of entries from genesis to tip: every entry links to the one before it and no hash occurs twice. -/
structure HeaderChain where
  entries : List ChainEntry
  ne_nil : entries ≠ []
  linked : entries.IsChain fun parent child => child.parentHash = parent.hash
  nodup : (entries.map ChainEntry.hash).Nodup

namespace HeaderChain

variable (chain : HeaderChain)

theorem length_pos : 0 < chain.entries.length := List.length_pos_iff.mpr chain.ne_nil

variable {chain}

theorem pos_unique {i j : Nat} (hi : i < chain.entries.length) (hj : j < chain.entries.length)
    (h : chain.entries[i].hash = chain.entries[j].hash) : i = j := by
  have hi' : i < (chain.entries.map ChainEntry.hash).length := by simpa using hi
  have hj' : j < (chain.entries.map ChainEntry.hash).length := by simpa using hj
  apply chain.nodup.getElem_inj_iff.mp
  show (chain.entries.map ChainEntry.hash)[i] = (chain.entries.map ChainEntry.hash)[j]
  rw [List.getElem_map, List.getElem_map, h]

theorem parentHash_succ {i : Nat} (hi : i + 1 < chain.entries.length) :
    chain.entries[i + 1].parentHash = chain.entries[i].hash :=
  List.isChain_iff_getElem.mp chain.linked i hi

theorem findIdx?_hash {i : Nat} (hi : i < chain.entries.length) :
    (chain.entries.findIdx? fun e => e.hash = chain.entries[i].hash) = some i := by
  apply List.findIdx?_eq_some_iff_getElem.mpr
  refine ⟨hi, by simp, ?_⟩
  intro j hji
  simp only [decide_eq_true_eq]
  intro heq
  have := pos_unique (by omega) hi heq
  omega

/-- **A block that two chains share stands at the same height in both, with the same blocks below it.** -/
theorem shared_below {server peer : HeaderChain} (hshare : SharesGenesis server.entries peer.entries)
    (hident : HashesIdentify server.entries peer.entries) {i j : Nat} (hi : i < server.entries.length)
    (hj : j < peer.entries.length) (h : server.entries[i].hash = peer.entries[j].hash) :
    i = j ∧ ∀ n ≤ i, server.entries[n]?.map ChainEntry.hash = peer.entries[n]?.map ChainEntry.hash := by
  have hgenesis : server.entries[0]? = peer.entries[0]? := by
    obtain ⟨genesis, hserver, hpeer⟩ := hshare
    rw [← List.head?_eq_getElem?, ← List.head?_eq_getElem?, hserver, hpeer]
  have hserver := server.length_pos
  have hpeer := peer.length_pos
  have hzero : server.entries[0] = peer.entries[0] := by
    rw [List.getElem?_eq_getElem hserver, List.getElem?_eq_getElem hpeer] at hgenesis
    exact Option.some.inj hgenesis
  -- walk both chains down together; whoever reaches genesis first pins the other one to it
  induction i generalizing j with
  | zero =>
      rw [hzero] at h
      obtain rfl := pos_unique hpeer hj h
      refine ⟨rfl, fun n hn => ?_⟩
      obtain rfl : n = 0 := by omega
      rw [hgenesis]
  | succ i ih =>
      cases j with
      | zero =>
          rw [← hzero] at h
          exact absurd (pos_unique hi hserver h) (by omega)
      | succ j =>
          have hentry := hident _ (List.getElem_mem hi) _ (List.getElem_mem hj) h
          have hparent : server.entries[i].hash = peer.entries[j].hash := by
            rw [← parentHash_succ hi, ← parentHash_succ hj, hentry]
          obtain ⟨rfl, hbelow⟩ := ih (by omega) (by omega) hparent
          refine ⟨rfl, fun n hn => ?_⟩
          obtain hlt | rfl := Nat.lt_or_eq_of_le hn
          · exact hbelow n (by omega)
          · rw [List.getElem?_eq_getElem hi, List.getElem?_eq_getElem hj, hentry]

end HeaderChain

/-! ### The locator -/

/-- The hashes at a list of positions are the locator, and the positions fall from the tip. -/
structure LocatorPositions (chain : List ChainEntry) (positions : List Nat) (locator : List BlockHash) : Prop where
  hashes : positions.map (fun i => chain[i]?.map ChainEntry.hash) = locator.map some
  descending : positions.Pairwise (· > ·)

/-- What the locator loop keeps: the positions named so far fall from the tip and lie above the current one. -/
structure LocatorInv (chain : List ChainEntry) (st : LocatorState) (positions : List Nat) : Prop
    extends LocatorPositions chain positions st.locator where
  above : ∀ i ∈ positions, st.idx < i
  bound : st.idx < chain.length
  step_pos : 0 < st.step.toNat
  tip_first : (positions ++ [st.idx]).head? = some (chain.length - 1)

namespace LocatorInv

variable {chain : List ChainEntry} {st : LocatorState} {positions : List Nat} {e : ChainEntry}

theorem exists_current (h : LocatorInv chain st positions) : ∃ e, chain[st.idx]? = some e :=
  ⟨_, List.getElem?_eq_getElem h.bound⟩

theorem push (h : LocatorInv chain st positions) (he : chain[st.idx]? = some e) :
    LocatorPositions chain (positions ++ [st.idx]) (st.locator ++ [e.hash]) where
  hashes := by
    rw [List.map_append, List.map_append, h.hashes, List.map_singleton, he]
    rfl
  descending := by
    refine List.pairwise_append.mpr ⟨h.descending, List.pairwise_singleton _ _, fun i hi j hj => ?_⟩
    rw [List.mem_singleton.mp hj]
    exact h.above i hi

theorem next {st' : LocatorState} (h : LocatorInv chain st positions) (hstep : locatorStep chain st = .inl st') :
    LocatorInv chain st' (positions ++ [st.idx]) ∧ st'.idx < st.idx := by
  obtain ⟨e, he⟩ := h.exists_current
  have hone : (1 : UInt64).toNat = 1 := rfl
  have htwo : (2 : UInt64).toNat = 2 := rfl
  have hpos := h.step_pos
  have hbound := h.bound
  simp only [locatorStep, he] at hstep
  split at hstep
  · cases hstep
  · rename_i hidx
    have hstride : 0 < (if (st.locator ++ [e.hash]).length < 10 then 1 else st.step).toNat := by
      split <;> omega
    have hdown : st'.idx < st.idx := by
      cases hstep
      show st.idx - _ < st.idx
      omega
    refine ⟨⟨?_, ?_, by omega, ?_, ?_⟩, hdown⟩
    · cases hstep
      exact h.push he
    · intro i hi
      obtain hi | hi := List.mem_append.mp hi
      · have := h.above i hi
        omega
      · rw [List.mem_singleton.mp hi]
        exact hdown
    · cases hstep
      dsimp only
      split
      · rw [Word.toNat_saturatingMul, htwo]
        omega
      · exact hpos
    · rw [List.head?_append, h.tip_first]
      rfl

end LocatorInv

/-- **The locator loop ends** and names blocks of the chain from its tip down to genesis. -/
theorem buildLocator_spec {chain : List ChainEntry} (hne : chain ≠ []) :
    ∃ positions locator, buildLocator chain = some locator ∧ LocatorPositions chain positions locator ∧
      positions.head? = some (chain.length - 1) ∧ positions.getLast? = some 0 := by
  have hpos := List.length_pos_iff.mpr hne
  have hstart : ∃ positions, LocatorInv chain ⟨[], chain.length - 1, 1⟩ positions :=
    ⟨[], ⟨⟨rfl, List.Pairwise.nil⟩, by simp, by dsimp only; omega, Nat.one_pos, rfl⟩⟩
  have hreturns : ∃ st locator, (∃ positions, LocatorInv chain st positions) ∧ locatorStep chain st = .inr locator ∧
      Loop.run (locatorStep chain) chain.length ⟨[], chain.length - 1, 1⟩ = some locator := by
    apply Loop.exists_run (μ := LocatorState.idx) _ hstart (by dsimp only; omega)
    intro st st' hinv hstep
    obtain ⟨positions, hinv⟩ := hinv
    obtain ⟨hinv', hdown⟩ := hinv.next hstep
    exact ⟨⟨_, hinv'⟩, hdown⟩
  obtain ⟨st, locator, ⟨positions, hinv⟩, hdone, hrun⟩ := hreturns
  obtain ⟨e, he⟩ := hinv.exists_current
  simp only [locatorStep, he] at hdone
  split at hdone
  · rename_i hidx
    cases hdone
    refine ⟨positions ++ [st.idx], _, ?_, hinv.push he, hinv.tip_first, ?_⟩
    · rw [buildLocator, if_neg (by simpa using hne)]
      exact hrun
    · rw [List.getLast?_concat, hidx]
  · cases hdone

/-! ### The answer -/

/-- The loop appends a segment from the front of what is left: at most up to the cap, to the end and including the stop hash if it comes up, and no less than one of these allows. -/
theorem selectHeadersLoop_spec (stop : BlockHash) {max : Nat} {out : List BlockHash} (rest : List ChainEntry)
    (hout : out.length ≤ max) :
    ∃ count ≤ rest.length, selectHeadersLoop stop max out rest = out ++ (rest.take count).map ChainEntry.hash ∧
      out.length + count ≤ max ∧
      (stop ≠ .zero → stop ∈ (rest.take count).map ChainEntry.hash →
        ((rest.take count).map ChainEntry.hash).getLast? = some stop) ∧
      (out.length + count = max ∨ count = rest.length ∨
        ((rest.take count).map ChainEntry.hash).getLast? = some stop) := by
  induction rest generalizing out with
  | nil => exact ⟨0, le_rfl, by simp [selectHeadersLoop], by simpa using hout, by simp, by simp⟩
  | cons e rest ih =>
      rw [selectHeadersLoop]
      split
      · exact ⟨0, Nat.zero_le _, by simp, by simpa using hout, by simp, by left; omega⟩
      · rename_i hroom
        split
        · rename_i hstop
          exact ⟨1, by simp, by simp, by omega, by simp [hstop.2], by simp [hstop.2]⟩
        · rename_i hstop
          have hlength : (out ++ [e.hash]).length = out.length + 1 := by simp
          have hroom' : (out ++ [e.hash]).length ≤ max := by omega
          obtain ⟨count, hcount, heq, hmax, hlast, hmaximal⟩ := ih hroom'
          refine ⟨count + 1, by simpa using hcount, ?_, by omega, ?_, ?_⟩
          · rw [heq, List.take_succ_cons, List.map_cons, List.append_assoc]
            rfl
          · intro hne hmem
            rw [List.take_succ_cons, List.map_cons, List.mem_cons] at hmem
            obtain heq | hmem := hmem
            · exact absurd ⟨hne, heq.symm⟩ hstop
            · rw [List.take_succ_cons, List.map_cons, List.getLast?_cons, hlast hne hmem]
              rfl
          · obtain hfull | hall | hend := hmaximal
            · left
              omega
            · right
              left
              rw [hall, List.length_cons]
            · right
              right
              rw [List.take_succ_cons, List.map_cons, List.getLast?_cons, hend]
              rfl

/-- The answer starts after a block of the server whose hash is in the locator. -/
theorem locatorStart_spec {chain : List ChainEntry} {locator : List BlockHash} {h : BlockHash} (hmem : h ∈ locator)
    (hfound : ∃ e ∈ chain, e.hash = h) :
    ∃ (pos : Nat) (hpos : pos < chain.length), locatorStart chain locator = pos + 1 ∧ chain[pos].hash ∈ locator := by
  unfold locatorStart
  cases hfind : locator.findSome? fun h => chain.findIdx? fun e => e.hash = h with
  | none =>
      rw [List.findSome?_eq_none_iff] at hfind
      obtain ⟨e, he, hhash⟩ := hfound
      have hnone := List.findIdx?_eq_none_iff.mp (hfind h hmem) e he
      exact absurd hhash (by simpa using hnone)
  | some pos =>
      obtain ⟨h', hmem', hidx⟩ := List.exists_of_findSome?_eq_some hfind
      obtain ⟨hpos, hhash, -⟩ := List.findIdx?_eq_some_iff_getElem.mp hidx
      have hhash' : chain[pos].hash = h' := by simpa using hhash
      exact ⟨pos, hpos, rfl, hhash' ▸ hmem'⟩

private theorem HeaderChain.locatorStart_head {chain : HeaderChain} {locator : List BlockHash} {i : Nat}
    (hi : i < chain.entries.length) (hhead : locator.head? = some chain.entries[i].hash) :
    locatorStart chain.entries locator = i + 1 := by
  obtain ⟨tail, rfl⟩ := List.head?_eq_some_iff.mp hhead
  rw [locatorStart, List.findSome?_cons_of_isSome (by rw [findIdx?_hash hi]; rfl), findIdx?_hash hi]

/-! ### Nothing is skipped -/

namespace LocatorPositions

variable {chain : List ChainEntry} {positions : List Nat} {locator : List BlockHash}

private theorem exists_entry (h : LocatorPositions chain positions locator) {hash : BlockHash} (hmem : hash ∈ locator) :
    ∃ (i : Nat) (hi : i < chain.length), chain[i].hash = hash := by
  have hmem' : some hash ∈ positions.map fun i => chain[i]?.map ChainEntry.hash :=
    h.hashes ▸ List.mem_map_of_mem hmem
  obtain ⟨i, -, hi⟩ := List.mem_map.mp hmem'
  obtain ⟨e, he, hhash⟩ := Option.map_eq_some_iff.mp hi
  obtain ⟨hlt, rfl⟩ := List.getElem?_eq_some_iff.mp he
  exact ⟨i, hlt, hhash⟩

private theorem mem_locator (h : LocatorPositions chain positions locator) {i : Nat} (hmem : i ∈ positions)
    (hi : i < chain.length) : chain[i].hash ∈ locator := by
  have hmem' : chain[i]?.map ChainEntry.hash ∈ locator.map some :=
    h.hashes ▸ List.mem_map_of_mem hmem
  rw [List.getElem?_eq_getElem hi] at hmem'
  obtain ⟨hash, hhash, heq⟩ := List.mem_map.mp hmem'
  exact Option.some.inj heq ▸ hhash

private theorem head_locator (h : LocatorPositions chain positions locator) {i : Nat} (hhead : positions.head? = some i)
    (hi : i < chain.length) : locator.head? = some chain[i].hash := by
  obtain ⟨tail, rfl⟩ := List.head?_eq_some_iff.mp hhead
  have hhashes := h.hashes
  rw [List.map_cons, List.getElem?_eq_getElem hi] at hhashes
  obtain ⟨hash, rest, rfl, hhash, -⟩ := List.map_eq_cons_iff.mp hhashes.symm
  exact congrArg some (Option.some.inj hhash)

end LocatorPositions

/-- **Header sync skips nothing.** For two chains with a common genesis, every stop hash and every cap: the peer's locator names blocks of its chain at strictly falling positions from its tip to genesis, and the server's answer is a contiguous segment of the server's chain. It has at most `max` blocks, ends with the stop hash if it contains it (the zero hash asks for no stop), and stops for no other reason than the cap, the stop hash and the server's tip. It starts right after a block of both chains, within their common prefix, and right after the peer's tip when the peer's chain is a prefix of the server's. -/
theorem headerSync_skips_nothing (server peer : HeaderChain) (hshare : SharesGenesis server.entries peer.entries)
    (hident : HashesIdentify server.entries peer.entries) (stop : BlockHash) (max : Nat) :
    ∃ (positions : List Nat) (locator segment : List BlockHash) (start : Nat),
      buildLocator peer.entries = some locator ∧
      positions.map (fun i => peer.entries[i]?.map ChainEntry.hash) = locator.map some ∧
      positions.Pairwise (· > ·) ∧ positions.head? = some (peer.entries.length - 1) ∧ positions.getLast? = some 0 ∧
      selectHeadersForLocator server.entries locator stop max = segment ∧
      segment = ((server.entries.drop start).take segment.length).map ChainEntry.hash ∧
      segment.length ≤ max ∧
      (stop ≠ .zero → stop ∈ segment → segment.getLast? = some stop) ∧
      (segment.length = max ∨ start + segment.length = server.entries.length ∨ segment.getLast? = some stop) ∧
      (∃ shared, server.entries[start - 1]? = some shared ∧ shared ∈ peer.entries ∧ 0 < start) ∧
      start ≤ commonPrefixLen server.entries peer.entries ∧
      (peer.entries <+: server.entries → start = peer.entries.length) := by
  obtain ⟨positions, locator, hlocator, hpositions, hhead, hlast⟩ := buildLocator_spec peer.ne_nil
  have hpeerPos := peer.length_pos
  have hgenesis : ∃ e ∈ server.entries, e.hash = peer.entries[0].hash := by
    obtain ⟨genesis, hserver, hpeer⟩ := hshare
    rw [List.head?_eq_getElem?, List.getElem?_eq_getElem hpeerPos] at hpeer
    exact ⟨genesis, List.mem_of_head? hserver, congrArg ChainEntry.hash (Option.some.inj hpeer).symm⟩
  obtain ⟨pos, hpos, hstart, hmem⟩ :=
    locatorStart_spec (hpositions.mem_locator (List.mem_of_getLast? hlast) hpeerPos) hgenesis
  obtain ⟨i, hi, hhash⟩ := hpositions.exists_entry hmem
  obtain ⟨rfl, hbelow⟩ := HeaderChain.shared_below hshare hident hpos hi hhash.symm
  obtain ⟨count, hcount, hsegment, hmax, hstop, hmaximal⟩ :=
    selectHeadersLoop_spec stop (server.entries.drop (pos + 1)) (show ([] : List BlockHash).length ≤ max from Nat.zero_le _)
  rw [List.length_drop] at hcount
  have hlength : (((server.entries.drop (pos + 1)).take count).map ChainEntry.hash).length = count := by
    rw [List.length_map, List.length_take, List.length_drop]
    omega
  refine ⟨positions, locator, ((server.entries.drop (pos + 1)).take count).map ChainEntry.hash, pos + 1, hlocator,
    hpositions.hashes, hpositions.descending, hhead, hlast, ?_, by rw [hlength], ?_, hstop, ?_, ?_, ?_, ?_⟩
  · rw [selectHeadersForLocator, hstart, hsegment]
    rfl
  · rw [hlength]
    simpa using hmax
  · rw [hlength]
    obtain hfull | hall | hend := hmaximal
    · left
      simpa using hfull
    · right
      left
      rw [List.length_drop] at hall
      omega
    · right
      right
      exact hend
  · have hentry := hident _ (List.getElem_mem hpos) _ (List.getElem_mem hi) hhash.symm
    exact ⟨server.entries[pos], List.getElem?_eq_getElem hpos, hentry ▸ List.getElem_mem hi, Nat.succ_pos pos⟩
  · exact lt_commonPrefixLen hpos hi hbelow
  · intro hlead
    have htip : peer.entries.length - 1 < peer.entries.length := by omega
    have htip' : peer.entries.length - 1 < server.entries.length := lt_of_lt_of_le htip hlead.length_le
    have hfirst := hpositions.head_locator hhead htip
    rw [hlead.getElem htip] at hfirst
    have := HeaderChain.locatorStart_head htip' hfirst
    omega

/-- The chain of two late blocks on genesis, with its links. -/
def sparseServer : HeaderChain where
  entries := sparseChain
  ne_nil := by decide
  linked := by decide +kernel
  nodup := by decide +kernel

/-- A node that has the first of the two blocks. -/
def sparsePeer : HeaderChain where
  entries := sparseChain.take 2
  ne_nil := by decide
  linked := by decide +kernel
  nodup := by decide +kernel

theorem headerSync_skips_nothing_sparsePeer :
    SharesGenesis sparseServer.entries sparsePeer.entries ∧ HashesIdentify sparseServer.entries sparsePeer.entries ∧
      ∃ (locator : List BlockHash) (start : Nat), buildLocator sparsePeer.entries = some locator ∧
        (selectHeadersForLocator sparseServer.entries locator .zero 2).length ≤ 2 ∧
        (sparsePeer.entries <+: sparseServer.entries → start = sparsePeer.entries.length) := by
  have hshare : SharesGenesis sparseServer.entries sparsePeer.entries := ⟨forkBlock 0 0 0 0, rfl, rfl⟩
  have hident : HashesIdentify sparseServer.entries sparsePeer.entries := by
    unfold HashesIdentify
    decide +kernel
  obtain ⟨_, locator, segment, start, hlocator, _, _, _, _, hsegment, _, hmax, _, _, _, _, hlead⟩ :=
    headerSync_skips_nothing sparseServer sparsePeer hshare hident .zero 2
  exact ⟨hshare, hident, locator, start, hlocator, hsegment ▸ hmax, hlead⟩

end QuantumVault
