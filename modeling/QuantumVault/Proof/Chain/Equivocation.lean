import QuantumVault.Proof.Chain.Finality

/-!
# Evidence against producers

The index keeps the first block of a producer in a slot, and the evidence is made when a second one is accepted. What both hold after a run is a function of the accepted blocks in the order of their arrival: the first block of every slot and producer, and the first two where there are two.
-/

namespace QuantumVault

/-- The key under which a block is indexed. -/
def ChainEntry.slotProducer (entry : ChainEntry) : SlotProducer := ⟨entry.slot, entry.producerKeyHash⟩

namespace ChainState

variable {s s' : ChainState} {entry : ChainEntry} {accepted : List ChainEntry} {key : SlotProducer}

/-! ### The accepted blocks -/

section Blocks

/-- The blocks of a run that were accepted, in the order of their arrival. -/
def acceptedBlocks (s : ChainState) : List ChainEntry → List ChainEntry
  | [] => []
  | entry :: entries =>
      match s.addBlock entry with
      | (.ok _, s') => entry :: acceptedBlocks s' entries
      | (.error _, s') => acceptedBlocks s' entries

def blocksOf (accepted : List ChainEntry) (key : SlotProducer) : List ChainEntry :=
  accepted.filter fun entry => entry.slotProducer = key

theorem mem_blocksOf : entry ∈ blocksOf accepted key ↔ entry ∈ accepted ∧ entry.slotProducer = key := by
  simp [blocksOf]

theorem blocksOf_append_self (accepted : List ChainEntry) (entry : ChainEntry) :
    blocksOf (accepted ++ [entry]) entry.slotProducer = blocksOf accepted entry.slotProducer ++ [entry] := by
  simp [blocksOf]

theorem blocksOf_append_of_ne (hkey : entry.slotProducer ≠ key) :
    blocksOf (accepted ++ [entry]) key = blocksOf accepted key := by
  simp [blocksOf, hkey]

/-- The evidence in a list of blocks of one producer in one slot: its first two. -/
def evidence : List ChainEntry → Option EquivocationProof
  | first :: second :: _ => some ⟨first.slot, first.producerKeyHash, first.hash, second.hash⟩
  | _ => none

private theorem evidence_eq_some {blocks : List ChainEntry} {proof : EquivocationProof} :
    evidence blocks = some proof ↔
      ∃ first second rest, blocks = first :: second :: rest ∧
        ⟨first.slot, first.producerKeyHash, first.hash, second.hash⟩ = proof := by
  match blocks with
  | [] => simp [evidence]
  | [_] => simp [evidence]
  | _ :: _ :: _ => simp [evidence]

end Blocks

/-! ### One call -/

section Step

theorem recordEquivocation_of_none {slot : Slot} {producer : Hash256} {hash : BlockHash}
    (h : s.slotProducers[SlotProducer.mk slot producer]? = none) :
    s.recordEquivocation slot producer hash = { s with slotProducers := s.slotProducers.insert ⟨slot, producer⟩ hash } := by
  simp only [recordEquivocation, h]

theorem recordEquivocation_of_some {slot : Slot} {producer : Hash256} {hash first : BlockHash}
    (h : s.slotProducers[SlotProducer.mk slot producer]? = some first) :
    s.recordEquivocation slot producer hash =
      if first ≠ hash then
        { s with equivocations := s.equivocations.insertIfNew ⟨slot, producer⟩ ⟨slot, producer, first, hash⟩ }
      else s := by
  simp only [recordEquivocation, h]

private theorem slotProducers_recordEquivocation (s : ChainState) (slot : Slot) (producer : Hash256) (hash : BlockHash) :
    (s.recordEquivocation slot producer hash).slotProducers[key]? =
      if SlotProducer.mk slot producer = key then some (s.slotProducers[key]?.getD hash) else s.slotProducers[key]? := by
  rcases hfirst : s.slotProducers[SlotProducer.mk slot producer]? with _ | first
  · rw [recordEquivocation_of_none hfirst, TreeMap.getElem?_insert]
    split_ifs with hkey
    · rw [← hkey, hfirst, Option.getD_none]
    · rfl
  · rw [recordEquivocation_of_some hfirst]
    split_ifs with hother hkey hkey
    all_goals first | rw [← hkey, hfirst, Option.getD_some] | rfl

private theorem equivocations_recordEquivocation (s : ChainState) (slot : Slot) (producer : Hash256) (hash : BlockHash) :
    (s.recordEquivocation slot producer hash).equivocations[key]? =
      if SlotProducer.mk slot producer = key then
        s.equivocations[key]?.or
          ((s.slotProducers[key]?.filter (· ≠ hash)).map fun first => ⟨slot, producer, first, hash⟩)
      else s.equivocations[key]? := by
  rcases hfirst : s.slotProducers[SlotProducer.mk slot producer]? with _ | first
  · rw [recordEquivocation_of_none hfirst]
    split_ifs with hkey
    · subst hkey
      simp [hfirst]
    · rfl
  · rw [recordEquivocation_of_some hfirst]
    by_cases hsame : first = hash
    · rw [if_neg (not_not.mpr hsame)]
      split_ifs with hkey
      · subst hkey
        simp [hfirst, hsame, Option.filter]
      · rfl
    · rw [if_pos hsame, Std.ExtTreeMap.getElem?_insertIfNew]
      split_ifs with hnew hkey hkey
      · rw [← hkey, hfirst, TreeMap.notMem_iff.mp hnew.2]
        simp [hsame]
      · exact absurd (Std.compare_eq_iff_eq.mp hnew.1) hkey
      · -- evidence that is there stays
        subst hkey
        have hmem := by_contra fun hmem => hnew ⟨Std.compare_self, hmem⟩
        obtain ⟨proof, hproof⟩ := TreeMap.mem_iff.mp hmem
        rw [hproof, Option.some_or]
      · rfl

private theorem advanceFinality_index (s : ChainState) :
    s.advanceFinality.slotProducers = s.slotProducers ∧ s.advanceFinality.equivocations = s.equivocations := by
  unfold advanceFinality
  split
  · exact ⟨rfl, rfl⟩
  · split
    · exact ⟨rfl, rfl⟩
    · split <;> exact ⟨rfl, rfl⟩

/-- An accepted call records the block, and nothing after that touches the index or the evidence. -/
theorem addBlock_index {b : Bool} (h : s.addBlock entry = (.ok b, s')) :
    s'.slotProducers = (s.recordEquivocation entry.slot entry.producerKeyHash entry.hash).slotProducers ∧
      s'.equivocations = (s.recordEquivocation entry.slot entry.producerKeyHash entry.hash).equivocations := by
  have hinsert : ((s.insertEntry entry).recordEquivocation entry.slot entry.producerKeyHash entry.hash).slotProducers =
      (s.recordEquivocation entry.slot entry.producerKeyHash entry.hash).slotProducers ∧
      ((s.insertEntry entry).recordEquivocation entry.slot entry.producerKeyHash entry.hash).equivocations =
      (s.recordEquivocation entry.slot entry.producerKeyHash entry.hash).equivocations := by
    simp only [recordEquivocation, insertEntry]
    split
    · split <;> exact ⟨rfl, rfl⟩
    · exact ⟨rfl, rfl⟩
  unfold addBlock at h
  split at h
  · cases h
  split at h
  · cases h
  split at h
  · cases h
  dsimp only at h
  split at h
  all_goals cases h
  · obtain ⟨hindex, hevidence⟩ := advanceFinality_index
      (((s.insertEntry entry).recordEquivocation entry.slot entry.producerKeyHash entry.hash).withTip entry.hash
        (by rw [recordEquivocation_entries]; exact Std.ExtTreeMap.mem_insert_self))
    exact ⟨hindex.trans hinsert.1, hevidence.trans hinsert.2⟩
  · exact hinsert

private theorem addBlock_known (hknown : entry.hash ∈ s.entries) : (s.addBlock entry).2 = s := by
  rcases s.addBlock_cases entry with ⟨_, heq⟩ | ⟨_, _, _, hacc⟩
  · rw [heq]
  · exact absurd hknown hacc.fresh

end Step

/-! ### Runs -/

section Runs

/-- The index and the evidence are what the accepted blocks say. -/
structure Indexed (s : ChainState) (accepted : List ChainEntry) : Prop where
  known : ∀ entry ∈ accepted, entry.hash ∈ s.entries
  distinct : (accepted.map ChainEntry.hash).Nodup
  index : ∀ key, s.slotProducers[key]? = (blocksOf accepted key).head?.map ChainEntry.hash
  evidence_eq : ∀ key, s.equivocations[key]? = evidence (blocksOf accepted key)

private theorem indexed_new (genesis : ChainEntry) (params : ConsensusParams) : (new genesis params).Indexed [] where
  known := by simp
  distinct := List.nodup_nil
  index _ := by simp [new, blocksOf]
  evidence_eq _ := by simp [new, blocksOf, evidence]

/-- **Step lemma.** An accepted block is indexed behind those before it. -/
theorem Indexed.addBlock {b : Bool} (hindexed : s.Indexed accepted) (h : s.addBlock entry = (.ok b, s')) :
    s'.Indexed (accepted ++ [entry]) := by
  have hacc : Accepted s entry s' := by
    rcases s.addBlock_cases entry with ⟨_, heq⟩ | ⟨_, _, heq, hacc⟩
    · cases heq.symm.trans h
    · cases heq.symm.trans h
      exact hacc
  obtain ⟨hslots, hevidence⟩ := addBlock_index h
  have hfresh : ∀ first ∈ accepted, first.hash ≠ entry.hash := fun first hfirst heq =>
    hacc.fresh (heq ▸ hindexed.known first hfirst)
  refine ⟨fun e he => ?_, ?_, fun key => ?_, fun key => ?_⟩
  · rw [hacc.entries_eq, TreeMap.mem_insert]
    rcases List.mem_append.mp he with hold | hnew
    · exact Or.inr (hindexed.known e hold)
    · exact Or.inl (congrArg ChainEntry.hash (List.mem_singleton.mp hnew).symm)
  · rw [List.map_append, List.nodup_append]
    refine ⟨hindexed.distinct, List.nodup_singleton _, fun hash hold hash' hnew => ?_⟩
    obtain ⟨first, hfirst, rfl⟩ := List.mem_map.mp hold
    rw [List.map_singleton, List.mem_singleton] at hnew
    exact hnew ▸ hfresh first hfirst
  · rw [hslots, slotProducers_recordEquivocation, hindexed.index]
    split_ifs with hkey
    · subst hkey
      rw [← ChainEntry.slotProducer, blocksOf_append_self]
      cases blocksOf accepted entry.slotProducer <;> rfl
    · rw [blocksOf_append_of_ne hkey]
  · rw [hevidence, equivocations_recordEquivocation, hindexed.evidence_eq, hindexed.index]
    split_ifs with hkey
    · subst hkey
      rw [← ChainEntry.slotProducer, blocksOf_append_self]
      rcases hblocks : blocksOf accepted entry.slotProducer with _ | ⟨first, _ | ⟨second, rest⟩⟩
      · rfl
      · obtain ⟨hfirst, hpair⟩ := mem_blocksOf.mp (hblocks ▸ List.mem_singleton_self first)
        obtain ⟨hslot, hproducer⟩ := SlotProducer.mk.inj hpair
        simp [evidence, hfresh first hfirst, hslot, hproducer, Option.filter]
      · rfl
    · rw [blocksOf_append_of_ne hkey]

/-- **Run lemma.** -/
theorem Indexed.addBlocks (hindexed : s.Indexed accepted) (entries : List ChainEntry) :
    (s.addBlocks entries).Indexed (accepted ++ s.acceptedBlocks entries) := by
  induction entries generalizing s accepted with
  | nil =>
      rw [acceptedBlocks, List.append_nil]
      exact hindexed
  | cons entry entries ih =>
      rw [ChainState.addBlocks, List.foldl_cons, ← ChainState.addBlocks, acceptedBlocks]
      rcases s.addBlock_cases entry with ⟨_, heq⟩ | ⟨_, _, heq, _⟩
      · rw [heq]
        exact ih hindexed
      · have hstep := ih (hindexed.addBlock heq)
        rw [List.append_assoc] at hstep
        rw [heq]
        exact hstep

/-- A proof names two different accepted blocks of its producer in its slot. -/
def Names (accepted : List ChainEntry) (proof : EquivocationProof) : Prop :=
  proof.first ≠ proof.second ∧ ∃ a ∈ accepted, ∃ b ∈ accepted, a.hash = proof.first ∧ b.hash = proof.second ∧
    a.slotProducer = ⟨proof.slot, proof.producerKeyHash⟩ ∧ b.slotProducer = ⟨proof.slot, proof.producerKeyHash⟩

theorem Indexed.names (hindexed : s.Indexed accepted) {proof : EquivocationProof} (h : s.equivocations[key]? = some proof) :
    key = ⟨proof.slot, proof.producerKeyHash⟩ ∧ Names accepted proof := by
  rw [hindexed.evidence_eq] at h
  obtain ⟨first, second, rest, hblocks, rfl⟩ := evidence_eq_some.mp h
  obtain ⟨hfirst, hkey⟩ := mem_blocksOf.mp (hblocks ▸ List.mem_cons_self)
  obtain ⟨hsecond, hkey'⟩ := mem_blocksOf.mp (hblocks ▸ List.mem_cons_of_mem first List.mem_cons_self)
  have hdistinct : ((blocksOf accepted key).map ChainEntry.hash).Nodup :=
    hindexed.distinct.sublist (List.filter_sublist.map _)
  rw [hblocks, List.map_cons, List.nodup_cons] at hdistinct
  refine ⟨hkey.symm, fun hsame => hdistinct.1 ?_, first, hfirst, second, hsecond, rfl, rfl, rfl, hkey'.trans hkey.symm⟩
  exact List.mem_map.mpr ⟨second, List.mem_cons_self, hsame.symm⟩

private theorem Indexed.exists_proof (hindexed : s.Indexed accepted) {a b : ChainEntry} (ha : a ∈ accepted) (hb : b ∈ accepted)
    (hne : a ≠ b) (hkey : a.slotProducer = key) (hkey' : b.slotProducer = key) :
    ∃ proof, s.equivocations[key]? = some proof := by
  have hmem : a ∈ blocksOf accepted key := mem_blocksOf.mpr ⟨ha, hkey⟩
  have hmem' : b ∈ blocksOf accepted key := mem_blocksOf.mpr ⟨hb, hkey'⟩
  rw [hindexed.evidence_eq]
  match hblocks : blocksOf accepted key with
  | [] => simp [hblocks] at hmem
  | [only] =>
      rw [hblocks, List.mem_singleton] at hmem hmem'
      exact absurd (hmem.trans hmem'.symm) hne
  | first :: second :: rest => exact ⟨_, rfl⟩

/-- **Evidence is exact.** After any run it is there for the pairs of a slot and a producer with two accepted blocks, it names two of them, and a known block makes none. -/
theorem equivocations_exact (genesis : ChainEntry) (params : ConsensusParams) (entries : List ChainEntry) (key : SlotProducer) :
    ((∃ proof, ((new genesis params).addBlocks entries).equivocations[key]? = some proof) ↔
      ∃ a ∈ (new genesis params).acceptedBlocks entries, ∃ b ∈ (new genesis params).acceptedBlocks entries,
        a ≠ b ∧ a.slotProducer = key ∧ b.slotProducer = key) ∧
    (∀ proof, ((new genesis params).addBlocks entries).equivocations[key]? = some proof →
      key = ⟨proof.slot, proof.producerKeyHash⟩ ∧ Names ((new genesis params).acceptedBlocks entries) proof) ∧
    ∀ entry, entry.hash ∈ ((new genesis params).addBlocks entries).entries →
      (((new genesis params).addBlocks entries).addBlock entry).2 = (new genesis params).addBlocks entries := by
  have hindexed := (indexed_new genesis params).addBlocks entries
  rw [List.nil_append] at hindexed
  refine ⟨⟨?_, ?_⟩, fun proof => hindexed.names, fun entry => addBlock_known⟩
  · rintro ⟨proof, hproof⟩
    obtain ⟨rfl, hne, a, ha, b, hb, hfirst, hsecond, hkey, hkey'⟩ := hindexed.names hproof
    exact ⟨a, ha, b, hb, fun hsame => hne (by rw [← hfirst, ← hsecond, hsame]), hkey, hkey'⟩
  · rintro ⟨a, ha, b, hb, hne, hkey, hkey'⟩
    exact hindexed.exists_proof ha hb hne hkey hkey'

end Runs

end ChainState

end QuantumVault
