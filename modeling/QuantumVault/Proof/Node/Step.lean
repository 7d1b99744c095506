import QuantumVault.Node.Node
import QuantumVault.Proof.Chain.Step
import QuantumVault.Proof.Ledger.Store

/-!
# What one block does to a node

One inversion lemma for the whole block path. A block is refused before anything is written, or it is applied to the ledger and taken back, or the chain state has taken it and the block store refuses it, or it is accepted. Every property of the block path is proved from this lemma.
-/

namespace QuantumVault

open Result TreeMap Ledger

variable [Crypto]

namespace NodeState

/-- The block extends the tip by one height, in a later slot. -/
structure Linked (tip : ChainEntry) (block : Block) : Prop where
  prevHash_eq : block.header.prevHash = tip.hash
  slot_lt : tip.slot < block.header.slot
  height_eq : block.header.height.toNat = tip.height.toNat + 1

/-- The block passes every check made before the first write and leads to this UTXO store. -/
structure Passed (s : NodeState) (block : Block) (utxo : UtxoStore) : Prop where
  valid_structure : block.validateStructure = .ok ()
  linked : Linked s.chainState.tip block
  rewards : ∃ fees, validateBlockRewards block s.utxoStore s.params.monetary s.params.consensus.kFinality = .ok fees
  applied : s.utxoStore.applyBlock block = .ok utxo

/-- The commitment check and the chain state take the applied block. -/
def Taken (s : NodeState) (block : Block) (utxo : UtxoStore) : Prop :=
  { s with utxoStore := utxo }.commitmentMatches block = true ∧ (s.chainState.addBlock block.chainEntry).1.isOk = true

instance (s : NodeState) (block : Block) (utxo : UtxoStore) : Decidable (s.Taken block utxo) :=
  inferInstanceAs (Decidable (_ ∧ _))

variable {s s' : NodeState} {block : Block} {utxo : UtxoStore}

omit [Crypto] in
private theorem validateChainLinkage_eq_ok : s.validateChainLinkage block = .ok () ↔ Linked s.chainState.tip block := by
  unfold validateChainLinkage
  simp only [require_bind_eq_ok, okOr_bind_eq_ok, require_eq_ok, Word.checkedAdd_eq_some, UInt64.toNat_one]
  constructor
  · intro h
    obtain ⟨hprev, hslot, expected, hexpected, hheight⟩ := h
    exact ⟨hprev, UInt64.not_le.mp hslot, hheight ▸ hexpected⟩
  · intro h
    obtain ⟨hprev, hslot, hheight⟩ := h
    exact ⟨hprev, UInt64.not_le.mpr hslot, _, hheight, rfl⟩

private theorem precheck_eq_ok :
    s.precheck block = .ok () ↔
      block.validateStructure = .ok () ∧ Linked s.chainState.tip block ∧
        ∃ fees, validateBlockRewards block s.utxoStore s.params.monetary s.params.consensus.kFinality = .ok fees := by
  unfold precheck
  simp only [bind_eq_ok, mapError_eq_ok, pure_eq_ok, ← validateChainLinkage_eq_ok]
  constructor
  · intro h
    obtain ⟨_, hstructure, _, hlinked, fees, hfees, -⟩ := h
    exact ⟨hstructure, hlinked, fees, hfees⟩
  · intro h
    obtain ⟨hstructure, hlinked, fees, hfees⟩ := h
    exact ⟨(), hstructure, (), hlinked, fees, hfees, trivial⟩

theorem passed_iff : s.Passed block utxo ↔ s.precheck block = .ok () ∧ s.utxoStore.applyBlock block = .ok utxo := by
  rw [precheck_eq_ok]
  constructor
  · intro h
    exact ⟨⟨h.valid_structure, h.linked, h.rewards⟩, h.applied⟩
  · intro h'
    obtain ⟨⟨hstructure, hlinked, hrewards⟩, happlied⟩ := h'
    exact ⟨hstructure, hlinked, hrewards, happlied⟩

theorem Passed.unique {utxo' : UtxoStore} (h : s.Passed block utxo) (h' : s.Passed block utxo') : utxo = utxo' :=
  Except.ok.inj (h.applied.symm.trans h'.applied)

inductive Outcome (s : NodeState) (block : Block) : Except NodeError Unit × NodeState → Prop where
  | refused (e : NodeError) (h : ∀ utxo, ¬ s.Passed block utxo) : Outcome s block (.error e, s)
  | reverted (e : NodeError) {utxo utxo' : UtxoStore} (h : s.Passed block utxo) (htaken : ¬ s.Taken block utxo)
      (hback : UtxoStore.Reverted s.utxoStore block utxo') :
      Outcome s block (.error e, { s with utxoStore := utxo' })
  | unstored (e : StorageError) {utxo : UtxoStore} {chain : ChainState} (h : s.Passed block utxo)
      (htaken : s.Taken block utxo) (hchain : ChainState.Accepted s.chainState block.chainEntry chain)
      (hput : s.blockStore.putBlock block = .error e) :
      Outcome s block (.error (.storage e), { s with utxoStore := utxo, chainState := chain })
  | accepted {utxo : UtxoStore} {chain : ChainState} {blocks : BlockStore} (h : s.Passed block utxo)
      (htaken : s.Taken block utxo) (hchain : ChainState.Accepted s.chainState block.chainEntry chain)
      (hput : s.blockStore.putBlock block = .ok blocks) :
      Outcome s block (.ok (),
        { s with utxoStore := utxo, chainState := chain, blockStore := blocks }.evictConfirmed block)

private theorem revertUtxo_eq (happlied : s.utxoStore.applyBlock block = .ok utxo) :
    ∃ utxo', { s with utxoStore := utxo }.revertUtxo block = { s with utxoStore := utxo' } ∧
      UtxoStore.Reverted s.utxoStore block utxo' := by
  obtain ⟨utxo', hrevert, hback⟩ := UtxoStore.revert_applied happlied
  refine ⟨utxo', ?_, hback⟩
  simp only [revertUtxo, hrevert]

/-- **One block.** -/
theorem handleBlock_outcome (s : NodeState) (block : Block) : Outcome s block (s.handleBlock block) := by
  unfold handleBlock
  cases hpre : s.precheck block with
  | error e =>
      refine .refused e fun utxo h => ?_
      cases hpre.symm.trans (passed_iff.mp h).1
  | ok u =>
      cases happlied : s.utxoStore.applyBlock block with
      | error e =>
          refine .refused _ fun utxo h => ?_
          cases happlied.symm.trans h.applied
      | ok utxo =>
          have h : s.Passed block utxo := passed_iff.mpr ⟨hpre, happlied⟩
          obtain ⟨utxo', hrevert, hback⟩ := revertUtxo_eq happlied
          dsimp only
          split
          · rename_i hcommit
            unfold commitBlock
            rcases s.chainState.addBlock_cases block.chainEntry with ⟨err, hadd⟩ | ⟨b, chain, hadd, hacc⟩
            · simp only [hadd]
              rw [hrevert]
              refine .reverted _ h ?_ hback
              intro h'
              obtain ⟨-, hok⟩ := h'
              rw [hadd] at hok
              cases hok
            · have htaken : s.Taken block utxo := ⟨hcommit, by rw [hadd]; rfl⟩
              simp only [hadd]
              unfold persistBlock
              cases hput : s.blockStore.putBlock block with
              | error e => exact .unstored e h htaken hacc hput
              | ok blocks => exact .accepted h htaken hacc hput
          · rename_i hcommit
            rw [hrevert]
            exact .reverted _ h (fun htaken => hcommit htaken.1) hback

structure Accepted (s : NodeState) (block : Block) (s' : NodeState) : Prop where
  passed : s.Passed block s'.utxoStore
  taken : s.Taken block s'.utxoStore
  chain : ChainState.Accepted s.chainState block.chainEntry s'.chainState
  put : s.blockStore.putBlock block = .ok s'.blockStore
  clearPool_eq : s'.clearPool = (s.evictConfirmed block).clearPool
  config_eq : s'.config = s.config
  params_eq : s'.params = s.params

theorem Accepted.of_ok (hok : (s.handleBlock block).1 = .ok ()) : Accepted s block (s.handleBlock block).2 := by
  have hout := s.handleBlock_outcome block
  generalize s.handleBlock block = result at hok hout
  cases hout with
  | refused => cases hok
  | reverted => cases hok
  | unstored => cases hok
  | accepted h htaken hchain hput =>
      unfold evictConfirmed
      split
      · rename_i hempty
        exact ⟨h, htaken, hchain, hput, by simp [evictConfirmed, hempty], rfl, rfl⟩
      · rename_i hempty
        exact ⟨h, htaken, hchain, hput, by simp [evictConfirmed, hempty], rfl, rfl⟩

variable (h : Accepted s block s')

include h

theorem Accepted.applied : UtxoStore.Applied s.utxoStore block s'.utxoStore := .of_ok h.passed.applied

theorem Accepted.height_ne_zero : block.header.height ≠ 0 := by
  intro hzero
  have hheight := h.passed.linked.height_eq
  rw [hzero, UInt64.toNat_zero] at hheight
  omega

end NodeState

end QuantumVault
