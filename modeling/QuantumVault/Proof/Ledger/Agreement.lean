import QuantumVault.Proof.Ledger.Speculative
import QuantumVault.Proof.Ledger.Undo

/-!
# The in-memory and the persistent application of a block

The store stages a whole block and nets what the block itself creates and spends; the producer runs the transactions one after the other on a copy; the reward check looks inputs up in an overlay. Where the sums fit their words the three agree on a block that the store takes. The other way round the producer's run knows nothing of the block's structure, and it lets a transaction create an outpoint again that was spent before.
-/

namespace QuantumVault

open Result TreeMap Ledger SlotTicker

variable [Crypto] {s s' : UtxoStore} {block : Block}

theorem UtxoStore.commitmentRoot_eq (s : UtxoStore) : s.commitmentRoot = QuantumVault.commitmentRoot s.entries := by
  have hentries : insertAll (∅ : UtxoMap) s.entries.toList = s.entries := by
    refine Std.ExtTreeMap.ext_getElem? fun op => ?_
    rw [getElem?_insertAll_toList, Std.ExtTreeMap.getElem?_empty, Option.or_none]
  rw [UtxoStore.commitmentRoot, QuantumVault.commitmentRoot, hentries]

/-! ### From the producer's run to the store -/

/-- No transaction creates an outpoint that it or a transaction before it spends. -/
def NoRecreation (txs : List Transaction) : Prop :=
  (∀ tx ∈ txs, ∀ op ∈ tx.move.created, op ∉ tx.spends) ∧
    txs.Pairwise fun earlier later => ∀ op ∈ later.move.created, op ∉ earlier.spends

/-- A transaction that ran on the copy made an admissible move, as far as the outpoints it creates were not spent. -/
theorem admissible_of_applyTransaction {outcome outcome' : SpeculativeApplyOutcome} {tx : Transaction}
    {gone : List OutPoint} (hok : applyTransaction outcome tx = .ok outcome')
    (hgone : ∀ op ∈ tx.move.created, op ∉ gone ∧ op ∉ tx.spends) : Admissible outcome.set gone tx.move := by
  obtain ⟨hran, hnodup, hmem, hfresh⟩ := applyTransaction_eq_ok.mp hok
  refine ⟨hnodup, hmem, Transaction.created_nodup hran.fits, ?_⟩
  intro op hop
  obtain ⟨hnotGone, hnotSpent⟩ := hgone op hop
  exact ⟨fun hview => hfresh op hop (mem_eraseAll.mpr ⟨hview, hnotSpent⟩), hnotGone⟩

private theorem valid_of_applyTransactions {outcome outcome' : SpeculativeApplyOutcome} {txs : List Transaction}
    {gone : List OutPoint} (hok : txs.foldlM applyTransaction outcome = .ok outcome') (hfresh : NoRecreation txs)
    (hgone : ∀ tx ∈ txs, ∀ op ∈ tx.move.created, op ∉ gone) : Valid Transaction.move outcome.set gone txs := by
  induction txs generalizing outcome gone with
  | nil => trivial
  | cons tx txs ih =>
      obtain ⟨mid, hmid, hrest⟩ := foldlM_cons_eq_ok.mp hok
      obtain ⟨hown, hpairs⟩ := hfresh
      rw [List.forall_mem_cons] at hown hgone
      rw [List.pairwise_cons] at hpairs
      have hset := (applyTransaction_eq_ok.mp hmid).1.set_eq
      refine ⟨admissible_of_applyTransaction hmid fun op hop => ⟨hgone.1 op hop, hown.1 op hop⟩, ?_⟩
      rw [← hset]
      apply ih hrest ⟨hown.2, hpairs.2⟩
      intro later hlater op hop hmem
      rcases List.mem_append.mp hmem with hold | hspent
      · exact hgone.2 later hlater op hop hold
      · exact hpairs.1 later hlater op hop hspent

private theorem applyBlock_of_speculativeApply {outcome : SpeculativeApplyOutcome}
    (hrun : speculativeApply s block.transactions = .ok outcome) (hstructure : block.validateStructure = .ok ())
    (hfresh : NoRecreation block.transactions) : ∃ s', s.applyBlock block = .ok s' := by
  have hfits := (speculativeApply_of_ok hrun).1
  rw [speculativeApply, snapshot_eq, ok_bind] at hrun
  apply UtxoStore.applyBlock_isOk.mpr
  exact ⟨hstructure, valid_of_applyTransactions hrun hfresh (by simp), hfits⟩

/-! ### From the store to the producer's run -/

/-- **The three traversals of a block agree.** A block that the store takes, whose transactions create no more than they spend and whose sums fit the amount word, runs on the producer's copy: the entries are the persisted ones, so are the commitments, and above height 0 the fees are those of the reward check. A well-formed block that runs on the copy and creates no spent outpoint again is taken by the store. -/
theorem apply_agree :
    (∀ s', s.applyBlock block = .ok s' →
      (∀ p ∈ block.meets s.entries, p.2.isCoinbase = false → p.2.Covered p.1) → block.fees s.entries < 2 ^ 64 →
        ∃ outcome, speculativeApply s block.transactions = .ok outcome ∧ outcome.set = s'.entries ∧
          speculativeUtxoCommitment s block.transactions = .ok s'.commitmentRoot ∧
          ∀ monetary maturity fees, block.header.height ≠ 0 →
            validateBlockRewards block s monetary maturity = .ok fees → outcome.totalFees = fees) ∧
    (∀ outcome, speculativeApply s block.transactions = .ok outcome → block.validateStructure = .ok () →
      NoRecreation block.transactions → ∃ s', s.applyBlock block = .ok s') := by
  refine ⟨?_, fun outcome hrun hstructure hfresh => applyBlock_of_speculativeApply hrun hstructure hfresh⟩
  intro s' hok hcovered hfees
  have happlied := UtxoStore.Applied.of_ok hok
  obtain ⟨outcome, hrun⟩ := speculativeApply_isOk happlied.valid happlied.fits hcovered hfees
  obtain ⟨-, hset, -, htotal⟩ := speculativeApply_of_ok hrun
  have hentries : outcome.set = s'.entries := hset.trans happlied.entries_eq.symm
  refine ⟨outcome, hrun, hentries, ?_, ?_⟩
  · rw [speculativeUtxoCommitment, hrun, ok_bind, hentries, s'.commitmentRoot_eq]
    rfl
  · intro monetary maturity fees hheight hrewards
    have hexact := RewardsExact.of_ok hheight happlied.valid_structure happlied.valid hrewards
    apply UInt64.toNat_inj.mp
    exact htotal.trans hexact.fees_eq.symm

omit [Crypto] in
/-- A spend of a reward and a spend of its output, both ways of applying them. -/
theorem apply_agree_chainedBlock :
    ∃ s' outcome, @UtxoStore.applyBlock sampleCrypto UtxoStore.rewardStore UtxoStore.chainedBlock = .ok s' ∧
      @speculativeApply sampleCrypto UtxoStore.rewardStore UtxoStore.chainedBlock.transactions = .ok outcome ∧
      outcome.set = s'.entries := by
  have hok : (@UtxoStore.applyBlock sampleCrypto UtxoStore.rewardStore UtxoStore.chainedBlock).isOk = true := by
    decide +kernel
  have hcovered : ∀ p ∈ @Block.meets sampleCrypto UtxoStore.chainedBlock UtxoStore.rewardStore.entries,
      p.2.isCoinbase = false → @Transaction.Covered sampleCrypto p.1 p.2 := by
    unfold Transaction.Covered
    decide +kernel
  have hfees : @Block.fees sampleCrypto UtxoStore.chainedBlock UtxoStore.rewardStore.entries < 2 ^ 64 := by
    decide +kernel
  obtain ⟨s', hs'⟩ := isOk_iff.mp hok
  obtain ⟨outcome, hrun, hset, -⟩ := (@apply_agree sampleCrypto _ _).1 s' hs' hcovered hfees
  exact ⟨s', outcome, hs', hrun, hset⟩

/-- Two outputs whose values together do not fit the amount word, and a block that spends both. -/
def heavyStore : UtxoStore :=
  { UtxoStore.new with entries :=
      ((∅ : UtxoMap).insert ⟨.zero, 0⟩ (.new (2 ^ 63) [])).insert ⟨.zero, 1⟩ (.new (2 ^ 63) []) }

def heavyBlock : Block :=
  @plainBlock sampleCrypto 1 [.new [⟨⟨.zero, 0⟩, []⟩, ⟨⟨.zero, 1⟩, []⟩] [.new 1 []]]

def looseBlock : Block := { UtxoStore.emptyBlock with transactions := UtxoStore.rewardBlock.transactions }

def earlyFeeBlock : Block :=
  let first : Transaction := .newCoinbase 0 [.new 10 []]
  @plainBlock sampleCrypto 0 [first, .new [⟨⟨@Transaction.id sampleCrypto first, 0⟩, []⟩] [.new 9 []]]

def laterTx : Transaction := .new [⟨⟨.zero, 5⟩, []⟩] [.new 1 []]

/-- The outpoint that `laterTx` creates, and one that it spends. -/
def returningStore : UtxoStore :=
  { UtxoStore.new with entries :=
      ((∅ : UtxoMap).insert ⟨@Transaction.id sampleCrypto laterTx, 0⟩ (.new 1 [])).insert ⟨.zero, 5⟩ (.new 1 []) }

/-- A block that spends an outpoint and then creates it again. -/
def returningBlock : Block :=
  @plainBlock sampleCrypto 1 [.new [⟨⟨@Transaction.id sampleCrypto laterTx, 0⟩, []⟩] [.new 1 []], laterTx]

omit [Crypto] in
/-- **Where the traversals part.** Sums over 64 bits stop the producer's run only, the reward check counts no fees at height 0, and the producer's run neither looks at the header nor minds an outpoint that comes back. -/
theorem apply_disagree :
    (¬ ∀ (_ : Crypto) (s s' : UtxoStore) (block : Block), s.applyBlock block = .ok s' →
      (∀ p ∈ block.meets s.entries, p.2.isCoinbase = false → p.2.outputTotal ≤ p.2.inputTotal p.1) →
        ∃ outcome, speculativeApply s block.transactions = .ok outcome) ∧
    (¬ ∀ (_ : Crypto) (s s' : UtxoStore) (block : Block) (outcome : SpeculativeApplyOutcome) (monetary : MonetaryParams)
      (maturity : UInt64) (fees : Amount), s.applyBlock block = .ok s' →
        speculativeApply s block.transactions = .ok outcome →
          validateBlockRewards block s monetary maturity = .ok fees → outcome.totalFees = fees) ∧
    (¬ ∀ (_ : Crypto) (s : UtxoStore) (block : Block) (outcome : SpeculativeApplyOutcome),
      speculativeApply s block.transactions = .ok outcome → ∃ s', s.applyBlock block = .ok s') ∧
    ¬ ∀ (_ : Crypto) (s : UtxoStore) (block : Block) (outcome : SpeculativeApplyOutcome),
      speculativeApply s block.transactions = .ok outcome → block.validateStructure = .ok () →
        ∃ s', s.applyBlock block = .ok s' := by
  refine ⟨?_, ?_, ?_, ?_⟩
  · intro hclaim
    have hok : (@UtxoStore.applyBlock sampleCrypto heavyStore heavyBlock).isOk = true := by decide +kernel
    have hcovered : ∀ p ∈ @Block.meets sampleCrypto heavyBlock heavyStore.entries,
        p.2.isCoinbase = false → p.2.outputTotal ≤ @Transaction.inputTotal sampleCrypto p.1 p.2 := by decide +kernel
    have hfails : (@speculativeApply sampleCrypto heavyStore heavyBlock.transactions).isOk = false := by decide +kernel
    obtain ⟨s', hs'⟩ := isOk_iff.mp hok
    have hrun := isOk_iff.mpr (hclaim sampleCrypto heavyStore s' heavyBlock hs' hcovered)
    cases hrun.symm.trans hfails
  · intro hclaim
    have hok : (@UtxoStore.applyBlock sampleCrypto UtxoStore.new earlyFeeBlock).isOk = true := by decide +kernel
    have hfee : (@speculativeApply sampleCrypto UtxoStore.new earlyFeeBlock.transactions).map
        SpeculativeApplyOutcome.totalFees = .ok 1 := by decide +kernel
    have hrun : (@speculativeApply sampleCrypto UtxoStore.new earlyFeeBlock.transactions).isOk = true := by decide +kernel
    obtain ⟨s', hs'⟩ := isOk_iff.mp hok
    obtain ⟨outcome, houtcome⟩ := isOk_iff.mp hrun
    have hzero := hclaim sampleCrypto UtxoStore.new s' earlyFeeBlock outcome .mainnet 50 0 hs' houtcome rfl
    rw [houtcome] at hfee
    cases hzero.symm.trans (Except.ok.inj hfee)
  · intro hclaim
    have hrun : (@speculativeApply sampleCrypto UtxoStore.new looseBlock.transactions).isOk = true := by decide +kernel
    have hfails : (@UtxoStore.applyBlock sampleCrypto UtxoStore.new looseBlock).isOk = false := by decide +kernel
    obtain ⟨outcome, houtcome⟩ := isOk_iff.mp hrun
    have hok := isOk_iff.mpr (hclaim sampleCrypto UtxoStore.new looseBlock outcome houtcome)
    cases hok.symm.trans hfails
  · intro hclaim
    have hrun : (@speculativeApply sampleCrypto returningStore returningBlock.transactions).isOk = true := by decide +kernel
    have hstructure : @Block.validateStructure sampleCrypto returningBlock = .ok () := by decide +kernel
    have hfails : (@UtxoStore.applyBlock sampleCrypto returningStore returningBlock).isOk = false := by decide +kernel
    obtain ⟨outcome, houtcome⟩ := isOk_iff.mp hrun
    have hok := isOk_iff.mpr (hclaim sampleCrypto returningStore returningBlock outcome houtcome hstructure)
    cases hok.symm.trans hfails

end QuantumVault
