import QuantumVault.Node.Validation
import QuantumVault.Proof.Ledger.Store
import QuantumVault.Proof.Ledger.Structure

/-!
# The reward check computes the ledger's balance

The reward check resolves inputs in the store before the block with an overlay for what the block creates; the ledger resolves them in the view each transaction meets. On the moves of a valid block the two agree, so the fees and the claim that the check works with are the exact ones.
-/

namespace QuantumVault

open Result TreeMap Ledger

variable [Crypto]

/-- What a transaction leaves to the producer of its block. -/
def Transaction.feeAt (view : UtxoMap) (tx : Transaction) : Nat := tx.inputTotal view - tx.outputTotal

/-- A transaction creates no more than it spends, and what it spends fits the amount word. -/
def Transaction.Covered (view : UtxoMap) (tx : Transaction) : Prop :=
  tx.outputTotal ≤ tx.inputTotal view ∧ tx.inputTotal view < 2 ^ 64

/-- Each transaction of a block with the ledger it meets. -/
def Block.meets (block : Block) (entries : UtxoMap) : List (UtxoMap × Transaction) :=
  Ledger.meets Transaction.move entries block.transactions

def Block.fees (block : Block) (entries : UtxoMap) : Nat :=
  (((block.meets entries).filter fun p => !p.2.isCoinbase).map fun p => p.2.feeAt p.1).sum

def Block.coinbaseTotal (block : Block) : Nat :=
  ((block.transactions.filter Transaction.isCoinbase).map Transaction.outputTotal).sum

/-! ### The overlay -/

/-- The overlay together with the store resolves every unspent outpoint of the ledger to its value. -/
def Resolves (entries view : UtxoMap) (inBlock : Std.ExtTreeMap OutPoint (Amount × Bool)) : Prop :=
  ∀ (op : OutPoint) (output : TxOutput), view[op]? = some output →
    (inBlock[op]? = none ∧ entries[op]? = some output) ∨ ∃ fromCoinbase, inBlock[op]? = some (output.value, fromCoinbase)

variable {store : UtxoStore} {view : UtxoMap} {gone : List OutPoint} {height : Height} {maturity : UInt64}
  {inBlock inBlock' : Std.ExtTreeMap OutPoint (Amount × Bool)} {tx : Transaction} {op : OutPoint}

omit [Crypto] in
theorem Resolves.start (entries : UtxoMap) : Resolves entries entries ∅ := by
  intro op output hop
  exact Or.inl ⟨Std.ExtTreeMap.getElem?_empty, hop⟩

omit [Crypto] in
theorem Resolves.resolveValue (hres : Resolves store.entries view inBlock) {value : Amount}
    (hmem : op ∈ view) (hok : resolveValue store height maturity inBlock op = .ok value) :
    value.toNat = weightAt TxOutput.worth view op := by
  obtain ⟨output, hop⟩ := mem_iff.mp hmem
  rw [weightAt, hop, Option.elim_some, TxOutput.worth]
  unfold QuantumVault.resolveValue at hok
  rcases hres op output hop with ⟨hnone, hentry⟩ | ⟨fromCoinbase, hsome⟩
  · rw [hnone] at hok
    obtain ⟨resolved, hget, hok⟩ := okOr_bind_eq_ok.mp hok
    obtain ⟨_, -, hok⟩ := bind_eq_ok.mp hok
    rw [UtxoStore.get, hentry, Option.some.injEq] at hget
    rw [pure_eq_ok, ← hget] at hok
    rw [hok]
  · rw [hsome] at hok
    obtain ⟨-, hok⟩ := require_bind_eq_ok.mp hok
    rw [pure_eq_ok] at hok
    rw [hok]

omit [Crypto] in
theorem Resolves.addInputValues (hres : Resolves store.entries view inBlock) {inputs : List TxInput} {a c : Amount}
    (hmem : ∀ op ∈ inputs.map TxInput.prevOutput, op ∈ view)
    (hok : inputs.foldlM (addInputValue store height maturity inBlock) a = .ok c) :
    c.toNat = a.toNat + ((inputs.map TxInput.prevOutput).map (weightAt TxOutput.worth view)).sum := by
  induction inputs generalizing a with
  | nil =>
      rw [List.foldlM_nil, pure_eq_ok] at hok
      simp [hok]
  | cons input inputs ih =>
      rw [List.map_cons, List.forall_mem_cons] at hmem
      obtain ⟨b, hb, hrest⟩ := foldlM_cons_eq_ok.mp hok
      unfold addInputValue at hb
      obtain ⟨value, hvalue, hsum⟩ := bind_eq_ok.mp hb
      rw [okOr_eq_ok, Word.checkedAdd_eq_some, hres.resolveValue hmem.1 hvalue] at hsum
      rw [ih hmem.2 hrest, hsum, List.map_cons, List.map_cons, List.sum_cons, Nat.add_assoc]

theorem recordOutputs_eq_ok {isCoinbase : Bool} {outputs : List (TxOutput × Nat)} :
    outputs.foldlM (recordOutput tx.id isCoinbase) inBlock = .ok inBlock' ↔
      (∀ output ∈ outputs, output.2 < 2 ^ 32) ∧
        inBlock' = insertAll inBlock
          (outputs.map fun output => (tx.outPointAt output.2, (output.1.value, isCoinbase))) := by
  induction outputs generalizing inBlock with
  | nil => simp [pure, Except.pure, eq_comm]
  | cons output outputs ih =>
      simp only [foldlM_cons_eq_ok, ih, recordOutput, okOr_bind_eq_ok, Transaction.ofPosition_eq_some, pure_eq_ok,
        List.forall_mem_cons, List.map_cons, insertAll_cons]
      constructor
      · intro h
        obtain ⟨_, ⟨_, ⟨hlt, rfl⟩, rfl⟩, hlts, rfl⟩ := h
        exact ⟨⟨hlt, hlts⟩, rfl⟩
      · intro h
        obtain ⟨⟨hlt, hlts⟩, rfl⟩ := h
        exact ⟨_, ⟨_, ⟨hlt, rfl⟩, rfl⟩, hlts, rfl⟩

theorem Resolves.advance {entries : UtxoMap} {isCoinbase : Bool} (hres : Resolves entries view inBlock)
    (hfits : tx.IndexFits) :
    Resolves entries (Ledger.advance view tx.move) (insertAll inBlock
      (tx.outputs.zipIdx.map fun output => (tx.outPointAt output.2, (output.1.value, isCoinbase)))) := by
  have hkeys : (tx.outputs.zipIdx.map fun output => (tx.outPointAt output.2, (output.1.value, isCoinbase))).map Prod.fst =
      tx.move.created := by
    rw [Transaction.created_keys, List.map_map]
    rfl
  have hnodup := Transaction.created_nodup hfits
  intro op output hop
  by_cases hcreated : op ∈ tx.move.created
  · rw [Transaction.created_keys, List.mem_map] at hcreated
    obtain ⟨o, ho, rfl⟩ := hcreated
    have hmem : (tx.outPointAt o.2, o.1) ∈ tx.move.creates := List.mem_map.mpr ⟨o, ho, rfl⟩
    rw [getElem?_advance_created hnodup hmem, Option.some.injEq] at hop
    refine Or.inr ⟨isCoinbase, ?_⟩
    rw [← hop]
    exact getElem?_insertAll_of_mem (hkeys.symm ▸ hnodup) (List.mem_map.mpr ⟨o, ho, rfl⟩)
  · have hold : op ∈ view ∧ op ∉ tx.move.spends := by
      rcases mem_advance.mp (mem_of_getElem? hop) with hnew | hold
      · exact absurd hnew hcreated
      · exact hold
    rw [getElem?_advance_of_notMem hcreated hold.2] at hop
    rw [getElem?_insertAll_of_notMem (hkeys ▸ hcreated)]
    exact hres op output hop

/-! ### One transaction -/

/-- Whether the reward check treats the transaction at a position as the coinbase. -/
def claimsReward (tx : Transaction × Nat) : Bool := tx.2 == 0 && tx.1.inputs.isEmpty

structure Charged (view : UtxoMap) (tx : Transaction × Nat) (st st' : RewardState) : Prop where
  fits : tx.1.IndexFits
  coinbase : claimsReward tx = true → st'.totalFees = st.totalFees ∧
    ∃ claim, st'.coinbaseClaim = some claim ∧ claim.toNat = tx.1.outputTotal
  other : claimsReward tx = false → st'.coinbaseClaim = st.coinbaseClaim ∧ tx.1.Covered view ∧
    st'.totalFees.toNat = st.totalFees.toNat + tx.1.feeAt view

/-- What the reward check can do with one transaction: its outputs are noted, and either their sum is taken for the claim of the coinbase or what is left of the inputs is added to the fees. -/
theorem rewardTransaction_cases {tx : Transaction × Nat} {st st' : RewardState}
    (hok : rewardTransaction store height maturity st tx = .ok st') :
    tx.1.IndexFits ∧
      st'.inBlock = insertAll st.inBlock
        (tx.1.outputs.zipIdx.map fun output => (tx.1.outPointAt output.2, (output.1.value, claimsReward tx))) ∧
      (claimsReward tx = true ∧ st'.totalFees = st.totalFees ∧
          (∃ claim, st'.coinbaseClaim = some claim ∧ claim.toNat = tx.1.outputTotal) ∨
        claimsReward tx = false ∧ st'.coinbaseClaim = st.coinbaseClaim ∧ ∃ inputSum,
          tx.1.inputs.foldlM (addInputValue store height maturity st.inBlock) 0 = .ok inputSum ∧
          inputSum.toNat + st.totalFees.toNat = tx.1.outputTotal + st'.totalFees.toNat ∧
          tx.1.outputTotal ≤ inputSum.toNat) := by
  unfold rewardTransaction at hok
  obtain ⟨outputSum, hsum, hok⟩ := okOr_bind_eq_ok.mp hok
  obtain ⟨mid, hcharge, hok⟩ := bind_eq_ok.mp hok
  obtain ⟨inBlock', hrecord, hok⟩ := bind_eq_ok.mp hok
  cases pure_eq_ok.mp hok
  have hout : outputSum.toNat = tx.1.outputTotal := Word.checkedSum_eq_some.mp hsum
  obtain ⟨hlts, hinBlock⟩ := recordOutputs_eq_ok.mp hrecord
  change chargeTransaction store height maturity outputSum (claimsReward tx) st tx = _ at hcharge
  unfold chargeTransaction at hcharge
  cases hclaims : claimsReward tx with
  | true =>
      rw [hclaims, if_pos rfl, Except.ok.injEq] at hcharge
      subst hcharge
      exact ⟨Transaction.indexFits_iff.mpr hlts, hclaims ▸ hinBlock, .inl ⟨rfl, rfl, outputSum, rfl, hout⟩⟩
  | false =>
      rw [hclaims, if_neg Bool.false_ne_true] at hcharge
      obtain ⟨inputSum, hinputs, hcharge⟩ := bind_eq_ok.mp hcharge
      obtain ⟨fee, hfee, hcharge⟩ := okOr_bind_eq_ok.mp hcharge
      obtain ⟨totalFees, htotal, hcharge⟩ := okOr_bind_eq_ok.mp hcharge
      cases pure_eq_ok.mp hcharge
      rw [Word.checkedSub_eq_some] at hfee
      rw [Word.checkedAdd_eq_some] at htotal
      refine ⟨Transaction.indexFits_iff.mpr hlts, hclaims ▸ hinBlock, .inr ⟨rfl, rfl, inputSum, hinputs, ?_, by omega⟩⟩
      show inputSum.toNat + st.totalFees.toNat = tx.1.outputTotal + totalFees.toNat
      omega

theorem Charged.of_ok {tx : Transaction × Nat} {st st' : RewardState} (hres : Resolves store.entries view st.inBlock)
    (hadm : Admissible view gone tx.1.move) (hok : rewardTransaction store height maturity st tx = .ok st') :
    Charged view tx st st' ∧ Resolves store.entries (Ledger.advance view tx.1.move) st'.inBlock := by
  obtain ⟨hfits, hinBlock, hcases⟩ := rewardTransaction_cases hok
  refine ⟨?_, hinBlock ▸ hres.advance hfits⟩
  obtain ⟨hclaims, hfees, hclaim⟩ | ⟨hclaims, hclaim, inputSum, hinputs, hfees, hle⟩ := hcases
  · exact ⟨hfits, fun _ => ⟨hfees, hclaim⟩, fun h => absurd (hclaims.symm.trans h) (by decide)⟩
  · have hin : inputSum.toNat = tx.1.inputTotal view := by
      have htotal := hres.addInputValues hadm.spends_mem hinputs
      rwa [UInt64.toNat_zero, Nat.zero_add] at htotal
    refine ⟨hfits, fun h => absurd (hclaims.symm.trans h) (by decide), fun _ => ⟨hclaim, ?_, ?_⟩⟩
    · exact ⟨by omega, hin ▸ UInt64.toNat_lt inputSum⟩
    · rw [Transaction.feeAt]
      omega

/-! ### Whole blocks -/

private theorem rewardTransactions_rest {txs : List (Transaction × Nat)} {st st' : RewardState}
    (hvalid : Valid (fun tx : Transaction × Nat => tx.1.move) view gone txs)
    (hclaims : ∀ tx ∈ txs, claimsReward tx = false) (hres : Resolves store.entries view st.inBlock)
    (hok : txs.foldlM (rewardTransaction store height maturity) st = .ok st') :
    st'.coinbaseClaim = st.coinbaseClaim ∧
      (∀ p ∈ meets Transaction.move view (txs.map Prod.fst), p.2.Covered p.1) ∧
      st'.totalFees.toNat = st.totalFees.toNat +
        ((meets Transaction.move view (txs.map Prod.fst)).map fun p => p.2.feeAt p.1).sum := by
  induction txs generalizing view gone st with
  | nil =>
      rw [List.foldlM_nil, pure_eq_ok] at hok
      subst hok
      simp [meets]
  | cons tx txs ih =>
      obtain ⟨hadm, hrest⟩ := hvalid
      rw [List.forall_mem_cons] at hclaims
      obtain ⟨t, ht, hok⟩ := foldlM_cons_eq_ok.mp hok
      obtain ⟨hcharged, hres'⟩ := Charged.of_ok hres hadm ht
      obtain ⟨hclaim, hcovered, hfees⟩ := hcharged.other hclaims.1
      obtain ⟨hclaim', hcovered', hfees'⟩ := ih hrest hclaims.2 hres' hok
      rw [hfees, Nat.add_assoc] at hfees'
      simp only [List.map_cons, meets, List.forall_mem_cons, List.sum_cons]
      exact ⟨hclaim'.trans hclaim, ⟨hcovered, hcovered'⟩, hfees'⟩

/-- What an accepted reward check says, in exact values of the ledger. -/
structure RewardsExact (entries : UtxoMap) (block : Block) (monetary : MonetaryParams) (fees : Amount) : Prop where
  fees_eq : fees.toNat = block.fees entries
  covered : ∀ p ∈ block.meets entries, p.2.isCoinbase = false → p.2.Covered p.1
  claim_le : block.coinbaseTotal ≤ (totalBlockReward block.header.height fees monetary).toNat

theorem isCoinbase_of_mem_tail {block : Block} {first : Transaction} {rest : List Transaction}
    (htxs : block.transactions = first :: rest) (hheight : block.header.height ≠ 0)
    (hstructure : block.validateStructure = .ok ()) : ∀ tx ∈ rest, tx.isCoinbase = false := by
  intro tx htx
  have hall := (Block.validateStructure_eq_ok.mp hstructure).1
  obtain ⟨i, hi, hget⟩ := List.mem_iff_getElem.mp htx
  have hmem : (tx, i + 1) ∈ block.transactions.zipIdx := by
    rw [List.mem_zipIdx_iff_getElem?, htxs]
    exact List.getElem?_eq_some_iff.mpr ⟨by simpa using hi, by simpa using hget⟩
  have hne := Block.inputs_ne_nil_of_index hheight (Nat.succ_ne_zero i) (hall _ hmem)
  simpa [Transaction.isCoinbase] using hne

/-- The loop over a block's transactions, in exact values of the ledger. -/
theorem rewardTransactions_exact {block : Block} {st : RewardState} (hheight : block.header.height ≠ 0)
    (hstructure : block.validateStructure = .ok ()) (hvalid : Valid Transaction.move store.entries [] block.transactions)
    (hok : block.transactions.zipIdx.foldlM (rewardTransaction store height maturity) ⟨∅, 0, none⟩ = .ok st) :
    st.totalFees.toNat = block.fees store.entries ∧
      (∀ p ∈ block.meets store.entries, p.2.isCoinbase = false → p.2.Covered p.1) ∧
      block.coinbaseTotal = (st.coinbaseClaim.map UInt64.toNat).getD 0 := by
  unfold Block.fees Block.coinbaseTotal Block.meets
  cases htxs : block.transactions with
  | nil =>
      rw [htxs, List.zipIdx_nil, List.foldlM_nil, pure_eq_ok] at hok
      subst hok
      simp [meets]
  | cons first rest =>
      have htail := isCoinbase_of_mem_tail htxs hheight hstructure
      rw [htxs] at hvalid
      rw [htxs, List.zipIdx_cons] at hok
      obtain ⟨hadm, hvalid'⟩ := hvalid
      obtain ⟨t, ht, hrest⟩ := foldlM_cons_eq_ok.mp hok
      obtain ⟨hcharged, hres⟩ := Charged.of_ok (.start store.entries) hadm ht
      have hmap : (rest.zipIdx 1).map Prod.fst = rest := List.zipIdx_map_fst 1 rest
      rw [← hmap, valid_map] at hvalid'
      have hclaims : ∀ tx ∈ rest.zipIdx (0 + 1), claimsReward tx = false := by
        intro tx htx
        have hpos := (List.mem_zipIdx htx).1
        simp only [claimsReward, Bool.and_eq_false_imp, beq_iff_eq]
        intro hzero
        omega
      obtain ⟨hclaim, hcovered, hfees⟩ := rewardTransactions_rest hvalid' hclaims hres hrest
      rw [hmap] at hcovered hfees
      have hfilter : (meets Transaction.move (advance store.entries first.move) rest).filter
          (fun p => !p.2.isCoinbase) = meets Transaction.move (advance store.entries first.move) rest := by
        rw [List.filter_eq_self]
        intro p hp
        rw [htail p.2 (mem_of_mem_meets hp), Bool.not_false]
      have hnone : rest.filter Transaction.isCoinbase = [] := by
        rw [List.filter_eq_nil_iff]
        intro tx htx
        simp [htail tx htx]
      simp only [meets, List.forall_mem_cons, List.filter_cons, hfilter, hnone]
      have hsame : claimsReward (first, 0) = first.isCoinbase := rfl
      cases hfirst : first.isCoinbase with
      | true =>
          obtain ⟨hzero, claim, hset, hvalue⟩ := hcharged.coinbase (hsame.trans hfirst)
          rw [hzero] at hfees
          refine ⟨by simpa using hfees, ⟨fun h => (by cases h), fun p hp _ => hcovered p hp⟩, ?_⟩
          rw [hclaim, hset]
          simp [hvalue]
      | false =>
          obtain ⟨hset, hle, hfee⟩ := hcharged.other (hsame.trans hfirst)
          rw [hfee] at hfees
          refine ⟨by simpa using hfees, ⟨fun _ => hle, fun p hp _ => hcovered p hp⟩, ?_⟩
          rw [hclaim, hset]
          simp

/-- **The reward check works with the exact fees and the exact claim.** -/
theorem RewardsExact.of_ok {block : Block} {monetary : MonetaryParams} {fees : Amount}
    (hheight : block.header.height ≠ 0) (hstructure : block.validateStructure = .ok ())
    (hvalid : Valid Transaction.move store.entries [] block.transactions)
    (hok : validateBlockRewards block store monetary maturity = .ok fees) :
    RewardsExact store.entries block monetary fees := by
  unfold validateBlockRewards at hok
  rw [if_neg hheight] at hok
  obtain ⟨st, hst, hok⟩ := bind_eq_ok.mp hok
  obtain ⟨hfees, hcovered, hclaim⟩ := rewardTransactions_exact hheight hstructure hvalid hst
  cases hset : st.coinbaseClaim with
  | none =>
      rw [hset] at hok hclaim
      cases pure_eq_ok.mp hok
      exact ⟨hfees, hcovered, hclaim ▸ Nat.zero_le _⟩
  | some claimed =>
      rw [hset] at hok hclaim
      obtain ⟨hle, hok⟩ := require_bind_eq_ok.mp hok
      cases pure_eq_ok.mp hok
      refine ⟨hfees, hcovered, ?_⟩
      rw [hclaim]
      exact UInt64.le_iff_toNat_le.mp (UInt64.not_lt.mp hle)

private theorem sum_inputs_eq {ps : List (UtxoMap × Transaction)}
    (hcovered : ∀ p ∈ ps, p.2.isCoinbase = false → p.2.Covered p.1) :
    (ps.map fun p => p.2.inputTotal p.1).sum +
        (((ps.map Prod.snd).filter Transaction.isCoinbase).map Transaction.outputTotal).sum =
      ((ps.filter fun p => !p.2.isCoinbase).map fun p => p.2.feeAt p.1).sum +
        ((ps.map Prod.snd).map Transaction.outputTotal).sum := by
  induction ps with
  | nil => rfl
  | cons p ps ih =>
      rw [List.forall_mem_cons] at hcovered
      have hrest := ih hcovered.2
      simp only [List.map_cons, List.sum_cons, List.filter_cons]
      cases hcoinbase : p.2.isCoinbase with
      | true =>
          have hinputs : p.2.inputTotal p.1 = 0 := by
            have hnil : p.2.inputs = [] := by simpa [Transaction.isCoinbase] using hcoinbase
            simp [Transaction.inputTotal, Ledger.inputTotal, Transaction.spends, hnil]
          simp only [if_true, Bool.not_true, Bool.false_eq_true, if_false, List.map_cons, List.sum_cons]
          omega
      | false =>
          have hle := (hcovered.1 hcoinbase).1
          have hfee : p.2.feeAt p.1 = p.2.inputTotal p.1 - p.2.outputTotal := rfl
          simp only [Bool.false_eq_true, if_false, Bool.not_false, if_true, List.map_cons, List.sum_cons]
          omega

/-- **Balance of a list of transactions.** What the ledger gains is what transactions without inputs create, less the fees. -/
theorem balance_of_covered {entries : UtxoMap} {gone : List OutPoint} {txs : List Transaction}
    (hvalid : Valid Transaction.move entries gone txs)
    (hcovered : ∀ p ∈ Ledger.meets Transaction.move entries txs, p.2.isCoinbase = false → p.2.Covered p.1) :
    utxoTotal (advanceAll Transaction.move entries txs) +
        (((Ledger.meets Transaction.move entries txs).filter fun p => !p.2.isCoinbase).map fun p => p.2.feeAt p.1).sum =
      utxoTotal entries + ((txs.filter Transaction.isCoinbase).map Transaction.outputTotal).sum := by
  have htotal := hvalid.total_advanceAll TxOutput.worth
  have hsums := sum_inputs_eq hcovered
  rw [meets_map_snd] at hsums
  simp only [Transaction.outputTotal_move] at htotal
  change _ + ((Ledger.meets Transaction.move entries txs).map fun p => p.2.inputTotal p.1).sum =
    _ + (txs.map Transaction.outputTotal).sum at htotal
  unfold utxoTotal
  linarith

theorem RewardsExact.balance {entries : UtxoMap} {block : Block} {monetary : MonetaryParams} {fees : Amount}
    (h : RewardsExact entries block monetary fees) (hvalid : Valid Transaction.move entries [] block.transactions) :
    utxoTotal (block.advance entries) + block.fees entries = utxoTotal entries + block.coinbaseTotal :=
  balance_of_covered hvalid h.covered

end QuantumVault
