import QuantumVault.Proof.Ledger.Speculative

/-!
# Blocks that pass the reward check

The converse of what the reward check says, for blocks in which no transaction spends what the block itself creates: exact covered fees that fit the amount word, mature inputs and a claim within the reward are enough.
-/

namespace QuantumVault

open Result TreeMap Ledger SlotTicker

variable [Crypto] {store : UtxoStore} {view : UtxoMap} {gone : List OutPoint} {height : Height} {maturity : UInt64}
  {inBlock : Std.ExtTreeMap OutPoint (Amount × Bool)} {op : OutPoint}

omit [Crypto] in
private theorem Resolves.resolveValue_isOk (hres : Resolves store.entries view inBlock) (hmem : op ∈ view)
    (houtside : op ∉ inBlock) (hmature : checkMature store height maturity op = .ok ()) :
    ∃ value, QuantumVault.resolveValue store height maturity inBlock op = .ok value := by
  obtain ⟨output, hop⟩ := mem_iff.mp hmem
  have hnone := notMem_iff.mp houtside
  rcases hres op output hop with ⟨-, hentry⟩ | ⟨fromCoinbase, hsome⟩
  · refine ⟨output.value, ?_⟩
    unfold QuantumVault.resolveValue
    rw [hnone, UtxoStore.get, hentry, okOr_some, ok_bind, hmature]
    rfl
  · cases hnone.symm.trans hsome

omit [Crypto] in
private theorem Resolves.addInputValues_isOk (hres : Resolves store.entries view inBlock) {inputs : List TxInput} {a : Amount}
    (hspends : ∀ op ∈ inputs.map TxInput.prevOutput, op ∈ view ∧ op ∉ inBlock ∧
      checkMature store height maturity op = .ok ())
    (hsum : a.toNat + ((inputs.map TxInput.prevOutput).map (weightAt TxOutput.worth view)).sum < 2 ^ 64) :
    ∃ c, inputs.foldlM (addInputValue store height maturity inBlock) a = .ok c := by
  induction inputs generalizing a with
  | nil => exact ⟨a, rfl⟩
  | cons input inputs ih =>
      rw [List.map_cons, List.forall_mem_cons] at hspends
      obtain ⟨⟨hmem, houtside, hmature⟩, hrest⟩ := hspends
      simp only [List.map_cons, List.sum_cons] at hsum
      obtain ⟨value, hvalue⟩ := hres.resolveValue_isOk hmem houtside hmature
      have hworth := hres.resolveValue hmem hvalue
      obtain ⟨b, hb⟩ : ∃ w : UInt64, w.toNat = a.toNat + value.toNat := Word.exists_toNat_eq (by omega)
      have hfirst : addInputValue store height maturity inBlock a input = .ok b := by
        rw [addInputValue, hvalue, ok_bind, okOr_eq_ok, Word.checkedAdd_eq_some]
        exact hb
      have hnext : b.toNat + ((inputs.map TxInput.prevOutput).map (weightAt TxOutput.worth view)).sum < 2 ^ 64 := by omega
      obtain ⟨c, hc⟩ := ih hrest hnext
      exact ⟨c, foldlM_cons_eq_ok.mpr ⟨b, hfirst, hc⟩⟩

structure Chargeable (store : UtxoStore) (height : Height) (maturity : UInt64) (tx : Transaction) : Prop where
  fits : tx.IndexFits
  outputs_lt : tx.outputTotal < 2 ^ 64
  spends_mem : ∀ op ∈ tx.spends, op ∈ store.entries
  mature : ∀ op ∈ tx.spends, checkMature store height maturity op = .ok ()

/-- Nothing in the overlay was in the store before the block. -/
def Outside (entries : UtxoMap) (inBlock : Std.ExtTreeMap OutPoint (Amount × Bool)) : Prop :=
  ∀ op ∈ inBlock, op ∉ entries

private theorem rewardTransaction_isOk {tx : Transaction × Nat} {st : RewardState}
    (hcharge : Chargeable store height maturity tx.1)
    (hres : Resolves store.entries view st.inBlock) (hadm : Admissible view gone tx.1.move)
    (houtside : Outside store.entries st.inBlock) (hcreated : ∀ op ∈ tx.1.move.created, op ∉ store.entries)
    (hcovered : claimsReward tx = false → tx.1.Covered view ∧ st.totalFees.toNat + tx.1.feeAt view < 2 ^ 64) :
    ∃ st', rewardTransaction store height maturity st tx = .ok st' ∧ Outside store.entries st'.inBlock := by
  obtain ⟨outputSum, hout⟩ := Word.exists_toNat_eq hcharge.outputs_lt
  have hsum : Word.checkedSum tx.1.outputValues = some outputSum := Word.checkedSum_eq_some.mpr hout
  obtain ⟨mid, hmid, hsame⟩ : ∃ mid, chargeTransaction store height maturity outputSum (claimsReward tx) st tx = .ok mid ∧
      mid.inBlock = st.inBlock := by
    unfold chargeTransaction
    cases hclaims : claimsReward tx with
    | true => exact ⟨_, rfl, rfl⟩
    | false =>
        obtain ⟨⟨hle, hlt⟩, hfees⟩ := hcovered hclaims
        have hspends : ∀ op ∈ tx.1.inputs.map TxInput.prevOutput, op ∈ view ∧ op ∉ st.inBlock ∧
            checkMature store height maturity op = .ok () := fun op hop =>
          ⟨hadm.spends_mem op hop, fun hmem => houtside op hmem (hcharge.spends_mem op hop), hcharge.mature op hop⟩
        obtain ⟨inputSum, hinputs⟩ := hres.addInputValues_isOk (a := 0) hspends (by
          rw [UInt64.toNat_zero, Nat.zero_add]
          exact hlt)
        have hin : inputSum.toNat = tx.1.inputTotal view := by
          have hvalue := hres.addInputValues hadm.spends_mem hinputs
          rwa [UInt64.toNat_zero, Nat.zero_add] at hvalue
        obtain ⟨fee, hfee⟩ : ∃ w : UInt64, w.toNat = tx.1.feeAt view :=
          Word.exists_toNat_eq (by rw [Transaction.feeAt]; omega)
        obtain ⟨total, htotal⟩ : ∃ w : UInt64, w.toNat = st.totalFees.toNat + tx.1.feeAt view :=
          Word.exists_toNat_eq hfees
        have hsub : Word.checkedSub inputSum outputSum = some fee := by
          rw [Word.checkedSub_eq_some, hin, hout, hfee, Transaction.feeAt]
          omega
        have hadd : Word.checkedAdd st.totalFees fee = some total := by
          rw [Word.checkedAdd_eq_some, htotal, hfee]
        refine ⟨{ st with totalFees := total }, ?_, rfl⟩
        rw [if_neg Bool.false_ne_true, hinputs, ok_bind, hsub, okOr_some, ok_bind, hadd]
        rfl
  obtain ⟨inBlock', hrecord⟩ : ∃ inBlock', inBlock' = insertAll st.inBlock
      (tx.1.outputs.zipIdx.map fun output => (tx.1.outPointAt output.2, (output.1.value, claimsReward tx))) := ⟨_, rfl⟩
  have hok := recordOutputs_eq_ok.mpr ⟨Transaction.indexFits_iff.mp hcharge.fits, hrecord⟩
  refine ⟨{ mid with inBlock := inBlock' }, ?_, ?_⟩
  · rw [rewardTransaction, hsum, okOr_some, ok_bind]
    change (chargeTransaction store height maturity outputSum (claimsReward tx) st tx >>= _) = _
    rw [hmid, ok_bind, hsame]
    change (tx.1.outputs.zipIdx.foldlM (recordOutput tx.1.id (claimsReward tx)) st.inBlock >>= _) = _
    rw [hok]
    rfl
  · intro op hop
    change op ∈ inBlock' at hop
    rw [hrecord] at hop
    rcases mem_insertAll.mp hop with hold | hnew
    · exact houtside op hold
    · refine hcreated op ?_
      rw [Transaction.created_keys]
      simpa [Function.comp_def] using hnew

private theorem rewardTransactions_isOk {txs : List (Transaction × Nat)} {st : RewardState}
    (hcharge : ∀ tx ∈ txs, Chargeable store height maturity tx.1)
    (hvalid : Valid (fun tx : Transaction × Nat => tx.1.move) view gone txs)
    (hcovers : ∀ op ∈ store.entries, op ∈ view ∨ op ∈ gone) (hclaims : ∀ tx ∈ txs, claimsReward tx = tx.1.isCoinbase)
    (hres : Resolves store.entries view st.inBlock) (houtside : Outside store.entries st.inBlock)
    (hcovered : ∀ p ∈ meets Transaction.move view (txs.map Prod.fst), p.2.isCoinbase = false → p.2.Covered p.1)
    (hfees : st.totalFees.toNat + feeTotal view (txs.map Prod.fst) < 2 ^ 64) :
    ∃ st', txs.foldlM (rewardTransaction store height maturity) st = .ok st' := by
  induction txs generalizing view gone st with
  | nil => exact ⟨st, rfl⟩
  | cons tx txs ih =>
      rw [List.forall_mem_cons] at hcharge hclaims
      rw [List.map_cons, meets, List.forall_mem_cons] at hcovered
      rw [List.map_cons, feeTotal_cons, ← hclaims.1] at hfees
      have hcreated : ∀ op ∈ tx.1.move.created, op ∉ store.entries := by
        intro op hop
        exact hvalid.notMem_of_created hcovers (List.mem_flatMap.mpr ⟨tx, List.mem_cons_self, hop⟩)
      obtain ⟨hadm, hrest⟩ := hvalid
      have hfirst : claimsReward tx = false →
          tx.1.Covered view ∧ st.totalFees.toNat + tx.1.feeAt view < 2 ^ 64 := by
        intro hfalse
        rw [hfalse] at hfees
        exact ⟨hcovered.1 (hclaims.1 ▸ hfalse), by simp at hfees; omega⟩
      obtain ⟨mid, hmid, houtside'⟩ := rewardTransaction_isOk hcharge.1 hres hadm houtside hcreated hfirst
      obtain ⟨hcharged, hres'⟩ := Charged.of_ok hres hadm hmid
      have hmidFees : mid.totalFees.toNat + feeTotal (advance view tx.1.move) (txs.map Prod.fst) < 2 ^ 64 := by
        cases hkind : claimsReward tx with
        | true =>
            rw [(hcharged.coinbase hkind).1]
            omega
        | false =>
            rw [(hcharged.other hkind).2.2]
            simp only [hkind, Bool.false_eq_true, if_false] at hfees
            omega
      obtain ⟨st', hst'⟩ := ih hcharge.2 hrest (covers_advance hcovers) hclaims.2 hres' houtside' hcovered.2 hmidFees
      exact ⟨st', foldlM_cons_eq_ok.mpr ⟨mid, hmid, hst'⟩⟩

/-- **Enough for the reward check.** -/
theorem validateBlockRewards_isOk {block : Block} {monetary : MonetaryParams} {fees : Amount}
    (hheight : block.header.height ≠ 0) (hstructure : block.validateStructure = .ok ())
    (hvalid : Valid Transaction.move store.entries [] block.transactions)
    (hcharge : ∀ tx ∈ block.transactions, Chargeable store block.header.height maturity tx)
    (hcovered : ∀ p ∈ block.meets store.entries, p.2.isCoinbase = false → p.2.Covered p.1)
    (hfees : fees.toNat = block.fees store.entries)
    (hclaim : block.coinbaseTotal ≤ (totalBlockReward block.header.height fees monetary).toNat) :
    ∃ fees, validateBlockRewards block store monetary maturity = .ok fees := by
  have hmap : block.transactions.zipIdx.map Prod.fst = block.transactions := List.zipIdx_map_fst 0 _
  have hclaims : ∀ tx ∈ block.transactions.zipIdx, claimsReward tx = tx.1.isCoinbase := by
    intro tx htx
    by_cases hindex : tx.2 = 0
    · simp [claimsReward, hindex, Transaction.isCoinbase]
    · have hne := Block.inputs_ne_nil_of_index hheight hindex ((Block.validateStructure_eq_ok.mp hstructure).1 tx htx)
      simp [claimsReward, hindex, Transaction.isCoinbase, hne]
  have hlt : (0 : Amount).toNat + feeTotal store.entries (block.transactions.zipIdx.map Prod.fst) < 2 ^ 64 := by
    rw [hmap, UInt64.toNat_zero, Nat.zero_add]
    change block.fees store.entries < 2 ^ 64
    rw [← hfees]
    exact UInt64.toNat_lt fees
  obtain ⟨st, hst⟩ : ∃ st, block.transactions.zipIdx.foldlM
      (rewardTransaction store block.header.height maturity) ⟨∅, 0, none⟩ = .ok st := rewardTransactions_isOk
    (fun tx htx => hcharge tx.1 (List.fst_mem_of_mem_zipIdx htx)) (valid_map.mp (hmap.symm ▸ hvalid))
    (fun op hop => Or.inl hop) hclaims (.start store.entries) (by intro op hop; simp at hop)
    (by rw [hmap]; exact hcovered) hlt
  obtain ⟨hexact, -, hclaimed⟩ := rewardTransactions_exact hheight hstructure hvalid hst
  have hsame : st.totalFees = fees := UInt64.toNat_inj.mp (hexact.trans hfees.symm)
  unfold validateBlockRewards
  rw [if_neg hheight, hst, ok_bind]
  cases hset : st.coinbaseClaim with
  | none => exact ⟨_, rfl⟩
  | some claimed =>
      refine ⟨st.totalFees, require_bind_eq_ok.mpr ⟨?_, rfl⟩⟩
      rw [UInt64.not_lt, UInt64.le_iff_toNat_le, hsame]
      rw [hclaimed, hset] at hclaim
      exact hclaim

end QuantumVault
