import QuantumVault.Node.SlotTicker
import QuantumVault.Proof.Ledger.Rewards

/-!
# The producer computes the ledger's moves

The producer runs transactions on an in-memory copy of the UTXO set and has its own fee sum and its own Merkle code. On the copy a transaction makes exactly its move, the fees are the exact ones, and the Merkle root is the one the block check computes.
-/

namespace QuantumVault

open Result TreeMap Ledger

variable [Crypto]

namespace SlotTicker

/-! ### The Merkle root -/

private theorem parentAt_add_two (left right : Hash256) (rest : List Hash256) (i : Nat) :
    parentAt (left :: right :: rest) (i + 2) = parentAt rest i := by
  have hnext : i + 2 + 1 = i + 1 + 2 := by omega
  simp only [parentAt, hnext, List.getD_cons_succ, List.length_cons, Nat.add_lt_add_iff_right]

private theorem nextLevel_eq (level : List Hash256) : nextLevel level = merkleLevel level := by
  fun_induction merkleLevel level with
  | case1 => rfl
  | case2 last => simp [nextLevel, parentAt]
  | case3 left right rest ih =>
      have hlen : ((left :: right :: rest).length + 1) / 2 = (rest.length + 1) / 2 + 1 := by
        simp only [List.length_cons]
        omega
      rw [← ih, nextLevel, hlen, List.range_succ_eq_map, List.map_cons, List.map_map]
      congr 1
      refine List.map_congr_left fun i _ => ?_
      exact parentAt_add_two left right rest (2 * i)

private theorem reduceLevels_eq (rounds : Nat) (level : List Hash256) :
    reduceLevels rounds level = merkleReduce rounds level := by
  induction rounds generalizing level with
  | zero => rfl
  | succ rounds ih => rw [reduceLevels, merkleReduce, nextLevel_eq, ih]

/-- **Both Merkle codes give the same root.** -/
theorem merkleRootOf_eq (txIds : List TxId) : merkleRootOf txIds = QuantumVault.merkleRootOf txIds := by
  rw [merkleRootOf, QuantumVault.merkleRootOf, reduceLevels_eq]

/-! ### The copy of the UTXO set -/

omit [Crypto] in
theorem insertEntries_eq_ok {entries : List (OutPoint × TxOutput)} {set : UtxoMap}
    (hnodup : (entries.map Prod.fst).Nodup) (hfresh : ∀ op ∈ entries.map Prod.fst, op ∉ set) :
    entries.foldlM (fun set entry => (InMemoryUtxoSet.insert set entry.1 entry.2).mapError fun _ => SlotTickerError.storage)
      set = .ok (insertAll set entries) := by
  induction entries generalizing set with
  | nil => rfl
  | cons entry entries ih =>
      rw [List.map_cons, List.nodup_cons] at hnodup
      rw [List.map_cons, List.forall_mem_cons] at hfresh
      have hrest : ∀ op ∈ entries.map Prod.fst, op ∉ set.insert entry.1 entry.2 := by
        intro op hop hmem
        rcases mem_insert.mp hmem with heq | hold
        · exact hnodup.1 (heq ▸ hop)
        · exact hfresh.2 op hop hold
      rw [List.foldlM_cons, InMemoryUtxoSet.insert, if_neg hfresh.1, mapError_ok, ok_bind, ih hnodup.2 hrest,
        insertAll_cons]

omit [Crypto] in
theorem snapshot_eq (store : UtxoStore) : snapshot store = .ok store.entries := by
  rw [snapshot, insertEntries_eq_ok (nodup_keys_toList store.entries) (by simp)]
  congr 1
  refine Std.ExtTreeMap.ext_getElem? fun op => ?_
  rw [getElem?_insertAll_toList, Std.ExtTreeMap.getElem?_empty, Option.or_none]

/-! ### One transaction -/

omit [Crypto] in
private theorem removeInput_eq_ok {acc acc' : UtxoMap × Amount} {input : TxInput} :
    removeInput acc input = .ok acc' ↔
      input.prevOutput ∈ acc.1 ∧ acc'.1 = acc.1.erase input.prevOutput ∧
        acc'.2.toNat = acc.2.toNat + weightAt TxOutput.worth acc.1 input.prevOutput := by
  unfold removeInput InMemoryUtxoSet.remove
  cases hget : acc.1[input.prevOutput]? with
  | none =>
      have hnot := notMem_iff.mpr hget
      simp [hnot, Except.mapError]
  | some output =>
      have hmem := mem_of_getElem? hget
      simp only [mapError_ok, ok_bind, okOr_bind_eq_ok, pure_eq_ok, Word.checkedAdd_eq_some, weightAt, hget,
        Option.elim_some, TxOutput.worth, hmem, true_and]
      constructor
      · intro h
        obtain ⟨sum, hsum, rfl⟩ := h
        exact ⟨rfl, hsum⟩
      · intro h
        obtain ⟨hset, hsum⟩ := h
        exact ⟨acc'.2, hsum, by rw [← hset]⟩

omit [Crypto] in
private theorem removeInputs_eq_ok {inputs : List TxInput} {acc acc' : UtxoMap × Amount} :
    inputs.foldlM removeInput acc = .ok acc' ↔
      (inputs.map TxInput.prevOutput).Nodup ∧ (∀ op ∈ inputs.map TxInput.prevOutput, op ∈ acc.1) ∧
        acc'.1 = eraseAll acc.1 (inputs.map TxInput.prevOutput) ∧
        acc'.2.toNat = acc.2.toNat + ((inputs.map TxInput.prevOutput).map (weightAt TxOutput.worth acc.1)).sum := by
  induction inputs generalizing acc with
  | nil =>
      simp only [List.foldlM_nil, pure_eq_ok, List.map_nil, List.nodup_nil, List.not_mem_nil, false_implies,
        implies_true, eraseAll_nil, List.sum_nil, Nat.add_zero, true_and, UInt64.toNat_inj]
      exact ⟨fun h => h ▸ ⟨rfl, rfl⟩, fun h => Prod.ext h.1.symm h.2.symm⟩
  | cons input inputs ih =>
      have hweights (hnot : input.prevOutput ∉ inputs.map TxInput.prevOutput) :
          (inputs.map TxInput.prevOutput).map (weightAt TxOutput.worth (acc.1.erase input.prevOutput)) =
            (inputs.map TxInput.prevOutput).map (weightAt TxOutput.worth acc.1) := by
        refine List.map_congr_left fun op hop => ?_
        have hne : input.prevOutput ≠ op := fun h => hnot (h ▸ hop)
        rw [weightAt, weightAt, getElem?_erase_of_ne hne]
      simp only [foldlM_cons_eq_ok, removeInput_eq_ok, ih, List.map_cons, List.nodup_cons, List.forall_mem_cons,
        eraseAll_cons, List.sum_cons]
      constructor
      · intro h'
        obtain ⟨t, ⟨hmem, hset, hsum⟩, hnodup, hmems, hset', hsum'⟩ := h'
        rw [hset] at hmems hset' hsum'
        have hnot : input.prevOutput ∉ inputs.map TxInput.prevOutput := fun h => (mem_erase.mp (hmems _ h)).1 rfl
        rw [hweights hnot] at hsum'
        exact ⟨⟨hnot, hnodup⟩, ⟨hmem, fun op hop => (mem_erase.mp (hmems op hop)).2⟩, hset', by omega⟩
      · intro h'
        obtain ⟨⟨hnot, hnodup⟩, ⟨hmem, hmems⟩, hset', hsum'⟩ := h'
        have hlt := UInt64.toNat_lt acc'.2
        obtain ⟨first, hfirst⟩ : ∃ w : UInt64,
            w.toNat = acc.2.toNat + weightAt TxOutput.worth acc.1 input.prevOutput :=
          Word.exists_toNat_eq (by omega)
        refine ⟨(acc.1.erase input.prevOutput, first), ⟨hmem, rfl, hfirst⟩, hnodup, ?_, hset', ?_⟩
        · intro op hop
          exact mem_erase.mpr ⟨fun h => hnot (h ▸ hop), hmems op hop⟩
        · rw [hweights hnot]
          change acc'.2.toNat = first.toNat + _
          omega

private theorem insertOutput_eq_ok {tx : Transaction} {set set' : UtxoMap} {output : TxOutput × Nat} :
    insertOutput tx.id set output = .ok set' ↔
      output.2 < 2 ^ 32 ∧ tx.outPointAt output.2 ∉ set ∧ set' = set.insert (tx.outPointAt output.2) output.1 := by
  unfold insertOutput InMemoryUtxoSet.insert
  simp only [okOr_bind_eq_ok, Transaction.ofPosition_eq_some, mapError_eq_ok]
  constructor
  · intro h
    obtain ⟨op, ⟨hlt, rfl⟩, hok⟩ := h
    split at hok
    · cases hok
    · rename_i hfresh
      exact ⟨hlt, hfresh, (Except.ok.inj hok).symm⟩
  · intro h
    obtain ⟨hlt, hfresh, rfl⟩ := h
    exact ⟨_, ⟨hlt, rfl⟩, by rw [if_neg hfresh]⟩

private theorem insertOutputs_eq_ok {tx : Transaction} {outputs : List (TxOutput × Nat)} {set set' : UtxoMap} :
    outputs.foldlM (insertOutput tx.id) set = .ok set' ↔
      (∀ output ∈ outputs, output.2 < 2 ^ 32) ∧ (outputs.map fun output => tx.outPointAt output.2).Nodup ∧
        (∀ output ∈ outputs, tx.outPointAt output.2 ∉ set) ∧
        set' = insertAll set (outputs.map fun output => (tx.outPointAt output.2, output.1)) := by
  induction outputs generalizing set with
  | nil => simp [pure, Except.pure, eq_comm]
  | cons output outputs ih =>
      simp only [foldlM_cons_eq_ok, insertOutput_eq_ok, ih, List.forall_mem_cons, List.map_cons, List.nodup_cons,
        insertAll_cons]
      constructor
      · intro h
        obtain ⟨_, ⟨hlt, hfresh, rfl⟩, hlts, hnodup, hfreshs, rfl⟩ := h
        refine ⟨⟨hlt, hlts⟩, ⟨?_, hnodup⟩, ⟨hfresh, fun o ho hmem => hfreshs o ho (mem_insert.mpr (Or.inr hmem))⟩, rfl⟩
        intro hagain
        obtain ⟨o, ho, heq⟩ := List.mem_map.mp hagain
        exact hfreshs o ho (mem_insert.mpr (Or.inl heq.symm))
      · intro h
        obtain ⟨⟨hlt, hlts⟩, ⟨hnot, hnodup⟩, ⟨hfresh, hfreshs⟩, rfl⟩ := h
        refine ⟨_, ⟨hlt, hfresh, rfl⟩, hlts, hnodup, ?_, rfl⟩
        intro o ho hmem
        rcases mem_insert.mp hmem with heq | hold
        · exact hnot (List.mem_map.mpr ⟨o, ho, heq.symm⟩)
        · exact hfreshs o ho hold

omit [Crypto] in
private theorem addFee_eq_ok {tx : Transaction} {inputSum fees fees' : Amount} :
    addFee tx inputSum fees = .ok fees' ↔
      (tx.inputs = [] ∧ fees' = fees) ∨
        (tx.inputs ≠ [] ∧ tx.outputTotal ≤ inputSum.toNat ∧
          fees'.toNat = fees.toNat + (inputSum.toNat - tx.outputTotal)) := by
  unfold addFee
  by_cases hinputs : tx.inputs = []
  · simp [hinputs, eq_comm]
  · have hempty : tx.inputs.isEmpty = false := by simpa using hinputs
    simp only [hempty, Bool.false_eq_true, if_false, okOr_bind_eq_ok, okOr_eq_ok, Word.checkedSum_eq_some,
      Word.checkedSub_eq_some, Word.checkedAdd_eq_some, hinputs, false_and, false_or, ne_eq, not_false_eq_true, true_and]
    rw [← Transaction.outputTotal]
    constructor
    · intro h
      obtain ⟨out, hout, fee, hfee, hsum⟩ := h
      exact ⟨by omega, by omega⟩
    · intro h
      obtain ⟨hle, hsum⟩ := h
      have hlt := UInt64.toNat_lt inputSum
      obtain ⟨out, hout⟩ : ∃ w : UInt64, w.toNat = tx.outputTotal := Word.exists_toNat_eq (by omega)
      obtain ⟨fee, hfee⟩ : ∃ w : UInt64, w.toNat = inputSum.toNat - tx.outputTotal := Word.exists_toNat_eq (by omega)
      exact ⟨out, hout, fee, by omega, by omega⟩

structure Ran (outcome : SpeculativeApplyOutcome) (tx : Transaction) (outcome' : SpeculativeApplyOutcome) : Prop where
  fits : tx.IndexFits
  set_eq : outcome'.set = advance outcome.set tx.move
  coinbase : tx.isCoinbase = true → outcome'.totalFees = outcome.totalFees
  other : tx.isCoinbase = false → tx.Covered outcome.set ∧
    outcome'.totalFees.toNat = outcome.totalFees.toNat + tx.feeAt outcome.set

/-- **One transaction on the copy** makes its move there and adds its exact fee. -/
theorem applyTransaction_eq_ok {outcome outcome' : SpeculativeApplyOutcome} {tx : Transaction} :
    applyTransaction outcome tx = .ok outcome' ↔
      Ran outcome tx outcome' ∧ tx.spends.Nodup ∧ (∀ op ∈ tx.spends, op ∈ outcome.set) ∧
        ∀ op ∈ tx.move.created, op ∉ eraseAll outcome.set tx.spends := by
  have hcoinbase : tx.isCoinbase = true ↔ tx.inputs = [] := by simp [Transaction.isCoinbase]
  have hother : tx.isCoinbase = false ↔ tx.inputs ≠ [] := by simp [Transaction.isCoinbase]
  have hspends : tx.inputs.map TxInput.prevOutput = tx.spends := rfl
  have htotal : (tx.spends.map (weightAt TxOutput.worth outcome.set)).sum = tx.inputTotal outcome.set := rfl
  unfold applyTransaction
  simp only [bind_eq_ok, removeInputs_eq_ok, insertOutputs_eq_ok, addFee_eq_ok, pure_eq_ok, UInt64.toNat_zero,
    Nat.zero_add, hspends, htotal, Transaction.created_keys, List.forall_mem_map]
  constructor
  · intro h'
    obtain ⟨⟨set, sum⟩, ⟨hnodup, hmem, rfl, hsum⟩, set', ⟨hlts, -, hfresh, hset'⟩, fees, hfees, rfl⟩ := h'
    dsimp only at hsum hfees hfresh hset'
    refine ⟨⟨Transaction.indexFits_iff.mpr hlts, hset', ?_, ?_⟩, hnodup, hmem, hfresh⟩
    · rw [hcoinbase]
      intro hnil
      exact (hfees.resolve_right fun h => h.1 hnil).2
    · rw [hother]
      intro hne
      obtain ⟨-, hle, hfee⟩ := hfees.resolve_left fun h => hne h.1
      rw [hsum] at hle hfee
      exact ⟨⟨hle, hsum ▸ UInt64.toNat_lt sum⟩, hfee⟩
  · intro h'
    obtain ⟨⟨hfits, hset', hnil, hne⟩, hnodup, hmem, hfresh⟩ := h'
    have hnodup' := Transaction.created_nodup hfits
    rw [Transaction.created_keys] at hnodup'
    have hlts := Transaction.indexFits_iff.mp hfits
    cases hkind : tx.isCoinbase with
    | true =>
        have hinputs := hcoinbase.mp hkind
        have hzero : tx.inputTotal outcome.set = 0 := by
          simp [Transaction.inputTotal, Ledger.inputTotal, Transaction.spends, hinputs]
        exact ⟨(_, 0), ⟨hnodup, hmem, rfl, hzero.symm⟩, outcome'.set, ⟨hlts, hnodup', hfresh, hset'⟩,
          outcome'.totalFees, Or.inl ⟨hinputs, hnil hkind⟩, rfl⟩
    | false =>
        obtain ⟨⟨hle, hlt⟩, hfee⟩ := hne hkind
        obtain ⟨sum, hsum⟩ := Word.exists_toNat_eq hlt
        refine ⟨(_, sum), ⟨hnodup, hmem, rfl, hsum⟩, outcome'.set, ⟨hlts, hnodup', hfresh, hset'⟩,
          outcome'.totalFees, Or.inr ⟨hother.mp hkind, ?_⟩, rfl⟩
        dsimp only
        rw [hsum]
        exact ⟨hle, hfee⟩

/-! ### Whole lists -/

/-- The exact total of the fees of a list of transactions, those without inputs apart. -/
def feeTotal (view : UtxoMap) (txs : List Transaction) : Nat :=
  (((meets Transaction.move view txs).filter fun p => !p.2.isCoinbase).map fun p => p.2.feeAt p.1).sum

theorem feeTotal_cons {view : UtxoMap} {tx : Transaction} {txs : List Transaction} :
    feeTotal view (tx :: txs) =
      (if tx.isCoinbase then 0 else tx.feeAt view) + feeTotal (advance view tx.move) txs := by
  unfold feeTotal
  cases hkind : tx.isCoinbase <;> simp [meets, hkind]

private theorem applyTransactions_of_ok {outcome outcome' : SpeculativeApplyOutcome} {txs : List Transaction}
    (hok : txs.foldlM applyTransaction outcome = .ok outcome') :
    (∀ tx ∈ txs, tx.IndexFits) ∧ outcome'.set = advanceAll Transaction.move outcome.set txs ∧
      (∀ p ∈ meets Transaction.move outcome.set txs, p.2.isCoinbase = false → p.2.Covered p.1) ∧
      outcome'.totalFees.toNat = outcome.totalFees.toNat + feeTotal outcome.set txs := by
  induction txs generalizing outcome with
  | nil =>
      rw [List.foldlM_nil, pure_eq_ok] at hok
      subst hok
      simp [feeTotal, meets]
  | cons tx txs ih =>
      obtain ⟨mid, hmid, hrest⟩ := foldlM_cons_eq_ok.mp hok
      obtain ⟨hran, -, -, -⟩ := applyTransaction_eq_ok.mp hmid
      obtain ⟨hfits, hset, hcovered, hfees⟩ := ih hrest
      rw [hran.set_eq] at hset hcovered hfees
      refine ⟨List.forall_mem_cons.mpr ⟨hran.fits, hfits⟩, hset,
        List.forall_mem_cons.mpr ⟨fun hkind => (hran.other hkind).1, hcovered⟩, ?_⟩
      rw [hfees, feeTotal_cons]
      cases hkind : tx.isCoinbase with
      | true =>
          rw [hran.coinbase hkind]
          simp
      | false =>
          rw [(hran.other hkind).2]
          simp only [Bool.false_eq_true, if_false]
          omega

private theorem applyTransactions_isOk {outcome : SpeculativeApplyOutcome} {gone : List OutPoint} {txs : List Transaction}
    (hvalid : Valid Transaction.move outcome.set gone txs) (hfits : ∀ tx ∈ txs, tx.IndexFits)
    (hcovered : ∀ p ∈ meets Transaction.move outcome.set txs, p.2.isCoinbase = false → p.2.Covered p.1)
    (hfees : outcome.totalFees.toNat + feeTotal outcome.set txs < 2 ^ 64) :
    ∃ outcome', txs.foldlM applyTransaction outcome = .ok outcome' := by
  induction txs generalizing outcome gone with
  | nil => exact ⟨outcome, rfl⟩
  | cons tx txs ih =>
      obtain ⟨hadm, hrest⟩ := hvalid
      rw [List.forall_mem_cons] at hfits
      rw [meets, List.forall_mem_cons] at hcovered
      rw [feeTotal_cons] at hfees
      obtain ⟨fees, hsum⟩ : ∃ w : UInt64,
          w.toNat = outcome.totalFees.toNat + if tx.isCoinbase then 0 else tx.feeAt outcome.set :=
        Word.exists_toNat_eq (by omega)
      have hran : Ran outcome tx ⟨advance outcome.set tx.move, fees⟩ := by
        refine ⟨hfits.1, rfl, fun hkind => ?_, fun hkind => ⟨hcovered.1 hkind, ?_⟩⟩
        · rw [if_pos hkind, Nat.add_zero] at hsum
          exact UInt64.toNat_inj.mp hsum
        · rwa [if_neg (by simp [hkind])] at hsum
      have hfirst := applyTransaction_eq_ok.mpr ⟨hran, hadm.spends_nodup, hadm.spends_mem, fun op hop hmem =>
        (hadm.created_fresh op hop).1 (mem_eraseAll.mp hmem).1⟩
      have hnext : fees.toNat + feeTotal (advance outcome.set tx.move) txs < 2 ^ 64 := by omega
      obtain ⟨outcome', hok⟩ := @ih ⟨advance outcome.set tx.move, fees⟩ _ hrest hfits.2 hcovered.2 hnext
      exact ⟨outcome', foldlM_cons_eq_ok.mpr ⟨_, hfirst, hok⟩⟩

/-- **The speculative run, in exact values of the ledger.** -/
theorem speculativeApply_of_ok {store : UtxoStore} {txs : List Transaction} {outcome : SpeculativeApplyOutcome}
    (hok : speculativeApply store txs = .ok outcome) :
    (∀ tx ∈ txs, tx.IndexFits) ∧ outcome.set = advanceAll Transaction.move store.entries txs ∧
      (∀ p ∈ meets Transaction.move store.entries txs, p.2.isCoinbase = false → p.2.Covered p.1) ∧
      outcome.totalFees.toNat = feeTotal store.entries txs := by
  rw [speculativeApply, snapshot_eq, ok_bind] at hok
  obtain ⟨hfits, hset, hcovered, hfees⟩ := applyTransactions_of_ok hok
  rw [UInt64.toNat_zero, Nat.zero_add] at hfees
  exact ⟨hfits, hset, hcovered, hfees⟩

theorem speculativeApply_isOk {store : UtxoStore} {txs : List Transaction}
    (hvalid : Valid Transaction.move store.entries [] txs) (hfits : ∀ tx ∈ txs, tx.IndexFits)
    (hcovered : ∀ p ∈ meets Transaction.move store.entries txs, p.2.isCoinbase = false → p.2.Covered p.1)
    (hfees : feeTotal store.entries txs < 2 ^ 64) : ∃ outcome, speculativeApply store txs = .ok outcome := by
  rw [speculativeApply, snapshot_eq, ok_bind]
  exact applyTransactions_isOk hvalid hfits hcovered (by simpa using hfees)

end SlotTicker

end QuantumVault
