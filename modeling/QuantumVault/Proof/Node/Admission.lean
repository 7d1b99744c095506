import QuantumVault.Proof.Ledger.Rewards

/-!
# What transaction validation says

The mempool's validation of a transaction, stated against a ledger: the transaction is well formed, its inputs are unspent, it pays the minimum fee in exact numbers, and the script of every input succeeds.
-/

namespace QuantumVault

open Result TreeMap Ledger

variable [Crypto]

/-- The script of every input of a transaction succeeds on the output it spends. -/
def ScriptsPass (view : UtxoMap) (tx : Transaction) (slot : Slot) : Prop :=
  ∃ resolved : List TxOutput, (tx.spends.map fun op => view[op]?) = resolved.map some ∧
    ∀ input ∈ tx.inputs.zip resolved, ∃ result,
      validateScript input.2.lockingScript input.1.witness tx resolved slot = .ok result ∧ result.success = true

variable {store : UtxoStore} {tx : Transaction} {slot : Slot} {view : UtxoMap}

omit [Crypto] in
theorem exists_resolved_iff {ops : List OutPoint} :
    (∃ resolved : List TxOutput, (ops.map fun op => view[op]?) = resolved.map some) ↔ ∀ op ∈ ops, op ∈ view := by
  induction ops with
  | nil => simp
  | cons op ops ih =>
      rw [List.forall_mem_cons, ← ih]
      constructor
      · intro h
        obtain ⟨resolved, heq⟩ := h
        cases resolved with
        | nil => simp at heq
        | cons output resolved =>
            rw [List.map_cons, List.map_cons, List.cons.injEq] at heq
            exact ⟨mem_of_getElem? heq.1, resolved, heq.2⟩
      · intro h
        obtain ⟨hmem, resolved, heq⟩ := h
        obtain ⟨output, houtput⟩ := mem_iff.mp hmem
        exact ⟨output :: resolved, by rw [List.map_cons, List.map_cons, houtput, heq]⟩

theorem sum_resolved {resolved : List TxOutput} (hres : (tx.spends.map fun op => view[op]?) = resolved.map some) :
    ((resolved.map TxOutput.value).map UInt64.toNat).sum = tx.inputTotal view := by
  have hweights : tx.spends.map (weightAt TxOutput.worth view) = resolved.map TxOutput.worth := by
    have heq := congrArg (List.map fun o : Option TxOutput => o.elim 0 TxOutput.worth) hres
    rw [List.map_map, List.map_map] at heq
    exact heq
  rw [Transaction.inputTotal, Ledger.inputTotal, Transaction.move_spends, hweights, List.map_map]
  rfl

private theorem validateInputScript_eq_ok {resolved : List TxOutput} {input : (TxInput × TxOutput) × Nat} :
    validateInputScript tx resolved slot input = .ok () ↔
      ∃ result, validateScript input.1.2.lockingScript input.1.1.witness tx resolved slot = .ok result ∧
        result.success = true := by
  unfold validateInputScript
  simp only [bind_eq_ok, mapError_eq_ok, require_eq_ok]

/-- **What a validated transaction is.** -/
structure Validated (view : UtxoMap) (tx : Transaction) (slot : Slot) (minFee : UInt64) : Prop where
  valid_structure : tx.validateStructure = .ok ()
  spends_mem : ∀ op ∈ tx.spends, op ∈ view
  fits : tx.inputTotal view < 2 ^ 64
  pays : tx.outputTotal + minFee.toNat ≤ tx.inputTotal view
  scripts : ScriptsPass view tx slot

theorem validateTransaction_isOk {minFee : UInt64} :
    (∃ v, validateTransaction tx store slot minFee = .ok v) ↔ Validated store.entries tx slot minFee := by
  unfold validateTransaction
  simp only [bind_eq_ok, mapError_eq_ok, mapM_okOr_eq_ok, okOr_eq_ok, require_eq_ok, pure_eq_ok, forM_eq_ok,
    validateInputScript_eq_ok, Word.checkedSum_eq_some, Word.checkedSub_eq_some]
  constructor
  · rintro ⟨v, _, hstructure, resolved, hres, inputSum, hin, outputSum, hout, fee, hfee, _, hmin, _,
      hscripts, -⟩
    have hres' : (tx.spends.map fun op => store.entries[op]?) = resolved.map some := by
      rw [Transaction.spends, List.map_map]
      exact hres
    rw [sum_resolved hres'] at hin
    rw [← Transaction.outputTotal] at hout
    rw [UInt64.not_lt, UInt64.le_iff_toNat_le] at hmin
    refine ⟨hstructure, exists_resolved_iff.mp ⟨resolved, hres'⟩, hin ▸ UInt64.toNat_lt inputSum, by omega,
      resolved, hres', ?_⟩
    intro input hinput
    obtain ⟨i, hi, hget⟩ := List.mem_iff_getElem.mp hinput
    exact hscripts (input, i) (List.mem_zipIdx_iff_getElem?.mpr (List.getElem?_eq_some_iff.mpr ⟨hi, hget⟩))
  · intro h
    obtain ⟨hstructure, -, hfits, hpays, resolved, hres, hscripts⟩ := h
    have hres' : (tx.inputs.map fun input => store.get input.prevOutput) = resolved.map some := by
      rw [Transaction.spends, List.map_map] at hres
      exact hres
    have hin : (UInt64.ofNat (tx.inputTotal store.entries)).toNat = ((resolved.map TxOutput.value).map UInt64.toNat).sum := by
      rw [sum_resolved hres, UInt64.toNat_ofNat', Nat.mod_eq_of_lt hfits]
    have hout : (UInt64.ofNat tx.outputTotal).toNat = (tx.outputValues.map UInt64.toNat).sum := by
      rw [UInt64.toNat_ofNat', Nat.mod_eq_of_lt (by omega)]
      rfl
    have hfee : (UInt64.ofNat (tx.inputTotal store.entries)).toNat =
        (UInt64.ofNat tx.outputTotal).toNat +
          (UInt64.ofNat (tx.inputTotal store.entries - tx.outputTotal)).toNat := by
      simp only [UInt64.toNat_ofNat']
      omega
    refine ⟨_, (), hstructure, resolved, hres', _, hin, _, hout, _, hfee, (), ?_, (), ?_, rfl⟩
    · rw [UInt64.not_lt, UInt64.le_iff_toNat_le, UInt64.toNat_ofNat']
      omega
    · intro input hinput
      exact hscripts input.1 (List.fst_mem_of_mem_zipIdx hinput)

theorem validateTransaction_txId {minFee : UInt64} {validated : ValidatedTx}
    (hok : validateTransaction tx store slot minFee = .ok validated) : validated.txId = tx.id := by
  unfold validateTransaction at hok
  simp only [bind_eq_ok, pure_eq_ok] at hok
  obtain ⟨_, -, _, -, _, -, _, -, _, -, _, -, _, -, rfl⟩ := hok
  rfl

end QuantumVault
