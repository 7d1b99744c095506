import QuantumVault.Proof.Node.Admission
import QuantumVault.Proof.Node.Genesis

/-!
# The fee of a transaction

Validation computes the fee as the values that go in less the values that come out, and hands it on. The field of that name is what the sender declares: scripts read it, and nothing compares it with the fee.
-/

namespace QuantumVault

open Result TreeMap Ledger

section Charged

variable [Crypto] {store : UtxoStore} {tx : Transaction} {slot : Slot} {minFee : UInt64} {validated : ValidatedTx}

/-- The transaction with another declared fee. -/
def Transaction.declaring (tx : Transaction) (fee : Amount) : Transaction := { tx with fee }

omit [Crypto] in
@[simp] theorem Transaction.outputTotal_declaring (tx : Transaction) (fee : Amount) :
    (tx.declaring fee).outputTotal = tx.outputTotal := rfl

@[simp] theorem Transaction.inputTotal_declaring (view : UtxoMap) (tx : Transaction) (fee : Amount) :
    (tx.declaring fee).inputTotal view = tx.inputTotal view := rfl

theorem validateTransaction_fee (hok : validateTransaction tx store slot minFee = .ok validated) :
    tx.outputTotal + validated.fee.toNat = tx.inputTotal store.entries := by
  unfold validateTransaction at hok
  simp only [bind_eq_ok, mapError_eq_ok, mapM_okOr_eq_ok, okOr_eq_ok, require_eq_ok, pure_eq_ok, Word.checkedSum_eq_some,
    Word.checkedSub_eq_some] at hok
  obtain ⟨_, -, resolved, hresolved, inputSum, hin, outputSum, hout, fee, hfee, _, -, _, -, rfl⟩ := hok
  have hresolved' : (tx.spends.map fun op => store.entries[op]?) = resolved.map some := by
    rw [Transaction.spends, List.map_map]
    exact hresolved
  rw [sum_resolved hresolved'] at hin
  rw [← Transaction.outputTotal] at hout
  rw [← hin, hfee, hout]

private theorem validated_declaring (h : Validated store.entries tx slot minFee) (fee : Amount) :
    Validated store.entries (tx.declaring fee) slot minFee ↔ ScriptsPass store.entries (tx.declaring fee) slot :=
  ⟨Validated.scripts, fun hscripts => ⟨h.valid_structure, h.spends_mem, h.fits, h.pays, hscripts⟩⟩

/-- **The fee that is charged is the real one.** An accepted transaction is charged what it leaves over. What it declares is what its scripts read as the fee; with any other declaration that the scripts take it is accepted as well, at the same charge. -/
theorem charged_fee_exact (hok : validateTransaction tx store slot minFee = .ok validated) :
    tx.outputTotal + validated.fee.toNat = tx.inputTotal store.entries ∧
      (∀ (resolved : List TxOutput) (script : Bytes) (data : Bytes) (stack : Stack),
        evalOp (.new tx resolved slot script) ⟨.txFee, data⟩ stack = push stack (.int tx.fee.toInt64)) ∧
      ∀ fee, ((∃ other, validateTransaction (tx.declaring fee) store slot minFee = .ok other) ↔
          ScriptsPass store.entries (tx.declaring fee) slot) ∧
        ∀ other, validateTransaction (tx.declaring fee) store slot minFee = .ok other → other.fee = validated.fee := by
  have hcharged := validateTransaction_fee hok
  refine ⟨hcharged, fun _ _ _ _ => rfl, fun fee => ⟨?_, fun other hother => ?_⟩⟩
  · rw [validateTransaction_isOk]
    exact validated_declaring (validateTransaction_isOk.mp ⟨validated, hok⟩) fee
  · have hother' := validateTransaction_fee hother
    rw [Transaction.outputTotal_declaring, Transaction.inputTotal_declaring] at hother'
    rw [← UInt64.toNat_inj]
    omega

end Charged

/-! ### A declaration that is not true -/

section Declared

/-- A lock that opens for a declared fee of 7. -/
def feeLock : Bytes := encodeInstructions [.simple .txFee, .pushInt 7, .simple .eq]

/-- A spend of an output of 1000 that leaves 10 over and declares 7. -/
def feeSpend : Transaction := (Transaction.new [⟨⟨.zero, 0⟩, []⟩] [.new 990 [1]]).declaring 7

def feeStore : UtxoStore :=
  { UtxoStore.new with entries := (∅ : UtxoMap).insert ⟨.zero, 0⟩ (.new 1000 feeLock) }

theorem feeSpend_accepted :
    ∃ validated, @validateTransaction sampleCrypto feeSpend feeStore 0 5 = .ok validated ∧ validated.fee = 10 := by
  have hfee : (@validateTransaction sampleCrypto feeSpend feeStore 0 5).map ValidatedTx.fee = .ok 10 := by decide +kernel
  cases hresult : @validateTransaction sampleCrypto feeSpend feeStore 0 5 with
  | error err =>
      rw [hresult] at hfee
      cases hfee
  | ok validated =>
      rw [hresult] at hfee
      exact ⟨validated, rfl, Except.ok.inj hfee⟩

theorem charged_fee_exact_feeSpend :
    ∃ validated, @validateTransaction sampleCrypto feeSpend feeStore 0 5 = .ok validated ∧
      feeSpend.outputTotal + validated.fee.toNat = @Transaction.inputTotal sampleCrypto feeStore.entries feeSpend := by
  obtain ⟨validated, hok, -⟩ := feeSpend_accepted
  exact ⟨validated, hok, (@charged_fee_exact sampleCrypto _ _ _ _ _ hok).1⟩

/-- **A declared fee need not be the real one.** The spend that leaves 10 over and declares 7 is accepted, by a lock that relies on the declaration. -/
theorem declared_fee_untrue :
    ¬ ∀ (_ : Crypto) (tx : Transaction) (store : UtxoStore) (slot : Slot) (minFee : UInt64) (validated : ValidatedTx),
      validateTransaction tx store slot minFee = .ok validated →
        tx.outputTotal + tx.fee.toNat = tx.inputTotal store.entries := by
  intro hclaim
  obtain ⟨validated, hok, hfee⟩ := feeSpend_accepted
  have hdeclared := hclaim sampleCrypto _ _ _ _ _ hok
  rw [← @validateTransaction_fee sampleCrypto _ _ _ _ _ hok, hfee] at hdeclared
  exact absurd (Nat.add_left_cancel hdeclared) (by decide)

end Declared

end QuantumVault
