import QuantumVault.Core.Decode
import QuantumVault.Proof.Consensus.Kes

/-!
# What a signature commits to

The canonical encoding can be read back, so two transactions with one encoding are the same. The message of a signature is the encoding of the transaction without its witnesses: it is the same for two transactions exactly when they differ in nothing but witnesses.

A length that does not fit the eight bytes in front of a sequence has no encoding of its own. No vector of the source is that long.
-/

namespace QuantumVault

/-! ### Values with an encoding -/

section Fits

structure TxOutput.Fits (output : TxOutput) : Prop where
  lockingScript : output.lockingScript.length < 2 ^ 64
  datum : ∀ datum ∈ output.datum, datum.length < 2 ^ 64
  stealthInfo : ∀ info ∈ output.stealthInfo, info.ephemeralPubkey.length < 2 ^ 64

/-- The lists and byte strings of a transaction have lengths that can be written down. -/
structure Transaction.Fits (tx : Transaction) : Prop where
  inputs : tx.inputs.length < 2 ^ 64
  witness : ∀ input ∈ tx.inputs, input.witness.length < 2 ^ 64
  outputs : tx.outputs.length < 2 ^ 64
  output : ∀ output ∈ tx.outputs, output.Fits

theorem Transaction.Fits.bare {tx : Transaction} (hfits : tx.Fits) : tx.bare.Fits where
  inputs := by
    rw [Transaction.bare, List.length_map]
    exact hfits.inputs
  witness := by
    simp [Transaction.bare]
  outputs := hfits.outputs
  output := hfits.output

end Fits

/-! ### Reading back -/

section RoundTrip

theorem OutPoint.decode_encode (op : OutPoint) (rest : Bytes) : OutPoint.decode (op.encode ++ rest) = some (op, rest) := by
  simp [OutPoint.decode, OutPoint.encode, Hash256.decode_bytes, Decode.u32_encode]

theorem TxInput.decode_encode {input : TxInput} (hwitness : input.witness.length < 2 ^ 64) (rest : Bytes) :
    TxInput.decode (input.encode ++ rest) = some (input, rest) := by
  simp [TxInput.decode, TxInput.encode, OutPoint.decode_encode, Decode.bytes_encode hwitness]

theorem StealthInfo.decode_encode {info : StealthInfo} (hkey : info.ephemeralPubkey.length < 2 ^ 64) (rest : Bytes) :
    StealthInfo.decode (info.encode ++ rest) = some (info, rest) := by
  simp [StealthInfo.decode, StealthInfo.encode, Decode.bytes_encode hkey, Encode.u8, Decode.u8]

theorem TxOutput.decode_encode {output : TxOutput} (hfits : output.Fits) (rest : Bytes) :
    TxOutput.decode (output.encode ++ rest) = some (output, rest) := by
  have hdatum := Decode.option_encode (fun datum hmem => Decode.bytes_encode (hfits.datum datum hmem))
  have hstealth := Decode.option_encode (fun info hmem => StealthInfo.decode_encode (hfits.stealthInfo info hmem))
  simp [TxOutput.decode, TxOutput.encode, Decode.u64_encode, Decode.bytes_encode hfits.lockingScript, hdatum, hstealth]

theorem ValidityInterval.decode_encode (interval : ValidityInterval) (rest : Bytes) :
    ValidityInterval.decode (interval.encode ++ rest) = some (interval, rest) := by
  have hslot : ∀ (bound : Option Slot) (rest : Bytes),
      Decode.option Decode.u64 (Encode.option Encode.u64 bound ++ rest) = some (bound, rest) :=
    fun bound => Decode.option_encode fun slot _ => Decode.u64_encode slot
  simp [ValidityInterval.decode, ValidityInterval.encode, hslot]

/-- **The canonical encoding can be read back.** -/
theorem Transaction.decode_canonicalBytes {tx : Transaction} (hfits : tx.Fits) :
    Transaction.decode tx.canonicalBytes = some tx := by
  have hinputs := Decode.seq_encode (fun input hmem => TxInput.decode_encode (hfits.witness input hmem)) hfits.inputs
  have houtputs := Decode.seq_encode (fun output hmem => TxOutput.decode_encode (hfits.output output hmem)) hfits.outputs
  have hfee := Decode.u64_encode tx.fee []
  rw [List.append_nil] at hfee
  simp [Transaction.decode, Transaction.canonicalBytes, Decode.u32_encode, hinputs, houtputs,
    ValidityInterval.decode_encode, Decode.u64_encode, hfee]

theorem Transaction.canonicalBytes_inj {tx tx' : Transaction} (hfits : tx.Fits) (hfits' : tx'.Fits) :
    tx.canonicalBytes = tx'.canonicalBytes ↔ tx = tx' := by
  refine ⟨fun hbytes => ?_, congrArg Transaction.canonicalBytes⟩
  have hread := decode_canonicalBytes hfits
  rw [hbytes, decode_canonicalBytes hfits'] at hread
  exact (Option.some.inj hread).symm

end RoundTrip

/-! ### The message of a signature -/

section Preimage

/-- The bytes under the signature hash. -/
def Transaction.sighashPreimage (tx : Transaction) : Bytes := tx.bare.canonicalBytes

theorem Transaction.sighash_eq [Crypto] (tx : Transaction) : tx.sighash = sha3_256 tx.sighashPreimage := rfl

private theorem Transaction.bare_eq_iff {tx tx' : Transaction} :
    tx.bare = tx'.bare ↔
      tx.version = tx'.version ∧ tx.spends = tx'.spends ∧ tx.outputs = tx'.outputs ∧
        tx.validityInterval = tx'.validityInterval ∧ tx.lockTime = tx'.lockTime ∧ tx.fee = tx'.fee := by
  have hcleared : ∀ inputs : List TxInput, (inputs.map fun input => { input with witness := [] }) =
      (inputs.map TxInput.prevOutput).map fun prevOutput => ⟨prevOutput, []⟩ := by simp
  have hspends : (tx.inputs.map fun input => { input with witness := [] }) =
      (tx'.inputs.map fun input => { input with witness := [] }) ↔ tx.spends = tx'.spends := by
    rw [hcleared, hcleared, List.map_inj_right fun _ _ heq => (TxInput.mk.inj heq).1, Transaction.spends, Transaction.spends]
  rw [Transaction.bare, Transaction.bare, Transaction.mk.injEq, hspends]

/-- **A signature commits to everything but the witnesses.** -/
theorem sighash_commits {tx tx' : Transaction} (hfits : tx.Fits) (hfits' : tx'.Fits) :
    (tx.sighashPreimage = tx'.sighashPreimage ↔ tx.bare = tx'.bare) ∧
      (tx.bare = tx'.bare ↔
        tx.version = tx'.version ∧ tx.spends = tx'.spends ∧ tx.outputs = tx'.outputs ∧
          tx.validityInterval = tx'.validityInterval ∧ tx.lockTime = tx'.lockTime ∧ tx.fee = tx'.fee) :=
  ⟨Transaction.canonicalBytes_inj hfits.bare hfits'.bare, Transaction.bare_eq_iff⟩

def payment (witness : Bytes) (fee : Amount) : Transaction :=
  { Transaction.new [⟨⟨.zero, 0⟩, witness⟩] [.new 5 [1]] with fee }

theorem payment_fits (witness : Bytes) (fee : Amount) (hwitness : witness.length < 2 ^ 64) : (payment witness fee).Fits where
  inputs := Nat.one_lt_two_pow (by decide)
  witness := by simpa [payment, Transaction.new] using hwitness
  outputs := Nat.one_lt_two_pow (by decide)
  output := by
    simp only [payment, Transaction.new, List.mem_singleton, forall_eq]
    exact ⟨by decide, by simp [TxOutput.new], by simp [TxOutput.new]⟩

theorem sighash_commits_payment :
    (payment [1, 2] 0).sighashPreimage = (payment [] 0).sighashPreimage ∧
      (payment [] 1).sighashPreimage ≠ (payment [] 0).sighashPreimage := by
  have hwitness := sighash_commits (payment_fits [1, 2] 0 (by decide)) (payment_fits [] 0 (by decide))
  have hfee := sighash_commits (payment_fits [] 1 (by decide)) (payment_fits [] 0 (by decide))
  exact ⟨hwitness.1.mpr rfl, fun heq => absurd (hfee.2.mp (hfee.1.mp heq)) (by decide)⟩

end Preimage

end QuantumVault
