import QuantumVault.Proof.Script.Run
import QuantumVault.Script.Templates

/-!
# Covenants that read datums

The pool locks are made of a few segments, each of which reads the datum of input 0 or of output 0. Each rule says exactly when a segment passes, with how much room on the stack, and with which stack the rest of the lock goes on.
-/

namespace QuantumVault

open Result

def datumField (datum : Bytes) (offset length : Nat) : Bytes := (datum.drop offset).take length

theorem length_datumField {datum : Bytes} {offset length : Nat} (h : offset + length ≤ datum.length) :
    (datumField datum offset length).length = length := by
  rw [datumField, List.length_take, List.length_drop]
  omega

theorem toNat_constant {n : Nat} (h : n < 2 ^ 64) : (Int64.ofNat n).toUInt64.toNat = n := by
  show (UInt64.ofNat n).toNat = n
  rw [UInt64.toNat_ofNat', Nat.mod_eq_of_lt h]

private theorem int64OfNat_inj {m n : Nat} : Int64.ofNat m = Int64.ofNat n ↔ m % 2 ^ 64 = n % 2 ^ 64 := by
  constructor
  · intro h
    have hnat : (UInt64.ofNat m).toNat = (UInt64.ofNat n).toNat := congrArg (fun k : Int64 => k.toUInt64.toNat) h
    rwa [UInt64.toNat_ofNat', UInt64.toNat_ofNat'] at hnat
  · intro h
    have hword : UInt64.ofNat m = UInt64.ofNat n := by
      rw [← UInt64.toNat_inj, UInt64.toNat_ofNat', UInt64.toNat_ofNat', h]
    exact congrArg UInt64.toInt64 hword

theorem toNat_ofLittleEndian {data : Bytes} (h : data.length = 8) :
    (UInt64.ofNat (ofLittleEndian data)).toInt64.toUInt64.toNat = ofLittleEndian data := by
  have hlt : ofLittleEndian data < 256 ^ 8 := h ▸ ofLittleEndian_lt data
  show (UInt64.ofNat (ofLittleEndian data)).toNat = _
  rw [UInt64.toNat_ofNat', Nat.mod_eq_of_lt (lt_of_lt_of_le hlt (by decide))]

variable [Crypto] {ctx : Context} {stack final : Stack} {readOp : OpCode} {more : List Instruction}

/-- The outputs that a datum opcode reads from. -/
def datumSource (ctx : Context) (readOp : OpCode) : List TxOutput :=
  if readOp = .readInputDatum then ctx.resolvedInputs else ctx.tx.outputs

def ReadsDatum (readOp : OpCode) : Prop := readOp = .readInputDatum ∨ readOp = .readOutputDatum

theorem evalAll_readPoolDatum (hread : ReadsDatum readOp) :
    evalAll ctx (ScriptBuilder.pushInt poolInputIndex :: .simple readOp :: more) stack = .ok final ↔
      stack.length < 1024 ∧ ∃ output, (datumSource ctx readOp)[0]? = some output ∧
        evalAll ctx more (.bytes (output.datum.getD []) :: stack) = .ok final := by
  have heval : evalOp ctx (.simple readOp) (.int 0 :: stack) =
      readOutput (.int 0 :: stack) (datumSource ctx readOp) fun o => .bytes (o.datum.getD []) := by
    rcases hread with rfl | rfl <;> rfl
  rw [evalAll_pushInt, poolInputIndex, evalAll_readOutput heval]
  refine and_congr_right fun hroom => exists_congr fun output => and_congr_right fun _ => ?_
  exact and_iff_right hroom

theorem evalAll_assertDatumLen (hread : ReadsDatum readOp) {length : Nat} :
    evalAll ctx (ScriptBuilder.pushInt poolInputIndex :: .simple readOp :: .simple .len ::
        ScriptBuilder.pushInt (Int64.ofNat length) :: .simple .eq :: .simple .verify :: more) stack = .ok final ↔
      stack.length + 1 < 1024 ∧ ∃ output, (datumSource ctx readOp)[0]? = some output ∧
        (output.datum.getD []).length % 2 ^ 64 = length % 2 ^ 64 ∧ evalAll ctx more stack = .ok final := by
  simp only [evalAll_readPoolDatum hread, evalAll_len, evalAll_pushInt, evalAll_eq, evalAll_verify_ofBool,
    Value.int.injEq, Value.toCanonicalBytes, int64OfNat_inj, List.length_cons]
  constructor
  · intro h
    obtain ⟨-, output, hget, -, hroom, -, hlen, hrest⟩ := h
    exact ⟨hroom, output, hget, hlen, hrest⟩
  · intro h
    obtain ⟨hroom, output, hget, hlen, hrest⟩ := h
    exact ⟨by omega, output, hget, by omega, hroom, by omega, hlen, hrest⟩

section Fields

variable {output : TxOutput} {offset : Nat}

theorem evalAll_datumField (hread : ReadsDatum readOp) (hget : (datumSource ctx readOp)[0]? = some output)
    (hoffset : offset < 2 ^ 64) {length : Nat} (hlength : length < 2 ^ 64) :
    evalAll ctx (ScriptBuilder.pushInt poolInputIndex :: .simple readOp :: ScriptBuilder.pushInt (Int64.ofNat offset) ::
        ScriptBuilder.pushInt (Int64.ofNat length) :: .simple .slice :: more) stack = .ok final ↔
      stack.length + 2 < 1024 ∧ offset + length ≤ (output.datum.getD []).length ∧
        evalAll ctx more (.bytes (datumField (output.datum.getD []) offset length) :: stack) = .ok final := by
  simp only [evalAll_readPoolDatum hread, evalAll_pushInt, evalAll_slice, toNat_constant hoffset, toNat_constant hlength,
    Value.toCanonicalBytes, List.length_cons]
  constructor
  · intro h
    obtain ⟨-, output', hget', -, hroom, hbound, -, hrest⟩ := h
    cases hget.symm.trans hget'
    exact ⟨hroom, hbound, hrest⟩
  · intro h
    obtain ⟨hroom, hbound, hrest⟩ := h
    exact ⟨by omega, output, hget, by omega, hroom, hbound, by omega, hrest⟩

theorem evalAll_assertPoolDatumField {expected : Bytes} (hread : ReadsDatum readOp)
    (hget : (datumSource ctx readOp)[0]? = some output) (hoffset : offset < 2 ^ 64) (hlength : expected.length < 2 ^ 64) :
    evalAll ctx (assertPoolDatumField readOp offset expected ++ more) stack = .ok final ↔
      stack.length + 2 < 1024 ∧ offset + expected.length ≤ (output.datum.getD []).length ∧
        datumField (output.datum.getD []) offset expected.length = expected ∧ evalAll ctx more stack = .ok final := by
  simp only [assertPoolDatumField, List.cons_append, List.nil_append, evalAll_datumField hread hget hoffset hlength,
    evalAll_pushBytes, evalAll_eq, evalAll_verify_ofBool, Value.bytes.injEq, List.length_cons]
  refine and_congr_right fun hroom => and_congr_right fun _ => ?_
  constructor
  · intro h
    exact h.2.2
  · intro h
    exact ⟨by omega, by omega, h⟩

theorem evalAll_pushPoolReserve (hread : ReadsDatum readOp) (hget : (datumSource ctx readOp)[0]? = some output)
    (hoffset : offset < 2 ^ 64) :
    evalAll ctx (pushPoolReserve readOp offset ++ more) stack = .ok final ↔
      stack.length + 2 < 1024 ∧ offset + 8 ≤ (output.datum.getD []).length ∧
        evalAll ctx more (.int (UInt64.ofNat (ofLittleEndian (datumField (output.datum.getD []) offset 8))).toInt64 ::
          stack) = .ok final := by
  have hwidth : poolDatumReserveLen < 2 ^ 64 := by decide
  simp only [pushPoolReserve, List.cons_append, List.nil_append, evalAll_datumField hread hget hoffset hwidth,
    evalAll_pushInt, List.length_cons]
  refine and_congr_right fun hroom => and_congr_right fun hbound => ?_
  have hlen : (datumField (output.datum.getD []) offset 8).length = 8 := length_datumField hbound
  rw [show Int64.ofNat poolDatumReserveLen = 8 from rfl, show poolDatumReserveLen = 8 from rfl, evalAll_bytesToInt]
  constructor
  · intro h
    exact h.2.2.2
  · intro h
    exact ⟨by omega, hlen, by omega, h⟩

/-- The number in an eight-byte field of the datum of an output. -/
def TxOutput.datumNat (output : TxOutput) (offset : Nat) : Nat :=
  ofLittleEndian (datumField (output.datum.getD []) offset 8)

omit [Crypto] in
theorem toNat_pushPoolReserve (hbound : offset + 8 ≤ (output.datum.getD []).length) :
    (UInt64.ofNat (ofLittleEndian (datumField (output.datum.getD []) offset 8))).toInt64.toUInt64.toNat =
      output.datumNat offset :=
  toNat_ofLittleEndian (length_datumField hbound)

end Fields

omit [Crypto] in
theorem ofLittleEndian_mulU128 (x y : Int64) :
    ofLittleEndian (toLittleEndian 16 (x.toUInt64.toNat * y.toUInt64.toNat)) = x.toUInt64.toNat * y.toUInt64.toNat := by
  have hfit : x.toUInt64.toNat * y.toUInt64.toNat < 2 ^ 64 * 2 ^ 64 :=
    Nat.mul_lt_mul'' x.toUInt64.toNat_lt y.toUInt64.toNat_lt
  exact ofLittleEndian_toLittleEndian_of_lt (lt_of_lt_of_le hfit (by decide))

end QuantumVault
