import QuantumVault.Proof.Script.Decode

/-!
# The script codec

Decoding loses nothing: every accepted byte string is the encoding of what it decodes to, and what it decodes to is well formed. In the other direction a sequence of builder calls decodes to the instructions it appended as long as each of them is well formed, and the only call that appends an ill-formed one is a push of no bytes.
-/

namespace QuantumVault

open Result

/-! ### From bytes to instructions and back -/

private theorem OpCode.toByte_of_fromByte {byte : UInt8} {op : OpCode} (h : fromByte byte = .ok op) : op.toByte = byte := by
  unfold fromByte at h
  split at h <;> cases h <;> rfl

private theorem readPush_inv {width : Nat} {script data rest : Bytes} (h : readPush width script = .ok (data, rest)) :
    (data ≠ [] ∧ data.length < 256 ^ width) ∧ script = toLittleEndian width data.length ++ data ++ rest := by
  obtain ⟨header, rfl, hlen, hdata, rfl⟩ := readPush_eq_ok.mp h
  rw [← hlen, toLittleEndian_ofLittleEndian]
  exact ⟨⟨hdata, ofLittleEndian_lt header⟩, rfl⟩

private theorem decodeInstruction_inv {byte : UInt8} {script rest : Bytes} {instr : Instruction}
    (h : decodeInstruction byte script = .ok (instr, rest)) :
    instr.WellFormed ∧ byte :: script = instr.encode ++ rest := by
  obtain ⟨op, data⟩ := instr
  obtain ⟨hop, hdata⟩ := decodeInstruction_eq_ok.mp h
  obtain rfl := OpCode.toByte_of_fromByte hop
  cases op
  case push1 =>
    obtain ⟨hwf, rfl⟩ := readPush_inv hdata
    exact ⟨hwf, rfl⟩
  case push2 =>
    obtain ⟨hwf, rfl⟩ := readPush_inv hdata
    exact ⟨hwf, rfl⟩
  case push4 =>
    obtain ⟨hwf, rfl⟩ := readPush_inv hdata
    exact ⟨hwf, rfl⟩
  case pushInt =>
    obtain ⟨hlen, rfl⟩ := readExact_eq_ok.mp hdata
    exact ⟨hlen, rfl⟩
  all_goals
    cases hdata
    exact ⟨rfl, rfl⟩

private theorem decodeLoop_inv {rounds : Nat} {script : Bytes} {instrs : List Instruction} (hrounds : script.length ≤ rounds)
    (h : decodeLoop rounds script = .ok instrs) :
    (∀ instr ∈ instrs, instr.WellFormed) ∧ encodeInstructions instrs = script := by
  induction rounds generalizing script instrs with
  | zero =>
      obtain rfl : script = [] := List.length_eq_zero_iff.mp (by omega)
      cases h
      exact ⟨List.forall_mem_nil _, rfl⟩
  | succ rounds ih =>
      cases script with
      | nil =>
          cases h
          exact ⟨List.forall_mem_nil _, rfl⟩
      | cons byte script =>
          obtain ⟨instr, rest, instrs, hinstr, hrest, rfl⟩ := decodeLoop_cons_eq_ok.mp h
          have hshort := length_le_of_readData (decodeInstruction_eq_ok.mp hinstr).2
          rw [List.length_cons] at hrounds
          obtain ⟨hwf, hbytes⟩ := decodeInstruction_inv hinstr
          obtain ⟨hwfs, hencode⟩ := ih (by omega) hrest
          refine ⟨List.forall_mem_cons.mpr ⟨hwf, hwfs⟩, ?_⟩
          rw [hbytes, ← hencode]
          rfl

theorem decodeScript_inv {script : Bytes} {instrs : List Instruction} (h : decodeScript script = .ok instrs) :
    (∀ instr ∈ instrs, instr.WellFormed) ∧ encodeInstructions instrs = script := by
  unfold decodeScript at h
  split at h
  · cases h
  · exact decodeLoop_inv le_rfl h

/-! ### The builder -/

theorem ScriptBuilder.instructions_eq_map (calls : List ScriptBuilder.Call) :
    ScriptBuilder.instructions calls = calls.map ScriptBuilder.Call.instruction := by
  have hfold : ∀ before : List Instruction,
      calls.foldl (fun instructions call => instructions ++ [call.instruction]) before =
        before ++ calls.map ScriptBuilder.Call.instruction := by
    induction calls with
    | nil => simp
    | cons call calls ih =>
        intro before
        rw [List.foldl_cons, ih, List.map_cons, List.append_assoc]
        rfl
  exact hfold []

theorem Instruction.length_encode_le {instrs : List Instruction} {instr : Instruction} (h : instr ∈ instrs) :
    instr.encode.length ≤ (encodeInstructions instrs).length := by
  rw [encodeInstructions, List.length_flatMap]
  exact List.le_sum_of_mem (List.mem_map_of_mem h)

theorem Instruction.length_le_length_encode_pushBytes (data : Bytes) :
    data.length ≤ (Instruction.pushBytes data).encode.length := by
  unfold Instruction.pushBytes
  split
  · simp [Instruction.encode]
    omega
  · split <;> simp [Instruction.encode] <;> omega

theorem Instruction.wellFormed_pushBytes_iff {data : Bytes} (hlen : data.length < 256 ^ 4) :
    (Instruction.pushBytes data).WellFormed ↔ data ≠ [] := by
  unfold Instruction.pushBytes
  split
  · show data ≠ [] ∧ data.length < 256 ^ 1 ↔ data ≠ []
    exact and_iff_left (by omega)
  · split
    · show data ≠ [] ∧ data.length < 256 ^ 2 ↔ data ≠ []
      exact and_iff_left (by omega)
    · exact and_iff_left hlen

theorem Instruction.wellFormed_simple {op : OpCode} (h : op.isPush = false) : (Instruction.simple op).WellFormed := by
  cases op
  case push1 => cases h
  case push2 => cases h
  case push4 => cases h
  case pushInt => cases h
  all_goals rfl

/-- The call asks for a push of no bytes. -/
def ScriptBuilder.Call.IsEmptyPush : ScriptBuilder.Call → Prop
  | .pushBytes data => data = []
  | _ => False

theorem ScriptBuilder.Call.wellFormed_instruction_iff {call : ScriptBuilder.Call}
    (hlen : call.instruction.encode.length ≤ OpCode.maxScriptSize) :
    call.instruction.WellFormed ↔ ¬call.IsEmptyPush := by
  cases call with
  | op code hplain => exact iff_of_true (Instruction.wellFormed_simple hplain) not_false
  | pushInt n => exact iff_of_true (ScriptBuilder.wellFormed_pushInt n) not_false
  | pushBytes data =>
      have hdata := (Instruction.length_le_length_encode_pushBytes data).trans hlen
      rw [OpCode.maxScriptSize] at hdata
      exact Instruction.wellFormed_pushBytes_iff (by omega)

/-- **The codec laws.** Encoding undoes decoding on every accepted script. A sequence of builder calls within the maximum script size decodes to exactly the instructions of the calls if and only if none of them pushes the empty byte string. -/
theorem scriptCodec_roundTrip (calls : List ScriptBuilder.Call)
    (hsize : (ScriptBuilder.build calls).length ≤ OpCode.maxScriptSize) :
    (∀ (script : Bytes) (instrs : List Instruction), decodeScript script = .ok instrs →
      encodeInstructions instrs = script) ∧
    (decodeScript (ScriptBuilder.build calls) = .ok (calls.map ScriptBuilder.Call.instruction) ↔
      ∀ data : Bytes, ScriptBuilder.Call.pushBytes data ∈ calls → data ≠ []) := by
  refine ⟨fun script instrs h => (decodeScript_inv h).2, ?_⟩
  have hbuild : ScriptBuilder.build calls = encodeInstructions (calls.map ScriptBuilder.Call.instruction) := by
    rw [ScriptBuilder.build, ScriptBuilder.instructions_eq_map]
  have hfits : ∀ call ∈ calls, call.instruction.encode.length ≤ OpCode.maxScriptSize := by
    intro call hcall
    refine le_trans ?_ hsize
    rw [hbuild]
    exact Instruction.length_encode_le (List.mem_map_of_mem hcall)
  rw [hbuild] at hsize ⊢
  constructor
  · intro h data hcall
    have hwf := (decodeScript_inv h).1 _ (List.mem_map_of_mem hcall)
    exact (ScriptBuilder.Call.wellFormed_instruction_iff (hfits _ hcall)).mp hwf
  · intro hpushes
    apply decodeScript_encodeInstructions _ hsize
    intro instr hinstr
    obtain ⟨call, hcall, rfl⟩ := List.mem_map.mp hinstr
    apply (ScriptBuilder.Call.wellFormed_instruction_iff (hfits call hcall)).mpr
    cases call with
    | op code hplain => exact not_false
    | pushInt n => exact not_false
    | pushBytes data => exact hpushes data hcall

/-- A script of one empty push is built without complaint and does not decode. -/
theorem build_emptyPush_not_decoded :
    ∃ calls : List ScriptBuilder.Call, (ScriptBuilder.build calls).length ≤ OpCode.maxScriptSize ∧
      ScriptBuilder.build calls = [0x02, 0x00] ∧ decodeScript (ScriptBuilder.build calls) = .error .zeroPush :=
  ⟨[.pushBytes []], by decide, by decide, by decide⟩

/-- Pushes of all length classes at once: an integer, a short string and one past 255 bytes. -/
theorem scriptCodec_roundTrip_classes :
    ∃ calls : List ScriptBuilder.Call, calls.length = 3 ∧ (ScriptBuilder.build calls).length ≤ OpCode.maxScriptSize ∧
      decodeScript (ScriptBuilder.build calls) = .ok (calls.map ScriptBuilder.Call.instruction) := by
  refine ⟨[.pushInt 7, .pushBytes [1, 2], .pushBytes (List.replicate 256 9)], rfl, by decide +kernel, ?_⟩
  apply (scriptCodec_roundTrip _ (by decide +kernel)).2.mpr
  intro data hmem
  obtain _ | ⟨_, _ | ⟨_, _ | ⟨_, hmem⟩⟩⟩ := hmem
  · exact List.cons_ne_nil 1 [2]
  · exact List.cons_ne_nil 9 (List.replicate 255 9)
  · cases hmem

end QuantumVault
