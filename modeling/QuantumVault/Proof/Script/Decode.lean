import QuantumVault.Script.Templates

/-!
# Decoding a concatenated script

A witness and a locking script are decoded as one byte string. When the witness decodes on its own, no push of it reaches past its end, and the decoding of the concatenation is the two decodings one after the other.
-/

namespace QuantumVault

open Result

/-! ### Reading ahead -/

theorem readExact_eq_ok {need : Nat} {script data rest : Bytes} :
    readExact need script = .ok (data, rest) ↔ data.length = need ∧ script = data ++ rest := by
  unfold readExact
  split
  · rename_i hshort
    simp only [reduceCtorEq, false_iff, not_and]
    rintro hlen rfl
    rw [List.length_append] at hshort
    omega
  · rename_i hlong
    rw [Except.ok.injEq, Prod.mk.injEq]
    constructor
    · intro h
      obtain ⟨rfl, rfl⟩ := h
      exact ⟨by rw [List.length_take]; omega, (List.take_append_drop need script).symm⟩
    · intro h
      obtain ⟨hlen, rfl⟩ := h
      exact ⟨List.take_left' hlen, List.drop_left' hlen⟩

theorem readPush_eq_ok {width : Nat} {script data rest : Bytes} :
    readPush width script = .ok (data, rest) ↔
      ∃ header : Bytes, header.length = width ∧ ofLittleEndian header = data.length ∧ data ≠ [] ∧
        script = header ++ data ++ rest := by
  unfold readPush
  simp only [bind_eq_ok, Prod.exists, readExact_eq_ok, require_eq_ok]
  constructor
  · intro h
    obtain ⟨header, tail, ⟨hwidth, rfl⟩, _, hpos, hlen, rfl⟩ := h
    refine ⟨header, hwidth, hlen.symm, ?_, by rw [List.append_assoc]⟩
    rintro rfl
    exact hpos (by simpa using hlen.symm)
  · intro h
    obtain ⟨header, hwidth, hlen, hdata, rfl⟩ := h
    refine ⟨header, data ++ rest, ⟨hwidth, by rw [List.append_assoc]⟩, (), ?_, hlen.symm, rfl⟩
    rw [hlen]
    exact mt List.length_eq_zero_iff.mp hdata

private theorem readPush_append {width : Nat} {script data rest : Bytes} (tail : Bytes)
    (h : readPush width script = .ok (data, rest)) : readPush width (script ++ tail) = .ok (data, rest ++ tail) := by
  obtain ⟨header, hwidth, hlen, hdata, rfl⟩ := readPush_eq_ok.mp h
  exact readPush_eq_ok.mpr ⟨header, hwidth, hlen, hdata, by simp only [List.append_assoc]⟩

private theorem readExact_append {need : Nat} {script data rest : Bytes} (tail : Bytes)
    (h : readExact need script = .ok (data, rest)) : readExact need (script ++ tail) = .ok (data, rest ++ tail) := by
  obtain ⟨hlen, rfl⟩ := readExact_eq_ok.mp h
  exact readExact_eq_ok.mpr ⟨hlen, by rw [List.append_assoc]⟩

private theorem readData_append {op : OpCode} {script data rest : Bytes} (tail : Bytes)
    (h : readData op script = .ok (data, rest)) : readData op (script ++ tail) = .ok (data, rest ++ tail) := by
  unfold readData at h ⊢
  split at h
  · exact readPush_append tail h
  · exact readPush_append tail h
  · exact readPush_append tail h
  · exact readExact_append tail h
  · cases h
    rfl

theorem length_le_of_readData {op : OpCode} {script data rest : Bytes}
    (h : readData op script = .ok (data, rest)) : rest.length ≤ script.length := by
  unfold readData at h
  split at h
  case h_4 =>
    obtain ⟨_, rfl⟩ := readExact_eq_ok.mp h
    rw [List.length_append]
    omega
  case h_5 =>
    cases h
    exact le_rfl
  all_goals
    obtain ⟨header, _, _, _, rfl⟩ := readPush_eq_ok.mp h
    simp only [List.length_append]
    omega

theorem decodeInstruction_eq_ok {byte : UInt8} {script rest : Bytes} {instr : Instruction} :
    decodeInstruction byte script = .ok (instr, rest) ↔
      OpCode.fromByte byte = .ok instr.op ∧ readData instr.op script = .ok (instr.data, rest) := by
  unfold decodeInstruction
  simp only [bind_eq_ok, Prod.exists, pure_eq_ok, Prod.mk.injEq]
  constructor
  · intro h
    obtain ⟨op, hop, data, rest', hdata, rfl, rfl⟩ := h
    exact ⟨hop, hdata⟩
  · intro h
    obtain ⟨hop, hdata⟩ := h
    exact ⟨_, hop, _, _, hdata, rfl, rfl⟩

/-! ### The decoder loop -/

theorem decodeLoop_cons_eq_ok {rounds : Nat} {byte : UInt8} {script : Bytes} {instrs : List Instruction} :
    decodeLoop (rounds + 1) (byte :: script) = .ok instrs ↔
      ∃ instr rest tail, decodeInstruction byte script = .ok (instr, rest) ∧
        decodeLoop rounds rest = .ok tail ∧ instrs = instr :: tail := by
  rw [decodeLoop]
  simp only [bind_eq_ok, Prod.exists, pure_eq_ok]
  constructor
  · intro h
    obtain ⟨instr, rest, hinstr, tail, htail, rfl⟩ := h
    exact ⟨instr, rest, tail, hinstr, htail, rfl⟩
  · intro h
    obtain ⟨instr, rest, tail, hinstr, htail, rfl⟩ := h
    exact ⟨instr, rest, hinstr, tail, htail, rfl⟩

private theorem decodeLoop_rounds {rounds : Nat} (rounds' : Nat) {script : Bytes} (hrounds : script.length ≤ rounds)
    (hrounds' : script.length ≤ rounds') : decodeLoop rounds script = decodeLoop rounds' script := by
  induction rounds generalizing script rounds' with
  | zero =>
      obtain rfl : script = [] := List.length_eq_zero_iff.mp (by omega)
      cases rounds' <;> rfl
  | succ rounds ih =>
      cases script with
      | nil => cases rounds' <;> rfl
      | cons byte script =>
          obtain ⟨rounds', rfl⟩ : ∃ n, rounds' = n + 1 := ⟨rounds' - 1, by simp at hrounds'; omega⟩
          simp only [List.length_cons] at hrounds hrounds'
          rw [decodeLoop, decodeLoop]
          cases hinstr : decodeInstruction byte script with
          | error e => rfl
          | ok result =>
              obtain ⟨instr, rest⟩ := result
              have hshort := length_le_of_readData (decodeInstruction_eq_ok.mp hinstr).2
              rw [ok_bind, ok_bind]
              dsimp only
              rw [ih rounds' (by omega) (by omega)]

private theorem decodeLoop_nil_append {rounds : Nat} {tail : Bytes} (hle : tail.length ≤ rounds) :
    decodeLoop rounds tail = (([] : List Instruction) ++ ·) <$> decodeLoop tail.length tail := by
  rw [decodeLoop_rounds tail.length hle le_rfl]
  cases decodeLoop tail.length tail <;> rfl

private theorem decodeLoop_append {rounds : Nat} (rounds' : Nat) {script : Bytes} (tail : Bytes) {instrs : List Instruction}
    (hrounds : script.length ≤ rounds) (hrounds' : script.length + tail.length ≤ rounds')
    (h : decodeLoop rounds script = .ok instrs) :
    decodeLoop rounds' (script ++ tail) = (instrs ++ ·) <$> decodeLoop tail.length tail := by
  induction rounds generalizing script instrs rounds' with
  | zero =>
      obtain rfl : script = [] := List.length_eq_zero_iff.mp (by omega)
      cases h
      exact decodeLoop_nil_append (by simpa using hrounds')
  | succ rounds ih =>
      cases script with
      | nil =>
          cases h
          exact decodeLoop_nil_append (by simpa using hrounds')
      | cons byte script =>
          obtain ⟨instr, rest, instrs, hinstr, hrest, rfl⟩ := decodeLoop_cons_eq_ok.mp h
          obtain ⟨hop, hdata⟩ := decodeInstruction_eq_ok.mp hinstr
          have hshort := length_le_of_readData hdata
          obtain ⟨rounds', rfl⟩ : ∃ n, rounds' = n + 1 := ⟨rounds' - 1, by simp at hrounds'; omega⟩
          simp only [List.length_cons] at hrounds hrounds'
          have hfirst : decodeInstruction byte (script ++ tail) = .ok (instr, rest ++ tail) :=
            decodeInstruction_eq_ok.mpr ⟨hop, readData_append tail hdata⟩
          have hnext : decodeLoop rounds' (rest ++ tail) = (instrs ++ ·) <$> decodeLoop tail.length tail :=
            ih rounds' (by omega) (by omega) hrest
          rw [List.cons_append, decodeLoop, hfirst, ok_bind]
          dsimp only
          rw [hnext]
          cases decodeLoop tail.length tail <;> rfl

/-- **Decoding a witness that decodes on its own, followed by a locking script.** -/
theorem decodeScript_append {witness lock : Bytes} {ws ls : List Instruction}
    (hsize : (witness ++ lock).length ≤ OpCode.maxScriptSize) (hwitness : decodeScript witness = .ok ws)
    (hlock : decodeScript lock = .ok ls) : decodeScript (witness ++ lock) = .ok (ws ++ ls) := by
  have hsize' := hsize
  rw [List.length_append] at hsize'
  unfold decodeScript at *
  rw [if_neg (by omega)] at hwitness hlock ⊢
  rw [decodeLoop_append _ lock le_rfl (by rw [← List.length_append]) hwitness, hlock]
  rfl

/-! ### Encoded instructions -/

private theorem OpCode.fromByte_toByte (op : OpCode) : fromByte op.toByte = .ok op := by
  cases op <;> rfl

/-- The data of a push is not empty and its length fits the prefix; an integer has eight bytes; no other opcode has data. -/
def Instruction.WellFormed (instr : Instruction) : Prop :=
  match instr.op with
  | .push1 => instr.data ≠ [] ∧ instr.data.length < 256 ^ 1
  | .push2 => instr.data ≠ [] ∧ instr.data.length < 256 ^ 2
  | .push4 => instr.data ≠ [] ∧ instr.data.length < 256 ^ 4
  | .pushInt => instr.data.length = 8
  | _ => instr.data = []

private theorem readPush_encoded {width : Nat} {data : Bytes} (rest : Bytes)
    (h : data ≠ [] ∧ data.length < 256 ^ width) :
    readPush width (toLittleEndian width data.length ++ data ++ rest) = .ok (data, rest) := by
  refine readPush_eq_ok.mpr ⟨_, length_toLittleEndian _ _, ?_, h.1, rfl⟩
  exact ofLittleEndian_toLittleEndian_of_lt h.2

private theorem decodeInstruction_encode {instr : Instruction} (h : instr.WellFormed) (rest : Bytes) :
    ∃ payload, instr.encode = instr.op.toByte :: payload ∧
      decodeInstruction instr.op.toByte (payload ++ rest) = .ok (instr, rest) := by
  obtain ⟨op, data⟩ := instr
  refine ⟨_, rfl, decodeInstruction_eq_ok.mpr ⟨op.fromByte_toByte, ?_⟩⟩
  cases op
  case push1 => exact readPush_encoded rest h
  case push2 => exact readPush_encoded rest h
  case push4 => exact readPush_encoded rest h
  case pushInt => exact readExact_eq_ok.mpr ⟨h, rfl⟩
  all_goals
    cases h
    rfl

/-- **Well-formed instructions decode to themselves.** -/
theorem decodeLoop_encodeInstructions {instrs : List Instruction} (h : ∀ instr ∈ instrs, instr.WellFormed) {rounds : Nat}
    (hrounds : (encodeInstructions instrs).length ≤ rounds) :
    decodeLoop rounds (encodeInstructions instrs) = .ok instrs := by
  induction instrs generalizing rounds with
  | nil => cases rounds <;> rfl
  | cons instr instrs ih =>
      rw [List.forall_mem_cons] at h
      obtain ⟨payload, hencode, hfirst⟩ := decodeInstruction_encode h.1 (encodeInstructions instrs)
      have hbytes : encodeInstructions (instr :: instrs) =
          instr.op.toByte :: (payload ++ encodeInstructions instrs) := by
        rw [encodeInstructions, List.flatMap_cons, hencode]
        rfl
      rw [hbytes, List.length_cons, List.length_append] at hrounds
      obtain ⟨rounds, rfl⟩ : ∃ n, rounds = n + 1 := ⟨rounds - 1, by omega⟩
      rw [hbytes]
      exact decodeLoop_cons_eq_ok.mpr ⟨instr, _, instrs, hfirst, ih h.2 (by omega), rfl⟩

theorem decodeScript_encodeInstructions {instrs : List Instruction} (h : ∀ instr ∈ instrs, instr.WellFormed)
    (hsize : (encodeInstructions instrs).length ≤ OpCode.maxScriptSize) :
    decodeScript (encodeInstructions instrs) = .ok instrs := by
  rw [decodeScript, if_neg (by omega)]
  exact decodeLoop_encodeInstructions h le_rfl

theorem Instruction.wellFormed_pushBytes {data : Bytes} (hne : data ≠ []) (hlen : data.length ≤ 255) :
    (Instruction.pushBytes data).WellFormed := by
  rw [Instruction.pushBytes, if_pos hlen]
  refine ⟨hne, ?_⟩
  show data.length < 256 ^ 1
  omega

theorem ScriptBuilder.wellFormed_pushInt (n : Int64) : (ScriptBuilder.pushInt n).WellFormed := by
  unfold ScriptBuilder.pushInt
  split
  · rfl
  · split
    · rfl
    · exact length_toLittleEndian 8 _

theorem ScriptBuilder.length_encode_pushInt (n : Int64) : (ScriptBuilder.pushInt n).encode.length ≤ 9 := by
  unfold ScriptBuilder.pushInt
  split
  · decide
  · split
    · decide
    · simp [Instruction.pushInt, Instruction.encode]

theorem Instruction.length_encode_pushBytes {data : Bytes} (h : data.length ≤ 255) :
    (Instruction.pushBytes data).encode.length = data.length + 2 := by
  rw [Instruction.pushBytes, if_pos h]
  simp only [Instruction.encode, List.length_cons, List.length_append, length_toLittleEndian]
  omega

theorem Instruction.length_encode_simple {op : OpCode} :
    op.isPush = false → (Instruction.simple op).encode.length = 1 := by
  cases op <;> decide

theorem length_encodeInstructions_cons (instr : Instruction) (instrs : List Instruction) :
    (encodeInstructions (instr :: instrs)).length = instr.encode.length + (encodeInstructions instrs).length := by
  rw [encodeInstructions, List.flatMap_cons, List.length_append]
  rfl

theorem length_encodeInstructions_append (first second : List Instruction) :
    (encodeInstructions (first ++ second)).length =
      (encodeInstructions first).length + (encodeInstructions second).length := by
  rw [encodeInstructions, List.flatMap_append, List.length_append]
  rfl

theorem length_encodeInstructions_le {instrs : List Instruction} {size : Nat}
    (hsize : ∀ instr ∈ instrs, instr.encode.length ≤ size) : (encodeInstructions instrs).length ≤ instrs.length * size := by
  have hsum := List.sum_le_card_nsmul (instrs.map fun instr => instr.encode.length) size (by simpa using hsize)
  rw [encodeInstructions, List.length_flatMap]
  rwa [List.length_map, smul_eq_mul] at hsum

/-! ### The pay-to-public-key-hash lock -/

theorem Hash256.bytes_ne_nil (h : Hash256) : h.bytes ≠ [] := by
  intro hnil
  have hlen := h.length_eq
  rw [hnil] at hlen
  cases hlen

theorem decodeScript_p2pkhPqc (h : Hash256) : decodeScript (p2pkhPqc h) = .ok (p2pkhInstructions h) := by
  have hlen := h.length_eq
  have hpush := Instruction.wellFormed_pushBytes h.bytes_ne_nil (by omega)
  apply decodeScript_encodeInstructions
  · simp only [p2pkhInstructions, List.forall_mem_cons, hpush, true_and]
    simp [Instruction.WellFormed, Instruction.simple]
  · simp [encodeInstructions, p2pkhInstructions, Instruction.encode, Instruction.simple, Instruction.pushBytes, hlen,
      OpCode.maxScriptSize]

end QuantumVault
