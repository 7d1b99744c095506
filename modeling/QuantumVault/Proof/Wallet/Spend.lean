import QuantumVault.Privacy.Stealth
import QuantumVault.Proof.Script.Codec
import QuantumVault.Proof.Script.P2pkh
import QuantumVault.Proof.Script.Run

/-!
# What the wallet's locks accept from a witness of pushes

A witness that pushes a few strings leaves them on the stack and the lock judges them. The two locks of the wallet are answered here exactly: the pay-to-public-key-hash lock for a signature and a key, the stealth lock for a signature, a key and a shared secret.
-/

namespace QuantumVault

open Result

/-! ### Witnesses of pushes -/

private theorem Instruction.length_encode_pushBytes_le (data : Bytes) :
    (Instruction.pushBytes data).encode.length ≤ data.length + 5 := by
  unfold Instruction.pushBytes
  split
  · simp [Instruction.encode]
    omega
  · split <;> simp [Instruction.encode] <;> omega

/-- A script that pushes the given strings, the last one on top. -/
def pushScript (items : List Bytes) : Bytes := ScriptBuilder.build (items.map ScriptBuilder.Call.pushBytes)

variable {items : List Bytes}

theorem pushScript_eq (items : List Bytes) : pushScript items = encodeInstructions (items.map Instruction.pushBytes) := by
  rw [pushScript, ScriptBuilder.build, ScriptBuilder.instructions_eq_map, List.map_map]
  rfl

theorem length_pushScript_le (items : List Bytes) :
    (pushScript items).length ≤ (items.map List.length).sum + 5 * items.length := by
  rw [pushScript_eq, encodeInstructions, List.length_flatMap, List.map_map]
  induction items with
  | nil => exact le_rfl
  | cons item items ih =>
      have hitem := Instruction.length_encode_pushBytes_le item
      rw [List.map_cons, List.sum_cons, List.map_cons, List.sum_cons, List.length_cons]
      have hhead : (List.length ∘ Instruction.encode ∘ Instruction.pushBytes) item =
          (Instruction.pushBytes item).encode.length := rfl
      simp only [Function.comp_apply] at ih ⊢
      omega

theorem sum_length_le_pushScript (items : List Bytes) : (items.map List.length).sum ≤ (pushScript items).length := by
  rw [pushScript_eq, encodeInstructions, List.length_flatMap, List.map_map]
  exact List.sum_le_sum fun item _ => Instruction.length_le_length_encode_pushBytes item

theorem decodeScript_pushScript (hne : ∀ item ∈ items, item ≠ [])
    (hsize : (items.map List.length).sum + 5 * items.length ≤ OpCode.maxScriptSize) :
    decodeScript (pushScript items) = .ok (items.map Instruction.pushBytes) := by
  have hlength := (length_pushScript_le items).trans hsize
  rw [pushScript_eq] at hlength ⊢
  refine decodeScript_encodeInstructions ?_ hlength
  intro instr hinstr
  obtain ⟨item, hitem, rfl⟩ := List.mem_map.mp hinstr
  have hle : item.length ≤ (items.map List.length).sum := List.le_sum_of_mem (List.mem_map_of_mem hitem)
  rw [OpCode.maxScriptSize] at hsize
  exact (Instruction.wellFormed_pushBytes_iff (by omega)).mpr (hne item hitem)

theorem isConstant_of_mem_pushes {instr : Instruction} (hinstr : instr ∈ items.map Instruction.pushBytes) :
    instr.op.isConstant = true := by
  obtain ⟨item, -, rfl⟩ := List.mem_map.mp hinstr
  exact Instruction.isConstant_pushBytes item

theorem pushOnly_pushScript (hne : ∀ item ∈ items, item ≠ [])
    (hsize : (items.map List.length).sum + 5 * items.length ≤ OpCode.maxScriptSize) : PushOnly (pushScript items) :=
  ⟨_, decodeScript_pushScript hne hsize, fun _ => isConstant_of_mem_pushes⟩

theorem witnessStack_pushScript (hne : ∀ item ∈ items, item ≠ [])
    (hsize : (items.map List.length).sum + 5 * items.length ≤ OpCode.maxScriptSize) :
    witnessStack (pushScript items) = (items.map Value.bytes).reverse := by
  have hpushed : Instruction.pushed ∘ Instruction.pushBytes = Value.bytes := funext Instruction.pushed_pushBytes
  rw [witnessStack_eq (decodeScript_pushScript hne hsize), List.map_map, hpushed]

section

variable [Crypto] {lock : Bytes} {ls : List Instruction} {tx : Transaction} {resolved : List TxOutput} {slot : Slot}

theorem accepted_pushScript_iff (hne : ∀ item ∈ items, item ≠ [])
    (hsize : (items.map List.length).sum + 5 * items.length + lock.length ≤ OpCode.maxScriptSize)
    (hlock : decodeScript lock = .ok ls) (hplain : ∀ instr ∈ ls, instr.IsPlain)
    (hprice : ∀ instr ∈ ls, (gasCost instr.op).toNat ≤ 500) (hcount : items.length + ls.length ≤ 100) :
    Accepted lock (pushScript items) tx resolved slot ↔
      ∃ final, evalAll (.new tx resolved slot lock) ls (items.map Value.bytes).reverse = .ok final ∧ Succeeds final := by
  have hdecode := decodeScript_pushScript hne (by omega)
  have hconst : ∀ instr ∈ items.map Instruction.pushBytes, instr.op.isConstant = true :=
    fun _ => isConstant_of_mem_pushes
  have hwell := (decodeScript_inv hdecode).1
  have hstack := witnessStack_pushScript hne (by omega)
  have hshort : (pushScript items ++ lock).length ≤ OpCode.maxScriptSize := by
    have hlength := length_pushScript_le items
    rw [List.length_append]
    omega
  have hgas : gasTotal (items.map Instruction.pushBytes ++ ls) ≤ 100000 := by
    have hcost : ∀ instr ∈ items.map Instruction.pushBytes ++ ls, (gasCost instr.op).toNat ≤ 500 := by
      intro instr hinstr
      rcases List.mem_append.mp hinstr with hpush | hinstr
      · exact (gasCost_le_of_isConstant (hconst instr hpush)).trans (by decide)
      · exact hprice instr hinstr
    have htotal := gasTotal_le hcost
    rw [List.length_append, List.length_map] at htotal
    omega
  rw [accepted_iff hdecode hlock (List.forall_mem_append.mpr ⟨fun instr h => isPlain_of_isConstant (hconst instr h), hplain⟩)]
  simp only [evalAll_witness hdecode hconst hwell, hstack, List.length_reverse, List.length_map]
  have hroom : items.length ≤ 1024 := by omega
  simp only [hshort, hgas, hroom, true_and]

/-! ### The two locks -/

omit [Crypto] in
theorem Value.bytes_eq_iff {a b : Hash256} : Value.bytes a.bytes = .bytes b.bytes ↔ a = b := by
  rw [Value.bytes.injEq]
  exact ⟨Hash256.ext, congrArg Hash256.bytes⟩

omit [Crypto] in
private theorem succeeds_ofBool {flag : Bool} {stack : Stack} : Succeeds (.ofBool flag :: stack) ↔ flag = true := by
  rw [Succeeds, List.head?_cons, Option.any_some, Value.isTruthy_ofBool]

theorem evalAll_signature_iff {ctx : Context} {pk sig : Value} {rest : Stack} :
    (∃ final, evalAll ctx [.simple .sigHash, .simple .rot, .simple .rot, .simple .checkSigPqc] (pk :: sig :: rest) =
      .ok final ∧ Succeeds final) ↔
      rest.length + 2 < 1024 ∧ checksigPqc pk.toCanonicalBytes sig.toCanonicalBytes ctx.sighash.bytes = true := by
  simp only [evalAll_sigHash, evalAll_rot, evalAll_checkSigPqc, evalAll_nil, Value.toCanonicalBytes_bytes,
    List.length_cons, and_assoc, exists_and_left, exists_eq_left', succeeds_ofBool]
  refine ⟨fun h => ⟨h.1, h.2.2.2.2⟩, fun h => ?_⟩
  have hroom := h.1
  exact ⟨h.1, h.1, h.1, by omega, h.2⟩

private theorem evalAll_p2pkhInstructions_iff {ctx : Context} {h : Hash256} {pk sig : Bytes} :
    (∃ final, evalAll ctx (p2pkhInstructions h) [.bytes pk, .bytes sig] = .ok final ∧ Succeeds final) ↔
      sha3_256 pk = h ∧ checksigPqc pk sig ctx.sighash.bytes = true := by
  simp only [p2pkhInstructions, evalAll_dup, evalAll_hashSha3, evalAll_pushBytes, evalAll_eq, evalAll_verify_ofBool,
    Value.toCanonicalBytes_bytes, Value.bytes_eq_iff, List.length_cons, List.length_nil, and_assoc, exists_and_left,
    evalAll_signature_iff]
  simp

omit [Crypto] in
theorem length_stealthKdfTag : Templates.stealthKdfTag.length = 23 := by decide

theorem evalAll_stealthP2pkhInstructions_iff {ctx : Context} {h : Hash256} {ss pk sig : Value} {rest : Stack}
    (hsize : 23 + (ss.toCanonicalBytes.length + pk.toCanonicalBytes.length) ≤ maxVecBytes) :
    (∃ final, evalAll ctx (stealthP2pkhInstructions h) (ss :: pk :: sig :: rest) = .ok final ∧ Succeeds final) ↔
      rest.length + 3 < 1024 ∧
        sha3_256 (Templates.stealthKdfTag ++ ss.toCanonicalBytes ++ pk.toCanonicalBytes) = h ∧
        checksigPqc pk.toCanonicalBytes sig.toCanonicalBytes ctx.sighash.bytes = true := by
  have hinner : ss.toCanonicalBytes.length + pk.toCanonicalBytes.length ≤ maxVecBytes := by omega
  simp only [stealthP2pkhInstructions, evalAll_over, evalAll_cat, evalAll_swap, evalAll_hashSha3, evalAll_pushBytes,
    evalAll_eq, evalAll_verify_ofBool, Value.toCanonicalBytes_bytes, Value.bytes_eq_iff, List.length_cons,
    List.append_assoc, List.length_append, length_stealthKdfTag, hsize, hinner, true_and, and_assoc, exists_and_left,
    evalAll_signature_iff]
  refine ⟨fun h => ?_, fun h => ?_⟩
  · obtain ⟨hroom, -, -, -, -, -, -, -, hhash, -, hcheck⟩ := h
    exact ⟨by omega, hhash, hcheck⟩
  · obtain ⟨hroom, hhash, hcheck⟩ := h
    exact ⟨by omega, by omega, by omega, by omega, by omega, by omega, by omega, by omega, hhash, by omega, hcheck⟩

/-- **The pay-to-public-key-hash lock after a wallet's witness.** -/
theorem accepted_p2pkhPqc_iff {h : Hash256} {sig pk : Bytes} (hsig : sig ≠ []) (hpk : pk ≠ [])
    (hsize : sig.length + pk.length ≤ 16000) :
    Accepted (p2pkhPqc h) (pushScript [sig, pk]) tx resolved slot ↔
      sha3_256 pk = h ∧ checksigPqc pk sig tx.sighash.bytes = true := by
  have hlock : (p2pkhPqc h).length = 42 := by
    simp [p2pkhPqc, encodeInstructions, p2pkhInstructions, Instruction.encode, Instruction.simple, Instruction.pushBytes,
      h.length_eq]
  have hprice : ∀ instr ∈ p2pkhInstructions h, (gasCost instr.op).toNat ≤ 500 := by
    simp [p2pkhInstructions, Instruction.simple, Instruction.pushBytes, h.length_eq, gasCost]
  rw [accepted_pushScript_iff _ _ (decodeScript_p2pkhPqc h) (isPlain_p2pkhInstructions h) hprice]
  · exact evalAll_p2pkhInstructions_iff
  · show 2 + 9 ≤ 100
    decide
  · simp [hsig, hpk]
  · simp [hlock, OpCode.maxScriptSize]
    omega

omit [Crypto] in
theorem length_stealthP2pkh (h : Hash256) : (stealthP2pkh h).length = 70 := by
  simp [stealthP2pkh, encodeInstructions, stealthP2pkhInstructions, Instruction.encode, Instruction.simple,
    Instruction.pushBytes, h.length_eq, length_stealthKdfTag]

omit [Crypto] in
theorem decodeScript_stealthP2pkh (h : Hash256) : decodeScript (stealthP2pkh h) = .ok (stealthP2pkhInstructions h) := by
  have hpush := Instruction.wellFormed_pushBytes h.bytes_ne_nil (by rw [h.length_eq]; decide)
  have htag : (Instruction.pushBytes Templates.stealthKdfTag).WellFormed := by
    refine Instruction.wellFormed_pushBytes ?_ (by rw [length_stealthKdfTag]; decide)
    exact List.ne_nil_of_length_pos (by rw [length_stealthKdfTag]; decide)
  apply decodeScript_encodeInstructions
  · simp only [stealthP2pkhInstructions, List.forall_mem_cons, hpush, htag, true_and]
    simp [Instruction.WellFormed, Instruction.simple]
  · exact (length_stealthP2pkh h).trans_le (by decide)

omit [Crypto] in
theorem isPlain_stealthP2pkhInstructions (h : Hash256) : ∀ instr ∈ stealthP2pkhInstructions h, instr.IsPlain := by
  simp [stealthP2pkhInstructions, Instruction.IsPlain, Instruction.simple, Instruction.pushBytes, h.length_eq,
    length_stealthKdfTag]

omit [Crypto] in
theorem gasCost_stealthP2pkhInstructions (h : Hash256) :
    ∀ instr ∈ stealthP2pkhInstructions h, (gasCost instr.op).toNat ≤ 500 := by
  simp [stealthP2pkhInstructions, Instruction.simple, Instruction.pushBytes, h.length_eq, length_stealthKdfTag, gasCost]

/-- **The stealth lock after a wallet's witness.** -/
theorem accepted_stealthP2pkh_iff {h : Hash256} {sig pk ss : Bytes} (hsig : sig ≠ []) (hpk : pk ≠ []) (hss : ss ≠ [])
    (hsize : sig.length + pk.length + ss.length ≤ 16200) :
    Accepted (stealthP2pkh h) (pushScript [sig, pk, ss]) tx resolved slot ↔
      sha3_256 (Templates.stealthKdfTag ++ ss ++ pk) = h ∧ checksigPqc pk sig tx.sighash.bytes = true := by
  rw [accepted_pushScript_iff _ _ (decodeScript_stealthP2pkh h) (isPlain_stealthP2pkhInstructions h)
    (gasCost_stealthP2pkhInstructions h)]
  · have hjoint : 23 + ((Value.bytes ss).toCanonicalBytes.length + (Value.bytes pk).toCanonicalBytes.length) ≤
        maxVecBytes := by
      rw [Value.toCanonicalBytes_bytes, Value.toCanonicalBytes_bytes, maxVecBytes]
      omega
    exact (evalAll_stealthP2pkhInstructions_iff hjoint).trans (and_iff_right (by decide))
  · show 3 + 13 ≤ 100
    decide
  · simp [hsig, hpk, hss]
  · simp [length_stealthP2pkh, OpCode.maxScriptSize]
    omega

end

end QuantumVault
