import QuantumVault.Proof.Script.Run

/-!
# Who can spend an M-of-N output

The lock pushes the threshold and the number of keys and calls the multi-signature check. The check pops the number of keys from the top, so the threshold that the lock has pushed is taken for the first key, and the number of signatures, the keys and the message all come from the witness; the key hashes are not in the script at all. A witness of zeros therefore spends every such output for which the check can be paid.
-/

namespace QuantumVault

open Result

/-! ### Runs of constants -/

section Constants

variable [Crypto] {ctx : Context} {m m' : Machine} {instrs : List Instruction}

/-- What constants leave behind: they are all paid for and, in the open, all on the stack. -/
structure Pushed (m : Machine) (instrs : List Instruction) (m' : Machine) : Prop where
  execStack_eq : m'.execStack = m.execStack
  stack_eq : m.execStack = [] → m'.stack = (instrs.map Instruction.pushed).reverse ++ m.stack
  gas_eq : m'.gas.remaining.toNat + gasTotal instrs = m.gas.remaining.toNat

omit [Crypto] in
theorem Pushed.cons {instr : Instruction} {mid : Machine} (hflags : mid.execStack = m.execStack)
    (hstack : m.execStack = [] → mid.stack = instr.pushed :: m.stack)
    (hgas : mid.gas.remaining.toNat + (gasCost instr.op).toNat = m.gas.remaining.toNat) (h : Pushed mid instrs m') :
    Pushed m (instr :: instrs) m' := by
  refine ⟨h.execStack_eq.trans hflags, fun hopen => ?_, ?_⟩
  · rw [h.stack_eq (hflags.trans hopen), hstack hopen]
    simp
  · have hrest := h.gas_eq
    rw [gasTotal, List.map_cons, List.sum_cons]
    rw [gasTotal] at hrest
    omega

theorem Pushed.of_run (hconst : ∀ instr ∈ instrs, instr.op.isConstant = true)
    (hrun : instrs.foldlM (Machine.step ctx) m = .ok m') : Pushed m instrs m' := by
  induction instrs generalizing m with
  | nil =>
      cases pure_eq_ok.mp hrun
      exact ⟨rfl, fun _ => rfl, rfl⟩
  | cons instr instrs ih =>
      rw [List.forall_mem_cons] at hconst
      obtain ⟨mid, hstep, hrest⟩ := foldlM_cons_eq_ok.mp hrun
      obtain ⟨hcharge, hflags, heval⟩ := step_plain (isPlain_of_isConstant hconst.1) hstep
      refine .cons hflags (fun hopen => ?_) (GasMeter.remaining_of_consume hcharge) (ih hconst.2 hrest)
      apply evalOp_constant_eq_ok hconst.1
      exact heval (by simp [Machine.executing, hopen])

theorem run_constants_isOk (hconst : ∀ instr ∈ instrs, instr.op.isConstant = true)
    (hwell : ∀ instr ∈ instrs, instr.WellFormed) (hopen : m.execStack = [])
    (hdepth : m.stack.length + instrs.length ≤ OpCode.maxStackDepth) (hgas : gasTotal instrs ≤ m.gas.remaining.toNat) :
    ∃ m', instrs.foldlM (Machine.step ctx) m = .ok m' := by
  induction instrs generalizing m with
  | nil => exact ⟨m, rfl⟩
  | cons instr instrs ih =>
      rw [List.forall_mem_cons] at hconst hwell
      rw [List.length_cons] at hdepth
      rw [gasTotal, List.map_cons, List.sum_cons] at hgas
      obtain ⟨gas, hcharge⟩ : ∃ gas, m.gas.charge instr.op = some gas := GasMeter.consume_isSome (by omega)
      have hpush : evalOp ctx instr m.stack = .ok (instr.pushed :: m.stack) := by
        rw [evalOp_constant hconst.1 hwell.1, push, if_neg (by omega)]
      have hstep := step_of_plain (isPlain_of_isConstant hconst.1) (by simp [Machine.executing, hopen]) hcharge hpush
      have hleft := GasMeter.remaining_of_consume hcharge
      obtain ⟨m', hm'⟩ := @ih { m with gas := gas, stack := instr.pushed :: m.stack } hconst.2 hwell.2 hopen
        (by rw [List.length_cons]; omega) (by rw [gasTotal]; dsimp only; omega)
      exact ⟨m', foldlM_cons_eq_ok.mpr ⟨_, hstep, hm'⟩⟩

end Constants

/-! ### The check -/

theorem popManyBytes_eq_ok {count : Nat} {stack rest : Stack} {bs : List Bytes} :
    popManyBytes count stack = .ok (bs, rest) ↔
      ∃ vals, vals.length = count ∧ stack = vals ++ rest ∧ bs = vals.map Value.toCanonicalBytes := by
  induction count generalizing stack bs rest with
  | zero =>
      rw [popManyBytes, Except.ok.injEq, Prod.mk.injEq]
      constructor
      · intro h
        exact ⟨[], rfl, h.2, h.1.symm⟩
      · intro h
        obtain ⟨vals, hlen, hstack, hbs⟩ := h
        cases List.length_eq_zero_iff.mp hlen
        exact ⟨hbs.symm, hstack⟩
  | succ count ih =>
      rw [popManyBytes]
      simp only [bind_eq_ok, Prod.exists, popBytes_eq_ok, ih, pure_eq_ok, Prod.mk.injEq]
      constructor
      · intro h
        obtain ⟨_, _, ⟨val, rfl, rfl⟩, _, _, ⟨vals, hlen, rfl, rfl⟩, rfl, rfl⟩ := h
        exact ⟨val :: vals, by rw [List.length_cons, hlen], rfl, rfl⟩
      · intro h
        obtain ⟨_ | ⟨val, vals⟩, hlen, rfl, rfl⟩ := h
        · cases hlen
        · exact ⟨_, _, ⟨val, rfl, rfl⟩, _, _, ⟨vals, Nat.succ.inj hlen, rfl, rfl⟩, rfl, rfl⟩

section Check

variable [Crypto] {ctx : Context} {m m' : Machine}

/-- What a completed check has found on the stack, top first: the number of keys, the keys, the number of signatures, the signatures and the message. -/
structure Checked (stack : Stack) (gas : GasMeter) (stack' : Stack) (gas' : GasMeter) : Prop where
  operands : ∃ (n : Int64) (pks : List Value) (k : Int64) (sigs : List Value) (msg : Value) (rest : Stack),
    stack = .int n :: (pks ++ .int k :: (sigs ++ msg :: rest)) ∧ pks.length = n.toUInt64.toNat ∧
      sigs.length = k.toUInt64.toNat ∧
      gas.consume (Word.saturatingMul multisigPerKeyCost n.toUInt64) = some gas' ∧
      stack' = .ofBool (checkmultisigPqc (pks.map Value.toCanonicalBytes) (sigs.map Value.toCanonicalBytes)
        msg.toCanonicalBytes k.toUInt64.toNat) :: rest

theorem Checked.of_ok {stack stack' : Stack} {gas gas' : GasMeter}
    (h : evalCheckMultiSig stack gas = .ok (stack', gas')) : Checked stack gas stack' gas' := by
  unfold evalCheckMultiSig at h
  obtain ⟨⟨nKeys, s₁⟩, hkeys, h⟩ := bind_eq_ok.mp h
  obtain ⟨gas₁, hgas, h⟩ := okOr_bind_eq_ok.mp h
  obtain ⟨-, h⟩ := require_bind_eq_ok.mp h
  obtain ⟨⟨pks, s₂⟩, hpks, h⟩ := bind_eq_ok.mp h
  obtain ⟨⟨mSigs, s₃⟩, hcount, h⟩ := bind_eq_ok.mp h
  obtain ⟨-, h⟩ := require_bind_eq_ok.mp h
  obtain ⟨⟨sigs, s₄⟩, hsigs, h⟩ := bind_eq_ok.mp h
  obtain ⟨⟨msg, s₅⟩, hmsg, h⟩ := bind_eq_ok.mp h
  obtain ⟨s₆, hpush, h⟩ := bind_eq_ok.mp h
  cases pure_eq_ok.mp h
  obtain ⟨n, rfl, rfl⟩ := popIndex_eq_ok.mp hkeys
  obtain ⟨pkVals, hpkLen, rfl, rfl⟩ := popManyBytes_eq_ok.mp hpks
  obtain ⟨k, rfl, rfl⟩ := popIndex_eq_ok.mp hcount
  obtain ⟨sigVals, hsigLen, rfl, rfl⟩ := popManyBytes_eq_ok.mp hsigs
  obtain ⟨msgVal, rfl, rfl⟩ := popBytes_eq_ok.mp hmsg
  rw [UInt64.ofNat_toNat] at hgas
  exact ⟨n, pkVals, k, sigVals, msgVal, s₅, rfl, hpkLen, hsigLen, hgas, push_eq_ok hpush⟩

private theorem step_checkMultiSig (hopen : m.execStack = [])
    (hstep : Machine.step ctx m (.simple .checkMultiSigPqc) = .ok m') :
    ∃ gas, m.gas.charge .checkMultiSigPqc = some gas ∧ Checked m.stack gas m'.stack m'.gas := by
  unfold Machine.step at hstep
  obtain ⟨gas, hgas, hstep⟩ := okOr_bind_eq_ok.mp hstep
  refine ⟨gas, hgas, ?_⟩
  have hexec : ({ m with gas := gas } : Machine).executing = true := by simp [Machine.executing, hopen]
  dsimp only [Instruction.simple] at hstep
  rw [if_pos hexec] at hstep
  obtain ⟨⟨stack, gas'⟩, heval, hm'⟩ := bind_eq_ok.mp hstep
  cases pure_eq_ok.mp hm'
  exact .of_ok heval

/-- The check with no signature asked for: it needs the keys, a zero and any message, and it passes. -/
theorem step_checkMultiSig_zero {n : Int64} {pks : List Value} {msg : Value} (hopen : m.execStack = [])
    (hstack : m.stack = .int n :: (pks ++ [.int 0, msg])) (hpks : pks.length = n.toUInt64.toNat)
    (hfew : n.toUInt64.toNat ≤ 195) (hgas : 2000 + 500 * n.toUInt64.toNat ≤ m.gas.remaining.toNat) :
    ∃ gas, Machine.step ctx m (.simple .checkMultiSigPqc) = .ok ⟨[.ofBool true], [], gas⟩ := by
  obtain ⟨gas₁, hgas₁⟩ : ∃ gas, m.gas.charge .checkMultiSigPqc = some gas :=
    GasMeter.consume_isSome (by show 2000 ≤ _; omega)
  have hleft := GasMeter.remaining_of_consume hgas₁
  change gas₁.remaining.toNat + 2000 = _ at hleft
  have hprice : (Word.saturatingMul multisigPerKeyCost (UInt64.ofNat n.toUInt64.toNat)).toNat = 500 * n.toUInt64.toNat := by
    rw [Word.toNat_saturatingMul, UInt64.ofNat_toNat]
    show min (500 * n.toUInt64.toNat) _ = _
    omega
  obtain ⟨gas₂, hgas₂⟩ : ∃ gas, gas₁.consume (Word.saturatingMul multisigPerKeyCost
      (UInt64.ofNat n.toUInt64.toNat)) = some gas := GasMeter.consume_isSome (by omega)
  have hexec : ({ m with gas := gas₁ } : Machine).executing = true := by simp [Machine.executing, hopen]
  have hkeys : popIndex m.stack = .ok (n.toUInt64.toNat, pks ++ [.int 0, msg]) := popIndex_eq_ok.mpr ⟨n, hstack, rfl⟩
  have hpop : popManyBytes n.toUInt64.toNat (pks ++ [.int 0, msg]) =
      .ok (pks.map Value.toCanonicalBytes, [.int 0, msg]) := popManyBytes_eq_ok.mpr ⟨pks, hpks, rfl, rfl⟩
  have hcap : n.toUInt64.toNat ≤ maxVecCapacity := hfew.trans (by decide)
  have htrue : checkmultisigPqc (pks.map Value.toCanonicalBytes) [] msg.toCanonicalBytes 0 = true := by
    simp [checkmultisigPqc]
  refine ⟨gas₂, ?_⟩
  unfold Machine.step
  rw [show (Instruction.simple .checkMultiSigPqc).op = .checkMultiSigPqc from rfl, hgas₁, okOr_some, ok_bind]
  dsimp only
  rw [if_pos hexec]
  have hcheck : evalCheckMultiSig m.stack gas₁ = .ok ([.ofBool true], gas₂) := by
    unfold evalCheckMultiSig
    rw [hkeys, ok_bind]
    dsimp only
    rw [hgas₂, okOr_some, ok_bind, (require_eq_ok (u := ())).mpr hcap, ok_bind, hpop, ok_bind]
    dsimp only
    have hzero : popIndex [.int 0, msg] = .ok (0, [msg]) := rfl
    have hnone : popManyBytes 0 [msg] = .ok ([], [msg]) := rfl
    have hmsg : popBytes [msg] = .ok (msg.toCanonicalBytes, []) := rfl
    rw [hzero, ok_bind]
    dsimp only
    rw [(require_eq_ok (u := ())).mpr (Nat.zero_le maxVecCapacity), ok_bind, hnone, ok_bind]
    dsimp only
    rw [hmsg, ok_bind]
    dsimp only
    rw [htrue]
    rfl
  rw [hcheck]
  show Except.ok _ = _
  rw [hopen]

end Check

/-! ### The lock -/

theorem length_multisigPqc (threshold : UInt32) (hashes : List Hash256) : (multisigPqc threshold hashes).length ≤ 19 := by
  have hthreshold := ScriptBuilder.length_encode_pushInt threshold.toUInt64.toInt64
  have hcount := ScriptBuilder.length_encode_pushInt (Int64.ofNat hashes.length)
  have hcheck : (Instruction.simple .checkMultiSigPqc).encode.length = 1 := rfl
  simp only [multisigPqc, multisigInstructions, encodeInstructions, List.flatMap_cons, List.flatMap_nil,
    List.length_append, List.length_nil]
  omega

theorem multisigInstructions_eq (threshold : UInt32) (hashes : List Hash256) : multisigInstructions threshold hashes =
    [ScriptBuilder.pushInt threshold.toUInt64.toInt64, ScriptBuilder.pushInt (Int64.ofNat hashes.length)] ++
      [.simple .checkMultiSigPqc] := rfl

theorem decodeScript_multisigPqc (threshold : UInt32) (hashes : List Hash256) :
    decodeScript (multisigPqc threshold hashes) = .ok (multisigInstructions threshold hashes) := by
  apply decodeScript_encodeInstructions
  · simp only [multisigInstructions, List.forall_mem_cons, ScriptBuilder.wellFormed_pushInt, true_and]
    simp [Instruction.WellFormed, Instruction.simple]
  · exact (length_multisigPqc threshold hashes).trans (by decide)

theorem toNat_keyCount (hashes : List Hash256) :
    (Int64.ofNat hashes.length).toUInt64.toNat = hashes.length % 2 ^ 64 := by
  show (UInt64.ofNat hashes.length).toNat = _
  exact UInt64.toNat_ofNat'

private theorem toNat_threshold (threshold : UInt32) : threshold.toUInt64.toInt64.toUInt64.toNat = threshold.toNat := by
  show threshold.toUInt64.toNat = _
  exact UInt32.toNat_toUInt64 threshold

/-- The byte strings that a push-only witness supplies. -/
def suppliedBy (witness : Bytes) : List Bytes :=
  match decodeScript witness with
  | .ok instrs => instrs.map fun instr => instr.pushed.toCanonicalBytes
  | .error _ => []

variable [Crypto]

/-- What an M-of-N lock is for: a spend takes as many different keys with committed hashes as the threshold says, each with a signature of the transaction in the witness. -/
def MultisigSound (threshold : UInt32) (hashes : List Hash256) : Prop :=
  ∀ (witness : Bytes) (tx : Transaction) (resolved : List TxOutput) (slot : Slot) (result : ExecResult),
    PushOnly witness → validateScript (multisigPqc threshold hashes) witness tx resolved slot = .ok result →
      result.success = true →
        ∃ pks : List Bytes, pks.Nodup ∧ threshold.toNat ≤ pks.length ∧
          ∀ pk ∈ pks, sha3_256 pk ∈ hashes ∧ ∃ sig ∈ suppliedBy witness, checksigPqc pk sig tx.sighash.bytes = true

/-- **A spend has a key count that can be paid for.** With no keys the check compares the threshold with an empty list; with more than 195 of them the gas runs out before the operands are there. -/
theorem keyCount_of_success {threshold : UInt32} {hashes : List Hash256} {witness : Bytes} {tx : Transaction}
    {resolved : List TxOutput} {slot : Slot} {result : ExecResult} (hthreshold : 1 ≤ threshold)
    (honly : PushOnly witness) (hvalid : validateScript (multisigPqc threshold hashes) witness tx resolved slot = .ok result)
    (hsuccess : result.success = true) : 1 ≤ hashes.length % 2 ^ 64 ∧ hashes.length % 2 ^ 64 ≤ 195 := by
  obtain ⟨ws, hwitness, hconst⟩ := honly
  obtain ⟨-, mid, m, hws, hlock, hclosed, rfl⟩ :=
    (validateScript_eq_ok hwitness (decodeScript_multisigPqc threshold hashes)).mp hvalid
  have hpushed := Pushed.of_run hconst hws
  have hmid : mid.execStack = [] := hpushed.execStack_eq
  rw [multisigInstructions_eq] at hlock
  obtain ⟨m₂, hnumbers, hcheck⟩ := foldlM_append_eq_ok.mp hlock
  have hnumbers := Pushed.of_run (by simp [ScriptBuilder.isConstant_pushInt]) hnumbers
  have hopen : m₂.execStack = [] := hnumbers.execStack_eq.trans hmid
  obtain ⟨m₃, hstep, hrest⟩ := foldlM_cons_eq_ok.mp hcheck
  cases pure_eq_ok.mp hrest
  obtain ⟨gas, hcharge, hchecked⟩ := step_checkMultiSig hopen hstep
  obtain ⟨n, pks, k, sigs, msg, rest, hstack, hpks, hsigs, hgas, hfinal⟩ := hchecked.operands
  have hcells : m₂.stack = .int (Int64.ofNat hashes.length) :: .int threshold.toUInt64.toInt64 ::
      (ws.map Instruction.pushed).reverse := by
    rw [hnumbers.stack_eq hmid, hpushed.stack_eq rfl]
    simp [ScriptBuilder.pushed_pushInt, Machine.init]
  rw [hcells, List.cons.injEq] at hstack
  obtain ⟨hn, hstack⟩ := hstack
  cases Value.int.inj hn
  rw [toNat_keyCount] at hpks
  by_cases hzero : hashes.length % 2 ^ 64 = 0
  · -- the lock's own threshold is taken for the number of signatures, and there is no key
    rw [hzero] at hpks
    cases List.length_eq_zero_iff.mp hpks
    rw [List.nil_append, List.cons.injEq] at hstack
    cases Value.int.inj hstack.1
    have hpos : threshold.toNat > 0 := UInt32.le_iff_toNat_le.mp hthreshold
    have hfalse : checkmultisigPqc ([].map Value.toCanonicalBytes) (sigs.map Value.toCanonicalBytes)
        msg.toCanonicalBytes threshold.toUInt64.toInt64.toUInt64.toNat = false := by
      rw [toNat_threshold, List.map_nil, checkmultisigPqc, List.length_nil, if_pos (Or.inl hpos)]
    rw [hfinal, hfalse] at hsuccess
    cases hsuccess
  · -- every operand was pushed by the witness, for at least one unit of gas
    have hlen := congrArg List.length hstack
    simp only [List.length_cons, List.length_append, List.length_reverse, List.length_map] at hlen
    have hpaid := length_le_gasTotal ws
    have hpaid' := length_le_gasTotal [ScriptBuilder.pushInt threshold.toUInt64.toInt64,
      ScriptBuilder.pushInt (Int64.ofNat hashes.length)]
    have hgas₁ := hpushed.gas_eq
    have hgas₂ := hnumbers.gas_eq
    have hgas₃ := GasMeter.remaining_of_consume hcharge
    have hgas₄ := GasMeter.remaining_of_consume hgas
    have hlimit : (Machine.init (.new defaultGasLimit)).gas.remaining.toNat = 100000 := rfl
    have hprice : (gasCost .checkMultiSigPqc).toNat = 2000 := rfl
    have hkeys : (Word.saturatingMul multisigPerKeyCost (Int64.ofNat hashes.length).toUInt64).toNat =
        min (500 * (hashes.length % 2 ^ 64)) (2 ^ 64 - 1) := by
      rw [Word.toNat_saturatingMul, toNat_keyCount]
      rfl
    simp only [List.length_cons, List.length_nil] at hpaid'
    omega

/-! ### A spend without signatures -/

/-- A witness of zeros: the message, the number of signatures, and every key but the one that the lock's threshold stands in for. -/
def zeroWitness (hashes : List Hash256) : Bytes :=
  encodeInstructions (List.replicate (hashes.length % 2 ^ 64 + 1) (.simple .op0))

omit [Crypto] in
theorem decodeScript_zeroWitness {hashes : List Hash256} (hmany : hashes.length % 2 ^ 64 ≤ 195) :
    (zeroWitness hashes).length ≤ 196 ∧
      decodeScript (zeroWitness hashes) = .ok (List.replicate (hashes.length % 2 ^ 64 + 1) (.simple .op0)) := by
  have hlen : (zeroWitness hashes).length = hashes.length % 2 ^ 64 + 1 := by
    simp [zeroWitness, encodeInstructions, Instruction.simple, Instruction.encode]
  refine ⟨by omega, decodeScript_encodeInstructions ?_ ?_⟩
  · intro instr hinstr
    cases List.eq_of_mem_replicate hinstr
    rfl
  · show (zeroWitness hashes).length ≤ 16384
    omega

omit [Crypto] in
private theorem replicate_zeros {count : Nat} (h : 1 ≤ count) :
    List.replicate (count + 1) (Value.int 0) = List.replicate (count - 1) (Value.int 0) ++ [.int 0, .int 0] := by
  show _ = _ ++ List.replicate 2 (Value.int 0)
  rw [List.replicate_append_replicate]
  congr 1
  omega

/-- **The zeros spend the output**, whatever the transaction is. -/
theorem validateScript_zeroWitness {threshold : UInt32} {hashes : List Hash256} (tx : Transaction)
    (resolved : List TxOutput) (slot : Slot) (hsome : 1 ≤ hashes.length % 2 ^ 64) (hmany : hashes.length % 2 ^ 64 ≤ 195) :
    ∃ result, validateScript (multisigPqc threshold hashes) (zeroWitness hashes) tx resolved slot = .ok result ∧
      result.success = true := by
  obtain ⟨hshort, hwitness⟩ := decodeScript_zeroWitness hmany
  have hconst : ∀ instr ∈ List.replicate (hashes.length % 2 ^ 64 + 1) (Instruction.simple .op0),
      instr.op.isConstant = true ∧ instr.WellFormed := by
    intro instr hinstr
    cases List.eq_of_mem_replicate hinstr
    exact ⟨rfl, rfl⟩
  have hprice : gasTotal (List.replicate (hashes.length % 2 ^ 64 + 1) (Instruction.simple .op0)) =
      hashes.length % 2 ^ 64 + 1 := by
    simp [gasTotal, Instruction.simple, gasCost]
  obtain ⟨mid, hmid⟩ : ∃ mid, (List.replicate (hashes.length % 2 ^ 64 + 1) (Instruction.simple .op0)).foldlM
      (Machine.step (.new tx resolved slot (multisigPqc threshold hashes))) (.init (.new defaultGasLimit)) = .ok mid :=
    run_constants_isOk (fun instr h => (hconst instr h).1) (fun instr h => (hconst instr h).2) rfl
      (by rw [List.length_replicate]; show 0 + _ ≤ 1024; omega) (by rw [hprice]; show _ ≤ 100000; omega)
  have hpushed := Pushed.of_run (fun instr h => (hconst instr h).1) hmid
  have hopen : mid.execStack = [] := hpushed.execStack_eq
  have hstack : mid.stack = List.replicate (hashes.length % 2 ^ 64 + 1) (.int 0) := by
    rw [hpushed.stack_eq rfl]
    simp [Machine.init, Instruction.simple, Instruction.pushed]
  have hgas : mid.gas.remaining.toNat + (hashes.length % 2 ^ 64 + 1) = 100000 := hprice ▸ hpushed.gas_eq
  have hconst' : ∀ instr ∈ [ScriptBuilder.pushInt threshold.toUInt64.toInt64,
      ScriptBuilder.pushInt (Int64.ofNat hashes.length)], instr.op.isConstant = true ∧ instr.WellFormed := by
    simp [ScriptBuilder.isConstant_pushInt, ScriptBuilder.wellFormed_pushInt]
  have hprice' : gasTotal [ScriptBuilder.pushInt threshold.toUInt64.toInt64,
      ScriptBuilder.pushInt (Int64.ofNat hashes.length)] ≤ 20 := by
    have hthreshold := ScriptBuilder.gasCost_pushInt threshold.toUInt64.toInt64
    have hcount := ScriptBuilder.gasCost_pushInt (Int64.ofNat hashes.length)
    simp only [gasTotal, List.map_cons, List.map_nil, List.sum_cons, List.sum_nil]
    omega
  obtain ⟨m, hm⟩ : ∃ m, [ScriptBuilder.pushInt threshold.toUInt64.toInt64,
      ScriptBuilder.pushInt (Int64.ofNat hashes.length)].foldlM
        (Machine.step (.new tx resolved slot (multisigPqc threshold hashes))) mid = .ok m :=
    run_constants_isOk (fun instr h => (hconst' instr h).1) (fun instr h => (hconst' instr h).2) hopen
      (by rw [hstack, List.length_replicate]; show _ + 2 ≤ 1024; omega) (by omega)
  have hpushed' := Pushed.of_run (fun instr h => (hconst' instr h).1) hm
  have hgas' := hpushed'.gas_eq
  let others : List Value := List.replicate (hashes.length % 2 ^ 64 - 1) (.int 0)
  have hcells : m.stack = .int (Int64.ofNat hashes.length) ::
      ((.int threshold.toUInt64.toInt64 :: others) ++ [.int 0, .int 0]) := by
    rw [hpushed'.stack_eq hopen, hstack, replicate_zeros hsome]
    simp [ScriptBuilder.pushed_pushInt, others]
  have hcount := toNat_keyCount hashes
  obtain ⟨gas, hstep⟩ : ∃ gas, Machine.step (.new tx resolved slot (multisigPqc threshold hashes)) m
      (.simple .checkMultiSigPqc) = .ok ⟨[.ofBool true], [], gas⟩ :=
    step_checkMultiSig_zero (hpushed'.execStack_eq.trans hopen) hcells
      (by rw [List.length_cons, List.length_replicate]; omega) (by omega) (by omega)
  have hrun : (multisigInstructions threshold hashes).foldlM
      (Machine.step (.new tx resolved slot (multisigPqc threshold hashes))) mid = .ok ⟨[.ofBool true], [], gas⟩ := by
    rw [multisigInstructions_eq]
    exact foldlM_append_eq_ok.mpr ⟨m, hm, foldlM_cons_eq_ok.mpr ⟨_, hstep, rfl⟩⟩
  have hsize : (zeroWitness hashes ++ multisigPqc threshold hashes).length ≤ OpCode.maxScriptSize := by
    have hlock := length_multisigPqc threshold hashes
    rw [List.length_append]
    show _ ≤ 16384
    omega
  refine ⟨⟨true, gas.consumed, [.ofBool true]⟩, ?_, rfl⟩
  apply (validateScript_eq_ok hwitness (decodeScript_multisigPqc threshold hashes)).mpr
  exact ⟨hsize, mid, _, hmid, hrun, rfl, rfl⟩

theorem exists_level_of_checksigPqc {pk sig msg : Bytes} (h : checksigPqc pk sig msg = true) :
    ∃ level : DilithiumLevel, pk.length = level.publicKeyBytes ∧ sig.length = level.signatureBytes := by
  obtain ⟨level, -, hlevel⟩ := List.any_eq_true.mp h
  refine ⟨level, ?_⟩
  by_contra hne
  revert hlevel
  simp only [PqcPublicKey.fromBytes, PqcSignature.fromBytes, verifyPqc]
  split
  · rename_i pk' sig' hpk hsig
    split at hpk
    · cases hpk
    · split at hsig
      · cases hsig
      · cases hpk
        cases hsig
        rename_i hlength _
        rw [if_neg hlength, if_pos fun hsigLength => hne ⟨not_not.mp hlength, hsigLength⟩]
        simp
  · simp

theorem checksigPqc_of_short {pk sig msg : Bytes} (h : sig.length = 8) : checksigPqc pk sig msg = false := by
  rw [← Bool.not_eq_true]
  intro hsigned
  obtain ⟨level, -, hlength⟩ := exists_level_of_checksigPqc hsigned
  rw [h] at hlength
  cases level <;> cases hlength

/-- **Soundness of the M-of-N lock.** It holds exactly of the locks that nothing can spend: those with no key, and those with more keys than the gas limit pays for. -/
theorem multisigSound_iff {threshold : UInt32} (hashes : List Hash256) (hthreshold : 1 ≤ threshold) :
    MultisigSound threshold hashes ↔ hashes.length % 2 ^ 64 = 0 ∨ 196 ≤ hashes.length % 2 ^ 64 := by
  constructor
  · intro hsound
    by_contra hrange
    have hmany : hashes.length % 2 ^ 64 ≤ 195 := by omega
    obtain ⟨result, hvalid, hsuccess⟩ : ∃ result, validateScript (multisigPqc threshold hashes) (zeroWitness hashes)
        (.new [] []) [] 0 = .ok result ∧ result.success = true :=
      validateScript_zeroWitness _ _ _ (by omega) hmany
    obtain ⟨-, hwitness⟩ := decodeScript_zeroWitness hmany
    have honly : PushOnly (zeroWitness hashes) := by
      refine ⟨_, hwitness, ?_⟩
      intro instr hinstr
      cases List.eq_of_mem_replicate hinstr
      rfl
    obtain ⟨pks, -, hlen, hpks⟩ := hsound _ _ _ _ _ honly hvalid hsuccess
    have hpos : 1 ≤ threshold.toNat := UInt32.le_iff_toNat_le.mp hthreshold
    obtain ⟨pk, hpk⟩ := List.exists_mem_of_length_pos (show 0 < pks.length by omega)
    obtain ⟨-, sig, hsig, hcheck⟩ := hpks pk hpk
    have height : sig.length = 8 := by
      rw [suppliedBy, hwitness] at hsig
      obtain ⟨instr, hinstr, rfl⟩ := List.mem_map.mp hsig
      cases List.eq_of_mem_replicate hinstr
      rfl
    rw [checksigPqc_of_short height] at hcheck
    cases hcheck
  · intro hrange witness tx resolved slot result honly hvalid hsuccess
    have hcount := keyCount_of_success hthreshold honly hvalid hsuccess
    omega

omit [Crypto] in
/-- A lock with three keys, and the two sides of the last number of keys that the gas pays for. -/
theorem multisigSound_iff_threeKeys :
    ¬ @MultisigSound sampleCrypto 2 [.zero, .zero, .zero] ∧ ¬ @MultisigSound sampleCrypto 2 (List.replicate 195 .zero) ∧
      @MultisigSound sampleCrypto 2 (List.replicate 196 .zero) := by
  have hthreshold : (1 : UInt32) ≤ 2 := by decide
  rw [@multisigSound_iff sampleCrypto 2 [.zero, .zero, .zero] hthreshold, @multisigSound_iff sampleCrypto 2 _ hthreshold,
    @multisigSound_iff sampleCrypto 2 _ hthreshold, List.length_replicate, List.length_replicate]
  decide

omit [Crypto] in
/-- **Four zeros spend a two-of-three output.** No key and no signature is involved. -/
theorem multisig_spendable_without_signature :
    ¬ ∀ (_ : Crypto) (threshold : UInt32) (hashes : List Hash256), 1 ≤ threshold → MultisigSound threshold hashes := by
  intro hclaim
  let zeros : Bytes := [0x00, 0x00, 0x00, 0x00]
  have hvalid : @validateScript sampleCrypto (multisigPqc 2 [.zero, .zero, .zero]) zeros (.new [] []) [] 0 =
      .ok ⟨true, 3524, [.int 1]⟩ := by decide +kernel
  have hwitness : decodeScript zeros = .ok (List.replicate 4 (.simple .op0)) := by decide +kernel
  have honly : PushOnly zeros := ⟨_, hwitness, by decide⟩
  obtain ⟨pks, -, hlen, hpks⟩ := hclaim sampleCrypto 2 [.zero, .zero, .zero] (by decide) zeros _ _ _ _ honly hvalid rfl
  obtain ⟨pk, hpk⟩ := List.exists_mem_of_length_pos (lt_of_lt_of_le Nat.two_pos hlen)
  obtain ⟨-, sig, hsig, hcheck⟩ := hpks pk hpk
  have height : sig.length = 8 := by
    rw [suppliedBy, hwitness] at hsig
    obtain ⟨instr, hinstr, rfl⟩ := List.mem_map.mp hsig
    cases List.eq_of_mem_replicate hinstr
    rfl
  rw [@checksigPqc_of_short sampleCrypto _ _ _ height] at hcheck
  cases hcheck

end QuantumVault
