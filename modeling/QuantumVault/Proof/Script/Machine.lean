import QuantumVault.Proof.Script.Decode

/-!
# Runs of the script machine

What a run of instructions does to the stack, read backwards from its success: the stack effect of the opcodes the locks use, and the rule that a stretch of plain instructions which ends with no conditional open was executed in full.
-/

namespace QuantumVault

open Result

/-! ### Stack helpers -/

theorem push_eq_ok {stack stack' : Stack} {val : Value} (h : push stack val = .ok stack') : stack' = val :: stack := by
  unfold push at h
  split at h
  · cases h
  · exact (Except.ok.inj h).symm

theorem pop_eq_ok {stack rest : Stack} {val : Value} : pop stack = .ok (val, rest) ↔ stack = val :: rest := by
  cases stack <;> simp [pop]

theorem popBytes_eq_ok {stack rest : Stack} {data : Bytes} :
    popBytes stack = .ok (data, rest) ↔ ∃ val, stack = val :: rest ∧ val.toCanonicalBytes = data := by
  unfold popBytes
  simp only [bind_eq_ok, Prod.exists, pop_eq_ok, pure_eq_ok, Prod.mk.injEq]
  constructor
  · intro h
    obtain ⟨val, rest', rfl, rfl, rfl⟩ := h
    exact ⟨val, rfl, rfl⟩
  · intro h
    obtain ⟨val, rfl, rfl⟩ := h
    exact ⟨val, rest, rfl, rfl, rfl⟩

private theorem popInt_eq_ok {stack rest : Stack} {n : Int64} : popInt stack = .ok (n, rest) ↔ stack = .int n :: rest := by
  unfold popInt
  cases stack with
  | nil => simp [pop]
  | cons val stack =>
      cases val with
      | int n => simp [pop]
      | bytes b =>
          constructor
          · intro h
            cases h
          · intro h
            cases h

theorem popIndex_eq_ok {stack rest : Stack} {k : Nat} :
    popIndex stack = .ok (k, rest) ↔ ∃ n : Int64, stack = .int n :: rest ∧ n.toUInt64.toNat = k := by
  unfold popIndex
  simp only [bind_eq_ok, Prod.exists, popInt_eq_ok, pure_eq_ok, Prod.mk.injEq]
  constructor
  · intro h
    obtain ⟨n, _, rfl, rfl, rfl⟩ := h
    exact ⟨n, rfl, rfl⟩
  · intro h
    obtain ⟨n, rfl, rfl⟩ := h
    exact ⟨n, rest, rfl, rfl, rfl⟩

@[simp] theorem Value.isTruthy_ofBool (b : Bool) : (Value.ofBool b).isTruthy = b := by
  cases b <;> rfl

theorem Value.toCanonicalBytes_bytes (data : Bytes) : (Value.bytes data).toCanonicalBytes = data := rfl

variable [Crypto] {ctx : Context} {stack stack' : Stack}

/-! ### Stack effects -/

theorem evalOp_dup (h : evalOp ctx (.simple .dup) stack = .ok stack') :
    ∃ a rest, stack = a :: rest ∧ stack' = a :: a :: rest := by
  obtain ⟨a, ha, hpush⟩ := bind_eq_ok.mp h
  cases stack with
  | nil => cases ha
  | cons top rest =>
      cases ha
      exact ⟨a, rest, rfl, push_eq_ok hpush⟩

theorem evalOp_hashSha3 (h : evalOp ctx (.simple .hashSha3) stack = .ok stack') :
    ∃ a rest, stack = a :: rest ∧ stack' = .bytes (sha3_256 a.toCanonicalBytes).bytes :: rest := by
  obtain ⟨⟨data, rest⟩, hpop, hpush⟩ := bind_eq_ok.mp h
  obtain ⟨a, rfl, rfl⟩ := popBytes_eq_ok.mp hpop
  exact ⟨a, rest, rfl, push_eq_ok hpush⟩

theorem evalOp_pushBytes {data : Bytes} (h : evalOp ctx (.pushBytes data) stack = .ok stack') :
    stack' = .bytes data :: stack := by
  unfold Instruction.pushBytes at h
  split at h
  · exact push_eq_ok h
  · split at h <;> exact push_eq_ok h

theorem evalOp_eq (h : evalOp ctx (.simple .eq) stack = .ok stack') :
    ∃ b a rest, stack = b :: a :: rest ∧ stack' = .ofBool (a = b) :: rest := by
  obtain ⟨⟨b, rest⟩, hb, h⟩ := bind_eq_ok.mp h
  obtain ⟨⟨a, rest'⟩, ha, hpush⟩ := bind_eq_ok.mp h
  cases pop_eq_ok.mp hb
  cases pop_eq_ok.mp ha
  exact ⟨b, a, rest', rfl, push_eq_ok hpush⟩

theorem evalOp_verify (h : evalOp ctx (.simple .verify) stack = .ok stack') :
    ∃ a, stack = a :: stack' ∧ a.isTruthy = true := by
  obtain ⟨⟨a, rest⟩, ha, h⟩ := bind_eq_ok.mp h
  obtain ⟨htrue, hrest⟩ := require_bind_eq_ok.mp h
  cases pop_eq_ok.mp ha
  cases pure_eq_ok.mp hrest
  exact ⟨a, rfl, htrue⟩

theorem evalOp_sigHash (h : evalOp ctx (.simple .sigHash) stack = .ok stack') :
    stack' = .bytes ctx.sighash.bytes :: stack :=
  push_eq_ok h

theorem evalOp_rot (h : evalOp ctx (.simple .rot) stack = .ok stack') :
    ∃ c b a rest, stack = c :: b :: a :: rest ∧ stack' = a :: c :: b :: rest := by
  obtain ⟨a, ha, hpush⟩ := bind_eq_ok.mp h
  obtain _ | ⟨c, _ | ⟨b, _ | ⟨a', rest⟩⟩⟩ := stack
  · cases ha
  · cases ha
  · cases ha
  · cases ha
    exact ⟨c, b, a, rest, rfl, push_eq_ok hpush⟩

theorem evalOp_checkSigPqc (h : evalOp ctx (.simple .checkSigPqc) stack = .ok stack') :
    ∃ pk sig msg rest, stack = pk :: sig :: msg :: rest ∧
      stack' = .ofBool (checksigPqc pk.toCanonicalBytes sig.toCanonicalBytes msg.toCanonicalBytes) :: rest := by
  obtain ⟨⟨pkBytes, rest⟩, hpk, h⟩ := bind_eq_ok.mp h
  obtain ⟨⟨sigBytes, rest'⟩, hsig, h⟩ := bind_eq_ok.mp h
  obtain ⟨⟨msgBytes, rest''⟩, hmsg, hpush⟩ := bind_eq_ok.mp h
  obtain ⟨pk, rfl, rfl⟩ := popBytes_eq_ok.mp hpk
  obtain ⟨sig, rfl, rfl⟩ := popBytes_eq_ok.mp hsig
  obtain ⟨msg, rfl, rfl⟩ := popBytes_eq_ok.mp hmsg
  exact ⟨pk, sig, msg, rest'', rfl, push_eq_ok hpush⟩

/-! ### Plain instructions -/

/-- Neither a conditional nor the multi-signature check. -/
def Instruction.IsPlain (instr : Instruction) : Prop :=
  instr.op ≠ .opIf ∧ instr.op ≠ .opElse ∧ instr.op ≠ .endIf ∧ instr.op ≠ .checkMultiSigPqc

/-- A plain instruction is paid for and leaves the conditionals alone, and changes the stack as its opcode says if it is executed at all. -/
theorem step_plain {m m' : Machine} {instr : Instruction} (hplain : instr.IsPlain)
    (hstep : Machine.step ctx m instr = .ok m') :
    m.gas.charge instr.op = some m'.gas ∧ m'.execStack = m.execStack ∧
      (m.executing = true → evalOp ctx instr m.stack = .ok m'.stack) := by
  obtain ⟨hif, helse, hend, hmulti⟩ := hplain
  unfold Machine.step at hstep
  obtain ⟨gas, hgas, hstep⟩ := okOr_bind_eq_ok.mp hstep
  dsimp only at hstep
  split at hstep
  · contradiction
  · contradiction
  · contradiction
  · contradiction
  · split at hstep
    · obtain ⟨stack, heval, hm'⟩ := bind_eq_ok.mp hstep
      cases pure_eq_ok.mp hm'
      exact ⟨hgas, rfl, fun _ => heval⟩
    · rename_i hskip
      cases pure_eq_ok.mp hstep
      exact ⟨hgas, rfl, fun hexec => absurd hexec hskip⟩

theorem step_of_plain {m : Machine} {instr : Instruction} {gas : GasMeter} {stack : Stack} (hplain : instr.IsPlain)
    (hexec : m.executing = true) (hgas : m.gas.charge instr.op = some gas) (heval : evalOp ctx instr m.stack = .ok stack) :
    Machine.step ctx m instr = .ok { m with gas := gas, stack := stack } := by
  obtain ⟨hif, helse, hend, hmulti⟩ := hplain
  have hexec' : ({ m with gas := gas } : Machine).executing = true := hexec
  unfold Machine.step
  rw [hgas, okOr_some, ok_bind]
  dsimp only
  split
  · contradiction
  · contradiction
  · contradiction
  · contradiction
  · rw [if_pos hexec', heval]
    rfl

/-- A plain instruction on the false branch of a conditional is paid for and has no other effect. -/
theorem step_skipped {m m' : Machine} {instr : Instruction} (hplain : instr.IsPlain) (hskip : m.executing = false) :
    Machine.step ctx m instr = .ok m' ↔ ∃ gas, m.gas.charge instr.op = some gas ∧ m' = { m with gas := gas } := by
  obtain ⟨hif, helse, hend, hmulti⟩ := hplain
  unfold Machine.step
  rw [okOr_bind_eq_ok]
  refine exists_congr fun gas => and_congr_right fun _ => ?_
  have hskip' : ¬ ({ m with gas := gas } : Machine).executing = true := by
    rw [show ({ m with gas := gas } : Machine).executing = m.executing from rfl, hskip]
    decide
  dsimp only
  split
  · contradiction
  · contradiction
  · contradiction
  · contradiction
  · rw [if_neg hskip', pure_eq_ok]
    exact eq_comm

/-- **Plain instructions that end with no conditional open were all executed.** -/
theorem run_plain {instrs : List Instruction} (hplain : ∀ instr ∈ instrs, instr.IsPlain) {m m' : Machine}
    (hrun : instrs.foldlM (Machine.step ctx) m = .ok m') (hclosed : m'.execStack = []) :
    m.execStack = [] ∧ instrs.foldlM (fun stack instr => evalOp ctx instr stack) m.stack = .ok m'.stack := by
  induction instrs generalizing m with
  | nil =>
      cases pure_eq_ok.mp hrun
      exact ⟨hclosed, rfl⟩
  | cons instr instrs ih =>
      obtain ⟨mid, hstep, hrest⟩ := foldlM_cons_eq_ok.mp hrun
      obtain ⟨hmid, hstack⟩ := ih (fun i hi => hplain i (List.mem_cons_of_mem _ hi)) hrest
      obtain ⟨-, hflags, heval⟩ := step_plain (hplain instr List.mem_cons_self) hstep
      have hopen : m.execStack = [] := hflags.symm.trans hmid
      have hexec : m.executing = true := by simp [Machine.executing, hopen]
      exact ⟨hopen, foldlM_cons_eq_ok.mpr ⟨mid.stack, heval hexec, hstack⟩⟩

/-! ### Whole scripts -/

theorem executeInstructions_eq_ok {instrs : List Instruction} {gas : GasMeter} {result : ExecResult} :
    executeInstructions instrs ctx gas = .ok result ↔
      ∃ m, instrs.foldlM (Machine.step ctx) (.init gas) = .ok m ∧ m.execStack = [] ∧
        result = ⟨m.stack.head?.any Value.isTruthy, m.gas.consumed, m.stack⟩ := by
  unfold executeInstructions
  simp only [bind_eq_ok, require_eq_ok, pure_eq_ok]
  constructor
  · intro h
    obtain ⟨m, hrun, _, hclosed, hresult⟩ := h
    exact ⟨m, hrun, hclosed, hresult.symm⟩
  · intro h
    obtain ⟨m, hrun, hclosed, hresult⟩ := h
    exact ⟨m, hrun, (), hclosed, hresult.symm⟩

theorem execute_eq_ok {script : Bytes} {gas : GasMeter} {result : ExecResult} :
    execute script ctx gas = .ok result ↔
      ∃ instrs, decodeScript script = .ok instrs ∧ executeInstructions instrs ctx gas = .ok result := by
  unfold execute
  simp only [bind_eq_ok, mapError_eq_ok]

/-- **A lock after a witness that decodes on its own.** Validation runs the witness from an empty stack and then the lock, and asks for closed conditionals. -/
theorem validateScript_eq_ok {lock witness : Bytes} {ls ws : List Instruction} {tx : Transaction}
    {resolved : List TxOutput} {slot : Slot} {result : ExecResult} (hwitness : decodeScript witness = .ok ws)
    (hlock : decodeScript lock = .ok ls) :
    validateScript lock witness tx resolved slot = .ok result ↔
      (witness ++ lock).length ≤ OpCode.maxScriptSize ∧
        ∃ mid m, ws.foldlM (Machine.step (.new tx resolved slot lock)) (.init (.new defaultGasLimit)) = .ok mid ∧
          ls.foldlM (Machine.step (.new tx resolved slot lock)) mid = .ok m ∧ m.execStack = [] ∧
          result = ⟨m.stack.head?.any Value.isTruthy, m.gas.consumed, m.stack⟩ := by
  unfold validateScript validateScriptWithGas
  rw [execute_eq_ok]
  constructor
  · intro hexec
    obtain ⟨instrs, hdecode, hexec⟩ := hexec
    have hsize : (witness ++ lock).length ≤ OpCode.maxScriptSize := by
      by_contra hlong
      rw [decodeScript, if_pos (by omega)] at hdecode
      cases hdecode
    rw [decodeScript_append hsize hwitness hlock, Except.ok.injEq] at hdecode
    subst hdecode
    obtain ⟨m, hrun, hclosed, hresult⟩ := executeInstructions_eq_ok.mp hexec
    obtain ⟨mid, hfirst, hsecond⟩ := foldlM_append_eq_ok.mp hrun
    exact ⟨hsize, mid, m, hfirst, hsecond, hclosed, hresult⟩
  · intro hruns
    obtain ⟨hsize, mid, m, hfirst, hsecond, hclosed, hresult⟩ := hruns
    refine ⟨ws ++ ls, decodeScript_append hsize hwitness hlock, executeInstructions_eq_ok.mpr ⟨m, ?_, hclosed, hresult⟩⟩
    exact foldlM_append_eq_ok.mpr ⟨mid, hfirst, hsecond⟩

/-! ### Constants -/

def OpCode.isConstant : OpCode → Bool
  | .op0 | .op1 | .push1 | .push2 | .push4 | .pushInt => true
  | _ => false

/-- What a constant leaves on the stack. -/
def Instruction.pushed (instr : Instruction) : Value :=
  match instr.op with
  | .op0 => .int 0
  | .op1 => .int 1
  | .pushInt => .int (UInt64.ofNat (ofLittleEndian (instr.data.take 8))).toInt64
  | _ => .bytes instr.data

omit [Crypto] in
theorem isPlain_of_isConstant {instr : Instruction} (h : instr.op.isConstant = true) : instr.IsPlain := by
  refine ⟨?_, ?_, ?_, ?_⟩ <;> intro hop <;> rw [hop] at h <;> cases h

theorem evalOp_constant {instr : Instruction} (h : instr.op.isConstant = true) (hwell : instr.WellFormed) :
    evalOp ctx instr stack = push stack instr.pushed := by
  obtain ⟨op, data⟩ := instr
  cases op
  case pushInt =>
    have hlen : 8 ≤ data.length := le_of_eq (Eq.symm hwell)
    show (require (8 ≤ data.length) _ >>= _) = _
    rw [(require_eq_ok (u := ())).mpr hlen]
    rfl
  case op0 => rfl
  case op1 => rfl
  case push1 => rfl
  case push2 => rfl
  case push4 => rfl
  all_goals cases h

theorem evalOp_constant_eq_ok {instr : Instruction} (h : instr.op.isConstant = true)
    (hok : evalOp ctx instr stack = .ok stack') : stack' = instr.pushed :: stack := by
  obtain ⟨op, data⟩ := instr
  cases op
  case pushInt => exact push_eq_ok (require_bind_eq_ok.mp hok).2
  case op0 => exact push_eq_ok hok
  case op1 => exact push_eq_ok hok
  case push1 => exact push_eq_ok hok
  case push2 => exact push_eq_ok hok
  case push4 => exact push_eq_ok hok
  all_goals cases h

omit [Crypto] in
theorem Instruction.isConstant_pushBytes (data : Bytes) : (Instruction.pushBytes data).op.isConstant = true := by
  unfold Instruction.pushBytes
  split
  · rfl
  · split <;> rfl

omit [Crypto] in
theorem Instruction.pushed_pushBytes (data : Bytes) : (Instruction.pushBytes data).pushed = .bytes data := by
  unfold Instruction.pushBytes
  split
  · rfl
  · split <;> rfl

omit [Crypto] in
theorem Instruction.pushed_pushInt (n : Int64) : (Instruction.pushInt n).pushed = .int n := by
  show Value.int (UInt64.ofNat (ofLittleEndian ((toLittleEndian 8 n.toUInt64.toNat).take 8))).toInt64 = _
  rw [List.take_of_length_le (by rw [length_toLittleEndian]), ofLittleEndian_toLittleEndian_u64, UInt64.ofNat_toNat]
  rfl

omit [Crypto] in
theorem ScriptBuilder.isConstant_pushInt (n : Int64) : (ScriptBuilder.pushInt n).op.isConstant = true := by
  unfold ScriptBuilder.pushInt
  split
  · rfl
  · split <;> rfl

omit [Crypto] in
theorem ScriptBuilder.pushed_pushInt (n : Int64) : (ScriptBuilder.pushInt n).pushed = .int n := by
  unfold ScriptBuilder.pushInt
  split
  · rename_i hzero
    rw [hzero]
    rfl
  · split
    · rename_i hone
      rw [hone]
      rfl
    · exact Instruction.pushed_pushInt n

end QuantumVault
