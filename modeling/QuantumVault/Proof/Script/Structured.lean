import QuantumVault.Proof.Script.Failure

/-!
# Structured conditionals

The interpreter keeps a stack of flags and walks over every instruction. Here is what the flags are for: a script is a tree of blocks, a conditional runs the branches that its condition selects and skips the others, and a skipped block costs gas and does nothing else. It is not given the stack at all.

An `ELSE` or `ENDIF` that belongs to no conditional ends the tree, and what stands before it is run first. A conditional that the script does not close runs to the end of the script and fails there.
-/

namespace QuantumVault

open Result

/-! ### Trees -/

mutual

/-- A stretch of a script in which every conditional that is opened is complete or runs to the end of the script. -/
inductive ScriptBlock where
  | done
  | op (instr : Instruction) (next : ScriptBlock)
  | cond (branches : Branches) (next : ScriptBlock)

/-- What stands between an `IF` and its end: a first branch, and after each `ELSE` another one. -/
inductive Branches where
  | last (body : ScriptBlock)
  | orElse (body : ScriptBlock) (others : Branches)
  | unclosed (body : ScriptBlock)

end

/-- An `ELSE` or `ENDIF` without a conditional around it. -/
inductive Marker where
  | opElse | endIf

def Marker.op : Marker → OpCode
  | .opElse => .opElse
  | .endIf => .endIf

def Marker.message : Marker → String
  | .opElse => "ELSE without IF"
  | .endIf => "ENDIF without IF"

/-- The conditional whose first branch begins with a block. It takes the markers that follow, up to the first `ENDIF`; what comes after that is left. -/
def closeBlock : ScriptBlock → List (Marker × ScriptBlock) → Branches × ScriptBlock × List (Marker × ScriptBlock)
  | body, [] => (.unclosed body, .done, [])
  | body, (.endIf, next) :: more => (.last body, next, more)
  | body, (.opElse, other) :: more =>
      let (others, next, more) := closeBlock other more
      (.orElse body others, next, more)

/-- A script read from its end: a block, and the blocks behind markers that no conditional has claimed yet. -/
def parse : List Instruction → ScriptBlock × List (Marker × ScriptBlock)
  | [] => (.done, [])
  | instr :: instrs =>
      let (block, more) := parse instrs
      match instr.op with
      | .opIf =>
          let (branches, next, more) := closeBlock block more
          (.cond branches next, more)
      | .opElse => (.done, (.opElse, block) :: more)
      | .endIf => (.done, (.endIf, block) :: more)
      | _ => (.op instr block, more)

/-! ### What a tree is a tree of -/

mutual

def ScriptBlock.ops : ScriptBlock → List OpCode
  | .done => []
  | .op instr next => instr.op :: next.ops
  | .cond branches next => .opIf :: (branches.ops ++ next.ops)

def Branches.ops : Branches → List OpCode
  | .last body => body.ops ++ [.endIf]
  | .orElse body others => body.ops ++ .opElse :: others.ops
  | .unclosed body => body.ops

end

def opsOf (block : ScriptBlock) (more : List (Marker × ScriptBlock)) : List OpCode :=
  block.ops ++ more.flatMap fun part => part.1.op :: part.2.ops

private theorem ops_closeBlock (body : ScriptBlock) (more : List (Marker × ScriptBlock)) :
    (closeBlock body more).1.ops ++ opsOf (closeBlock body more).2.1 (closeBlock body more).2.2 = opsOf body more := by
  induction more generalizing body with
  | nil => simp [closeBlock, Branches.ops, opsOf, ScriptBlock.ops]
  | cons part more ih =>
      obtain ⟨marker, other⟩ := part
      cases marker with
      | endIf => simp [closeBlock, Branches.ops, opsOf, Marker.op]
      | opElse =>
          have hother := ih other
          simp only [closeBlock, Branches.ops, List.append_assoc, List.cons_append, hother]
          simp [opsOf, Marker.op]

private theorem ops_parse (instrs : List Instruction) : opsOf (parse instrs).1 (parse instrs).2 = instrs.map (·.op) := by
  induction instrs with
  | nil => rfl
  | cons instr instrs ih =>
      rw [List.map_cons, ← ih, parse]
      dsimp only
      split
      · rename_i hop
        have hclose := ops_closeBlock (parse instrs).1 (parse instrs).2
        rw [hop, ← hclose]
        simp [opsOf, ScriptBlock.ops]
      · rename_i hop
        rw [hop]
        simp [opsOf, ScriptBlock.ops, Marker.op]
      · rename_i hop
        rw [hop]
        simp [opsOf, ScriptBlock.ops, Marker.op]
      · simp [opsOf, ScriptBlock.ops]

/-! ### Running a tree -/

def pay (gas : GasMeter) (op : OpCode) : Except ScriptError GasMeter := okOr (gas.charge op) .outOfGas

mutual

/-- A skipped block is paid for. -/
def ScriptBlock.skip : ScriptBlock → GasMeter → Except ScriptError GasMeter
  | .done, gas => .ok gas
  | .op instr next, gas => do
      let gas ← pay gas instr.op
      next.skip gas
  | .cond branches next, gas => do
      let gas ← pay gas .opIf
      let gas ← branches.skip gas
      next.skip gas

def Branches.skip : Branches → GasMeter → Except ScriptError GasMeter
  | .last body, gas => do
      let gas ← body.skip gas
      pay gas .endIf
  | .orElse body others, gas => do
      let gas ← body.skip gas
      let gas ← pay gas .opElse
      others.skip gas
  | .unclosed body, gas => do
      let _ ← body.skip gas
      throw (.unbalancedConditional "unterminated IF block")

end

variable [Crypto]

/-- The effect of an instruction other than a conditional, once it is paid for. -/
def executeOp (ctx : Context) (instr : Instruction) (s : Stack × GasMeter) : Except ScriptError (Stack × GasMeter) :=
  if instr.op = .checkMultiSigPqc then evalCheckMultiSig s.1 s.2
  else do
    let stack ← evalOp ctx instr s.1
    return (stack, s.2)

def popFlag (stack : Stack) : Except ScriptError (Bool × Stack) := do
  let (condition, stack) ← pop stack
  return (condition.isTruthy, stack)

/-- The stack is left alone while a block is skipped. -/
def skipping (stack : Stack) (skip : Except ScriptError GasMeter) : Except ScriptError (Stack × GasMeter) := do
  let gas ← skip
  return (stack, gas)

mutual

def ScriptBlock.run (ctx : Context) : ScriptBlock → Stack × GasMeter → Except ScriptError (Stack × GasMeter)
  | .done, s => .ok s
  | .op instr next, (stack, gas) => do
      let gas ← pay gas instr.op
      let s ← executeOp ctx instr (stack, gas)
      next.run ctx s
  | .cond branches next, (stack, gas) => do
      let gas ← pay gas .opIf
      let (flag, stack) ← popFlag stack
      let s ← branches.run ctx flag (stack, gas)
      next.run ctx s

/-- The branches of a conditional that is executed. The flag says whether the first of them is selected; every `ELSE` turns it over. -/
def Branches.run (ctx : Context) : Branches → Bool → Stack × GasMeter → Except ScriptError (Stack × GasMeter)
  | .last body, flag, (stack, gas) => do
      let (stack, gas) ← (if flag then body.run ctx (stack, gas) else skipping stack (body.skip gas))
      let gas ← pay gas .endIf
      return (stack, gas)
  | .orElse body others, flag, (stack, gas) => do
      let (stack, gas) ← (if flag then body.run ctx (stack, gas) else skipping stack (body.skip gas))
      let gas ← pay gas .opElse
      others.run ctx (!flag) (stack, gas)
  | .unclosed body, flag, (stack, gas) => do
      let _ ← (if flag then body.run ctx (stack, gas) else skipping stack (body.skip gas))
      throw (.unbalancedConditional "unterminated IF block")

end

/-- The meaning of a script as a tree. -/
def runStructured (ctx : Context) (instrs : List Instruction) (gas : GasMeter) : Except ScriptError ExecResult := do
  let (stack, gas) ← (parse instrs).1.run ctx ([], gas)
  match (parse instrs).2 with
  | [] => return ⟨stack.head?.any Value.isTruthy, gas.consumed, stack⟩
  | (marker, _) :: _ => do
      let _ ← pay gas marker.op
      throw (.unbalancedConditional marker.message)

/-! ### Blocks that are run or skipped -/

/-- A block under a flag. -/
def ScriptBlock.runIf (ctx : Context) (block : ScriptBlock) (active : Bool) (s : Stack × GasMeter) :
    Except ScriptError (Stack × GasMeter) :=
  if active then block.run ctx s else skipping s.1 (block.skip s.2)

/-- The branches of a conditional, in a block under a flag. -/
def Branches.runIf (ctx : Context) (branches : Branches) (active flag : Bool) (s : Stack × GasMeter) :
    Except ScriptError (Stack × GasMeter) :=
  if active then branches.run ctx flag s else skipping s.1 (branches.skip s.2)

variable {ctx : Context} {active flag : Bool} {stack : Stack} {gas : GasMeter} {s : Stack × GasMeter} {body next : ScriptBlock}
  {others branches : Branches} {instr : Instruction}

private theorem ScriptBlock.runIf_done : ScriptBlock.done.runIf ctx active s = .ok s := by
  cases active <;> rfl

private theorem ScriptBlock.runIf_op : (ScriptBlock.op instr next).runIf ctx active (stack, gas) = (do
    let gas ← pay gas instr.op
    let s ← (if active then executeOp ctx instr (stack, gas) else .ok (stack, gas))
    next.runIf ctx active s) := by
  cases active with
  | true => rfl
  | false => simp only [ScriptBlock.runIf, ScriptBlock.skip, skipping, Bool.false_eq_true, if_false, bind_assoc, ok_bind]

private theorem ScriptBlock.runIf_cond : (ScriptBlock.cond branches next).runIf ctx active (stack, gas) = (do
    let gas ← pay gas .opIf
    let (flag, stack) ← (if active then popFlag stack else .ok (false, stack))
    let s ← branches.runIf ctx active flag (stack, gas)
    next.runIf ctx active s) := by
  cases active with
  | true => simp only [ScriptBlock.runIf, ScriptBlock.run, Branches.runIf, if_true]
  | false => simp only [ScriptBlock.runIf, ScriptBlock.skip, Branches.runIf, skipping, Bool.false_eq_true, if_false, bind_assoc, pure_bind, ok_bind]

private theorem Branches.runIf_last : (Branches.last body).runIf ctx active flag (stack, gas) = (do
    let s ← body.runIf ctx (flag && active) (stack, gas)
    let gas ← pay s.2 .endIf
    return (s.1, gas)) := by
  cases active with
  | true => simp only [Branches.runIf, Branches.run, ScriptBlock.runIf, Bool.and_true, if_true]
  | false =>
      simp only [Branches.runIf, ScriptBlock.runIf, Branches.skip, skipping, Bool.and_false, Bool.false_eq_true, if_false, bind_assoc,
        pure_bind]

private theorem Branches.runIf_orElse : (Branches.orElse body others).runIf ctx active flag (stack, gas) = (do
    let s ← body.runIf ctx (flag && active) (stack, gas)
    let gas ← pay s.2 .opElse
    others.runIf ctx active (!flag) (s.1, gas)) := by
  cases active with
  | true => simp only [Branches.runIf, Branches.run, ScriptBlock.runIf, Bool.and_true, if_true]
  | false =>
      simp only [Branches.runIf, ScriptBlock.runIf, Branches.skip, skipping, Bool.and_false, Bool.false_eq_true, if_false, bind_assoc,
        pure_bind]

private theorem Branches.runIf_unclosed : (Branches.unclosed body).runIf ctx active flag (stack, gas) = (do
    let _ ← body.runIf ctx (flag && active) (stack, gas)
    throw (.unbalancedConditional "unterminated IF block")) := by
  cases active with
  | true => simp only [Branches.runIf, Branches.run, ScriptBlock.runIf, Bool.and_true, if_true]
  | false =>
      simp only [Branches.runIf, ScriptBlock.runIf, Branches.skip, skipping, Bool.and_false, Bool.false_eq_true, if_false, bind_assoc,
        pure_bind]
      cases body.skip gas <;> rfl

/-- An `ELSE` turns the flag over where the conditional is executed; where it is skipped, the flag is of no use. -/
theorem Branches.runIf_toggle :
    branches.runIf ctx active (if active then !flag else flag) s = branches.runIf ctx active (!flag) s := by
  cases active <;> rfl

/-! ### The flags -/

/-- A block entered by the machine: run or skipped as its flags say. -/
def ScriptBlock.enter (ctx : Context) (block : ScriptBlock) (m : Machine) : Except ScriptError Machine := do
  let s ← block.runIf ctx m.executing (m.stack, m.gas)
  return { m with stack := s.1, gas := s.2 }

/-- The end of a run: no conditional is open. -/
def finish (m : Machine) : Except ScriptError Machine := do
  require (m.execStack = []) (.unbalancedConditional "unterminated IF block")
  return m

/-- The machine goes on behind a block: with a marker, then the block behind it, and so on to the end of the script. -/
def resume (ctx : Context) : List (Marker × ScriptBlock) → Machine → Except ScriptError Machine
  | [], m => finish m
  | (marker, block) :: more, m => do
      let m ← Machine.step ctx m (.simple marker.op)
      let m ← block.enter ctx m
      resume ctx more m

variable {m : Machine} {flags : List Bool}

omit [Crypto] in
private theorem parentExec_cons : Machine.parentExec (flag :: flags) = flags.all fun flag => flag := by
  cases flags with
  | nil => rfl
  | cons parent flags => simp [Machine.parentExec]

theorem step_ifOp (hop : instr.op = .opIf) : Machine.step ctx m instr = (do
    let gas ← pay m.gas .opIf
    let (flag, stack) ← (if m.executing then popFlag m.stack else .ok (false, m.stack))
    return ⟨stack, flag :: m.execStack, gas⟩) := by
  obtain ⟨op, data⟩ := instr
  cases hop
  unfold Machine.step pay
  refine bind_congr fun gas => ?_
  dsimp only
  have hexec : ({ m with gas := gas } : Machine).executing = m.executing := rfl
  simp only [hexec]
  cases m.executing with
  | true => simp only [if_true, popFlag, bind_assoc, pure_bind]
  | false => rfl

theorem step_marker (marker : Marker) (hop : instr.op = marker.op) :
    Machine.step ctx m instr = Machine.step ctx m (.simple marker.op) := by
  obtain ⟨op, data⟩ := instr
  cases hop
  cases marker <;> rfl

theorem step_elseOp : Machine.step ctx ⟨stack, flag :: flags, gas⟩ (.simple .opElse) = (do
    let gas ← pay gas .opElse
    return ⟨stack, (if flags.all fun flag => flag then !flag else flag) :: flags, gas⟩) := by
  rw [← @parentExec_cons flag flags]
  rfl

theorem step_endIfOp : Machine.step ctx ⟨stack, flag :: flags, gas⟩ (.simple .endIf) = (do
    let gas ← pay gas .endIf
    return ⟨stack, flags, gas⟩) := rfl

theorem step_stray (marker : Marker) : Machine.step ctx ⟨stack, [], gas⟩ (.simple marker.op) = (do
    let _ ← pay gas marker.op
    throw (.unbalancedConditional marker.message)) := by
  cases marker <;> rfl

theorem step_otherOp (hif : instr.op ≠ .opIf) (helse : instr.op ≠ .opElse) (hend : instr.op ≠ .endIf) :
    Machine.step ctx m instr = (do
      let gas ← pay m.gas instr.op
      let s ← (if m.executing then executeOp ctx instr (m.stack, gas) else .ok (m.stack, gas))
      return { m with stack := s.1, gas := s.2 }) := by
  unfold Machine.step pay
  refine bind_congr fun gas => ?_
  dsimp only
  have hexec : ({ m with gas := gas } : Machine).executing = m.executing := rfl
  simp only [hexec]
  split
  · contradiction
  · contradiction
  · contradiction
  · rename_i hop
    cases m.executing with
    | true => simp only [if_true, executeOp, if_pos hop]
    | false => rfl
  · rename_i hmulti
    cases m.executing with
    | true => simp only [if_true, executeOp, if_neg hmulti, bind_assoc, pure_bind]
    | false => rfl

/-! ### The machine follows the tree -/

theorem enter_done : ScriptBlock.done.enter ctx m = .ok m := by
  rw [ScriptBlock.enter, ScriptBlock.runIf_done]
  rfl

private theorem enter_op (hif : instr.op ≠ .opIf) (helse : instr.op ≠ .opElse) (hend : instr.op ≠ .endIf) :
    (ScriptBlock.op instr next).enter ctx m = (Machine.step ctx m instr >>= next.enter ctx) := by
  rw [ScriptBlock.enter, ScriptBlock.runIf_op, step_otherOp hif helse hend]
  simp only [bind_assoc, pure_bind]
  rfl

/-- **A conditional in the flat script.** The machine has pushed the flag of the condition and goes through the first branch and the markers behind it: it runs the branches as the tree says and then goes on behind them. -/
theorem enter_closeBlock (more : List (Marker × ScriptBlock)) (body : ScriptBlock) (flag : Bool) (flags : List Bool) (stack : Stack)
    (gas : GasMeter) :
    (body.enter ctx ⟨stack, flag :: flags, gas⟩ >>= resume ctx more) = (do
      let s ← (closeBlock body more).1.runIf ctx (flags.all fun flag => flag) flag (stack, gas)
      let m ← (closeBlock body more).2.1.enter ctx ⟨s.1, flags, s.2⟩
      resume ctx (closeBlock body more).2.2 m) := by
  -- by induction on the markers: the first ENDIF is the end, an ELSE turns the flag over, and without either the run fails
  induction more generalizing body flag stack gas with
  | nil =>
      simp only [closeBlock, Branches.runIf_unclosed, ScriptBlock.enter, bind_assoc, pure_bind]
      rfl
  | cons part more ih =>
      obtain ⟨marker, other⟩ := part
      have hexec : (Machine.mk stack (flag :: flags) gas).executing = (flag && flags.all fun flag => flag) := rfl
      cases marker with
      | endIf =>
          simp only [closeBlock, Branches.runIf_last, resume, Marker.op, bind_assoc, pure_bind]
          rw [ScriptBlock.enter, hexec]
          simp only [step_endIfOp, bind_assoc, pure_bind]
      | opElse =>
          simp only [closeBlock, Branches.runIf_orElse, resume, Marker.op, bind_assoc]
          rw [ScriptBlock.enter, hexec]
          simp only [step_elseOp, bind_assoc, pure_bind, ih, Branches.runIf_toggle]

/-- **The machine follows the tree.** -/
theorem run_parse (instrs : List Instruction) (m : Machine) :
    (instrs.foldlM (Machine.step ctx) m >>= finish) = ((parse instrs).1.enter ctx m >>= resume ctx (parse instrs).2) := by
  induction instrs generalizing m with
  | nil =>
      rw [parse, enter_done]
      rfl
  | cons instr instrs ih =>
      rw [List.foldlM_cons, bind_assoc]
      simp only [ih]
      rw [parse]
      dsimp only
      split
      · rename_i hop
        rw [step_ifOp hop, ScriptBlock.enter, ScriptBlock.runIf_cond]
        simp only [bind_assoc, pure_bind]
        refine bind_congr fun gas => bind_congr fun condition => ?_
        rw [enter_closeBlock]
        simp only [ScriptBlock.enter, bind_assoc, pure_bind]
        rfl
      · rename_i hop
        rw [enter_done, step_marker .opElse hop]
        rfl
      · rename_i hop
        rw [enter_done, step_marker .endIf hop]
        rfl
      · rename_i hif helse hend
        rw [enter_op hif helse hend, bind_assoc]

/-- **The flat loop computes the meaning of the tree.** -/
theorem executeInstructions_eq_runStructured (instrs : List Instruction) (gas : GasMeter) :
    executeInstructions instrs ctx gas = runStructured ctx instrs gas := by
  have hflat : executeInstructions instrs ctx gas = (instrs.foldlM (Machine.step ctx) (.init gas) >>= finish) >>=
      fun m => pure ⟨m.stack.head?.any Value.isTruthy, m.gas.consumed, m.stack⟩ := by
    simp only [executeInstructions, finish, bind_assoc, pure_bind]
  rw [hflat, run_parse, runStructured]
  have hinit : (parse instrs).1.enter ctx (.init gas) =
      ((parse instrs).1.run ctx ([], gas) >>= fun s => pure ⟨s.1, [], s.2⟩) := rfl
  rw [hinit]
  simp only [bind_assoc, pure_bind]
  refine bind_congr fun s => ?_
  cases (parse instrs).2 with
  | nil => rfl
  | cons part more =>
      obtain ⟨marker, block⟩ := part
      simp only [resume, step_stray, bind_assoc]
      cases pay s.2 marker.op <;> rfl

/-! ### Unbalanced conditionals -/

/-- The number of conditionals that a prefix leaves open. -/
def openBlocks (instrs : List Instruction) : Nat :=
  instrs.countP (fun instr => instr.op = .opIf) - instrs.countP (fun instr => instr.op = .endIf)

private theorem length_execStack_step {m' : Machine} (h : Machine.step ctx m instr = .ok m') :
    m'.execStack.length + (if instr.op = .endIf then 1 else 0) = m.execStack.length + (if instr.op = .opIf then 1 else 0) := by
  by_cases hif : instr.op = .opIf
  · rw [step_ifOp hif] at h
    obtain ⟨gas, -, h⟩ := bind_eq_ok.mp h
    obtain ⟨⟨flag, stack⟩, -, h⟩ := bind_eq_ok.mp h
    cases pure_eq_ok.mp h
    simp [hif]
  by_cases helse : instr.op = .opElse
  · rw [step_marker .opElse helse] at h
    obtain ⟨stack, flags, gas⟩ := m
    cases flags with
    | nil =>
        rw [step_stray .opElse] at h
        obtain ⟨_, -, h⟩ := bind_eq_ok.mp h
        cases h
    | cons flag flags =>
        obtain ⟨gas', -, h⟩ := bind_eq_ok.mp (step_elseOp.symm.trans h)
        cases pure_eq_ok.mp h
        simp [helse]
  by_cases hend : instr.op = .endIf
  · rw [step_marker .endIf hend] at h
    obtain ⟨stack, flags, gas⟩ := m
    cases flags with
    | nil =>
        rw [step_stray .endIf] at h
        obtain ⟨_, -, h⟩ := bind_eq_ok.mp h
        cases h
    | cons flag flags =>
        obtain ⟨gas', -, h⟩ := bind_eq_ok.mp (step_endIfOp.symm.trans h)
        cases pure_eq_ok.mp h
        simp [hend]
  · rw [step_otherOp hif helse hend] at h
    obtain ⟨gas, -, h⟩ := bind_eq_ok.mp h
    obtain ⟨s, -, h⟩ := bind_eq_ok.mp h
    cases pure_eq_ok.mp h
    simp [hif, hend]

private theorem length_execStack_run {instrs : List Instruction} {m' : Machine}
    (h : instrs.foldlM (Machine.step ctx) m = .ok m') :
    m'.execStack.length + instrs.countP (fun instr => instr.op = .endIf) =
      m.execStack.length + instrs.countP (fun instr => instr.op = .opIf) := by
  induction instrs generalizing m with
  | nil =>
      cases pure_eq_ok.mp h
      rfl
  | cons instr instrs ih =>
      obtain ⟨mid, hstep, hrest⟩ := foldlM_cons_eq_ok.mp h
      have hone := length_execStack_step hstep
      have hmany := ih hrest
      simp only [List.countP_cons, decide_eq_true_eq]
      omega

theorem length_execStack_eq {instrs : List Instruction} {m' : Machine}
    (h : instrs.foldlM (Machine.step ctx) (.init gas) = .ok m') : m'.execStack.length = openBlocks instrs := by
  have hrun := length_execStack_run h
  have hinit : (Machine.init gas).execStack.length = 0 := rfl
  unfold openBlocks
  omega

theorem step_eq_unbalanced (hdepth : m.stack.length ≤ 1024) :
    (∃ reason, Machine.step ctx m instr = .error (.unbalancedConditional reason)) ↔
      (instr.op = .opElse ∨ instr.op = .endIf) ∧ m.Affords instr ∧ m.execStack = [] := by
  constructor
  · intro h
    obtain ⟨reason, h⟩ := h
    cases (step_outcome hdepth).failure h with
    | ordinary hordinary => exact absurd hordinary id
    | unbalanced hpaid hmarker hopen => exact ⟨hmarker, hpaid, hopen⟩
  · intro h
    obtain ⟨hmarker, hpaid, hopen⟩ := h
    obtain ⟨stack, flags, gas⟩ := m
    cases hopen
    obtain ⟨gas', hcharge⟩ := GasMeter.charge_isSome_iff.mpr hpaid
    obtain ⟨marker, hop⟩ : ∃ marker : Marker, instr.op = marker.op := by
      rcases hmarker with hop | hop
      · exact ⟨.opElse, hop⟩
      · exact ⟨.endIf, hop⟩
    rw [hop] at hcharge
    refine ⟨marker.message, ?_⟩
    rw [step_marker _ hop, step_stray, pay, hcharge]
    rfl

/-- **Flat conditionals implement structured ones.** The tree has the instructions of the script, the loop computes its meaning, and it reports an unbalanced conditional exactly where an executed prefix comes to a marker with no conditional open, or the script ends with one open. -/
theorem executeInstructions_structured (instrs : List Instruction) (gas : GasMeter) :
    opsOf (parse instrs).1 (parse instrs).2 = instrs.map (·.op) ∧
      executeInstructions instrs ctx gas = runStructured ctx instrs gas ∧
      ((∃ reason, executeInstructions instrs ctx gas = .error (.unbalancedConditional reason)) ↔
        (∃ before instr after m, instrs = before ++ instr :: after ∧
            before.foldlM (Machine.step ctx) (.init gas) = .ok m ∧ m.Affords instr ∧
            (instr.op = .opElse ∨ instr.op = .endIf) ∧ openBlocks before = 0) ∨
          ∃ m, instrs.foldlM (Machine.step ctx) (.init gas) = .ok m ∧ 0 < openBlocks instrs) := by
  refine ⟨ops_parse instrs, executeInstructions_eq_runStructured instrs gas, ?_⟩
  have hdepth : ∀ {before : List Instruction} {m}, before.foldlM (Machine.step ctx) (.init gas) = .ok m →
      m.stack.length ≤ 1024 := by
    intro before m hrun
    refine foldlM_invariant (fun m : Machine => m.stack.length ≤ 1024) (fun _ _ _ _ hd hstep => ?_) (Nat.zero_le _) hrun
    exact (step_outcome hd).value hstep
  constructor
  · intro h
    obtain ⟨reason, h⟩ := h
    rcases bind_eq_error.mp h with hrun | ⟨m, hrun, hlast⟩
    · obtain ⟨instr, after, m, ⟨before, hsplit, hbefore⟩, hstep⟩ := foldlM_eq_error.mp hrun
      obtain ⟨hmarker, hpaid, hopen⟩ := (step_eq_unbalanced (hdepth hbefore)).mp ⟨reason, hstep⟩
      refine Or.inl ⟨before, instr, after, m, hsplit, hbefore, hpaid, hmarker, ?_⟩
      rw [← length_execStack_eq hbefore, hopen, List.length_nil]
    · refine Or.inr ⟨m, hrun, ?_⟩
      rcases bind_eq_error.mp hlast with hopen | ⟨_, -, hlast⟩
      · rw [← length_execStack_eq hrun]
        exact List.length_pos_iff.mpr (require_eq_error.mp hopen).1
      · cases hlast
  · intro h
    rcases h with ⟨before, instr, after, m, hsplit, hbefore, hpaid, hmarker, hopen⟩ | ⟨m, hrun, hopen⟩
    · rw [← length_execStack_eq hbefore, List.length_eq_zero_iff] at hopen
      obtain ⟨reason, hstep⟩ := (step_eq_unbalanced (hdepth hbefore)).mpr ⟨hmarker, hpaid, hopen⟩
      refine ⟨reason, bind_eq_error.mpr (Or.inl ?_)⟩
      exact foldlM_eq_error.mpr ⟨instr, after, m, ⟨before, hsplit, hbefore⟩, hstep⟩
    · rw [← length_execStack_eq hrun] at hopen
      refine ⟨"unterminated IF block", bind_eq_error.mpr (Or.inr ⟨m, hrun, bind_eq_error.mpr (Or.inl ?_)⟩)⟩
      exact require_eq_error.mpr ⟨List.ne_nil_of_length_pos hopen, rfl⟩

/-- A branch that is selected again by a second `ELSE`, and a conditional in the branch that is skipped. -/
example : parse [.simple .op1, .simple .opIf, .simple .op0, .simple .opElse, .simple .opIf, .simple .endIf, .simple .opElse,
      .simple .op1, .simple .endIf] =
    (.op (.simple .op1) (.cond (.orElse (.op (.simple .op0) .done) (.orElse (.cond (.last .done) .done)
      (.last (.op (.simple .op1) .done)))) .done), []) := rfl

end QuantumVault
