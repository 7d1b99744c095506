import QuantumVault.Proof.Script.Machine

/-!
# When a run succeeds

A run of plain instructions is two runs side by side: the meter is charged for every instruction, executed or not, and the executed ones change the stack. This module says exactly when each half succeeds. A script with a conditional is charged for both branches and executes the one that the condition selects.

For each opcode the locks use there is one rule, about a stack whose upper cells are known: the run goes on exactly if the stack has room and the check of the opcode holds, and it goes on with the stack given.
-/

namespace QuantumVault

open Result

/-! ### Gas -/

namespace GasMeter

variable {gas gas' : GasMeter} {amount : UInt64}

theorem remaining_of_consume (h : gas.consume amount = some gas') :
    gas'.remaining.toNat + amount.toNat = gas.remaining.toNat := by
  unfold consume at h
  split at h
  · rename_i hle
    cases h
    have hnat := UInt64.le_iff_toNat_le.mp hle
    show (gas.remaining - amount).toNat + amount.toNat = _
    rw [UInt64.toNat_sub_of_le _ _ hle]
    omega
  · cases h

theorem consume_isSome (h : amount.toNat ≤ gas.remaining.toNat) : ∃ gas', gas.consume amount = some gas' := by
  refine ⟨_, if_pos ?_⟩
  exact UInt64.le_iff_toNat_le.mpr h

end GasMeter

def gasTotal (instrs : List Instruction) : Nat := (instrs.map fun instr => (gasCost instr.op).toNat).sum

theorem gasTotal_cons (instr : Instruction) (instrs : List Instruction) :
    gasTotal (instr :: instrs) = (gasCost instr.op).toNat + gasTotal instrs := by
  rw [gasTotal, List.map_cons, List.sum_cons]
  rfl

theorem gasTotal_append (xs ys : List Instruction) : gasTotal (xs ++ ys) = gasTotal xs + gasTotal ys := by
  rw [gasTotal, List.map_append, List.sum_append]
  rfl

theorem one_le_gasCost (op : OpCode) : 1 ≤ (gasCost op).toNat := by
  cases op <;> decide

theorem length_le_gasTotal (instrs : List Instruction) : instrs.length ≤ gasTotal instrs := by
  induction instrs with
  | nil => exact le_rfl
  | cons instr instrs ih =>
      have hone := one_le_gasCost instr.op
      rw [gasTotal_cons, List.length_cons]
      omega

theorem ScriptBuilder.gasCost_pushInt (n : Int64) : (gasCost (ScriptBuilder.pushInt n).op).toNat ≤ 10 := by
  unfold ScriptBuilder.pushInt
  split
  · decide
  · split
    · decide
    · show (gasCost .pushInt).toNat ≤ 10
      decide

theorem gasTotal_le {instrs : List Instruction} {price : Nat}
    (hprice : ∀ instr ∈ instrs, (gasCost instr.op).toNat ≤ price) : gasTotal instrs ≤ instrs.length * price := by
  have hsum := List.sum_le_card_nsmul (instrs.map fun instr => (gasCost instr.op).toNat) price (by simpa using hprice)
  rwa [List.length_map, smul_eq_mul] at hsum

/-- The meter after it has been charged for every instruction. -/
def GasMeter.chargeAll (gas : GasMeter) (instrs : List Instruction) : Option GasMeter :=
  instrs.foldlM (fun gas instr => gas.charge instr.op) gas

namespace GasMeter

variable {gas gas' : GasMeter} {instr : Instruction} {instrs more : List Instruction}

theorem chargeAll_cons_eq_some : gas.chargeAll (instr :: instrs) = some gas' ↔
    ∃ mid, gas.charge instr.op = some mid ∧ mid.chargeAll instrs = some gas' := by
  rw [chargeAll, List.foldlM_cons]
  exact Option.bind_eq_some_iff

theorem chargeAll_append_eq_some : gas.chargeAll (instrs ++ more) = some gas' ↔
    ∃ mid, gas.chargeAll instrs = some mid ∧ mid.chargeAll more = some gas' := by
  rw [chargeAll, List.foldlM_append]
  exact Option.bind_eq_some_iff

theorem chargeAll_isSome_iff : (∃ gas', gas.chargeAll instrs = some gas') ↔ gasTotal instrs ≤ gas.remaining.toNat := by
  induction instrs generalizing gas with
  | nil => exact ⟨fun _ => Nat.zero_le _, fun _ => ⟨gas, rfl⟩⟩
  | cons instr instrs ih =>
      rw [gasTotal_cons]
      constructor
      · intro h
        obtain ⟨gas', h⟩ := h
        obtain ⟨mid, hcharge, hrest⟩ := chargeAll_cons_eq_some.mp h
        have hleft := remaining_of_consume hcharge
        have htotal := ih.mp ⟨gas', hrest⟩
        omega
      · intro hle
        obtain ⟨mid, hcharge⟩ : ∃ mid, gas.charge instr.op = some mid := consume_isSome (by omega)
        have hleft := remaining_of_consume hcharge
        obtain ⟨gas', hrest⟩ := ih.mpr (show gasTotal instrs ≤ mid.remaining.toNat by omega)
        exact ⟨gas', chargeAll_cons_eq_some.mpr ⟨mid, hcharge, hrest⟩⟩

end GasMeter

/-! ### The two halves of a run -/

section Halves

variable [Crypto] {ctx : Context} {stack final : Stack} {instrs more : List Instruction} {m m' : Machine}

/-- The stack after instructions that are all executed. -/
def evalAll (ctx : Context) (instrs : List Instruction) (stack : Stack) : Except ScriptError Stack :=
  instrs.foldlM (fun stack instr => evalOp ctx instr stack) stack

omit [Crypto] in
theorem Machine.eq_iff : m = m' ↔ m.gas.chargeAll [] = some m'.gas ∧ m.execStack = m'.execStack ∧ m.stack = m'.stack := by
  constructor
  · intro h
    cases h
    exact ⟨rfl, rfl, rfl⟩
  · intro h
    obtain ⟨hgas, hflags, hstack⟩ := h
    cases m
    cases m'
    cases hgas
    cases hflags
    cases hstack
    rfl

theorem evalAll_append_eq_ok : evalAll ctx (instrs ++ more) stack = .ok final ↔
    ∃ mid, evalAll ctx instrs stack = .ok mid ∧ evalAll ctx more mid = .ok final :=
  foldlM_append_eq_ok

/-- **Executed instructions.** They run to their end exactly if they are paid for and the stack has what they ask for. -/
theorem run_executed (hplain : ∀ instr ∈ instrs, instr.IsPlain) (hexec : m.executing = true) :
    instrs.foldlM (Machine.step ctx) m = .ok m' ↔
      m.gas.chargeAll instrs = some m'.gas ∧ m'.execStack = m.execStack ∧ evalAll ctx instrs m.stack = .ok m'.stack := by
  induction instrs generalizing m with
  | nil =>
      rw [List.foldlM_nil, pure_eq_ok, Machine.eq_iff]
      exact Iff.rfl.and (eq_comm.and pure_eq_ok.symm)
  | cons instr instrs ih =>
      rw [List.forall_mem_cons] at hplain
      rw [foldlM_cons_eq_ok, GasMeter.chargeAll_cons_eq_some, evalAll, foldlM_cons_eq_ok]
      constructor
      · intro h
        obtain ⟨mid, hstep, hrest⟩ := h
        obtain ⟨hcharge, hflags, heval⟩ := step_plain hplain.1 hstep
        have hmid : mid.executing = true := by rw [Machine.executing, hflags]; exact hexec
        obtain ⟨hgas, hflags', hstack⟩ := (ih hplain.2 hmid).mp hrest
        exact ⟨⟨mid.gas, hcharge, hgas⟩, hflags'.trans hflags, mid.stack, heval hexec, hstack⟩
      · intro h
        obtain ⟨⟨gas, hcharge, hgas⟩, hflags, stack, heval, hstack⟩ := h
        have hmid : ({ m with gas := gas, stack := stack } : Machine).executing = true := hexec
        exact ⟨_, step_of_plain hplain.1 hexec hcharge heval, (ih hplain.2 hmid).mpr ⟨hgas, hflags, hstack⟩⟩

/-- **Skipped instructions.** They are paid for, and that is all. -/
theorem run_skipped (hplain : ∀ instr ∈ instrs, instr.IsPlain) (hskip : m.executing = false) :
    instrs.foldlM (Machine.step ctx) m = .ok m' ↔
      m.gas.chargeAll instrs = some m'.gas ∧ m'.execStack = m.execStack ∧ m'.stack = m.stack := by
  induction instrs generalizing m with
  | nil =>
      rw [List.foldlM_nil, pure_eq_ok, Machine.eq_iff]
      exact Iff.rfl.and (eq_comm.and eq_comm)
  | cons instr instrs ih =>
      rw [List.forall_mem_cons] at hplain
      rw [foldlM_cons_eq_ok, GasMeter.chargeAll_cons_eq_some]
      simp only [step_skipped hplain.1 hskip]
      constructor
      · intro h
        obtain ⟨mid, ⟨gas, hcharge, hmid⟩, hrest⟩ := h
        subst hmid
        have hskip' : ({ m with gas := gas } : Machine).executing = false := hskip
        obtain ⟨hgas, hflags, hstack⟩ := (ih hplain.2 hskip').mp hrest
        exact ⟨⟨gas, hcharge, hgas⟩, hflags, hstack⟩
      · intro h
        obtain ⟨⟨gas, hcharge, hgas⟩, hflags, hstack⟩ := h
        have hskip' : ({ m with gas := gas } : Machine).executing = false := hskip
        exact ⟨_, ⟨gas, hcharge, rfl⟩, (ih hplain.2 hskip').mpr ⟨hgas, hflags, hstack⟩⟩

def conditional (thenBranch elseBranch : List Instruction) : List Instruction :=
  .simple .opIf :: (thenBranch ++ .simple .opElse :: (elseBranch ++ [.simple .endIf]))

def selected (cond : Value) (thenBranch elseBranch : List Instruction) : List Instruction :=
  if cond.isTruthy then thenBranch else elseBranch

theorem step_opIf (hexec : m.executing = true) : Machine.step ctx m (.simple .opIf) = .ok m' ↔
    ∃ gas cond rest, m.gas.charge .opIf = some gas ∧ m.stack = cond :: rest ∧
      m' = ⟨rest, cond.isTruthy :: m.execStack, gas⟩ := by
  unfold Machine.step
  rw [okOr_bind_eq_ok]
  dsimp only [Instruction.simple]
  constructor
  · intro h
    obtain ⟨gas, hcharge, h⟩ := h
    rw [if_pos (show ({ m with gas := gas } : Machine).executing = true from hexec)] at h
    obtain ⟨⟨cond, rest⟩, hpop, hm'⟩ := bind_eq_ok.mp h
    exact ⟨gas, cond, rest, hcharge, pop_eq_ok.mp hpop, (pure_eq_ok.mp hm').symm⟩
  · intro h
    obtain ⟨gas, cond, rest, hcharge, hstack, hm'⟩ := h
    refine ⟨gas, hcharge, ?_⟩
    rw [if_pos (show ({ m with gas := gas } : Machine).executing = true from hexec)]
    exact bind_eq_ok.mpr ⟨(cond, rest), pop_eq_ok.mpr hstack, pure_eq_ok.mpr hm'.symm⟩

theorem step_opElse {flag : Bool} (hflags : m.execStack = [flag]) : Machine.step ctx m (.simple .opElse) = .ok m' ↔
    ∃ gas, m.gas.charge .opElse = some gas ∧ m' = ⟨m.stack, [!flag], gas⟩ := by
  unfold Machine.step
  rw [okOr_bind_eq_ok]
  dsimp only [Instruction.simple]
  rw [hflags]
  exact exists_congr fun gas => and_congr_right fun _ => pure_eq_ok.trans eq_comm

theorem step_endIf {flag : Bool} (hflags : m.execStack = [flag]) : Machine.step ctx m (.simple .endIf) = .ok m' ↔
    ∃ gas, m.gas.charge .endIf = some gas ∧ m' = ⟨m.stack, [], gas⟩ := by
  unfold Machine.step
  rw [okOr_bind_eq_ok]
  dsimp only [Instruction.simple]
  rw [hflags]
  exact exists_congr fun gas => and_congr_right fun _ => pure_eq_ok.trans eq_comm

theorem run_branch {flag : Bool} (hplain : ∀ instr ∈ instrs, instr.IsPlain) (hflags : m.execStack = [flag]) :
    instrs.foldlM (Machine.step ctx) m = .ok m' ↔
      m.gas.chargeAll instrs = some m'.gas ∧ m'.execStack = [flag] ∧
        evalAll ctx (if flag then instrs else []) m.stack = .ok m'.stack := by
  cases flag with
  | true =>
      rw [run_executed hplain (by simp [Machine.executing, hflags]), hflags]
      rfl
  | false =>
      rw [run_skipped hplain (by simp [Machine.executing, hflags]), hflags]
      exact Iff.rfl.and (Iff.rfl.and (eq_comm.trans pure_eq_ok.symm))

/-- **A conditional.** Both branches are paid for, and the one that the top of the stack selects is executed. -/
theorem run_conditional {thenBranch elseBranch : List Instruction} (hthen : ∀ instr ∈ thenBranch, instr.IsPlain)
    (helse : ∀ instr ∈ elseBranch, instr.IsPlain) (hopen : m.execStack = []) :
    (conditional thenBranch elseBranch).foldlM (Machine.step ctx) m = .ok m' ↔
      ∃ cond rest, m.stack = cond :: rest ∧ m.gas.chargeAll (conditional thenBranch elseBranch) = some m'.gas ∧
        m'.execStack = [] ∧ evalAll ctx (selected cond thenBranch elseBranch) rest = .ok m'.stack := by
  have hexec : m.executing = true := by simp [Machine.executing, hopen]
  simp only [conditional, foldlM_cons_eq_ok, foldlM_append_eq_ok, GasMeter.chargeAll_cons_eq_some, GasMeter.chargeAll_append_eq_some]
  constructor
  · intro h
    obtain ⟨m₁, hif, m₂, hthenRun, m₃, helseStep, m₄, helseRun, m₅, hend, hlast⟩ := h
    cases pure_eq_ok.mp hlast
    obtain ⟨gas₁, cond, rest, hgas₁, hstack, rfl⟩ := (step_opIf hexec).mp hif
    obtain ⟨hgas₂, hflags₂, hstack₂⟩ := (run_branch hthen (by rw [hopen])).mp hthenRun
    obtain ⟨gas₃, hgas₃, rfl⟩ := (step_opElse hflags₂).mp helseStep
    obtain ⟨hgas₄, hflags₄, hstack₄⟩ := (run_branch helse rfl).mp helseRun
    obtain ⟨gas₅, hgas₅, rfl⟩ := (step_endIf hflags₄).mp hend
    refine ⟨cond, rest, hstack, ⟨gas₁, hgas₁, m₂.gas, hgas₂, gas₃, hgas₃, m₄.gas, hgas₄, gas₅, hgas₅, rfl⟩, rfl, ?_⟩
    unfold selected
    cases hcond : cond.isTruthy with
    | true =>
        rw [hcond] at hstack₂ hstack₄
        exact hstack₂.trans hstack₄
    | false =>
        rw [hcond] at hstack₂ hstack₄
        rw [← Except.ok.inj hstack₂] at hstack₄
        exact hstack₄
  · intro h
    obtain ⟨cond, rest, hstack, ⟨gas₁, hgas₁, gas₂, hgas₂, gas₃, hgas₃, gas₄, hgas₄, gas₅, hgas₅, hlast⟩, hclosed, heval⟩ := h
    cases Option.some.inj hlast
    obtain ⟨mid, hfirst, hsecond⟩ : ∃ mid, evalAll ctx (if cond.isTruthy then thenBranch else []) rest = .ok mid ∧
        evalAll ctx (if !cond.isTruthy then elseBranch else []) mid = .ok m'.stack := by
      unfold selected at heval
      cases hcond : cond.isTruthy with
      | true =>
          rw [hcond] at heval
          exact ⟨m'.stack, heval, rfl⟩
      | false =>
          rw [hcond] at heval
          exact ⟨rest, rfl, heval⟩
    refine ⟨⟨rest, cond.isTruthy :: m.execStack, gas₁⟩, (step_opIf hexec).mpr ⟨gas₁, cond, rest, hgas₁, hstack, rfl⟩,
      ⟨mid, [cond.isTruthy], gas₂⟩, (run_branch hthen (by rw [hopen])).mpr ⟨hgas₂, rfl, hfirst⟩,
      ⟨mid, [!cond.isTruthy], gas₃⟩, (step_opElse rfl).mpr ⟨gas₃, hgas₃, rfl⟩,
      ⟨m'.stack, [!cond.isTruthy], gas₄⟩, (run_branch helse rfl).mpr ⟨hgas₄, rfl, hsecond⟩,
      ⟨m'.stack, [], m'.gas⟩, (step_endIf rfl).mpr ⟨m'.gas, hgas₅, rfl⟩, ?_⟩
    rw [← hclosed]
    rfl

private theorem run_around_conditional {before thenBranch elseBranch after : List Instruction}
    (hbefore : ∀ instr ∈ before, instr.IsPlain) (hthen : ∀ instr ∈ thenBranch, instr.IsPlain)
    (helse : ∀ instr ∈ elseBranch, instr.IsPlain) (hafter : ∀ instr ∈ after, instr.IsPlain) (hopen : m.execStack = []) :
    (before ++ conditional thenBranch elseBranch ++ after).foldlM (Machine.step ctx) m = .ok m' ↔
      m.gas.chargeAll (before ++ conditional thenBranch elseBranch ++ after) = some m'.gas ∧ m'.execStack = [] ∧
        ∃ cond rest, evalAll ctx before m.stack = .ok (cond :: rest) ∧
          evalAll ctx (selected cond thenBranch elseBranch ++ after) rest = .ok m'.stack := by
  have hexec : ∀ m : Machine, m.execStack = [] → m.executing = true := by
    intro m h
    simp [Machine.executing, h]
  simp only [foldlM_append_eq_ok, GasMeter.chargeAll_append_eq_some, evalAll_append_eq_ok]
  constructor
  · intro h
    obtain ⟨m₂, ⟨m₁, hfirst, hmiddle⟩, hlast⟩ := h
    obtain ⟨hgas₁, hopen₁, heval₁⟩ := (run_executed hbefore (hexec m hopen)).mp hfirst
    obtain ⟨cond, rest, hcond, hgas₂, hopen₂, heval₂⟩ := (run_conditional hthen helse (hopen₁.trans hopen)).mp hmiddle
    obtain ⟨hgas₃, hopen₃, heval₃⟩ := (run_executed hafter (hexec m₂ hopen₂)).mp hlast
    exact ⟨⟨m₂.gas, ⟨m₁.gas, hgas₁, hgas₂⟩, hgas₃⟩, hopen₃.trans hopen₂, cond, rest, hcond ▸ heval₁, m₂.stack, heval₂,
      heval₃⟩
  · intro h
    obtain ⟨⟨gas₂, ⟨gas₁, hgas₁, hgas₂⟩, hgas₃⟩, hclosed, cond, rest, heval₁, stack₂, heval₂, heval₃⟩ := h
    exact ⟨⟨stack₂, [], gas₂⟩, ⟨⟨cond :: rest, [], gas₁⟩,
      (run_executed hbefore (hexec m hopen)).mpr ⟨hgas₁, hopen.symm, heval₁⟩,
      (run_conditional hthen helse rfl).mpr ⟨cond, rest, rfl, hgas₂, rfl, heval₂⟩⟩,
      (run_executed hafter (hexec _ rfl)).mpr ⟨hgas₃, hclosed, heval₃⟩⟩

end Halves

/-! ### Witnesses of constants -/

/-- A witness that is a script of its own and only pushes constants. -/
def PushOnly (witness : Bytes) : Prop :=
  ∃ instrs, decodeScript witness = .ok instrs ∧ ∀ instr ∈ instrs, instr.op.isConstant = true

theorem gasCost_le_of_isConstant {op : OpCode} : op.isConstant = true → (gasCost op).toNat ≤ 10 := by
  cases op <;> decide

/-- What a witness of constants leaves on the stack, the last push on top. -/
def witnessStack (witness : Bytes) : Stack :=
  match decodeScript witness with
  | .ok instrs => (instrs.map Instruction.pushed).reverse
  | .error _ => []

theorem witnessStack_eq {witness : Bytes} {ws : List Instruction} (h : decodeScript witness = .ok ws) :
    witnessStack witness = (ws.map Instruction.pushed).reverse := by
  rw [witnessStack, h]

/-! ### Accepted spends -/

section Accepted

variable [Crypto] {lock witness : Bytes} {ls ws : List Instruction} {tx : Transaction} {resolved : List TxOutput}
  {slot : Slot}

/-- Validation runs through and the script succeeds. -/
def Accepted (lock witness : Bytes) (tx : Transaction) (resolved : List TxOutput) (slot : Slot) : Prop :=
  ∃ result, validateScript lock witness tx resolved slot = .ok result ∧ result.success = true

def Succeeds (stack : Stack) : Prop := stack.head?.any Value.isTruthy = true

theorem accepted_iff_run (hwitness : decodeScript witness = .ok ws) (hlock : decodeScript lock = .ok ls) :
    Accepted lock witness tx resolved slot ↔ (witness ++ lock).length ≤ OpCode.maxScriptSize ∧
      ∃ m, (ws ++ ls).foldlM (Machine.step (.new tx resolved slot lock)) (.init (.new defaultGasLimit)) = .ok m ∧
        m.execStack = [] ∧ Succeeds m.stack := by
  simp only [Accepted, validateScript_eq_ok hwitness hlock, foldlM_append_eq_ok]
  constructor
  · intro h
    obtain ⟨_, ⟨hsize, mid, m, hws, hls, hclosed, rfl⟩, hsuccess⟩ := h
    exact ⟨hsize, m, ⟨mid, hws, hls⟩, hclosed, hsuccess⟩
  · intro h
    obtain ⟨hsize, m, ⟨mid, hws, hls⟩, hclosed, hsuccess⟩ := h
    exact ⟨_, ⟨hsize, mid, m, hws, hls, hclosed, rfl⟩, hsuccess⟩

/-- **A plain lock after a plain witness.** The spend is accepted exactly if the script is short enough and paid for, and what it leaves on the stack says so. -/
theorem accepted_iff (hwitness : decodeScript witness = .ok ws) (hlock : decodeScript lock = .ok ls)
    (hplain : ∀ instr ∈ ws ++ ls, instr.IsPlain) :
    Accepted lock witness tx resolved slot ↔ (witness ++ lock).length ≤ OpCode.maxScriptSize ∧
      gasTotal (ws ++ ls) ≤ 100000 ∧ ∃ final, evalAll (.new tx resolved slot lock) (ws ++ ls) [] = .ok final ∧
        Succeeds final := by
  have hinit : (Machine.init (.new defaultGasLimit)).executing = true := rfl
  simp only [accepted_iff_run hwitness hlock, run_executed hplain hinit]
  refine and_congr_right fun _ => ?_
  have hlimit : (GasMeter.new defaultGasLimit).remaining.toNat = 100000 := rfl
  rw [← hlimit, ← GasMeter.chargeAll_isSome_iff]
  constructor
  · intro h
    obtain ⟨m, ⟨hgas, -, heval⟩, -, hsuccess⟩ := h
    exact ⟨⟨m.gas, hgas⟩, m.stack, heval, hsuccess⟩
  · intro h
    obtain ⟨⟨gas, hgas⟩, final, heval, hsuccess⟩ := h
    exact ⟨⟨final, [], gas⟩, ⟨hgas, rfl, heval⟩, rfl, hsuccess⟩

theorem accepted_without_witness_iff (hlock : decodeScript lock = .ok ls) (hplain : ∀ instr ∈ ls, instr.IsPlain) :
    Accepted lock [] tx resolved slot ↔ lock.length ≤ OpCode.maxScriptSize ∧ gasTotal ls ≤ 100000 ∧
      ∃ final, evalAll (.new tx resolved slot lock) ls [] = .ok final ∧ Succeeds final := by
  have hnone : decodeScript [] = .ok [] := rfl
  rw [accepted_iff hnone hlock (by rwa [List.nil_append]), List.nil_append, List.nil_append]

theorem accepted_iff_conditional {before thenBranch elseBranch after : List Instruction}
    (hwitness : decodeScript witness = .ok ws)
    (hlock : decodeScript lock = .ok (before ++ conditional thenBranch elseBranch ++ after))
    (hbefore : ∀ instr ∈ ws ++ before, instr.IsPlain) (hthen : ∀ instr ∈ thenBranch, instr.IsPlain)
    (helse : ∀ instr ∈ elseBranch, instr.IsPlain) (hafter : ∀ instr ∈ after, instr.IsPlain) :
    Accepted lock witness tx resolved slot ↔ (witness ++ lock).length ≤ OpCode.maxScriptSize ∧
      gasTotal (ws ++ before ++ conditional thenBranch elseBranch ++ after) ≤ 100000 ∧
        ∃ cond rest final, evalAll (.new tx resolved slot lock) (ws ++ before) [] = .ok (cond :: rest) ∧
          evalAll (.new tx resolved slot lock) (selected cond thenBranch elseBranch ++ after) rest = .ok final ∧
          Succeeds final := by
  rw [accepted_iff_run hwitness hlock, ← List.append_assoc, ← List.append_assoc]
  refine and_congr_right fun _ => ?_
  have hlimit : (GasMeter.new defaultGasLimit).remaining.toNat = 100000 := rfl
  simp only [run_around_conditional hbefore hthen helse hafter (m := .init (.new defaultGasLimit)) rfl]
  rw [← hlimit, ← GasMeter.chargeAll_isSome_iff]
  constructor
  · intro h
    obtain ⟨m, ⟨hgas, -, cond, rest, hcond, heval⟩, -, hsuccess⟩ := h
    exact ⟨⟨m.gas, hgas⟩, cond, rest, m.stack, hcond, heval, hsuccess⟩
  · intro h
    obtain ⟨⟨gas, hgas⟩, cond, rest, final, hcond, heval, hsuccess⟩ := h
    exact ⟨⟨final, [], gas⟩, ⟨hgas, rfl, cond, rest, hcond, heval⟩, rfl, hsuccess⟩

end Accepted

/-! ### Rules of the opcodes -/

section Rules

variable [Crypto] {ctx : Context} {stack stack' final : Stack} {instr : Instruction} {more : List Instruction}
  {a b c : Value} {x y : Int64}

omit [Crypto] in
theorem push_eq_ok_iff {val : Value} : push stack val = .ok stack' ↔ stack.length < 1024 ∧ stack' = val :: stack := by
  unfold push
  split
  · rename_i hfull
    constructor
    · intro h
      cases h
    · intro h
      exact absurd h.1 (Nat.not_lt.mpr hfull)
  · rename_i hroom
    rw [Except.ok.injEq]
    exact ⟨fun h => ⟨Nat.not_le.mp hroom, h.symm⟩, fun h => h.2.symm⟩

theorem evalAll_nil : evalAll ctx [] stack = .ok final ↔ stack = final := pure_eq_ok

theorem evalAll_push {val : Value} (h : evalOp ctx instr stack = push stack' val) :
    evalAll ctx (instr :: more) stack = .ok final ↔
      stack'.length < 1024 ∧ evalAll ctx more (val :: stack') = .ok final := by
  rw [evalAll, foldlM_cons_eq_ok]
  simp only [h, push_eq_ok_iff, and_assoc, exists_and_left, exists_eq_left]
  rfl

theorem evalAll_require_push {p : Prop} [Decidable p] {e : ScriptError} {val : Value}
    (h : evalOp ctx instr stack = (require p e >>= fun _ => push stack' val)) :
    evalAll ctx (instr :: more) stack = .ok final ↔
      p ∧ stack'.length < 1024 ∧ evalAll ctx more (val :: stack') = .ok final := by
  rw [evalAll, foldlM_cons_eq_ok]
  simp only [h, require_bind_eq_ok, push_eq_ok_iff, and_assoc, exists_and_left, exists_eq_left]
  rfl

/-- An instruction that only checks something. -/
theorem evalAll_require {p : Prop} [Decidable p] {e : ScriptError}
    (h : evalOp ctx instr stack = (require p e >>= fun _ => pure stack')) :
    evalAll ctx (instr :: more) stack = .ok final ↔ p ∧ evalAll ctx more stack' = .ok final := by
  rw [evalAll, foldlM_cons_eq_ok]
  simp only [h, require_bind_eq_ok, pure_eq_ok, and_assoc, exists_and_left, exists_eq_left']
  rfl

theorem evalAll_constant (hconst : instr.op.isConstant = true) (hwell : instr.WellFormed) :
    evalAll ctx (instr :: more) stack = .ok final ↔
      stack.length < 1024 ∧ evalAll ctx more (instr.pushed :: stack) = .ok final :=
  evalAll_push (evalOp_constant hconst hwell)

private theorem evalAll_constants {instrs : List Instruction} (hconst : ∀ instr ∈ instrs, instr.op.isConstant = true)
    (hwell : ∀ instr ∈ instrs, instr.WellFormed) (hroom : stack.length ≤ 1024) :
    evalAll ctx instrs stack = .ok final ↔
      stack.length + instrs.length ≤ 1024 ∧ final = (instrs.map Instruction.pushed).reverse ++ stack := by
  induction instrs generalizing stack with
  | nil =>
      rw [evalAll_nil]
      exact ⟨fun h => ⟨hroom, h.symm⟩, fun h => h.2.symm⟩
  | cons instr instrs ih =>
      rw [List.forall_mem_cons] at hconst hwell
      rw [evalAll_constant hconst.1 hwell.1, List.map_cons, List.reverse_cons, List.append_assoc, List.length_cons]
      constructor
      · intro h
        obtain ⟨hlt, hrest⟩ := h
        obtain ⟨hfits, hfinal⟩ := (ih hconst.2 hwell.2 (by rw [List.length_cons]; omega)).mp hrest
        rw [List.length_cons] at hfits
        exact ⟨by omega, hfinal⟩
      · intro h
        obtain ⟨hfits, hfinal⟩ := h
        refine ⟨by omega, (ih hconst.2 hwell.2 (by rw [List.length_cons]; omega)).mpr ⟨?_, hfinal⟩⟩
        rw [List.length_cons]
        omega

theorem evalAll_witness {witness : Bytes} {ws : List Instruction} (hdecode : decodeScript witness = .ok ws)
    (hconst : ∀ instr ∈ ws, instr.op.isConstant = true) (hwell : ∀ instr ∈ ws, instr.WellFormed) :
    evalAll ctx (ws ++ more) [] = .ok final ↔
      (witnessStack witness).length ≤ 1024 ∧ evalAll ctx more (witnessStack witness) = .ok final := by
  have hempty : ([] : Stack).length ≤ 1024 := Nat.zero_le _
  have hlen : (witnessStack witness).length = ws.length := by
    rw [witnessStack_eq hdecode, List.length_reverse, List.length_map]
  simp only [evalAll_append_eq_ok, evalAll_constants hconst hwell hempty, ← witnessStack_eq hdecode, List.append_nil,
    List.length_nil, Nat.zero_add, hlen, and_assoc, exists_and_left, exists_eq_left]

theorem evalAll_pushInt : evalAll ctx (ScriptBuilder.pushInt x :: more) stack = .ok final ↔
    stack.length < 1024 ∧ evalAll ctx more (.int x :: stack) = .ok final := by
  rw [evalAll_constant (ScriptBuilder.isConstant_pushInt x) (ScriptBuilder.wellFormed_pushInt x),
    ScriptBuilder.pushed_pushInt]

theorem evalAll_pushBytes {data : Bytes} : evalAll ctx (.pushBytes data :: more) stack = .ok final ↔
    stack.length < 1024 ∧ evalAll ctx more (.bytes data :: stack) = .ok final := by
  apply evalAll_push
  unfold Instruction.pushBytes
  split
  · rfl
  · split <;> rfl

theorem evalAll_op1 : evalAll ctx (.simple .op1 :: more) stack = .ok final ↔
    stack.length < 1024 ∧ evalAll ctx more (.int 1 :: stack) = .ok final := evalAll_push rfl

theorem evalAll_dup : evalAll ctx (.simple .dup :: more) (a :: stack) = .ok final ↔
    stack.length + 1 < 1024 ∧ evalAll ctx more (a :: a :: stack) = .ok final :=
  evalAll_push (show evalOp ctx (.simple .dup) (a :: stack) = push (a :: stack) a from rfl)

theorem evalAll_over : evalAll ctx (.simple .over :: more) (b :: a :: stack) = .ok final ↔
    stack.length + 2 < 1024 ∧ evalAll ctx more (a :: b :: a :: stack) = .ok final :=
  evalAll_push (show evalOp ctx (.simple .over) (b :: a :: stack) = push (b :: a :: stack) a from rfl)

theorem evalAll_rot : evalAll ctx (.simple .rot :: more) (c :: b :: a :: stack) = .ok final ↔
    stack.length + 2 < 1024 ∧ evalAll ctx more (a :: c :: b :: stack) = .ok final :=
  evalAll_push (show evalOp ctx (.simple .rot) (c :: b :: a :: stack) = push (c :: b :: stack) a from rfl)

theorem evalAll_swap : evalAll ctx (.simple .swap :: more) (b :: a :: stack) = .ok final ↔
    stack.length + 1 < 1024 ∧ evalAll ctx more (a :: b :: stack) = .ok final := by
  rw [evalAll, foldlM_cons_eq_ok]
  have hswap : evalOp ctx (.simple .swap) (b :: a :: stack) = (push stack b >>= fun s => push s a) := rfl
  simp only [hswap, bind_eq_ok, push_eq_ok_iff, and_assoc, exists_and_left, exists_eq_left]
  constructor
  · intro h
    exact h.2
  · intro h
    exact ⟨Nat.lt_of_succ_lt h.1, h⟩

theorem evalAll_sub : evalAll ctx (.simple .sub :: more) (.int y :: .int x :: stack) = .ok final ↔
    stack.length < 1024 ∧ evalAll ctx more (.int (x - y) :: stack) = .ok final := evalAll_push rfl

theorem evalAll_le : evalAll ctx (.simple .le :: more) (.int y :: .int x :: stack) = .ok final ↔
    stack.length < 1024 ∧ evalAll ctx more (.ofBool (x ≤ y) :: stack) = .ok final := evalAll_push rfl

theorem evalAll_ge : evalAll ctx (.simple .ge :: more) (.int y :: .int x :: stack) = .ok final ↔
    stack.length < 1024 ∧ evalAll ctx more (.ofBool (y ≤ x) :: stack) = .ok final := evalAll_push rfl

theorem evalAll_mulU128 : evalAll ctx (.simple .mulU128 :: more) (.int y :: .int x :: stack) = .ok final ↔
    stack.length < 1024 ∧
      evalAll ctx more (.bytes (toLittleEndian 16 (x.toUInt64.toNat * y.toUInt64.toNat)) :: stack) = .ok final :=
  evalAll_push rfl

theorem evalAll_geU128 : evalAll ctx (.simple .geU128 :: more) (b :: a :: stack) = .ok final ↔
    (a.toCanonicalBytes.length = 16 ∧ b.toCanonicalBytes.length = 16) ∧ stack.length < 1024 ∧
      evalAll ctx more (.ofBool (ofLittleEndian b.toCanonicalBytes ≤ ofLittleEndian a.toCanonicalBytes) :: stack) =
        .ok final :=
  evalAll_require_push rfl

theorem evalAll_eq : evalAll ctx (.simple .eq :: more) (b :: a :: stack) = .ok final ↔
    stack.length < 1024 ∧ evalAll ctx more (.ofBool (a = b) :: stack) = .ok final := evalAll_push rfl

theorem evalAll_verify : evalAll ctx (.simple .verify :: more) (a :: stack) = .ok final ↔
    a.isTruthy = true ∧ evalAll ctx more stack = .ok final := evalAll_require rfl

theorem evalAll_verify_ofBool {p : Prop} [Decidable p] :
    evalAll ctx (.simple .verify :: more) (.ofBool p :: stack) = .ok final ↔ p ∧ evalAll ctx more stack = .ok final := by
  rw [evalAll_verify, Value.isTruthy_ofBool, decide_eq_true_iff]

theorem evalAll_hashSha3 : evalAll ctx (.simple .hashSha3 :: more) (a :: stack) = .ok final ↔
    stack.length < 1024 ∧ evalAll ctx more (.bytes (sha3_256 a.toCanonicalBytes).bytes :: stack) = .ok final :=
  evalAll_push rfl

theorem evalAll_checkSigPqc : evalAll ctx (.simple .checkSigPqc :: more) (c :: b :: a :: stack) = .ok final ↔
    stack.length < 1024 ∧ evalAll ctx more
      (.ofBool (checksigPqc c.toCanonicalBytes b.toCanonicalBytes a.toCanonicalBytes) :: stack) = .ok final :=
  evalAll_push rfl

theorem evalAll_selfScriptHash : evalAll ctx (.simple .selfScriptHash :: more) stack = .ok final ↔
    stack.length < 1024 ∧ evalAll ctx more (.bytes ctx.lockingScriptHash.bytes :: stack) = .ok final :=
  evalAll_push rfl

theorem evalAll_sigHash : evalAll ctx (.simple .sigHash :: more) stack = .ok final ↔
    stack.length < 1024 ∧ evalAll ctx more (.bytes ctx.sighash.bytes :: stack) = .ok final := evalAll_push rfl

theorem evalAll_slotNumber : evalAll ctx (.simple .slotNumber :: more) stack = .ok final ↔
    stack.length < 1024 ∧ evalAll ctx more (.int ctx.currentSlot.toInt64 :: stack) = .ok final := evalAll_push rfl

theorem evalAll_cat : evalAll ctx (.simple .cat :: more) (b :: a :: stack) = .ok final ↔
    a.toCanonicalBytes.length + b.toCanonicalBytes.length ≤ maxVecBytes ∧ stack.length < 1024 ∧
      evalAll ctx more (.bytes (a.toCanonicalBytes ++ b.toCanonicalBytes) :: stack) = .ok final :=
  evalAll_require_push rfl

theorem evalAll_len : evalAll ctx (.simple .len :: more) (a :: stack) = .ok final ↔
    stack.length < 1024 ∧ evalAll ctx more (.int (Int64.ofNat a.toCanonicalBytes.length) :: stack) = .ok final :=
  evalAll_push rfl

theorem evalAll_slice : evalAll ctx (.simple .slice :: more) (.int y :: .int x :: a :: stack) = .ok final ↔
    x.toUInt64.toNat + y.toUInt64.toNat ≤ a.toCanonicalBytes.length ∧ stack.length < 1024 ∧
      evalAll ctx more (.bytes ((a.toCanonicalBytes.drop x.toUInt64.toNat).take y.toUInt64.toNat) :: stack) = .ok final :=
  evalAll_require_push rfl

theorem evalAll_bytesToInt : evalAll ctx (.simple .bytesToInt :: more) (.int 8 :: a :: stack) = .ok final ↔
    a.toCanonicalBytes.length = 8 ∧ stack.length < 1024 ∧
      evalAll ctx more (.int (UInt64.ofNat (ofLittleEndian a.toCanonicalBytes)).toInt64 :: stack) = .ok final :=
  evalAll_require_push rfl

theorem evalAll_readOutput {outputs : List TxOutput} {read : TxOutput → Value}
    (h : evalOp ctx instr (.int 0 :: stack) = readOutput (.int 0 :: stack) outputs read) :
    evalAll ctx (instr :: more) (.int 0 :: stack) = .ok final ↔
      ∃ output, outputs[0]? = some output ∧ stack.length < 1024 ∧ evalAll ctx more (read output :: stack) = .ok final := by
  rw [evalAll, foldlM_cons_eq_ok]
  have hread : readOutput (.int 0 :: stack) outputs read =
      (okOr outputs[0]? (.indexOutOfRange 0 outputs.length) >>= fun output => push stack (read output)) := rfl
  simp only [h, hread, okOr_bind_eq_ok, push_eq_ok_iff]
  constructor
  · intro h
    obtain ⟨_, ⟨output, hget, hroom, rfl⟩, hrest⟩ := h
    exact ⟨output, hget, hroom, hrest⟩
  · intro h
    obtain ⟨output, hget, hroom, hrest⟩ := h
    exact ⟨_, ⟨output, hget, hroom, rfl⟩, hrest⟩

theorem evalAll_readOutputValue : evalAll ctx (.simple .readOutputValue :: more) (.int 0 :: stack) = .ok final ↔
    ∃ output, ctx.tx.outputs[0]? = some output ∧ stack.length < 1024 ∧
      evalAll ctx more (.int output.value.toInt64 :: stack) = .ok final :=
  evalAll_readOutput rfl

theorem evalAll_readInputValue : evalAll ctx (.simple .readInputValue :: more) (.int 0 :: stack) = .ok final ↔
    ∃ output, ctx.resolvedInputs[0]? = some output ∧ stack.length < 1024 ∧
      evalAll ctx more (.int output.value.toInt64 :: stack) = .ok final :=
  evalAll_readOutput rfl

theorem evalAll_assertOutputScriptHash : evalAll ctx (.simple .assertOutputScriptHash :: more) (a :: .int 0 :: stack) =
      .ok final ↔
    ∃ output, ctx.tx.outputs[0]? = some output ∧ (sha3_256 output.lockingScript).bytes = a.toCanonicalBytes ∧
      evalAll ctx more stack = .ok final := by
  rw [evalAll, foldlM_cons_eq_ok]
  have hassert : evalOp ctx (.simple .assertOutputScriptHash) (a :: .int 0 :: stack) =
      (okOr ctx.tx.outputs[0]? (.indexOutOfRange 0 ctx.tx.outputs.length) >>= fun output =>
        require (decide ((sha3_256 output.lockingScript).bytes = a.toCanonicalBytes) = true)
          (.covenantFailed "output script hash mismatch") >>= fun _ => pure stack) := rfl
  simp only [hassert, okOr_bind_eq_ok, require_bind_eq_ok, decide_eq_true_iff, pure_eq_ok]
  constructor
  · intro h
    obtain ⟨_, ⟨output, hget, hhash, rfl⟩, hrest⟩ := h
    exact ⟨output, hget, hhash, hrest⟩
  · intro h
    obtain ⟨output, hget, hhash, hrest⟩ := h
    exact ⟨_, ⟨output, hget, hhash, rfl⟩, hrest⟩

end Rules

end QuantumVault
