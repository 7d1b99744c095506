import QuantumVault.Lib.Outcome
import QuantumVault.Proof.Script.Run

/-!
# How a step fails

Every opcode leaves at most 1024 values on the stack or fails with an error of its own. The process stops in three places only: at a push of an integer that carries fewer than eight bytes, which the decoder never returns, at a concatenation that is longer than a vector can be, and at a multi-signature check that reserves room for more keys or signatures than a vector can hold.
-/

namespace QuantumVault

open Result

/-- An error that an opcode reports about its operands or its check. -/
def ScriptError.Ordinary : ScriptError → Prop
  | .outOfGas | .unbalancedConditional _ | .abort _ => False
  | _ => True

/-- The instruction stops the process on this stack. -/
def Instruction.Aborts (instr : Instruction) (stack : Stack) : Prop :=
  match instr.op with
  | .pushInt => instr.data.length < 8
  | .cat => ∃ a b rest, stack = b :: a :: rest ∧ maxVecBytes < a.toCanonicalBytes.length + b.toCanonicalBytes.length
  | _ => False

/-! ### Stack helpers -/

section Helpers

variable {R : ScriptError → Prop} (hR : ∀ e, e.Ordinary → R e) (stack : Stack)

include hR

theorem push_outcome (val : Value) : Outcome (push stack val) (fun s => s.length ≤ 1024) R := by
  unfold push
  split
  · exact hR _ trivial
  · rename_i hroom
    exact Nat.not_le.mp hroom

theorem pop_outcome : Outcome (pop stack) (fun r => stack = r.1 :: r.2) R := by
  cases stack with
  | nil => exact hR _ trivial
  | cons val stack => exact rfl

theorem popInt_outcome : Outcome (popInt stack) (fun r => stack = .int r.1 :: r.2) R := by
  unfold popInt
  apply (pop_outcome hR stack).bind
  intro r hr
  obtain ⟨val, rest⟩ := r
  cases val with
  | int n => exact hr
  | bytes b => exact hR _ trivial

theorem popBytes_outcome : Outcome (popBytes stack) (fun r => ∃ val, stack = val :: r.2 ∧ r.1 = val.toCanonicalBytes) R := by
  unfold popBytes
  apply (pop_outcome hR stack).bind
  intro r hr
  exact ⟨r.1, hr, rfl⟩

theorem popIndex_outcome :
    Outcome (popIndex stack) (fun r => ∃ n : Int64, stack = .int n :: r.2 ∧ r.1 = n.toUInt64.toNat) R := by
  unfold popIndex
  apply (popInt_outcome hR stack).bind
  intro r hr
  exact ⟨r.1, hr, rfl⟩

theorem peekAt_outcome (depth : Nat) : Outcome (peekAt stack depth) (fun val => stack[depth]? = some val) R :=
  outcome_okOr fun _ => hR _ trivial

private theorem unaryInt_outcome (f : Int64 → Int64) : Outcome (unaryInt stack f) (fun s => s.length ≤ 1024) R := by
  apply (popInt_outcome hR stack).bind
  intro r _
  exact push_outcome hR _ _

private theorem binaryInt_outcome (f : Int64 → Int64 → Value) : Outcome (binaryInt stack f) (fun s => s.length ≤ 1024) R := by
  apply (popInt_outcome hR stack).bind
  intro b _
  apply (popInt_outcome hR b.2).bind
  intro a _
  exact push_outcome hR _ _

private theorem binaryDivision_outcome (f : Int64 → Int64 → Int64) :
    Outcome (binaryDivision stack f) (fun s => s.length ≤ 1024) R := by
  apply (popInt_outcome hR stack).bind
  intro b _
  apply (popInt_outcome hR b.2).bind
  intro a _
  refine Outcome.bind (outcome_require fun _ => hR _ trivial) ?_
  intro _ _
  exact push_outcome hR _ _

private theorem binaryValue_outcome (f : Value → Value → Bool) :
    Outcome (binaryValue stack f) (fun s => s.length ≤ 1024) R := by
  apply (pop_outcome hR stack).bind
  intro b _
  apply (pop_outcome hR b.2).bind
  intro a _
  exact push_outcome hR _ _

private theorem readOutput_outcome (outputs : List TxOutput) (read : TxOutput → Value) :
    Outcome (readOutput stack outputs read) (fun s => s.length ≤ 1024) R := by
  apply (popIndex_outcome hR stack).bind
  intro index _
  refine Outcome.bind (outcome_okOr fun _ => hR _ trivial) ?_
  intro output _
  exact push_outcome hR _ _

theorem assertOutput_outcome (outputs : List TxOutput) (holds : TxOutput → Bool) (reason : String)
    (hdepth : stack.length ≤ 1024) : Outcome (assertOutput stack outputs holds reason) (fun s => s.length ≤ 1024) R := by
  apply (popIndex_outcome hR stack).bind
  intro index hindex
  obtain ⟨n, rfl, -⟩ := hindex
  refine Outcome.bind (outcome_okOr fun _ => hR _ trivial) ?_
  intro output _
  refine Outcome.bind (outcome_require fun _ => hR _ trivial) ?_
  intro _ _
  exact Nat.le_of_succ_le hdepth

end Helpers

/-! ### All opcodes -/

variable [Crypto] {ctx : Context} {stack : Stack} {instr : Instruction}

/-- **What an opcode can do.** It keeps the stack within its bound, or reports an error, or stops the process where `Aborts` says so. -/
theorem evalOp_outcome (hplain : instr.IsPlain) (hdepth : stack.length ≤ 1024) :
    Outcome (evalOp ctx instr stack) (fun s => s.length ≤ 1024)
      (fun e => e.Ordinary ∨ instr.Aborts stack ∧ ∃ reason, e = .abort reason) := by
  obtain ⟨op, data⟩ := instr
  obtain ⟨hif, helse, hend, hmulti⟩ := hplain
  have hR : ∀ e : ScriptError, e.Ordinary →
      e.Ordinary ∨ Instruction.Aborts ⟨op, data⟩ stack ∧ ∃ reason, e = .abort reason := fun e he => Or.inl he
  have hpop : ∀ {val : Value} {rest : Stack}, stack = val :: rest → rest.length ≤ 1024 := by
    intro val rest h
    subst h
    exact Nat.le_of_succ_le hdepth
  cases op
  case opIf => contradiction
  case opElse => contradiction
  case endIf => contradiction
  case checkMultiSigPqc => contradiction
  case pushInt =>
    refine Outcome.bind (outcome_require fun hshort => Or.inr ⟨Nat.not_le.mp hshort, _, rfl⟩) ?_
    intro _ _
    exact push_outcome hR _ _
  case cat =>
    apply (popBytes_outcome hR stack).bind
    intro b hb
    obtain ⟨y, rfl, hy⟩ := hb
    apply (popBytes_outcome hR b.2).bind
    intro a ha
    obtain ⟨x, hx, hxb⟩ := ha
    have habort : maxVecBytes < a.1.length + b.1.length → Instruction.Aborts ⟨.cat, data⟩ (y :: b.2) := by
      intro hlong
      exact ⟨x, y, a.2, by rw [hx], by rwa [← hxb, ← hy]⟩
    refine Outcome.bind (outcome_require fun hlong => Or.inr ⟨habort (Nat.not_le.mp hlong), _, rfl⟩) ?_
    intro _ _
    exact push_outcome hR _ _
  case swap =>
    apply (pop_outcome hR stack).bind
    intro b _
    apply (pop_outcome hR b.2).bind
    intro a _
    exact (push_outcome hR _ _).bind fun s _ => push_outcome hR _ _
  case drop => exact (pop_outcome hR stack).bind fun a ha => hpop ha
  case pick =>
    apply (popIndex_outcome hR stack).bind
    intro n _
    exact (peekAt_outcome hR n.2 n.1).bind fun a _ => push_outcome hR _ _
  case roll =>
    apply (popIndex_outcome hR stack).bind
    intro n _
    exact (peekAt_outcome hR n.2 n.1).bind fun a _ => push_outcome hR _ _
  case dup2 =>
    apply (peekAt_outcome hR stack 1).bind
    intro a _
    apply (peekAt_outcome hR stack 0).bind
    intro b _
    exact (push_outcome hR _ _).bind fun s _ => push_outcome hR _ _
  case geU128 =>
    apply (popBytes_outcome hR stack).bind
    intro b _
    apply (popBytes_outcome hR b.2).bind
    intro a _
    exact Outcome.bind (outcome_require fun _ => hR _ trivial) fun _ _ => push_outcome hR _ _
  case not => exact (pop_outcome hR stack).bind fun a _ => push_outcome hR _ _
  case verify =>
    apply (pop_outcome hR stack).bind
    intro a ha
    exact Outcome.bind (outcome_require fun _ => hR _ trivial) fun _ _ => hpop ha
  case opReturn => exact hR _ trivial
  case checkSigPqc =>
    apply (popBytes_outcome hR stack).bind
    intro pk _
    apply (popBytes_outcome hR pk.2).bind
    intro sig _
    apply (popBytes_outcome hR sig.2).bind
    intro msg _
    exact push_outcome hR _ _
  case hashSha3 => exact (popBytes_outcome hR stack).bind fun a _ => push_outcome hR _ _
  case hashBlake3 => exact (popBytes_outcome hR stack).bind fun a _ => push_outcome hR _ _
  case assertOutputScriptHash =>
    apply (popBytes_outcome hR stack).bind
    intro hash hhash
    obtain ⟨val, hval, -⟩ := hhash
    exact assertOutput_outcome hR hash.2 _ _ _ (hpop hval)
  case assertDatumHash =>
    apply (popBytes_outcome hR stack).bind
    intro hash hhash
    obtain ⟨val, hval, -⟩ := hhash
    exact assertOutput_outcome hR hash.2 _ _ _ (hpop hval)
  case assertValue =>
    apply (popInt_outcome hR stack).bind
    intro n hn
    exact assertOutput_outcome hR n.2 _ _ _ (hpop hn)
  case slice =>
    apply (popIndex_outcome hR stack).bind
    intro len _
    apply (popIndex_outcome hR len.2).bind
    intro start _
    apply (popBytes_outcome hR start.2).bind
    intro a _
    exact Outcome.bind (outcome_require fun _ => hR _ trivial) fun _ _ => push_outcome hR _ _
  case len => exact (pop_outcome hR stack).bind fun a _ => push_outcome hR _ _
  case bytesToInt =>
    apply (popInt_outcome hR stack).bind
    intro n _
    apply (popBytes_outcome hR n.2).bind
    intro a _
    refine Outcome.bind (outcome_require fun _ => hR _ trivial) ?_
    intro _ _
    exact Outcome.bind (outcome_require fun _ => hR _ trivial) fun _ _ => push_outcome hR _ _
  case nop => exact hdepth
  all_goals
    simp only [evalOp]
    first
    | exact push_outcome hR _ _
    | exact unaryInt_outcome hR _ _
    | exact binaryInt_outcome hR _ _
    | exact binaryDivision_outcome hR _ _
    | exact binaryValue_outcome hR _ _
    | exact readOutput_outcome hR _ _ _
    | exact (peekAt_outcome hR _ _).bind fun a _ => push_outcome hR _ _

theorem evalOp_aborts (h : instr.Aborts stack) : ∃ reason, evalOp ctx instr stack = .error (.abort reason) := by
  obtain ⟨op, data⟩ := instr
  cases op
  case pushInt =>
    refine ⟨"slice index out of range", bind_eq_error.mpr (Or.inl ?_)⟩
    exact require_eq_error.mpr ⟨Nat.not_le.mpr h, rfl⟩
  case cat =>
    obtain ⟨a, b, rest, rfl, hlong⟩ := h
    have hcat : evalOp ctx ⟨.cat, data⟩ (b :: a :: rest) =
        (require (a.toCanonicalBytes.length + b.toCanonicalBytes.length ≤ maxVecBytes) (.abort "capacity overflow") >>=
          fun _ => push rest (.bytes (a.toCanonicalBytes ++ b.toCanonicalBytes))) := rfl
    refine ⟨"capacity overflow", hcat.trans (bind_eq_error.mpr (Or.inl ?_))⟩
    exact require_eq_error.mpr ⟨Nat.not_le.mpr hlong, rfl⟩
  all_goals exact absurd h id

omit [Crypto] in
theorem Instruction.WellFormed.aborts_iff (hwell : instr.WellFormed) : instr.Aborts stack ↔ instr.op = .cat ∧
    ∃ a b rest, stack = b :: a :: rest ∧ maxVecBytes < a.toCanonicalBytes.length + b.toCanonicalBytes.length := by
  obtain ⟨op, data⟩ := instr
  cases op
  case pushInt =>
    have hlen : data.length = 8 := hwell
    constructor
    · intro h
      have hshort : data.length < 8 := h
      omega
    · intro h
      cases h.1
  case cat => exact ⟨fun h => ⟨rfl, h⟩, fun h => h.2⟩
  all_goals exact ⟨fun h => absurd h id, fun h => OpCode.noConfusion h.1⟩

/-! ### The multi-signature check -/

omit [Crypto] in
theorem popManyBytes_outcome {R : ScriptError → Prop} (hR : ∀ e, e.Ordinary → R e) (count : Nat) (stack : Stack) :
    Outcome (popManyBytes count stack) (fun r => r.2.length ≤ stack.length) R := by
  induction count generalizing stack with
  | zero => exact le_rfl
  | succ count ih =>
      rw [popManyBytes]
      apply (popBytes_outcome hR stack).bind
      intro b hb
      obtain ⟨val, rfl, -⟩ := hb
      apply (ih b.2).bind
      intro bs hbs
      exact Nat.le_succ_of_le hbs

/-- The capacities that the check reserves, in this order: for the keys once they are paid for, and for the signatures once the keys are popped. -/
def reservedCounts (stack : Stack) (gas : GasMeter) : List Nat :=
  match popIndex stack with
  | .error _ => []
  | .ok (nKeys, stack) =>
      match gas.consume (Word.saturatingMul multisigPerKeyCost (UInt64.ofNat nKeys)) with
      | none => []
      | some _ => nKeys ::
          match popManyBytes nKeys stack with
          | .error _ => []
          | .ok (_, stack) =>
              match popIndex stack with
              | .error _ => []
              | .ok (mSigs, _) => [mSigs]

private theorem evalCheckMultiSig_outcome {gas : GasMeter} :
    Outcome (evalCheckMultiSig stack gas) (fun r => r.1.length ≤ 1024) (fun e => e.Ordinary ∨ e = .outOfGas ∨
      (∃ count ∈ reservedCounts stack gas, maxVecCapacity < count) ∧ ∃ reason, e = .abort reason) := by
  have hR : ∀ e : ScriptError, e.Ordinary → e.Ordinary ∨ e = .outOfGas ∨
      (∃ count ∈ reservedCounts stack gas, maxVecCapacity < count) ∧ ∃ reason, e = .abort reason := fun e he => Or.inl he
  unfold evalCheckMultiSig
  cases hkeys : popIndex stack with
  | error e => exact (popIndex_outcome hR stack).failure hkeys
  | ok r =>
      obtain ⟨nKeys, rest⟩ := r
      rw [ok_bind]
      dsimp only
      cases hpaid : gas.consume (Word.saturatingMul multisigPerKeyCost (UInt64.ofNat nKeys)) with
      | none => exact Or.inr (Or.inl rfl)
      | some paid =>
          have hfirst : nKeys ∈ reservedCounts stack gas := by
            unfold reservedCounts
            rw [hkeys]
            dsimp only
            rw [hpaid]
            exact List.mem_cons_self
          rw [okOr_some, ok_bind]
          refine Outcome.bind (outcome_require fun hcap => Or.inr (Or.inr ⟨⟨_, hfirst, Nat.not_le.mp hcap⟩, _, rfl⟩)) ?_
          intro _ _
          cases hpop : popManyBytes nKeys rest with
          | error e => exact (popManyBytes_outcome hR nKeys rest).failure hpop
          | ok r =>
              obtain ⟨pks, rest'⟩ := r
              rw [ok_bind]
              dsimp only
              cases hcount : popIndex rest' with
              | error e => exact (popIndex_outcome hR rest').failure hcount
              | ok r =>
                  obtain ⟨mSigs, rest''⟩ := r
                  have hsecond : mSigs ∈ reservedCounts stack gas := by
                    unfold reservedCounts
                    rw [hkeys]
                    dsimp only
                    rw [hpaid, hpop]
                    dsimp only
                    rw [hcount]
                    exact List.mem_cons_of_mem _ List.mem_cons_self
                  rw [ok_bind]
                  dsimp only
                  refine Outcome.bind
                    (outcome_require fun hcap => Or.inr (Or.inr ⟨⟨_, hsecond, Nat.not_le.mp hcap⟩, _, rfl⟩)) ?_
                  intro _ _
                  apply (popManyBytes_outcome hR mSigs rest'').bind
                  intro sigs _
                  apply (popBytes_outcome hR sigs.2).bind
                  intro msg _
                  apply (push_outcome hR _ _).bind
                  intro stack' hstack'
                  exact hstack'

/-! ### One step -/

/-- What the step reserves, if it is a multi-signature check that is executed and paid for. -/
def Machine.reserved (m : Machine) (instr : Instruction) : List Nat :=
  if instr.op = .checkMultiSigPqc ∧ m.executing then
    match m.gas.charge instr.op with
    | some gas => reservedCounts m.stack gas
    | none => []
  else []

/-- The price of the instruction is covered. -/
def Machine.Affords (m : Machine) (instr : Instruction) : Prop := (gasCost instr.op).toNat ≤ m.gas.remaining.toNat

/-- The ways in which a step can fail. -/
inductive Machine.Fails (m : Machine) (instr : Instruction) : ScriptError → Prop where
  | ordinary {e : ScriptError} (h : e.Ordinary) : Fails m instr e
  | gas (h : instr.op ≠ .checkMultiSigPqc → ¬ m.Affords instr) : Fails m instr .outOfGas
  | unbalanced (hpaid : m.Affords instr) (hmarker : instr.op = .opElse ∨ instr.op = .endIf) (hopen : m.execStack = [])
      (reason : String) : Fails m instr (.unbalancedConditional reason)
  | operands (hpaid : m.Affords instr) (hexec : m.executing = true) (h : instr.Aborts m.stack) (reason : String) :
      Fails m instr (.abort reason)
  | reserve (h : ∃ count ∈ m.reserved instr, maxVecCapacity < count) (reason : String) : Fails m instr (.abort reason)

omit [Crypto] in
theorem GasMeter.charge_isSome_iff {gas : GasMeter} {op : OpCode} :
    (∃ gas', gas.charge op = some gas') ↔ (gasCost op).toNat ≤ gas.remaining.toNat := by
  constructor
  · intro h
    obtain ⟨gas', h⟩ := h
    have hleft := remaining_of_consume h
    omega
  · exact consume_isSome

/-- **What a step can do.** -/
theorem step_outcome {m : Machine} (hdepth : m.stack.length ≤ 1024) :
    Outcome (Machine.step ctx m instr) (fun m' => m'.stack.length ≤ 1024) (m.Fails instr) := by
  unfold Machine.step
  cases hcharge : m.gas.charge instr.op with
  | none =>
      refine Machine.Fails.gas fun _ hpaid => ?_
      obtain ⟨gas, hgas⟩ := GasMeter.charge_isSome_iff.mpr hpaid
      cases hcharge.symm.trans hgas
  | some gas =>
      have hpaid : m.Affords instr := GasMeter.charge_isSome_iff.mp ⟨gas, hcharge⟩
      rw [okOr_some, ok_bind]
      dsimp only
      split
      · split
        · refine Outcome.bind (pop_outcome (fun e he => .ordinary he) m.stack) ?_
          intro r hr
          rw [hr] at hdepth
          exact Nat.le_of_succ_le hdepth
        · exact hdepth
      · rename_i hop
        split
        · rename_i hopen
          exact .unbalanced hpaid (Or.inl hop) hopen _
        · exact hdepth
      · rename_i hop
        split
        · rename_i hopen
          exact .unbalanced hpaid (Or.inr hop) hopen _
        · exact hdepth
      · rename_i hop
        split
        · rename_i hexec
          have hreserved : m.reserved instr = reservedCounts m.stack gas := by
            rw [Machine.reserved, if_pos ⟨hop, hexec⟩, hcharge]
          refine Outcome.bind (evalCheckMultiSig_outcome.imp (fun _ h => h) ?_) fun r hr => hr
          intro e he
          rcases he with he | rfl | ⟨hcount, reason, rfl⟩
          · exact .ordinary he
          · exact .gas fun hother => absurd hop hother
          · exact .reserve (by rwa [hreserved]) reason
        · exact hdepth
      · rename_i hif helse hend hmulti
        split
        · rename_i hexec
          refine Outcome.bind ((evalOp_outcome ⟨hif, helse, hend, hmulti⟩ hdepth).imp (fun _ h => h) ?_) fun s hs => hs
          intro e he
          rcases he with he | ⟨haborts, reason, rfl⟩
          · exact .ordinary he
          · exact .operands hpaid hexec haborts reason
        · exact hdepth

theorem step_of_plain_error {m : Machine} {e : ScriptError} (hplain : instr.IsPlain) (hexec : m.executing = true)
    (hpaid : m.Affords instr) (heval : evalOp ctx instr m.stack = .error e) : Machine.step ctx m instr = .error e := by
  obtain ⟨hif, helse, hend, hmulti⟩ := hplain
  obtain ⟨gas, hcharge⟩ := GasMeter.charge_isSome_iff.mpr hpaid
  have hexec' : ({ m with gas := gas } : Machine).executing = true := hexec
  unfold Machine.step
  rw [hcharge, okOr_some, ok_bind]
  dsimp only
  split
  · contradiction
  · contradiction
  · contradiction
  · contradiction
  · rw [if_pos hexec', heval]
    rfl

theorem length_stack_le_of_passes {instrs rest : List Instruction} {limit : UInt64} {m : Machine}
    (h : Passes (Machine.step ctx) instrs (.init (.new limit)) rest m) : m.stack.length ≤ 1024 :=
  h.invariant (fun m => m.stack.length ≤ 1024) (fun _ _ _ _ hdepth hstep => (step_outcome hdepth).value hstep)
    (Nat.zero_le _)

/-- Plain instructions that the budget covers do not run out of gas, whatever else they fail with. -/
theorem run_ne_outOfGas {instrs : List Instruction} {m : Machine} (hplain : ∀ instr ∈ instrs, instr.IsPlain)
    (hdepth : m.stack.length ≤ 1024) (hbudget : gasTotal instrs ≤ m.gas.remaining.toNat) :
    instrs.foldlM (Machine.step ctx) m ≠ .error .outOfGas := by
  induction instrs generalizing m with
  | nil =>
      intro h
      cases h
  | cons instr instrs ih =>
      rw [List.forall_mem_cons] at hplain
      rw [gasTotal_cons] at hbudget
      intro h
      rw [List.foldlM_cons] at h
      rcases bind_eq_error.mp h with hstep | ⟨mid, hstep, hrest⟩
      · cases (step_outcome hdepth).failure hstep with
        | ordinary hordinary => exact hordinary
        | gas hgas => exact hgas hplain.1.2.2.2 (show (gasCost instr.op).toNat ≤ _ by omega)
      · obtain ⟨hcharge, -, -⟩ := step_plain hplain.1 hstep
        have hleft := GasMeter.remaining_of_consume hcharge
        exact ih hplain.2 ((step_outcome hdepth).value hstep) (by omega) hrest

theorem validateScript_ne_outOfGas {lock : Bytes} {ls : List Instruction} {tx : Transaction} {resolved : List TxOutput}
    {slot : Slot} (hlock : decodeScript lock = .ok ls) (hplain : ∀ instr ∈ ls, instr.IsPlain)
    (hbudget : gasTotal ls ≤ 100000) : validateScript lock [] tx resolved slot ≠ .error .outOfGas := by
  intro h
  have hdecode : (decodeScript ([] ++ lock)).mapError ScriptError.opcode = .ok ls := by
    rw [List.nil_append, hlock]
    rfl
  unfold validateScript validateScriptWithGas execute executeInstructions at h
  rw [hdecode, ok_bind] at h
  rcases bind_eq_error.mp h with hrun | ⟨m, -, h⟩
  · have hlimit : gasTotal ls ≤ (Machine.init (.new defaultGasLimit)).gas.remaining.toNat := hbudget
    exact run_ne_outOfGas hplain (Nat.zero_le _) hlimit hrun
  · rcases bind_eq_error.mp h with hopen | ⟨_, -, h⟩
    · cases (require_eq_error.mp hopen).2
    · cases h

end QuantumVault
