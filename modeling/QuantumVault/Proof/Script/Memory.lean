import QuantumVault.Proof.Script.Codec
import QuantumVault.Proof.Script.Failure
import QuantumVault.Proof.Script.Gas

/-!
# How long a value on the stack can be

Every opcode but one leaves values that are no longer than what it finds: in the script, in the context, or on the stack. A concatenation joins two values at a flat price, so each one can double the longest. The gas therefore bounds the number of doublings and not the bytes.
-/

namespace QuantumVault

open Result

/-! ### Sizes -/

section Sizes

variable {val : Value} {stack : Stack} {bound bound' : Nat}

def Value.size (val : Value) : Nat := val.toCanonicalBytes.length

@[simp] theorem Value.size_int (n : Int64) : (Value.int n).size = 8 := length_toLittleEndian 8 _

@[simp] theorem Value.size_bytes (data : Bytes) : (Value.bytes data).size = data.length := rfl

@[simp] theorem Value.size_ofBool (b : Bool) : (Value.ofBool b).size = 8 := length_toLittleEndian 8 _

/-- No value on the stack is longer than the bound. -/
def Small (bound : Nat) (stack : Stack) : Prop := ∀ val ∈ stack, val.size ≤ bound

@[simp] theorem small_cons : Small bound (val :: stack) ↔ val.size ≤ bound ∧ Small bound stack := List.forall_mem_cons

theorem Small.mono (hsmall : Small bound stack) (hle : bound ≤ bound') : Small bound' stack := fun val hmem =>
  (hsmall val hmem).trans hle

theorem Small.getElem? (hsmall : Small bound stack) {depth : Nat} (h : stack[depth]? = some val) : val.size ≤ bound :=
  hsmall val (List.mem_of_getElem? h)

theorem Small.eraseIdx (hsmall : Small bound stack) (depth : Nat) : Small bound (stack.eraseIdx depth) := fun val hmem =>
  hsmall val (List.mem_of_mem_eraseIdx hmem)

/-- The longest byte string that a script can read from an output. -/
def TxOutput.largest (output : TxOutput) : Nat := max output.lockingScript.length (output.datum.getD []).length

/-- The longest byte string in a context. The hashes have 32 bytes. -/
def Context.largest (ctx : Context) : Nat :=
  max 32 (((ctx.tx.outputs ++ ctx.resolvedInputs).map TxOutput.largest).foldr max ⊥)

theorem Context.largest_of_mem {ctx : Context} {output : TxOutput} (hmem : output ∈ ctx.tx.outputs ++ ctx.resolvedInputs) :
    output.largest ≤ ctx.largest :=
  (List.le_max_of_le (List.mem_map_of_mem hmem) le_rfl).trans (le_max_right _ _)

end Sizes

/-! ### Inline data -/

section InlineData

private theorem Instruction.WellFormed.length_data_le {instr : Instruction} (hwell : instr.WellFormed) :
    instr.data.length ≤ instr.encode.length := by
  obtain ⟨op, data⟩ := instr
  cases op
  case push1 => simp [Instruction.encode]; omega
  case push2 => simp [Instruction.encode]; omega
  case push4 => simp [Instruction.encode]; omega
  case pushInt => simp [Instruction.encode]
  all_goals
    have hnone : data = [] := hwell
    simp [hnone]

private theorem length_data_le_of_decode {script : Bytes} {instrs : List Instruction} {instr : Instruction}
    (hdecode : decodeScript script = .ok instrs)
    (hmem : instr ∈ instrs) : instr.data.length ≤ script.length := by
  obtain ⟨hwell, hencode⟩ := decodeScript_inv hdecode
  rw [← hencode]
  exact (hwell instr hmem).length_data_le.trans (Instruction.length_encode_le hmem)

end InlineData

/-! ### Stack helpers -/

section Helpers

variable {stack : Stack} {bound : Nat} (hsmall : Small bound stack) (hbound : 8 ≤ bound)

theorem push_small {val : Value} (hval : val.size ≤ bound) (hsmall : Small bound stack) :
    Outcome (push stack val) (Small bound) fun _ => True := by
  unfold push
  split
  · trivial
  · exact small_cons.mpr ⟨hval, hsmall⟩

include hsmall

theorem pop_small : Outcome (pop stack) (fun r => r.1.size ≤ bound ∧ Small bound r.2) fun _ => True :=
  (pop_outcome (fun _ _ => trivial) stack).imp (fun r hr => by rwa [hr, small_cons] at hsmall) fun _ _ => trivial

theorem popInt_small : Outcome (popInt stack) (fun r => Small bound r.2) fun _ => True :=
  (popInt_outcome (fun _ _ => trivial) stack).imp (fun r hr => by rw [hr, small_cons] at hsmall; exact hsmall.2)
    fun _ _ => trivial

theorem popIndex_small : Outcome (popIndex stack) (fun r => Small bound r.2) fun _ => True :=
  (popInt_small hsmall).bind fun _ hr => hr

theorem popBytes_small : Outcome (popBytes stack) (fun r => r.1.length ≤ bound ∧ Small bound r.2) fun _ => True :=
  (pop_small hsmall).bind fun _ hr => hr

theorem peekAt_small (depth : Nat) : Outcome (peekAt stack depth) (fun val => val.size ≤ bound) fun _ => True :=
  (peekAt_outcome (fun _ _ => trivial) stack depth).imp (fun _ hval => hsmall.getElem? hval) fun _ _ => trivial

theorem binaryInt_small {f : Int64 → Int64 → Value} (hf : ∀ a b, (f a b).size ≤ bound) :
    Outcome (binaryInt stack f) (Small bound) fun _ => True := by
  apply (popInt_small hsmall).bind
  intro b hb
  apply (popInt_small hb).bind
  intro a ha
  exact push_small (hf _ _) ha

include hbound

private theorem unaryInt_small (f : Int64 → Int64) : Outcome (unaryInt stack f) (Small bound) fun _ => True := by
  apply (popInt_small hsmall).bind
  intro a ha
  exact push_small (by simpa using hbound) ha

private theorem binaryDivision_small (f : Int64 → Int64 → Int64) :
    Outcome (binaryDivision stack f) (Small bound) fun _ => True := by
  apply (popInt_small hsmall).bind
  intro b hb
  apply (popInt_small hb).bind
  intro a ha
  refine Outcome.bind (outcome_require fun _ => trivial) ?_
  intro _ _
  exact push_small (by simpa using hbound) ha

private theorem binaryValue_small (f : Value → Value → Bool) : Outcome (binaryValue stack f) (Small bound) fun _ => True := by
  apply (pop_small hsmall).bind
  intro b hb
  apply (pop_small hb.2).bind
  intro a ha
  exact push_small (by simpa using hbound) ha.2

omit hbound

theorem readOutput_small {outputs : List TxOutput} {read : TxOutput → Value}
    (hread : ∀ output ∈ outputs, (read output).size ≤ bound) :
    Outcome (readOutput stack outputs read) (Small bound) fun _ => True := by
  apply (popIndex_small hsmall).bind
  intro index hindex
  refine Outcome.bind (outcome_okOr fun _ => trivial) ?_
  intro output houtput
  exact push_small (hread output (List.mem_of_getElem? houtput)) hindex

theorem assertOutput_small (outputs : List TxOutput) (holds : TxOutput → Bool) (reason : String) :
    Outcome (assertOutput stack outputs holds reason) (Small bound) fun _ => True := by
  apply (popIndex_small hsmall).bind
  intro index hindex
  refine Outcome.bind (outcome_okOr fun _ => trivial) ?_
  intro output _
  refine Outcome.bind (outcome_require fun _ => trivial) ?_
  intro _ _
  exact hindex

end Helpers

/-! ### All opcodes -/

section Opcodes

variable [Crypto] {ctx : Context} {stack : Stack} {instr : Instruction} {bound : Nat}

/-- A concatenation at most doubles the longest value. -/
theorem evalOp_cat_small (hop : instr.op = .cat) (hsmall : Small bound stack) :
    Outcome (evalOp ctx instr stack) (Small (2 * bound)) fun _ => True := by
  obtain ⟨op, data⟩ := instr
  cases hop
  apply (popBytes_small hsmall).bind
  intro b hb
  apply (popBytes_small hb.2).bind
  intro a ha
  refine Outcome.bind (outcome_require fun _ => trivial) ?_
  intro _ _
  refine push_small ?_ (ha.2.mono (by omega))
  rw [Value.size_bytes, List.length_append, Nat.two_mul]
  exact Nat.add_le_add ha.1 hb.1

/-- **Every other opcode keeps the bound**, if the script and the context do. -/
theorem evalOp_small (hplain : instr.IsPlain) (hop : instr.op ≠ .cat) (hdata : instr.data.length ≤ bound)
    (hctx : ctx.largest ≤ bound) (hsmall : Small bound stack) :
    Outcome (evalOp ctx instr stack) (Small bound) fun _ => True := by
  obtain ⟨op, data⟩ := instr
  obtain ⟨hif, helse, hend, hmulti⟩ := hplain
  have hhash : 32 ≤ bound := (le_max_left _ _).trans hctx
  have hword : 8 ≤ bound := by omega
  have hint : ∀ n : Int64, (Value.int n).size ≤ bound := fun n => by simpa using hword
  have hbool : ∀ b : Bool, (Value.ofBool b).size ≤ bound := fun b => by simpa using hword
  have hdigest : ∀ h : Hash256, (Value.bytes h.bytes).size ≤ bound := fun h => by simpa [h.length_eq] using hhash
  have houtput : ∀ output ∈ ctx.tx.outputs, output.largest ≤ bound := fun output hmem =>
    (Context.largest_of_mem (List.mem_append_left _ hmem)).trans hctx
  have hinput : ∀ output ∈ ctx.resolvedInputs, output.largest ≤ bound := fun output hmem =>
    (Context.largest_of_mem (List.mem_append_right _ hmem)).trans hctx
  cases op
  case opIf => contradiction
  case opElse => contradiction
  case endIf => contradiction
  case checkMultiSigPqc => contradiction
  case cat => contradiction
  case pushInt =>
    refine Outcome.bind (outcome_require fun _ => trivial) ?_
    intro _ _
    exact push_small (hint _) hsmall
  case swap =>
    apply (pop_small hsmall).bind
    intro b hb
    apply (pop_small hb.2).bind
    intro a ha
    exact (push_small hb.1 ha.2).bind fun s hs => push_small ha.1 hs
  case drop => exact (pop_small hsmall).bind fun a ha => ha.2
  case pick =>
    apply (popIndex_small hsmall).bind
    intro n hn
    exact (peekAt_small hn n.1).bind fun a ha => push_small ha hn
  case roll =>
    apply (popIndex_small hsmall).bind
    intro n hn
    exact (peekAt_small hn n.1).bind fun a ha => push_small ha (hn.eraseIdx n.1)
  case rot => exact (peekAt_small hsmall 2).bind fun a ha => push_small ha (hsmall.eraseIdx 2)
  case dup2 =>
    apply (peekAt_small hsmall 1).bind
    intro a ha
    apply (peekAt_small hsmall 0).bind
    intro b hb
    exact (push_small ha hsmall).bind fun s hs => push_small hb hs
  case mulU128 =>
    simp only [evalOp]
    refine binaryInt_small hsmall fun a b => ?_
    rw [Value.size_bytes, length_toLittleEndian]
    omega
  case geU128 =>
    apply (popBytes_small hsmall).bind
    intro b hb
    apply (popBytes_small hb.2).bind
    intro a ha
    exact Outcome.bind (outcome_require fun _ => trivial) fun _ _ => push_small (hbool _) ha.2
  case not => exact (pop_small hsmall).bind fun a ha => push_small (hbool _) ha.2
  case verify =>
    apply (pop_small hsmall).bind
    intro a ha
    exact Outcome.bind (outcome_require fun _ => trivial) fun _ _ => ha.2
  case opReturn => trivial
  case checkSigPqc =>
    apply (popBytes_small hsmall).bind
    intro pk hpk
    apply (popBytes_small hpk.2).bind
    intro sig hsig
    apply (popBytes_small hsig.2).bind
    intro msg hmsg
    exact push_small (hbool _) hmsg.2
  case hashSha3 => exact (popBytes_small hsmall).bind fun a ha => push_small (hdigest _) ha.2
  case hashBlake3 => exact (popBytes_small hsmall).bind fun a ha => push_small (hdigest _) ha.2
  case readOutputScript => exact readOutput_small hsmall fun output hmem => (le_max_left _ _).trans (houtput output hmem)
  case readOutputDatum => exact readOutput_small hsmall fun output hmem => (le_max_right _ _).trans (houtput output hmem)
  case readInputDatum => exact readOutput_small hsmall fun output hmem => (le_max_right _ _).trans (hinput output hmem)
  case assertOutputScriptHash => exact (popBytes_small hsmall).bind fun hash hhash => assertOutput_small hhash.2 _ _ _
  case assertDatumHash => exact (popBytes_small hsmall).bind fun hash hhash => assertOutput_small hhash.2 _ _ _
  case assertValue => exact (popInt_small hsmall).bind fun n hn => assertOutput_small hn _ _ _
  case slice =>
    apply (popIndex_small hsmall).bind
    intro len hlen
    apply (popIndex_small hlen).bind
    intro start hstart
    apply (popBytes_small hstart).bind
    intro a ha
    refine Outcome.bind (outcome_require fun _ => trivial) ?_
    intro _ _
    refine push_small ?_ ha.2
    rw [Value.size_bytes, List.length_take, List.length_drop]
    omega
  case len => exact (pop_small hsmall).bind fun a ha => push_small (hint _) ha.2
  case bytesToInt =>
    apply (popInt_small hsmall).bind
    intro n hn
    apply (popBytes_small hn).bind
    intro a ha
    refine Outcome.bind (outcome_require fun _ => trivial) ?_
    intro _ _
    exact Outcome.bind (outcome_require fun _ => trivial) fun _ _ => push_small (hint _) ha.2
  case nop => exact hsmall
  all_goals
    simp only [evalOp]
    first
    | exact push_small (hint _) hsmall
    | exact push_small (hdigest _) hsmall
    | exact push_small hdata hsmall
    | exact unaryInt_small hsmall hword _
    | exact binaryInt_small hsmall fun a b => hint _
    | exact binaryInt_small hsmall fun a b => hbool _
    | exact binaryDivision_small hsmall hword _
    | exact binaryValue_small hsmall hword _
    | exact readOutput_small hsmall fun output _ => hint _
    | exact (peekAt_small hsmall _).bind fun a ha => push_small ha hsmall

end Opcodes

/-! ### Concatenations -/

section Concatenations

def catCount (instrs : List Instruction) : Nat := instrs.countP fun instr => instr.op = .cat

theorem catCount_singleton (instr : Instruction) : catCount [instr] = if instr.op = .cat then 1 else 0 := by
  simp [catCount, List.countP_cons]

theorem catCount_append (before after : List Instruction) : catCount (before ++ after) = catCount before + catCount after :=
  List.countP_append

theorem catCount_cons (instr : Instruction) (instrs : List Instruction) :
    catCount (instr :: instrs) = catCount instrs + catCount [instr] := by
  rw [← List.singleton_append, catCount_append, Nat.add_comm]

private theorem catCount_le_gasTotal (instrs : List Instruction) : 10 * catCount instrs ≤ gasTotal instrs := by
  induction instrs with
  | nil => exact le_rfl
  | cons instr instrs ih =>
      rw [catCount_cons, catCount_singleton, gasTotal_cons]
      split_ifs with hop
      · have hprice : (gasCost instr.op).toNat = 10 := by rw [hop]; rfl
        omega
      · omega

end Concatenations

/-! ### Runs -/

section Runs

variable [Crypto] {ctx : Context} {m m' : Machine} {instr : Instruction} {instrs : List Instruction} {bound base : Nat}

/-- The conditionals take values off the stack, and the multi-signature check leaves a truth value. -/
theorem step_control_small (hcontrol : ¬ instr.IsPlain) (hword : 8 ≤ bound) (hsmall : Small bound m.stack)
    (h : Machine.step ctx m instr = .ok m') : Small bound m'.stack := by
  unfold Machine.step at h
  obtain ⟨gas, -, h⟩ := okOr_bind_eq_ok.mp h
  dsimp only at h
  split at h
  · split at h
    · obtain ⟨⟨cond, rest⟩, hpop, h⟩ := bind_eq_ok.mp h
      cases pure_eq_ok.mp h
      exact ((pop_small hsmall).value hpop).2
    · cases pure_eq_ok.mp h
      exact hsmall
  · split at h
    · cases h
    · cases pure_eq_ok.mp h
      exact hsmall
  · split at h
    · cases h
    · cases pure_eq_ok.mp h
      exact hsmall
  · split at h
    · obtain ⟨⟨stack', gas'⟩, hcheck, h⟩ := bind_eq_ok.mp h
      cases pure_eq_ok.mp h
      obtain ⟨n, pks, k, sigs, msg, rest, hstack, -, -, -, rfl⟩ := (Checked.of_ok hcheck).operands
      refine small_cons.mpr ⟨by simpa using hword, fun val hmem => hsmall val ?_⟩
      simp [hstack, hmem]
    · cases pure_eq_ok.mp h
      exact hsmall
  · rename_i hif helse hend hmulti
    exact absurd ⟨hif, helse, hend, hmulti⟩ hcontrol

/-- **Step lemma.** A concatenation can double the bound, whatever else is executed keeps it. -/
theorem step_small (hdata : instr.data.length ≤ bound) (hctx : ctx.largest ≤ bound) (hsmall : Small bound m.stack)
    (h : Machine.step ctx m instr = .ok m') : Small (2 ^ catCount [instr] * bound) m'.stack := by
  have hgrows : bound ≤ 2 ^ catCount [instr] * bound := Nat.le_mul_of_pos_left _ (by positivity)
  by_cases hplain : instr.IsPlain
  · cases hexec : m.executing with
    | false =>
        obtain ⟨gas, -, rfl⟩ := (step_skipped hplain hexec).mp h
        exact hsmall.mono hgrows
    | true =>
        obtain ⟨-, -, heval⟩ := step_plain hplain h
        by_cases hop : instr.op = .cat
        · rw [catCount_singleton, if_pos hop, pow_one]
          exact (evalOp_cat_small hop hsmall).value (heval hexec)
        · exact ((evalOp_small hplain hop hdata hctx hsmall).value (heval hexec)).mono hgrows
  · have hhash : 32 ≤ ctx.largest := le_max_left _ _
    exact (step_control_small hplain (by omega) hsmall h).mono hgrows

/-- **Run lemma.** -/
theorem run_small (hdata : ∀ instr ∈ instrs, instr.data.length ≤ bound) (hctx : ctx.largest ≤ bound)
    (hsmall : Small bound m.stack) (hrun : instrs.foldlM (Machine.step ctx) m = .ok m') :
    Small (2 ^ catCount instrs * bound) m'.stack := by
  induction instrs generalizing m bound with
  | nil =>
      cases pure_eq_ok.mp hrun
      simpa [catCount] using hsmall
  | cons instr instrs ih =>
      obtain ⟨mid, hstep, hrest⟩ := foldlM_cons_eq_ok.mp hrun
      rw [List.forall_mem_cons] at hdata
      have hmid := step_small hdata.1 hctx hsmall hstep
      have hgrows : bound ≤ 2 ^ catCount [instr] * bound := Nat.le_mul_of_pos_left _ (by positivity)
      have hfinal := ih (fun i hi => (hdata.2 i hi).trans hgrows) (hctx.trans hgrows) hmid hrest
      rwa [catCount_cons, pow_add, Nat.mul_assoc]

/-- **The gas bounds the doublings.** Wherever a run comes, no value on the stack is longer than the script or the longest byte string of the context, doubled for every concatenation so far, and each of those has cost ten units of gas. -/
theorem stack_bytes_bounded {script : Bytes} {limit : UInt64} {rest : List Instruction}
    (hdecode : decodeScript script = .ok instrs) (hpass : Passes (Machine.step ctx) instrs (.init (.new limit)) rest m) :
    ∃ cats, cats + catCount rest = catCount instrs ∧ 10 * cats ≤ m.gas.consumed.toNat ∧
      m.gas.consumed.toNat ≤ limit.toNat ∧
      ∀ val ∈ m.stack, val.toCanonicalBytes.length ≤ 2 ^ cats * max script.length ctx.largest := by
  have hsplit : m.gas.Splits limit := hpass.invariant (fun m => m.gas.Splits limit)
    (fun _ _ _ _ hsplit hstep => (step_gas hsplit hstep).1) (GasMeter.splits_new limit)
  obtain ⟨before, rfl, hrun⟩ := hpass
  have hgas := run_gas (GasMeter.splits_new limit) hrun
  have hprice := catCount_le_gasTotal before
  unfold GasMeter.Splits at hsplit
  refine ⟨catCount before, (catCount_append before rest).symm, by omega, by omega, ?_⟩
  exact run_small (fun instr hmem => (length_data_le_of_decode hdecode (List.mem_append_left _ hmem)).trans (le_max_left _ _))
    (le_max_right _ _) (fun val hmem => absurd hmem List.not_mem_nil) hrun

end Runs

/-! ### Doubling -/

section Doubling

/-- Copy the top of the stack and join it with its copy, again and again. -/
def doublings : Nat → List Instruction
  | 0 => []
  | count + 1 => .simple .dup :: .simple .cat :: doublings count

/-- One byte, doubled. -/
def growth (count : Nat) : List Instruction := .pushBytes [0] :: doublings count

private theorem gasTotal_growth (count : Nat) : gasTotal (growth count) = 10 + 12 * count := by
  have hdoublings : gasTotal (doublings count) = 12 * count := by
    induction count with
    | zero => rfl
    | succ count ih =>
        have hprice : (gasCost (Instruction.simple .dup).op).toNat + (gasCost (Instruction.simple .cat).op).toNat = 12 := rfl
        rw [doublings, gasTotal_cons, gasTotal_cons, ih]
        omega
  rw [growth, gasTotal_cons, hdoublings]
  rfl

theorem length_encode_growth (count : Nat) : (encodeInstructions (growth count)).length = 3 + 2 * count := by
  have hdoublings : (encodeInstructions (doublings count)).length = 2 * count := by
    induction count with
    | zero => rfl
    | succ count ih =>
        rw [doublings, length_encodeInstructions_cons, length_encodeInstructions_cons, ih,
          Instruction.length_encode_simple rfl, Instruction.length_encode_simple rfl]
        omega
  rw [growth, length_encodeInstructions_cons, hdoublings]
  rfl

theorem mem_growth {instr : Instruction} {count : Nat} (hmem : instr ∈ growth count) :
    instr.IsPlain ∧ instr.WellFormed := by
  rcases List.mem_cons.mp hmem with rfl | hmem
  · exact ⟨isPlain_of_isConstant (Instruction.isConstant_pushBytes [0]),
      Instruction.wellFormed_pushBytes (List.cons_ne_nil 0 []) (by decide)⟩
  · induction count with
    | zero => cases hmem
    | succ count ih =>
        rw [doublings, List.mem_cons, List.mem_cons] at hmem
        rcases hmem with rfl | rfl | hmem
        · exact ⟨⟨by decide, by decide, by decide, by decide⟩, rfl⟩
        · exact ⟨⟨by decide, by decide, by decide, by decide⟩, rfl⟩
        · exact ih (List.mem_cons_of_mem _ hmem) hmem

variable [Crypto] {ctx : Context}

private theorem evalAll_doublings (ctx : Context) (count : Nat) (data : Bytes) (hfits : 2 ^ count * data.length ≤ maxVecBytes) :
    ∃ out : Bytes, out.length = 2 ^ count * data.length ∧ evalAll ctx (doublings count) [.bytes data] = .ok [.bytes out] := by
  induction count generalizing data with
  | zero => exact ⟨data, by simp, rfl⟩
  | succ count ih =>
      have hdouble : (data ++ data).length = 2 * data.length := by rw [List.length_append, Nat.two_mul]
      have hall : 2 ^ (count + 1) * data.length = 2 ^ count * (data ++ data).length := by rw [hdouble]; ring
      have hone : 2 * data.length ≤ 2 ^ (count + 1) * data.length :=
        Nat.mul_le_mul_right _ (Nat.le_self_pow (Nat.succ_ne_zero count) 2)
      obtain ⟨out, hlength, hrun⟩ := ih (data ++ data) (hall ▸ hfits)
      refine ⟨out, hlength.trans hall.symm, ?_⟩
      rw [doublings, evalAll_dup, evalAll_cat]
      exact ⟨by decide, by simp only [Value.toCanonicalBytes]; omega, by decide, hrun⟩

/-- A script of a few bytes for every doubling leaves a value that is exponential in its length and in its gas. -/
theorem growth_run {count : Nat} {limit : UInt64} (hfits : 2 ^ count ≤ maxVecBytes)
    (hsize : 3 + 2 * count ≤ OpCode.maxScriptSize) (hlimit : 10 + 12 * count ≤ limit.toNat) :
    decodeScript (encodeInstructions (growth count)) = .ok (growth count) ∧
      ∃ m, Passes (Machine.step ctx) (growth count) (.init (.new limit)) [] m ∧
        ∃ val ∈ m.stack, val.toCanonicalBytes.length = 2 ^ count := by
  have hdecode := decodeScript_encodeInstructions (fun instr hmem => (mem_growth hmem).2)
    ((length_encode_growth count).trans_le hsize)
  obtain ⟨out, hlength, hrun⟩ := evalAll_doublings ctx count [0] (by simpa using hfits)
  have hpaid : gasTotal (growth count) ≤ (GasMeter.new limit).remaining.toNat := (gasTotal_growth count).trans_le hlimit
  obtain ⟨gas, hgas⟩ := GasMeter.chargeAll_isSome_iff.mpr hpaid
  refine ⟨hdecode, ⟨[.bytes out], [], gas⟩, ⟨growth count, (List.append_nil _).symm, ?_⟩, .bytes out, List.mem_singleton_self _,
    hlength.trans (Nat.mul_one _)⟩
  refine (run_executed (fun instr hmem => (mem_growth hmem).1) rfl).mpr ⟨hgas, rfl, ?_⟩
  exact evalAll_pushBytes.mpr ⟨Nat.zero_lt_succ 1023, hrun⟩

omit [Crypto] in
/-- The bound at a byte that is doubled forty times by a script of 83 bytes. -/
theorem stack_bytes_bounded_growth :
    ∃ m, Passes (@Machine.step sampleCrypto meteredContext) (growth 40) (.init (.new 490)) [] m ∧
      (∃ val ∈ m.stack, val.toCanonicalBytes.length = 2 ^ 40) ∧ 400 ≤ m.gas.consumed.toNat ∧
      m.gas.consumed.toNat ≤ 490 ∧ ∀ val ∈ m.stack, val.toCanonicalBytes.length ≤ 2 ^ 40 * 83 := by
  obtain ⟨hdecode, m, hpass, hlong⟩ := @growth_run sampleCrypto meteredContext 40 490 (by decide) (by decide) (by decide)
  obtain ⟨cats, hcount, hprice, hlimit, hbytes⟩ := @stack_bytes_bounded sampleCrypto meteredContext m _ _ 490 [] hdecode hpass
  have hcats : cats = 40 := by
    have hall : catCount (growth 40) = 40 := by decide
    have hrest : catCount [] = 0 := rfl
    omega
  have hmax : max (encodeInstructions (growth 40)).length meteredContext.largest = 83 := by
    rw [length_encode_growth]
    decide
  rw [hcats, hmax] at hbytes
  exact ⟨m, hpass, hlong, by omega, hlimit, hbytes⟩

omit [Crypto] in
/-- **No linear bound holds**, with coefficients up to a petabyte: a script of 127 bytes and 754 units of gas doubles one byte 62 times. -/
theorem stack_bytes_not_linear :
    ¬ ∃ a b c d : Nat, (a ≤ 2 ^ 50 ∧ b ≤ 2 ^ 50 ∧ c ≤ 2 ^ 50 ∧ d ≤ 2 ^ 50) ∧
      ∀ (_ : Crypto) (ctx : Context) (script : Bytes) (limit : UInt64) (instrs rest : List Instruction) (m : Machine),
        decodeScript script = .ok instrs → Passes (Machine.step ctx) instrs (.init (.new limit)) rest m →
          ∀ val ∈ m.stack, val.toCanonicalBytes.length ≤ a * script.length + b * ctx.largest + c * limit.toNat + d := by
  rintro ⟨a, b, c, d, ⟨ha, hb, hc, hd⟩, hclaim⟩
  obtain ⟨hdecode, m, hpass, val, hmem, hlength⟩ :=
    @growth_run sampleCrypto meteredContext 62 754 (by decide) (by decide) (by decide)
  have hle := hclaim sampleCrypto meteredContext _ 754 _ _ m hdecode hpass val hmem
  have hlargest : meteredContext.largest = 32 := by decide
  have hlimit : (754 : UInt64).toNat = 754 := rfl
  rw [hlength, length_encode_growth, hlargest, hlimit] at hle
  omega

end Doubling

end QuantumVault
