import QuantumVault.Core.Transaction
import QuantumVault.Script.Gas

/-!
# The script interpreter

A stack machine without jumps. Instructions run one after the other; conditionals are tracked on a separate stack of flags, and an instruction under a false flag is charged for and skipped. Both stacks are lists with their top at the head.
-/

namespace QuantumVault

open Result

inductive ScriptError where
  | outOfGas
  | stackUnderflow
  | stackOverflow (depth : Nat)
  | typeError
  | divisionByZero
  | indexOutOfRange (index count : Nat)
  | verifyFailed
  | returned
  | covenantFailed (reason : String)
  | unbalancedConditional (reason : String)
  | sliceOutOfBounds
  | opcode (source : OpcodeError)
  /-- The process stops here: a slice index or a requested capacity is out of range. -/
  | abort (reason : String)
deriving DecidableEq

structure Context where
  tx : Transaction
  resolvedInputs : List TxOutput
  currentSlot : Slot
  txHash : Hash256
  sighash : Hash256
  lockingScriptHash : Hash256

structure ExecResult where
  success : Bool
  gasUsed : UInt64
  finalStack : List Value
deriving DecidableEq

abbrev Stack := List Value

/-! ### Stack helpers -/

def push (stack : Stack) (val : Value) : Except ScriptError Stack :=
  if stack.length ≥ OpCode.maxStackDepth then .error (.stackOverflow OpCode.maxStackDepth)
  else .ok (val :: stack)

def pop : Stack → Except ScriptError (Value × Stack)
  | [] => .error .stackUnderflow
  | val :: stack => .ok (val, stack)

def popInt (stack : Stack) : Except ScriptError (Int64 × Stack) := do
  let (val, stack) ← pop stack
  match val with
  | .int n => return (n, stack)
  | .bytes _ => throw .typeError

def popBytes (stack : Stack) : Except ScriptError (Bytes × Stack) := do
  let (val, stack) ← pop stack
  return (val.toCanonicalBytes, stack)

/-- An integer popped and reinterpreted as an unsigned index or count. -/
def popIndex (stack : Stack) : Except ScriptError (Nat × Stack) := do
  let (n, stack) ← popInt stack
  return (n.toUInt64.toNat, stack)

def popManyBytes : (count : Nat) → Stack → Except ScriptError (List Bytes × Stack)
  | 0, stack => .ok ([], stack)
  | count + 1, stack => do
      let (b, stack) ← popBytes stack
      let (bs, stack) ← popManyBytes count stack
      return (b :: bs, stack)

/-- The element at a depth below the top. -/
def peekAt (stack : Stack) (depth : Nat) : Except ScriptError Value :=
  okOr stack[depth]? .stackUnderflow

def unaryInt (stack : Stack) (f : Int64 → Int64) : Except ScriptError Stack := do
  let (a, stack) ← popInt stack
  push stack (.int (f a))

def binaryInt (stack : Stack) (f : Int64 → Int64 → Value) : Except ScriptError Stack := do
  let (b, stack) ← popInt stack
  let (a, stack) ← popInt stack
  push stack (f a b)

def binaryDivision (stack : Stack) (f : Int64 → Int64 → Int64) : Except ScriptError Stack := do
  let (b, stack) ← popInt stack
  let (a, stack) ← popInt stack
  require (b ≠ 0) .divisionByZero
  push stack (.int (f a b))

def binaryValue (stack : Stack) (f : Value → Value → Bool) : Except ScriptError Stack := do
  let (b, stack) ← pop stack
  let (a, stack) ← pop stack
  push stack (.ofBool (f a b))

/-- Pop an index, look it up in a list of outputs and push what is read from the output found. -/
def readOutput (stack : Stack) (outputs : List TxOutput) (read : TxOutput → Value) : Except ScriptError Stack := do
  let (index, stack) ← popIndex stack
  let output ← okOr outputs[index]? (.indexOutOfRange index outputs.length)
  push stack (read output)

/-- Pop an index and check the output it names. -/
def assertOutput (stack : Stack) (outputs : List TxOutput) (holds : TxOutput → Bool) (reason : String) :
    Except ScriptError Stack := do
  let (index, stack) ← popIndex stack
  let output ← okOr outputs[index]? (.indexOutOfRange index outputs.length)
  require (holds output) (.covenantFailed reason)
  return stack

/-- The largest number of bytes a vector can be asked to hold. -/
def maxVecBytes : Nat := 2 ^ 63 - 1

/-- The largest number of byte strings a vector can be asked to hold, each with a header of 24 bytes. -/
def maxVecCapacity : Nat := maxVecBytes / 24

variable [Crypto]

/-! ### Opcodes -/

/-- Every opcode except the conditionals, which the loop handles itself, and the multi-signature check, which also charges gas. -/
def evalOp (ctx : Context) (instr : Instruction) (stack : Stack) : Except ScriptError Stack :=
  match instr.op with
  | .op0 => push stack (.int 0)
  | .op1 => push stack (.int 1)
  | .push1 | .push2 | .push4 => push stack (.bytes instr.data)
  | .pushInt => do
      require (8 ≤ instr.data.length) (.abort "slice index out of range")
      push stack (.int (UInt64.ofNat (ofLittleEndian (instr.data.take 8))).toInt64)
  | .dup => do
      let a ← peekAt stack 0
      push stack a
  | .swap => do
      let (b, stack) ← pop stack
      let (a, stack) ← pop stack
      let stack ← push stack b
      push stack a
  | .drop => do
      let (_, stack) ← pop stack
      return stack
  | .pick => do
      let (n, stack) ← popIndex stack
      let val ← peekAt stack n
      push stack val
  | .roll => do
      let (n, stack) ← popIndex stack
      let val ← peekAt stack n
      push (stack.eraseIdx n) val
  | .over => do
      let val ← peekAt stack 1
      push stack val
  | .rot => do
      let a ← peekAt stack 2
      push (stack.eraseIdx 2) a
  | .dup2 => do
      let a ← peekAt stack 1
      let b ← peekAt stack 0
      let stack ← push stack a
      push stack b
  | .add => binaryInt stack fun a b => .int (a + b)
  | .sub => binaryInt stack fun a b => .int (a - b)
  | .mul => binaryInt stack fun a b => .int (a * b)
  | .div => binaryDivision stack (· / ·)
  | .mod => binaryDivision stack (· % ·)
  | .neg => unaryInt stack (- ·)
  | .abs => unaryInt stack Int64.abs
  | .min => binaryInt stack fun a b => .int (if a ≤ b then a else b)
  | .max => binaryInt stack fun a b => .int (if a ≤ b then b else a)
  | .mulU128 => binaryInt stack fun a b => .bytes (toLittleEndian 16 (a.toUInt64.toNat * b.toUInt64.toNat))
  | .eq => binaryValue stack fun a b => a = b
  | .neq => binaryValue stack fun a b => a ≠ b
  | .lt => binaryInt stack fun a b => .ofBool (a < b)
  | .gt => binaryInt stack fun a b => .ofBool (b < a)
  | .le => binaryInt stack fun a b => .ofBool (a ≤ b)
  | .ge => binaryInt stack fun a b => .ofBool (b ≤ a)
  | .geU128 => do
      let (b, stack) ← popBytes stack
      let (a, stack) ← popBytes stack
      require (a.length = 16 ∧ b.length = 16) .typeError
      push stack (.ofBool (ofLittleEndian b ≤ ofLittleEndian a))
  | .not => do
      let (a, stack) ← pop stack
      push stack (.ofBool !a.isTruthy)
  | .and => binaryValue stack fun a b => a.isTruthy && b.isTruthy
  | .or => binaryValue stack fun a b => a.isTruthy || b.isTruthy
  | .verify => do
      let (a, stack) ← pop stack
      require a.isTruthy .verifyFailed
      return stack
  | .opReturn => throw .returned
  | .checkSigPqc => do
      let (pk, stack) ← popBytes stack
      let (sig, stack) ← popBytes stack
      let (msg, stack) ← popBytes stack
      push stack (.ofBool (checksigPqc pk sig msg))
  | .hashSha3 => do
      let (data, stack) ← popBytes stack
      push stack (.bytes (sha3_256 data).bytes)
  | .hashBlake3 => do
      let (data, stack) ← popBytes stack
      push stack (.bytes (blake3 data).bytes)
  | .readInputValue => readOutput stack ctx.resolvedInputs fun o => .int o.value.toInt64
  | .readOutputValue => readOutput stack ctx.tx.outputs fun o => .int o.value.toInt64
  | .readOutputScript => readOutput stack ctx.tx.outputs fun o => .bytes o.lockingScript
  | .readOutputDatum => readOutput stack ctx.tx.outputs fun o => .bytes (o.datum.getD [])
  | .readInputDatum => readOutput stack ctx.resolvedInputs fun o => .bytes (o.datum.getD [])
  | .selfScriptHash => push stack (.bytes ctx.lockingScriptHash.bytes)
  | .txHash => push stack (.bytes ctx.txHash.bytes)
  | .sigHash => push stack (.bytes ctx.sighash.bytes)
  | .slotNumber => push stack (.int ctx.currentSlot.toInt64)
  | .inputCount => push stack (.int (Int64.ofNat ctx.tx.inputs.length))
  | .outputCount => push stack (.int (Int64.ofNat ctx.tx.outputs.length))
  | .txFee => push stack (.int ctx.tx.fee.toInt64)
  | .assertOutputScriptHash => do
      let (hash, stack) ← popBytes stack
      assertOutput stack ctx.tx.outputs (fun o => (sha3_256 o.lockingScript).bytes = hash)
        "output script hash mismatch"
  | .assertDatumHash => do
      let (hash, stack) ← popBytes stack
      assertOutput stack ctx.tx.outputs (fun o => o.datum.map (fun d => (sha3_256 d).bytes) = some hash)
        "datum hash mismatch"
  | .assertValue => do
      let (expected, stack) ← popInt stack
      assertOutput stack ctx.tx.outputs (fun o => o.value.toInt64 = expected) "output value mismatch"
  | .cat => do
      let (b, stack) ← popBytes stack
      let (a, stack) ← popBytes stack
      require (a.length + b.length ≤ maxVecBytes) (.abort "capacity overflow")
      push stack (.bytes (a ++ b))
  | .slice => do
      let (len, stack) ← popIndex stack
      let (start, stack) ← popIndex stack
      let (data, stack) ← popBytes stack
      require (start + len ≤ data.length) .sliceOutOfBounds
      push stack (.bytes ((data.drop start).take len))
  | .len => do
      let (a, stack) ← pop stack
      push stack (.int (Int64.ofNat a.toCanonicalBytes.length))
  | .bytesToInt => do
      let (n, stack) ← popInt stack
      let (data, stack) ← popBytes stack
      require (1 ≤ n ∧ n ≤ 8) .typeError
      require (data.length = n.toUInt64.toNat) .typeError
      push stack (.int (UInt64.ofNat (ofLittleEndian data)).toInt64)
  | .nop => return stack
  | .opIf | .opElse | .endIf | .checkMultiSigPqc => throw (.abort "handled by the loop")

/-- The multi-signature check. The number of keys is paid for before anything is popped; the number of signatures is not. -/
def evalCheckMultiSig (stack : Stack) (gas : GasMeter) : Except ScriptError (Stack × GasMeter) := do
  let (nKeys, stack) ← popIndex stack
  let gas ← okOr (gas.consume (Word.saturatingMul multisigPerKeyCost (UInt64.ofNat nKeys))) .outOfGas
  require (nKeys ≤ maxVecCapacity) (.abort "capacity overflow")
  let (pks, stack) ← popManyBytes nKeys stack
  let (mSigs, stack) ← popIndex stack
  require (mSigs ≤ maxVecCapacity) (.abort "capacity overflow")
  let (sigs, stack) ← popManyBytes mSigs stack
  let (msg, stack) ← popBytes stack
  let stack ← push stack (.ofBool (checkmultisigPqc pks sigs msg mSigs))
  return (stack, gas)

/-! ### The loop -/

structure Machine where
  stack : Stack
  execStack : List Bool
  gas : GasMeter
deriving DecidableEq

namespace Machine

def init (gas : GasMeter) : Machine := ⟨[], [], gas⟩

/-- No enclosing conditional is on its false branch. -/
def executing (m : Machine) : Bool := m.execStack.all fun flag => flag

/-- Whether the conditional around the innermost one is executing, as `ELSE` computes it. -/
def parentExec (flags : List Bool) : Bool :=
  flags.length < 2 || (flags.tail.tail.all (fun flag => flag) && flags.tail.all fun flag => flag)

/-- One instruction: charge gas, then track conditionals, then skip or execute. -/
def step (ctx : Context) (m : Machine) (instr : Instruction) : Except ScriptError Machine := do
  let gas ← okOr (m.gas.charge instr.op) .outOfGas
  let m := { m with gas }
  match instr.op with
  | .opIf =>
      if m.executing then
        let (cond, stack) ← pop m.stack
        return { m with stack, execStack := cond.isTruthy :: m.execStack }
      else return { m with execStack := false :: m.execStack }
  | .opElse =>
      match m.execStack with
      | [] => throw (.unbalancedConditional "ELSE without IF")
      | flag :: flags =>
          return { m with execStack := (if parentExec m.execStack then !flag else flag) :: flags }
  | .endIf =>
      match m.execStack with
      | [] => throw (.unbalancedConditional "ENDIF without IF")
      | _ :: flags => return { m with execStack := flags }
  | .checkMultiSigPqc =>
      if m.executing then
        let (stack, gas) ← evalCheckMultiSig m.stack m.gas
        return { m with stack, gas }
      else return m
  | _ =>
      if m.executing then
        let stack ← evalOp ctx instr m.stack
        return { m with stack }
      else return m

end Machine

/-- Execute decoded instructions from an empty stack. The script succeeds if it leaves a true value on top. -/
def executeInstructions (instructions : List Instruction) (ctx : Context) (gas : GasMeter) :
    Except ScriptError ExecResult := do
  let m ← instructions.foldlM (Machine.step ctx) (Machine.init gas)
  require (m.execStack = []) (.unbalancedConditional "unterminated IF block")
  return ⟨m.stack.head?.any Value.isTruthy, m.gas.consumed, m.stack⟩

def execute (script : Bytes) (ctx : Context) (gas : GasMeter) : Except ScriptError ExecResult := do
  let instructions ← (decodeScript script).mapError .opcode
  executeInstructions instructions ctx gas

/-! ### Validation entry point -/

/-- The context of one script run: both hashes of the transaction and the hash of the locking script are computed up front. -/
def Context.new (tx : Transaction) (resolvedInputs : List TxOutput) (currentSlot : Slot) (lockingScript : Bytes) :
    Context :=
  ⟨tx, resolvedInputs, currentSlot, tx.id, tx.sighash, sha3_256 lockingScript⟩

def validateScriptWithGas (lockingScript witness : Bytes) (tx : Transaction) (resolvedInputs : List TxOutput)
    (currentSlot : Slot) (gasLimit : UInt64) : Except ScriptError ExecResult :=
  execute (witness ++ lockingScript) (.new tx resolvedInputs currentSlot lockingScript) (.new gasLimit)

/-- The one function the ledger calls to decide whether an output may be spent. -/
def validateScript (lockingScript witness : Bytes) (tx : Transaction) (resolvedInputs : List TxOutput)
    (currentSlot : Slot) : Except ScriptError ExecResult :=
  validateScriptWithGas lockingScript witness tx resolvedInputs currentSlot defaultGasLimit

end QuantumVault
