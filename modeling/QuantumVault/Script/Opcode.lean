import QuantumVault.Core.Crypto
import QuantumVault.Lib.Result

/-!
# Opcodes and script decoding

The instruction set of the script machine, its byte encoding, and the decoder that turns a script into a list of instructions. The decoder reads the whole script as one stream: nothing in it marks where a witness ends and a locking script begins.
-/

namespace QuantumVault

open Result

/-- A stack element: a 64-bit signed integer or a byte string. -/
inductive Value where
  | int (n : Int64)
  | bytes (b : Bytes)
deriving DecidableEq

namespace Value

/-- Zero and the empty string are false, anything else is true. -/
def isTruthy : Value → Bool
  | int n => n ≠ 0
  | bytes b => !b.isEmpty

/-- An integer is its eight little-endian bytes, a byte string is itself. -/
def toCanonicalBytes : Value → Bytes
  | int n => toLittleEndian 8 n.toUInt64.toNat
  | bytes b => b

def ofBool (b : Bool) : Value := .int (if b then 1 else 0)

end Value

inductive OpCode where
  | op0 | op1 | push1 | push2 | push4 | pushInt
  | dup | swap | drop | pick | roll | over | rot | dup2
  | add | sub | mul | div | mod | neg | abs | min | max | mulU128
  | eq | neq | lt | gt | le | ge | not | and | or | geU128
  | opIf | opElse | endIf | verify | opReturn
  | checkSigPqc | checkMultiSigPqc | hashSha3 | hashBlake3
  | readInputValue | readOutputValue | readOutputScript | readOutputDatum | txHash | slotNumber | inputCount | outputCount | txFee | sigHash | readInputDatum | selfScriptHash
  | assertOutputScriptHash | assertDatumHash | assertValue
  | cat | slice | len | bytesToInt
  | nop
deriving DecidableEq

inductive OpcodeError where
  | unknownOpcode (byte : UInt8)
  | unexpectedEnd (need available : Nat)
  | zeroPush
  | scriptTooLarge (size max : Nat)
deriving DecidableEq

/-- An opcode with the data that follows it in the script. -/
structure Instruction where
  op : OpCode
  data : Bytes
deriving DecidableEq

namespace OpCode

def maxScriptSize : Nat := 16384

def maxStackDepth : Nat := 1024

def fromByte : UInt8 → Except OpcodeError OpCode
  | 0x00 => .ok .op0
  | 0x01 => .ok .op1
  | 0x02 => .ok .push1
  | 0x03 => .ok .push2
  | 0x04 => .ok .push4
  | 0x05 => .ok .pushInt
  | 0x10 => .ok .dup
  | 0x11 => .ok .swap
  | 0x12 => .ok .drop
  | 0x13 => .ok .pick
  | 0x14 => .ok .roll
  | 0x15 => .ok .over
  | 0x16 => .ok .rot
  | 0x17 => .ok .dup2
  | 0x20 => .ok .add
  | 0x21 => .ok .sub
  | 0x22 => .ok .mul
  | 0x23 => .ok .div
  | 0x24 => .ok .mod
  | 0x25 => .ok .neg
  | 0x26 => .ok .abs
  | 0x27 => .ok .min
  | 0x28 => .ok .max
  | 0x29 => .ok .mulU128
  | 0x30 => .ok .eq
  | 0x31 => .ok .neq
  | 0x32 => .ok .lt
  | 0x33 => .ok .gt
  | 0x34 => .ok .le
  | 0x35 => .ok .ge
  | 0x36 => .ok .not
  | 0x37 => .ok .and
  | 0x38 => .ok .or
  | 0x39 => .ok .geU128
  | 0x40 => .ok .opIf
  | 0x41 => .ok .opElse
  | 0x42 => .ok .endIf
  | 0x43 => .ok .verify
  | 0x44 => .ok .opReturn
  | 0x50 => .ok .checkSigPqc
  | 0x51 => .ok .checkMultiSigPqc
  | 0x52 => .ok .hashSha3
  | 0x53 => .ok .hashBlake3
  | 0x60 => .ok .readInputValue
  | 0x61 => .ok .readOutputValue
  | 0x62 => .ok .readOutputScript
  | 0x63 => .ok .readOutputDatum
  | 0x64 => .ok .txHash
  | 0x65 => .ok .slotNumber
  | 0x66 => .ok .inputCount
  | 0x67 => .ok .outputCount
  | 0x68 => .ok .txFee
  | 0x69 => .ok .sigHash
  | 0x6A => .ok .readInputDatum
  | 0x6B => .ok .selfScriptHash
  | 0x70 => .ok .assertOutputScriptHash
  | 0x71 => .ok .assertDatumHash
  | 0x72 => .ok .assertValue
  | 0x80 => .ok .cat
  | 0x81 => .ok .slice
  | 0x82 => .ok .len
  | 0x83 => .ok .bytesToInt
  | 0xFF => .ok .nop
  | other => .error (.unknownOpcode other)

def toByte : OpCode → UInt8
  | .op0 => 0x00
  | .op1 => 0x01
  | .push1 => 0x02
  | .push2 => 0x03
  | .push4 => 0x04
  | .pushInt => 0x05
  | .dup => 0x10
  | .swap => 0x11
  | .drop => 0x12
  | .pick => 0x13
  | .roll => 0x14
  | .over => 0x15
  | .rot => 0x16
  | .dup2 => 0x17
  | .add => 0x20
  | .sub => 0x21
  | .mul => 0x22
  | .div => 0x23
  | .mod => 0x24
  | .neg => 0x25
  | .abs => 0x26
  | .min => 0x27
  | .max => 0x28
  | .mulU128 => 0x29
  | .eq => 0x30
  | .neq => 0x31
  | .lt => 0x32
  | .gt => 0x33
  | .le => 0x34
  | .ge => 0x35
  | .not => 0x36
  | .and => 0x37
  | .or => 0x38
  | .geU128 => 0x39
  | .opIf => 0x40
  | .opElse => 0x41
  | .endIf => 0x42
  | .verify => 0x43
  | .opReturn => 0x44
  | .checkSigPqc => 0x50
  | .checkMultiSigPqc => 0x51
  | .hashSha3 => 0x52
  | .hashBlake3 => 0x53
  | .readInputValue => 0x60
  | .readOutputValue => 0x61
  | .readOutputScript => 0x62
  | .readOutputDatum => 0x63
  | .txHash => 0x64
  | .slotNumber => 0x65
  | .inputCount => 0x66
  | .outputCount => 0x67
  | .txFee => 0x68
  | .sigHash => 0x69
  | .readInputDatum => 0x6A
  | .selfScriptHash => 0x6B
  | .assertOutputScriptHash => 0x70
  | .assertDatumHash => 0x71
  | .assertValue => 0x72
  | .cat => 0x80
  | .slice => 0x81
  | .len => 0x82
  | .bytesToInt => 0x83
  | .nop => 0xFF

/-- The opcodes that read inline data. -/
def isPush (op : OpCode) : Bool :=
  op = .push1 || op = .push2 || op = .push4 || op = .pushInt

end OpCode

/-! ### Encoding -/

namespace Instruction

def simple (op : OpCode) : Instruction := ⟨op, []⟩

/-- The shortest push that can hold the data. -/
def pushBytes (data : Bytes) : Instruction :=
  if data.length ≤ 255 then ⟨.push1, data⟩
  else if data.length ≤ 65535 then ⟨.push2, data⟩
  else ⟨.push4, data⟩

/-- A push of an integer as its eight little-endian bytes. -/
def pushInt (n : Int64) : Instruction := ⟨.pushInt, toLittleEndian 8 n.toUInt64.toNat⟩

/-- The bytes of one instruction. The length prefix of a push is cut to its width. -/
def encode (instr : Instruction) : Bytes :=
  instr.op.toByte ::
    match instr.op with
    | .push1 => toLittleEndian 1 instr.data.length ++ instr.data
    | .push2 => toLittleEndian 2 instr.data.length ++ instr.data
    | .push4 => toLittleEndian 4 instr.data.length ++ instr.data
    | .pushInt => instr.data
    | _ => []

end Instruction

def encodeInstructions (instructions : List Instruction) : Bytes :=
  instructions.flatMap Instruction.encode

/-! ### Decoding -/

/-- The next `need` bytes and what is left after them. -/
def readExact (need : Nat) (script : Bytes) : Except OpcodeError (Bytes × Bytes) :=
  if script.length < need then .error (.unexpectedEnd need script.length)
  else .ok (script.take need, script.drop need)

/-- The data of a push with a length prefix of the given width. -/
def readPush (width : Nat) (script : Bytes) : Except OpcodeError (Bytes × Bytes) := do
  let (lengthBytes, script) ← readExact width script
  let length := ofLittleEndian lengthBytes
  require (length ≠ 0) .zeroPush
  readExact length script

/-- The inline data of an opcode and the rest of the script. -/
def readData : OpCode → Bytes → Except OpcodeError (Bytes × Bytes)
  | .push1, script => readPush 1 script
  | .push2, script => readPush 2 script
  | .push4, script => readPush 4 script
  | .pushInt, script => readExact 8 script
  | _, script => .ok ([], script)

def decodeInstruction (byte : UInt8) (script : Bytes) : Except OpcodeError (Instruction × Bytes) := do
  let op ← OpCode.fromByte byte
  let (data, script) ← readData op script
  return (⟨op, data⟩, script)

/-- The decoder loop. Every instruction takes at least its opcode byte, so the length of the script bounds the number of rounds. -/
def decodeLoop : (rounds : Nat) → Bytes → Except OpcodeError (List Instruction)
  | 0, _ => .ok []
  | _ + 1, [] => .ok []
  | rounds + 1, byte :: script => do
      let (instr, script) ← decodeInstruction byte script
      let instructions ← decodeLoop rounds script
      return instr :: instructions

def decodeScript (script : Bytes) : Except OpcodeError (List Instruction) :=
  if script.length > OpCode.maxScriptSize then .error (.scriptTooLarge script.length OpCode.maxScriptSize)
  else decodeLoop script.length script

end QuantumVault
