import QuantumVault.Script.Opcode

/-!
# Gas

The price of every opcode and the meter that is charged before an opcode runs.
-/

namespace QuantumVault

def gasCost : OpCode → UInt64
  | .op0 | .op1 | .nop | .drop => 1
  | .dup | .swap | .over | .rot | .dup2 | .pick | .roll => 2
  | .eq | .neq | .lt | .gt | .le | .ge | .not | .and | .or => 2
  | .opIf | .opElse | .endIf | .verify | .opReturn => 2
  | .add | .sub | .mul | .div | .mod | .neg | .abs | .min | .max => 5
  | .mulU128 | .geU128 => 15
  | .push1 | .push2 | .push4 | .pushInt => 10
  | .cat | .slice | .len | .bytesToInt => 10
  | .readInputValue | .readOutputValue | .readOutputScript | .readOutputDatum | .readInputDatum => 10
  | .selfScriptHash | .txHash | .slotNumber | .inputCount | .outputCount | .txFee | .sigHash => 10
  | .assertOutputScriptHash | .assertDatumHash | .assertValue => 20
  | .hashSha3 | .hashBlake3 => 50
  | .checkSigPqc => 500
  | .checkMultiSigPqc => 2000

def defaultGasLimit : UInt64 := 100000

/-- Extra price of each public key of a multi-signature check. -/
def multisigPerKeyCost : UInt64 := 500

structure GasMeter where
  remaining : UInt64
  consumed : UInt64
deriving DecidableEq

namespace GasMeter

def new (limit : UInt64) : GasMeter := ⟨limit, 0⟩

/-- Take an amount off the budget, or nothing if the budget is too small. -/
def consume (gas : GasMeter) (amount : UInt64) : Option GasMeter :=
  if gas.remaining ≥ amount then some ⟨gas.remaining - amount, gas.consumed + amount⟩ else none

def charge (gas : GasMeter) (op : OpCode) : Option GasMeter := gas.consume (gasCost op)

end GasMeter

end QuantumVault
