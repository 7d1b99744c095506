import QuantumVault.Core.Crypto
import QuantumVault.Lib.Result
import QuantumVault.Lib.Sorting

/-!
# Transactions

The eUTXO transaction: its fields, its canonical encoding, its identifier and signature hash, and the structural checks that need no ledger state.
-/

namespace QuantumVault

open Result

/-- Stealth-address payload of an output. -/
structure StealthInfo where
  ephemeralPubkey : Bytes
  kyberLevel : UInt8
  viewTag : UInt8
deriving DecidableEq

structure TxInput where
  prevOutput : OutPoint
  witness : Bytes
deriving DecidableEq

structure TxOutput where
  value : Amount
  lockingScript : Bytes
  datum : Option Bytes
  stealthInfo : Option StealthInfo
deriving DecidableEq

/-- A plain payment to a script. -/
def TxOutput.new (value : Amount) (lockingScript : Bytes) : TxOutput :=
  ⟨value, lockingScript, none, none⟩

/-- Slot range during which a transaction may be included. -/
structure ValidityInterval where
  notBefore : Option Slot
  notAfter : Option Slot
deriving DecidableEq

def ValidityInterval.unbounded : ValidityInterval := ⟨none, none⟩

def ValidityInterval.contains (interval : ValidityInterval) (slot : Slot) : Bool :=
  let lowerOk := match interval.notBefore with
    | some lo => decide (slot ≥ lo)
    | none => true
  let upperOk := match interval.notAfter with
    | some hi => decide (slot ≤ hi)
    | none => true
  lowerOk && upperOk

def txVersion : UInt32 := 1

structure Transaction where
  version : UInt32
  inputs : List TxInput
  outputs : List TxOutput
  validityInterval : ValidityInterval
  lockTime : Slot
  fee : Amount
deriving DecidableEq

inductive TransactionError where
  | noInputs
  | noOutputs
  | duplicateInput
  | outputOverflow
  | coinbaseHasInputs
  | coinbaseHeightMismatch (expected actual : UInt64)
deriving DecidableEq

/-! ### Canonical encoding -/

def StealthInfo.encode (s : StealthInfo) : Bytes :=
  Encode.bytes s.ephemeralPubkey ++ Encode.u8 s.kyberLevel ++ Encode.u8 s.viewTag

def OutPoint.encode (op : OutPoint) : Bytes :=
  op.txId.bytes ++ Encode.u32 op.index

def TxInput.encode (input : TxInput) : Bytes :=
  input.prevOutput.encode ++ Encode.bytes input.witness

def TxOutput.encode (output : TxOutput) : Bytes :=
  Encode.u64 output.value ++ Encode.bytes output.lockingScript ++ Encode.option Encode.bytes output.datum ++
    Encode.option StealthInfo.encode output.stealthInfo

def ValidityInterval.encode (interval : ValidityInterval) : Bytes :=
  Encode.option Encode.u64 interval.notBefore ++ Encode.option Encode.u64 interval.notAfter

/-- Serialisation of an in-memory transaction cannot fail, so the error case of the source has no counterpart here. -/
def Transaction.canonicalBytes (tx : Transaction) : Bytes :=
  Encode.u32 tx.version ++ Encode.seq TxInput.encode tx.inputs ++ Encode.seq TxOutput.encode tx.outputs ++
    tx.validityInterval.encode ++ Encode.u64 tx.lockTime ++ Encode.u64 tx.fee

namespace Transaction

/-! ### Constructors -/

def new (inputs : List TxInput) (outputs : List TxOutput) : Transaction :=
  ⟨txVersion, inputs, outputs, .unbounded, 0, 0⟩

/-- Initial allocation: a transaction without inputs. -/
def genesis (outputs : List TxOutput) : Transaction :=
  ⟨txVersion, [], outputs, .unbounded, 0, 0⟩

/-- A block producer's reward claim, bound to the height of its block through the lock time. -/
def newCoinbase (height : Height) (outputs : List TxOutput) : Transaction :=
  ⟨txVersion, [], outputs, .unbounded, height, 0⟩

def isCoinbase (tx : Transaction) : Bool := tx.inputs.isEmpty

def spends (tx : Transaction) : List OutPoint := tx.inputs.map TxInput.prevOutput

def outputValues (tx : Transaction) : List Amount := tx.outputs.map TxOutput.value

/-! ### Hashes -/

variable [Crypto]

def id (tx : Transaction) : TxId := sha3_256 tx.canonicalBytes

/-- The transaction with every witness removed. -/
def bare (tx : Transaction) : Transaction :=
  { tx with inputs := tx.inputs.map fun input => { input with witness := [] } }

/-- The message every input signature commits to. -/
def sighash (tx : Transaction) : Hash256 := sha3_256 tx.bare.canonicalBytes

/-! ### Structural checks -/

def validateCoinbaseStructure (tx : Transaction) (height : Height) : Except TransactionError Unit := do
  require (tx.inputs = []) .coinbaseHasInputs
  require (tx.outputs ≠ []) .noOutputs
  let _ ← okOr (Word.checkedSum tx.outputValues) .outputOverflow
  require (tx.lockTime = height) (.coinbaseHeightMismatch height tx.lockTime)

def validateStructure (tx : Transaction) : Except TransactionError Unit := do
  require (tx.inputs ≠ []) .noInputs
  require (tx.outputs ≠ []) .noOutputs
  require (¬ Sorting.hasAdjacentEqual (Sorting.sorted tx.spends)) .duplicateInput
  let _ ← okOr (Word.checkedSum tx.outputValues) .outputOverflow
  return ()

end Transaction

end QuantumVault
