import QuantumVault.Privacy.Stealth
import QuantumVault.Script.Templates

/-!
# The wallet's transaction builder

Inputs and outputs are collected, and each input is signed on its own. A signature covers the transaction without its witnesses, so an input can be signed whatever the others already carry. Plain and stealth inputs differ in what the witness pushes after the signature.
-/

namespace QuantumVault

open Result HybridKem

inductive WalletError where
  | txBuilder (reason : String)
  | coinSelection (reason : String)
  | rpc (reason : String)
  | crypto (reason : String)
  | privacy (reason : String)
  | bincode
  | invalidArg (reason : String)
deriving DecidableEq

structure TxBuilder where
  inputs : List TxInput
  outputs : List TxOutput
  validity : ValidityInterval
deriving DecidableEq

def TxInput.withWitness (input : TxInput) (witness : Bytes) : TxInput := { input with witness }

def TxOutput.withStealth (output : TxOutput) (info : StealthInfo) : TxOutput := { output with stealthInfo := some info }

/-- The signature of a message, with the error of the signature library where there is none. -/
def signPqcChecked [Signing] (level : DilithiumLevel) (secretKey message : Bytes) : Except CryptoError Bytes := do
  require (secretKey.length = level.secretKeyBytes) .malformedPublicKey
  okOr (signPqc level secretKey message)
    (.invalidSize level.signatureBytes (mlDsaSign level secretKey message).length)

namespace TxBuilder

def new (validity : ValidityInterval) : TxBuilder := ⟨[], [], validity⟩

def addInput (builder : TxBuilder) (input : TxInput) : TxBuilder :=
  { builder with inputs := builder.inputs ++ [input] }

def addOutput (builder : TxBuilder) (output : TxOutput) : TxBuilder :=
  { builder with outputs := builder.outputs ++ [output] }

def buildUnsigned (builder : TxBuilder) : Except WalletError Transaction := do
  require (builder.inputs ≠ [] ∧ builder.outputs ≠ []) (.txBuilder "missing inputs or outputs")
  let tx := Transaction.new builder.inputs builder.outputs
  return { tx with validityInterval := builder.validity }

variable [Crypto]

/-- Pay to a stealth address. The shared secret is returned with the builder. -/
def addStealthOutput [HybridKem] (builder : TxBuilder) (value : Amount) (recipient : StealthAddress)
    (entropy : KemEntropy) : Except WalletError (TxBuilder × Hash256) := do
  let (stealthOutput, sharedSecret) ←
    (Stealth.createStealthOutput recipient entropy).mapError fun e => .privacy e.text
  let lockingScript := stealthP2pkh stealthOutput.onetimePkHash
  let stealthInfo : StealthInfo :=
    ⟨stealthOutput.kemCiphertext, stealthOutput.kyberLevel, stealthOutput.viewTag⟩
  let output := (TxOutput.new value lockingScript).withStealth stealthInfo
  return (builder.addOutput output, sharedSecret)

variable [Signing]

/-- The common part of the two ways to sign an input: `kind` is the word the errors use, and `witnessOf` is what the witness pushes, given the signature. -/
def signInput (kind : String) (witnessOf : Bytes → List ScriptBuilder.Call) (builder : TxBuilder) (inputIdx : Nat)
    (level : DilithiumLevel) (secretKey : Bytes) : Except WalletError TxBuilder := do
  let _ ← okOr builder.inputs[inputIdx]?
    (.txBuilder s!"{kind} input index {inputIdx} out of range (count {builder.inputs.length})")
  let tx ← builder.buildUnsigned
  let signature ← (signPqcChecked level secretKey tx.sighash.bytes).mapError fun e => .crypto e.text
  let witness := ScriptBuilder.build (witnessOf signature)
  let input ← okOr builder.inputs[inputIdx]?
    (.txBuilder s!"{kind} input index {inputIdx} disappeared during signing")
  return { builder with inputs := builder.inputs.set inputIdx (input.withWitness witness) }

def signPlainInput (builder : TxBuilder) (inputIdx : Nat) (level : DilithiumLevel) (secretKey publicKey : Bytes) :
    Except WalletError TxBuilder :=
  signInput "plain" (fun signature => [.pushBytes signature, .pushBytes publicKey]) builder inputIdx level secretKey

def signStealthInput (builder : TxBuilder) (inputIdx : Nat) (level : DilithiumLevel) (spendSecret spendPublic : Bytes)
    (sharedSecret : Hash256) : Except WalletError TxBuilder :=
  signInput "stealth"
    (fun signature => [.pushBytes signature, .pushBytes spendPublic, .pushBytes sharedSecret.bytes]) builder inputIdx
    level spendSecret

end TxBuilder

end QuantumVault
