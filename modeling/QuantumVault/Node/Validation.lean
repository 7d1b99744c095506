import QuantumVault.Consensus.Rewards
import QuantumVault.Mempool.ClearPool
import QuantumVault.Script.Interpreter
import QuantumVault.Storage.UtxoStore

/-!
# Transaction and block-reward validation

The checks a node makes on values. A transaction on its way to the mempool is resolved against the store, pays a fee, and has every input script run. A block is checked for fees, coinbase maturity and the coinbase claim against the store before the block, with an overlay for the outputs the block itself creates; no script is run there.
-/

namespace QuantumVault

open Result

inductive TxValidationError where
  | structureInvalid (source : TransactionError)
  | inputNotFound (outpoint : OutPoint)
  | scriptError (inputIndex : Nat) (source : ScriptError)
  | scriptFailed (inputIndex : Nat) (reason : String)
  | insufficientFee (required provided : UInt64)
  | feeNegative (txIndex : Nat)
  | immatureCoinbase (outpoint : OutPoint) (createdHeight spendHeight requiredDepth : UInt64)
  | coinbaseOverclaim (claimed maxAllowed : UInt64)
  | mempool (source : MempoolError)
  | internal (reason : String)
deriving DecidableEq

structure ValidatedTx where
  txId : TxId
  fee : UInt64
  resolvedInputs : List TxOutput
deriving DecidableEq

/-! ### Coinbase maturity -/

/-- The rule for one spent outpoint of the store: a coinbase output needs `coinbaseMaturity` blocks on top. -/
def checkMature (utxoStore : UtxoStore) (height : Height) (coinbaseMaturity : UInt64) (outpoint : OutPoint) :
    Except TxValidationError Unit :=
  match utxoStore.coinbaseHeight outpoint with
  | none => .ok ()
  | some created =>
      require (¬ height < Word.saturatingAdd created coinbaseMaturity)
        (.immatureCoinbase outpoint created height coinbaseMaturity)

def checkCoinbaseMaturity (tx : Transaction) (utxoStore : UtxoStore) (candidateHeight : Height)
    (coinbaseMaturity : UInt64) : Except TxValidationError Unit :=
  tx.inputs.forM fun input => checkMature utxoStore candidateHeight coinbaseMaturity input.prevOutput

/-! ### Block rewards -/

/-- The running state of the reward check. The overlay maps every outpoint the block has created so far to its value and to whether the coinbase created it. -/
structure RewardState where
  inBlock : Std.ExtTreeMap OutPoint (Amount × Bool)
  totalFees : Amount
  coinbaseClaim : Option Amount

/-- The value of an output spent inside the block, from the overlay first. -/
def resolveValue (utxoStore : UtxoStore) (height : Height) (coinbaseMaturity : UInt64)
    (inBlock : Std.ExtTreeMap OutPoint (Amount × Bool)) (outpoint : OutPoint) : Except TxValidationError Amount :=
  match inBlock[outpoint]? with
  | some (value, fromCoinbase) => do
      require (fromCoinbase = false) (.immatureCoinbase outpoint height height coinbaseMaturity)
      return value
  | none => do
      let resolved ← okOr (utxoStore.get outpoint) (.inputNotFound outpoint)
      checkMature utxoStore height coinbaseMaturity outpoint
      return resolved.value

def addInputValue (utxoStore : UtxoStore) (height : Height) (coinbaseMaturity : UInt64)
    (inBlock : Std.ExtTreeMap OutPoint (Amount × Bool)) (inputSum : Amount) (input : TxInput) :
    Except TxValidationError Amount := do
  let value ← resolveValue utxoStore height coinbaseMaturity inBlock input.prevOutput
  okOr (Word.checkedAdd inputSum value) (.internal "input value overflow")

/-- Note the claim of the coinbase, or add the fee of any other transaction. -/
def chargeTransaction (utxoStore : UtxoStore) (height : Height) (coinbaseMaturity : UInt64) (outputSum : Amount)
    (isCoinbase : Bool) (st : RewardState) (tx : Transaction × Nat) : Except TxValidationError RewardState :=
  if isCoinbase then .ok { st with coinbaseClaim := some outputSum }
  else do
    let inputSum ← tx.1.inputs.foldlM (addInputValue utxoStore height coinbaseMaturity st.inBlock) 0
    let fee ← okOr (Word.checkedSub inputSum outputSum) (.feeNegative tx.2)
    let totalFees ← okOr (Word.checkedAdd st.totalFees fee) (.internal "fee sum overflow")
    return { st with totalFees := totalFees }

def recordOutput (txId : TxId) (isCoinbase : Bool) (inBlock : Std.ExtTreeMap OutPoint (Amount × Bool))
    (output : TxOutput × Nat) : Except TxValidationError (Std.ExtTreeMap OutPoint (Amount × Bool)) := do
  let outpoint ← okOr (OutPoint.ofPosition txId output.2) (.internal "output index overflow")
  return inBlock.insert outpoint (output.1.value, isCoinbase)

variable [Crypto]

def rewardTransaction (utxoStore : UtxoStore) (height : Height) (coinbaseMaturity : UInt64) (st : RewardState)
    (tx : Transaction × Nat) : Except TxValidationError RewardState := do
  let isCoinbase := tx.2 == 0 && tx.1.inputs.isEmpty
  let outputSum ← okOr (Word.checkedSum tx.1.outputValues) (.internal "output value overflow")
  let st ← chargeTransaction utxoStore height coinbaseMaturity outputSum isCoinbase st tx
  let inBlock ← tx.1.outputs.zipIdx.foldlM (recordOutput tx.1.id isCoinbase) st.inBlock
  return { st with inBlock := inBlock }

/-- The value rules of a block against the store before it. The total of the fees is returned. -/
def validateBlockRewards (block : Block) (utxoStore : UtxoStore) (monetary : MonetaryParams)
    (coinbaseMaturity : UInt64) : Except TxValidationError Amount :=
  let height := block.header.height
  if height = 0 then .ok 0
  else do
    let st ← block.transactions.zipIdx.foldlM (rewardTransaction utxoStore height coinbaseMaturity) ⟨∅, 0, none⟩
    match st.coinbaseClaim with
    | none => return st.totalFees
    | some claimed => do
        let maxAllowed := totalBlockReward height st.totalFees monetary
        require (¬ claimed > maxAllowed) (.coinbaseOverclaim claimed maxAllowed)
        return st.totalFees

/-! ### Transactions -/

def validateInputScript (tx : Transaction) (resolvedInputs : List TxOutput) (currentSlot : Slot)
    (input : (TxInput × TxOutput) × Nat) : Except TxValidationError Unit := do
  let result ← (validateScript input.1.2.lockingScript input.1.1.witness tx resolvedInputs currentSlot).mapError
    (.scriptError input.2)
  require (result.success = true) (.scriptFailed input.2 "final stack empty or falsy")

def validateTransaction (tx : Transaction) (utxoStore : UtxoStore) (currentSlot : Slot) (minFeeRate : UInt64) :
    Except TxValidationError ValidatedTx := do
  tx.validateStructure.mapError .structureInvalid
  let resolvedInputs ← tx.inputs.mapM fun input =>
    okOr (utxoStore.get input.prevOutput) (.inputNotFound input.prevOutput)
  let inputSum ← okOr (Word.checkedSum (resolvedInputs.map TxOutput.value)) (.internal "input value overflow")
  let outputSum ← okOr (Word.checkedSum tx.outputValues) (.internal "output value overflow")
  let fee ← okOr (Word.checkedSub inputSum outputSum) (.internal "outputs exceed inputs")
  require (¬ fee < minFeeRate) (.insufficientFee minFeeRate fee)
  (tx.inputs.zip resolvedInputs).zipIdx.forM (validateInputScript tx resolvedInputs currentSlot)
  return ⟨tx.id, fee, resolvedInputs⟩

/-- Add a validated transaction to the pool. Its size is the length of its encoding. -/
def insertValidatedTx (pool : ClearPool) (now : UInt64) (tx : Transaction) (validated : ValidatedTx) :
    Option (Except TxValidationError TxId × ClearPool) :=
  let size := UInt64.ofNat tx.canonicalBytes.length
  let entry := MempoolEntry.new tx validated.txId validated.fee size now
  (pool.add now entry).map fun (result, pool') => (result.mapError .mempool, pool')

end QuantumVault
