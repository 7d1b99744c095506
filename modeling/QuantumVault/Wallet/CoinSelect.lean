import QuantumVault.Lib.Text
import QuantumVault.Wallet.TxBuilder

/-!
# Coin selection

Three ways to choose the inputs of a payment. A stealth transfer takes the wallet's stealth outputs from the largest down and, if these are not enough, its plain ones; the faucet does the same with plain outputs only; the generic selector takes a map in the order of its keys. What a node reports about an output is not checked, so the values are any words. A sum that leaves the word stops the process.
-/

namespace QuantumVault

open Result

/-- An output that a scan found, as the node reports it. The texts are hexadecimal. -/
structure StealthMatch where
  txId : Bytes
  outputIndex : UInt32
  value : UInt64
  sharedSecretHex : Bytes
deriving DecidableEq

structure P2pkhMatch where
  txId : Bytes
  outputIndex : UInt32
  value : UInt64
deriving DecidableEq

/-- Failures of a spending command: a message of its own, an error of the wallet or of the decoder, or the end of the process. -/
inductive SpendError where
  | bail (message : String)
  | wallet (error : WalletError)
  | hex (error : Hex.FromHexError)
  | abort
deriving DecidableEq

/-- An input that was picked. -/
inductive Pick where
  | stealth (u : StealthMatch)
  | plain (u : P2pkhMatch)
deriving DecidableEq

namespace Pick

def value : Pick → UInt64
  | stealth u => u.value
  | plain u => u.value

def txId : Pick → Bytes
  | stealth u => u.txId
  | plain u => u.txId

def outputIndex : Pick → UInt32
  | stealth u => u.outputIndex
  | plain u => u.outputIndex

end Pick

/-- The picked inputs, their total as the loop counted it, and what is left over. -/
structure Selection where
  picks : List Pick
  total : UInt64
  change : UInt64
deriving DecidableEq

/-- Largest first; equal values keep their order. -/
def sortedByValue (picks : List Pick) : List Pick := picks.insertionSort fun a b => b.value ≤ a.value

/-- Pick one after the other until the total covers the outflow. -/
def pickUntil (outflow : UInt64) (picked : List Pick) (total : UInt64) : List Pick → List Pick × UInt64
  | [] => (picked, total)
  | u :: rest =>
      if total ≥ outflow then (picked, total)
      else pickUntil outflow (picked ++ [u]) (Word.saturatingAdd total u.value) rest

/-- The sum of the values, which stops the process where it leaves the word. -/
def sumValues (picks : List Pick) : Except SpendError UInt64 :=
  okOr (Word.checkedSum (picks.map Pick.value)) .abort

/-- The outpoint of an input, out of the texts of the node. The two commands word the errors differently. -/
def Pick.readOutPoint (hexError : Hex.FromHexError → SpendError) (sizeError : SpendError) (pick : Pick) :
    Except SpendError OutPoint := do
  let txIdBytes ← (Hex.decode pick.txId).mapError hexError
  let txId ← okOr (Hash256.ofBytes txIdBytes) sizeError
  return ⟨txId, pick.outputIndex⟩

/-- A builder with the inputs and nothing else. -/
def addPicks (outPoint : Pick → Except SpendError OutPoint) (picks : List Pick) : Except SpendError TxBuilder :=
  picks.foldlM (fun builder pick => do
    let op ← outPoint pick
    return builder.addInput ⟨op, []⟩) (TxBuilder.new .unbounded)

/-! ### Stealth transfers -/

/-- What a transfer spends. -/
def selectTransfer (stealthUtxos : List StealthMatch) (plainUtxos : List P2pkhMatch) (amount fee : UInt64) :
    Except SpendError Selection := do
  require (amount ≠ 0) (.bail "amount must be positive")
  let outflow ← okOr (Word.checkedAdd amount fee) (.bail "amount + fee overflow")
  let stealth := stealthUtxos.map Pick.stealth
  let plain := plainUtxos.map Pick.plain
  let stealthSum ← sumValues stealth
  let plainSum ← sumValues plain
  let available ← okOr (Word.checkedAdd stealthSum plainSum) .abort
  require (¬ available < outflow)
    (.bail s!"insufficient balance: need {outflow}, have {available} (stealth + plain)")
  let (stealthPicks, stealthTotal) := pickUntil outflow [] 0 (sortedByValue stealth)
  let (picks, total) := pickUntil outflow stealthPicks stealthTotal (sortedByValue plain)
  require (¬ total < outflow) (.bail s!"insufficient balance after selection: need {outflow}, picked {total}")
  return ⟨picks, total, total - outflow⟩

def Pick.outPoint : Pick → Except SpendError OutPoint :=
  readOutPoint .hex (.bail "server tx_id must be 32 bytes")

section Transfer

variable [Crypto] [HybridKem] [Signing]

def signPick (stealth : StealthKeys) (builder : TxBuilder) (idx : Nat) : Pick → Except SpendError TxBuilder
  | .stealth u => do
      let ssBytes ← (Hex.decode u.sharedSecretHex).mapError .hex
      let shared ← okOr (Hash256.ofBytes ssBytes) (.bail "shared_secret must be 32 bytes")
      (builder.signStealthInput idx stealth.spendLevel stealth.spendKp.secretKey stealth.spendKp.publicKey
        shared).mapError .wallet
  | .plain _ =>
      (builder.signPlainInput idx stealth.spendLevel stealth.spendKp.secretKey stealth.spendKp.publicKey).mapError
        .wallet

/-- The transaction of a transfer, from what the scans of both kinds of outputs returned. -/
def cmdSendStealth (stealth : StealthKeys) (recipient : StealthAddress) (stealthUtxos : List StealthMatch)
    (plainUtxos : List P2pkhMatch) (amount fee : UInt64) (entropy changeEntropy : KemEntropy) :
    Except SpendError Transaction := do
  let selection ← selectTransfer stealthUtxos plainUtxos amount fee
  let builder ← addPicks Pick.outPoint selection.picks
  let (builder, ss) ← (builder.addStealthOutput amount recipient entropy).mapError .wallet
  let (builder, _) ←
    (if selection.change > 0 then
      (builder.addStealthOutput selection.change stealth.address changeEntropy).mapError .wallet
    else pure (builder, ss))
  let builder ← selection.picks.zipIdx.foldlM (fun builder pick => signPick stealth builder pick.2 pick.1) builder
  builder.buildUnsigned.mapError .wallet

end Transfer

/-! ### The faucet -/

/-- What a drip of the faucet spends. -/
def selectDrip (plain : List P2pkhMatch) (amount fee : UInt64) : Except SpendError Selection := do
  require (amount ≠ 0) (.wallet (.invalidArg "faucet amount must be positive"))
  let outflow ← okOr (Word.checkedAdd amount fee) (.wallet (.invalidArg "amount + fee overflows u64"))
  let total ← sumValues (plain.map Pick.plain)
  require (¬ total < outflow)
    (.wallet (.invalidArg s!"faucet exhausted: need {outflow}, have {total} (account 0 plain UTXOs)"))
  let (picked, acc) := pickUntil outflow [] 0 (sortedByValue (plain.map Pick.plain))
  require (¬ acc < outflow)
    (.wallet (.invalidArg s!"faucet selection insufficient: need {outflow}, picked {acc}"))
  return ⟨picked, acc, Word.saturatingSub acc outflow⟩

def Pick.faucetOutPoint : Pick → Except SpendError OutPoint :=
  readOutPoint (fun e => .wallet (.rpc s!"faucet: bad tx_id hex: {e.text}")) (.wallet (.rpc "faucet: tx_id is not 32 bytes"))

/-- The transaction of a drip. The change goes back to the faucet as a plain output. -/
def drip [Crypto] [HybridKem] [Signing] (spendLevel : DilithiumLevel) (spendKp : PqcKeyPair) (recipient : StealthAddress)
    (plain : List P2pkhMatch) (amount fee : UInt64) (entropy : KemEntropy) : Except SpendError Transaction := do
  let selection ← selectDrip plain amount fee
  let builder ← addPicks Pick.faucetOutPoint selection.picks
  let (builder, _) ← (builder.addStealthOutput amount recipient entropy).mapError .wallet
  let builder :=
    if selection.change > 0 then
      builder.addOutput (TxOutput.new selection.change (p2pkhPqc (sha3_256 spendKp.publicKey)))
    else builder
  let builder ← (List.range selection.picks.length).foldlM (fun builder idx =>
    (builder.signPlainInput idx spendLevel spendKp.secretKey spendKp.publicKey).mapError .wallet) builder
  builder.buildUnsigned.mapError .wallet

/-! ### The generic selector -/

structure CoinSelection where
  selected : List OutPoint
  total : Amount
  change : Option Amount
deriving DecidableEq

structure CoinSelector where
  utxos : Std.ExtTreeMap OutPoint Amount

namespace CoinSelector

/-- Kept for fees and against dust. -/
def reserve : UInt64 := 1000

def selectFrom (target : Amount) (selected : List OutPoint) (total : Amount) :
    List (OutPoint × Amount) → Except WalletError CoinSelection
  | [] => .error (.coinSelection "insufficient")
  | (op, amt) :: rest => do
      let total ← okOr (Word.checkedAdd total amt) (.coinSelection "amount overflow")
      let needed ← okOr (Word.checkedAdd target reserve) (.coinSelection "target overflow")
      if total ≥ needed then return ⟨selected ++ [op], total, Word.checkedSub total target⟩
      else selectFrom target (selected ++ [op]) total rest

def select (self : CoinSelector) (target : Amount) : Except WalletError CoinSelection := do
  require (self.utxos.isEmpty = false) (.coinSelection "no utxos")
  selectFrom target [] 0 self.utxos.toList

end CoinSelector

end QuantumVault
