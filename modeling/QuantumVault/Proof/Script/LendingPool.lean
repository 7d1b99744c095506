import QuantumVault.Lib.Rounding
import QuantumVault.Lib.Signed
import QuantumVault.Proof.Script.Codec
import QuantumVault.Proof.Script.Datum

/-!
# What the lending pool lock enforces

Like the lock of the other kind of pool, it compares the datum of input 0 with that of output 0. Depositing and repaying need no witness but the selector of the branch; borrowing and withdrawing need a price that the oracle has signed.

The integers of the script machine are signed, and so are the comparisons of slots and of native values. A price slot with its top bit set is read as a negative number: it counts as past at every slot without it, although as an unsigned number it lies in the future.
-/

namespace QuantumVault

open Result

variable [Crypto] {ctx : Context} {stack final : Stack} {more : List Instruction} {old new : TxOutput}

/-! ### What is compared -/

/-- The length of a datum, as the lock measures it, is that of a lending pool datum. -/
def TxOutput.LendingSized (output : TxOutput) : Prop := (output.datum.getD []).length % 2 ^ 64 = lendingDatumLen

instance (output : TxOutput) : Decidable output.LendingSized := inferInstanceAs (Decidable (_ = _))

omit [Crypto] in
theorem TxOutput.LendingSized.length_le {output : TxOutput} (h : output.LendingSized) :
    146 ≤ (output.datum.getD []).length := by
  have hmod : (output.datum.getD []).length % 2 ^ 64 = 146 := h
  exact hmod ▸ Nat.mod_le _ _

def TxOutput.totalCollateral (output : TxOutput) : Nat := output.datumNat lendingDatumTotalCollateralOffset

def TxOutput.totalDebt (output : TxOutput) : Nat := output.datumNat lendingDatumTotalDebtOffset

/-- The datum carries these ids and these parameters. -/
structure TxOutput.HoldsLending (ids params : Bytes) (output : TxOutput) : Prop where
  sized : output.LendingSized
  ids_eq : datumField (output.datum.getD []) lendingDatumPoolIdOffset ids.length = ids
  params_eq : datumField (output.datum.getD []) lendingDatumParamsOffset params.length = params

/-- What stays the same from the pool that is spent to its successor. -/
structure LendingKept (ids params : Bytes) (old new : TxOutput) : Prop where
  old_holds : old.HoldsLending ids params
  new_holds : new.HoldsLending ids params
  interest_eq : datumField (old.datum.getD []) lendingDatumInterestBlockOffset lendingDatumInterestBlockLen =
    datumField (new.datum.getD []) lendingDatumInterestBlockOffset lendingDatumInterestBlockLen

def PoolsAt (ctx : Context) (old new : TxOutput) : Prop :=
  ctx.resolvedInputs[0]? = some old ∧ ctx.tx.outputs[0]? = some new

/-! ### Segments of the lock -/

section Segments

variable (hpools : PoolsAt ctx old new)

include hpools

theorem evalAll_lendingInterest (hold : old.LendingSized) (hnew : new.LendingSized) :
    evalAll ctx (lendingInterestInstructions ++ more) stack = .ok final ↔
      stack.length + 3 < 1024 ∧ datumField (old.datum.getD []) lendingDatumInterestBlockOffset lendingDatumInterestBlockLen =
        datumField (new.datum.getD []) lendingDatumInterestBlockOffset lendingDatumInterestBlockLen ∧
        evalAll ctx more stack = .ok final := by
  have hoffset : lendingDatumInterestBlockOffset < 2 ^ 64 := by decide
  have hlength : lendingDatumInterestBlockLen < 2 ^ 64 := by decide
  have hindex : poolOutputIndex = poolInputIndex := rfl
  simp only [lendingInterestInstructions, List.cons_append, List.nil_append]
  rw [evalAll_datumField (Or.inl rfl) hpools.1 hoffset hlength, hindex,
    evalAll_datumField (Or.inr rfl) hpools.2 hoffset hlength, evalAll_eq, evalAll_verify_ofBool, Value.bytes.injEq,
    List.length_cons]
  constructor
  · intro h
    obtain ⟨-, -, hroom, -, -, heq, hrest⟩ := h
    exact ⟨hroom, heq, hrest⟩
  · intro h
    obtain ⟨hroom, heq, hrest⟩ := h
    exact ⟨by omega, hold.length_le, hroom, hnew.length_le, by omega, heq, hrest⟩

theorem evalAll_lendingValue : evalAll ctx (lendingValueInstructions ++ more) stack = .ok final ↔
    stack.length + 1 < 1024 ∧ old.value.toInt64 ≤ new.value.toInt64 ∧ evalAll ctx more stack = .ok final := by
  have hzero : poolOutputIndex = 0 ∧ poolInputIndex = 0 := ⟨rfl, rfl⟩
  simp only [lendingValueInstructions, List.cons_append, List.nil_append, hzero.1, hzero.2, evalAll_pushInt,
    evalAll_readOutputValue, hpools.2, evalAll_readInputValue, hpools.1, Option.some.injEq, exists_eq_left', evalAll_ge,
    evalAll_verify_ofBool, List.length_cons]
  constructor
  · intro h
    obtain ⟨-, -, hroom, -, -, hle, hrest⟩ := h
    exact ⟨hroom, hle, hrest⟩
  · intro h
    obtain ⟨hroom, hle, hrest⟩ := h
    exact ⟨by omega, by omega, hroom, hroom, by omega, hle, hrest⟩

omit hpools in
theorem evalAll_pushLendingU64AsU128 {readOp : OpCode} {output : TxOutput} {offset : Nat} (hread : ReadsDatum readOp)
    (hget : (datumSource ctx readOp)[0]? = some output) (hoffset : offset < 2 ^ 64)
    (hbound : offset + 8 ≤ (output.datum.getD []).length) :
    evalAll ctx (pushLendingU64AsU128 readOp offset ++ more) stack = .ok final ↔
      stack.length + 2 < 1024 ∧
        evalAll ctx more (.bytes (datumField (output.datum.getD []) offset 8 ++ List.replicate 8 0) :: stack) =
          .ok final := by
  have hwidth : 8 < 2 ^ 64 := by decide
  have height : (8 : Int64) = Int64.ofNat 8 := rfl
  simp only [pushLendingU64AsU128, List.cons_append, List.nil_append, height]
  have hfits : (datumField (output.datum.getD []) offset 8).length + (List.replicate 8 (0 : UInt8)).length ≤ maxVecBytes := by
    rw [length_datumField hbound, List.length_replicate]
    decide
  rw [evalAll_datumField hread hget hoffset hwidth, evalAll_pushBytes, evalAll_cat, List.length_cons]
  constructor
  · intro h
    exact ⟨h.1, h.2.2.2.2.2⟩
  · intro h
    exact ⟨h.1, hbound, by omega, hfits, by omega, h.2⟩

omit hpools in
theorem evalAll_fieldGe {opA opB : OpCode} {a b : TxOutput} {offset : Nat} (hopA : ReadsDatum opA) (hopB : ReadsDatum opB)
    (ha : (datumSource ctx opA)[0]? = some a) (hb : (datumSource ctx opB)[0]? = some b) (hoffset : offset < 2 ^ 64)
    (haBound : offset + 8 ≤ (a.datum.getD []).length) (hbBound : offset + 8 ≤ (b.datum.getD []).length) :
    evalAll ctx (pushLendingU64AsU128 opA offset ++ (pushLendingU64AsU128 opB offset ++ .simple .geU128 ::
        .simple .verify :: more)) stack = .ok final ↔
      stack.length + 3 < 1024 ∧ b.datumNat offset ≤ a.datumNat offset ∧ evalAll ctx more stack = .ok final := by
  have hlen : ∀ {output : TxOutput}, offset + 8 ≤ (output.datum.getD []).length →
      (datumField (output.datum.getD []) offset 8 ++ List.replicate 8 0).length = 16 := by
    intro output hbound
    rw [List.length_append, length_datumField hbound, List.length_replicate]
  rw [evalAll_pushLendingU64AsU128 hopA ha hoffset haBound, evalAll_pushLendingU64AsU128 hopB hb hoffset hbBound,
    evalAll_geU128, evalAll_verify_ofBool, List.length_cons]
  simp only [Value.toCanonicalBytes, ofLittleEndian_append_zeros]
  constructor
  · intro h
    obtain ⟨-, hroom, -, -, hle, hrest⟩ := h
    exact ⟨hroom, hle, hrest⟩
  · intro h
    obtain ⟨hroom, hle, hrest⟩ := h
    exact ⟨by omega, hroom, ⟨hlen haBound, hlen hbBound⟩, by omega, hle, hrest⟩

/-- **Depositing and repaying.** -/
theorem evalAll_lendingRepay (hold : old.LendingSized) (hnew : new.LendingSized) :
    evalAll ctx (lendingRepayInstructions ++ more) stack = .ok final ↔
      stack.length + 3 < 1024 ∧ old.totalCollateral ≤ new.totalCollateral ∧ new.totalDebt ≤ old.totalDebt ∧
        evalAll ctx more stack = .ok final := by
  have hin : ReadsDatum .readInputDatum := Or.inl rfl
  have hout : ReadsDatum .readOutputDatum := Or.inr rfl
  have hoffset : lendingDatumTotalCollateralOffset < 2 ^ 64 ∧ lendingDatumTotalDebtOffset < 2 ^ 64 := by decide
  have hbound : ∀ {output : TxOutput}, output.LendingSized →
      lendingDatumTotalCollateralOffset + 8 ≤ (output.datum.getD []).length ∧
        lendingDatumTotalDebtOffset + 8 ≤ (output.datum.getD []).length :=
    fun h => ⟨le_trans (by decide) h.length_le, le_trans (by decide) h.length_le⟩
  simp only [lendingRepayInstructions, List.append_assoc, List.cons_append, List.nil_append]
  rw [evalAll_fieldGe hout hin hpools.2 hpools.1 hoffset.1 (hbound hnew).1 (hbound hold).1,
    evalAll_fieldGe hin hout hpools.1 hpools.2 hoffset.2 (hbound hold).2 (hbound hnew).2]
  refine and_congr_right fun hroom => and_congr_right fun _ => ?_
  exact and_iff_right hroom

end Segments

/-! ### What both ways of spending check -/

section Common

variable {ids params : Bytes} (hids : ids.length = 96) (hparams : params.length = 10)

include hids hparams

theorem evalAll_lendingCommon : evalAll ctx (lendingCommonInstructions ids params ++ more) stack = .ok final ↔
    stack.length + 3 < 1024 ∧ ∃ old new, PoolsAt ctx old new ∧ LendingKept ids params old new ∧
      old.value.toInt64 ≤ new.value.toInt64 ∧ evalAll ctx more stack = .ok final := by
  have hin : ReadsDatum .readInputDatum := Or.inl rfl
  have hout : ReadsDatum .readOutputDatum := Or.inr rfl
  have hidsLt : ids.length < 2 ^ 64 := by rw [hids]; decide
  have hparamsLt : params.length < 2 ^ 64 := by rw [hparams]; decide
  have hids₀ : lendingDatumPoolIdOffset < 2 ^ 64 := by decide
  have hparams₀ : lendingDatumParamsOffset < 2 ^ 64 := by decide
  simp only [lendingCommonInstructions, assertLendingDatumLen, assertLendingDatumRegion, List.append_assoc, List.cons_append,
    List.nil_append]
  constructor
  · intro hrun
    obtain ⟨-, old, hold, holdSized, hrun⟩ := (evalAll_assertDatumLen hin).mp hrun
    obtain ⟨-, new, hnew, hnewSized, hrun⟩ := (evalAll_assertDatumLen hout).mp hrun
    obtain ⟨-, -, holdIds, hrun⟩ := (evalAll_assertPoolDatumField hin hold hids₀ hidsLt).mp hrun
    obtain ⟨-, -, holdParams, hrun⟩ := (evalAll_assertPoolDatumField hin hold hparams₀ hparamsLt).mp hrun
    obtain ⟨-, -, hnewIds, hrun⟩ := (evalAll_assertPoolDatumField hout hnew hids₀ hidsLt).mp hrun
    obtain ⟨-, -, hnewParams, hrun⟩ := (evalAll_assertPoolDatumField hout hnew hparams₀ hparamsLt).mp hrun
    obtain ⟨hroom, hinterest, hrun⟩ := (evalAll_lendingInterest ⟨hold, hnew⟩ holdSized hnewSized).mp hrun
    obtain ⟨-, hvalue, hrun⟩ := (evalAll_lendingValue ⟨hold, hnew⟩).mp hrun
    exact ⟨hroom, old, new, ⟨hold, hnew⟩, ⟨⟨holdSized, holdIds, holdParams⟩, ⟨hnewSized, hnewIds, hnewParams⟩, hinterest⟩,
      hvalue, hrun⟩
  · intro h
    obtain ⟨hroom, old, new, ⟨hold, hnew⟩, hkept, hvalue, hrun⟩ := h
    have holdLen := hkept.old_holds.sized.length_le
    have hnewLen := hkept.new_holds.sized.length_le
    have hbounds : ∀ length, 146 ≤ length →
        lendingDatumPoolIdOffset + ids.length ≤ length ∧ lendingDatumParamsOffset + params.length ≤ length := by
      intro length hlength
      rw [hids, hparams, lendingDatumPoolIdOffset, lendingDatumParamsOffset]
      omega
    refine (evalAll_assertDatumLen hin).mpr ⟨by omega, old, hold, hkept.old_holds.sized, ?_⟩
    refine (evalAll_assertDatumLen hout).mpr ⟨by omega, new, hnew, hkept.new_holds.sized, ?_⟩
    refine (evalAll_assertPoolDatumField hin hold hids₀ hidsLt).mpr
      ⟨by omega, (hbounds _ holdLen).1, hkept.old_holds.ids_eq, ?_⟩
    refine (evalAll_assertPoolDatumField hin hold hparams₀ hparamsLt).mpr
      ⟨by omega, (hbounds _ holdLen).2, hkept.old_holds.params_eq, ?_⟩
    refine (evalAll_assertPoolDatumField hout hnew hids₀ hidsLt).mpr
      ⟨by omega, (hbounds _ hnewLen).1, hkept.new_holds.ids_eq, ?_⟩
    refine (evalAll_assertPoolDatumField hout hnew hparams₀ hparamsLt).mpr
      ⟨by omega, (hbounds _ hnewLen).2, hkept.new_holds.params_eq, ?_⟩
    refine (evalAll_lendingInterest ⟨hold, hnew⟩ hkept.old_holds.sized hkept.new_holds.sized).mpr
      ⟨hroom, hkept.interest_eq, ?_⟩
    exact (evalAll_lendingValue ⟨hold, hnew⟩).mpr ⟨by omega, hvalue, hrun⟩

end Common

theorem evalAll_lendingFinal : evalAll ctx lendingFinalInstructions stack = .ok final ↔
    stack.length + 1 < 1024 ∧ (∃ output, ctx.tx.outputs[0]? = some output ∧
      sha3_256 output.lockingScript = ctx.lockingScriptHash) ∧ final = .int 1 :: stack := by
  have hzero : poolOutputIndex = 0 := rfl
  rw [lendingFinalInstructions, hzero, evalAll_pushInt, evalAll_selfScriptHash, evalAll_assertOutputScriptHash,
    List.length_cons]
  simp only [evalAll_op1, evalAll_nil, Value.toCanonicalBytes]
  constructor
  · intro h
    obtain ⟨-, hroom, output, hget, hhash, -, hfinal⟩ := h
    exact ⟨hroom, ⟨output, hget, Hash256.ext hhash⟩, hfinal.symm⟩
  · intro h
    obtain ⟨hroom, ⟨output, hget, hhash⟩, hfinal⟩ := h
    exact ⟨by omega, hroom, output, hget, congrArg Hash256.bytes hhash, by omega, hfinal.symm⟩

/-! ### The oracle's price -/

/-- Eight bytes as an unsigned word. -/
def wordOf (data : Bytes) : UInt64 := UInt64.ofNat (ofLittleEndian data)

omit [Crypto] in
private theorem toNat_wordOf {data : Bytes} (h : data.length = 8) : (wordOf data).toNat = ofLittleEndian data :=
  toNat_ofLittleEndian h

/-- What the lock checks of a price, its slot, the oracle's key and its signature. The age is a difference of signed integers. -/
structure OracleApproves (ctx : Context) (factor maxAge : Int64) (oraclePrefix : Bytes) (oraclePkHash : Hash256)
    (new : TxOutput) (priceSlot price pk sig : Bytes) : Prop where
  slot_length : priceSlot.length = 8
  price_length : price.length = 8
  slot_le : (wordOf priceSlot).toInt64 ≤ ctx.currentSlot.toInt64
  age_le : ctx.currentSlot.toInt64 - (wordOf priceSlot).toInt64 ≤ maxAge
  debt_le : new.totalDebt * factor.toUInt64.toNat ≤ new.totalCollateral * ofLittleEndian price
  key_eq : sha3_256 pk = oraclePkHash
  signed : checksigPqc pk sig (oraclePrefix ++ price ++ priceSlot) = true

section Oracle

variable {factor maxAge : Int64} {oraclePrefix : Bytes} {oraclePkHash : Hash256}

/-- The age of the price. Its two numbers are taken off copies, so the signed bytes stay. -/
theorem evalAll_lendingFreshness {slot price : Value} :
    evalAll ctx (lendingFreshnessInstructions maxAge ++ more) (slot :: price :: stack) = .ok final ↔
      stack.length + 5 < 1024 ∧ slot.toCanonicalBytes.length = 8 ∧ price.toCanonicalBytes.length = 8 ∧
        (wordOf slot.toCanonicalBytes).toInt64 ≤ ctx.currentSlot.toInt64 ∧
        ctx.currentSlot.toInt64 - (wordOf slot.toCanonicalBytes).toInt64 ≤ maxAge ∧
        evalAll ctx more (.int (wordOf price.toCanonicalBytes).toInt64 :: slot :: price :: stack) = .ok final := by
  simp only [lendingFreshnessInstructions, List.cons_append, List.nil_append, evalAll_over, evalAll_pushInt,
    evalAll_bytesToInt, evalAll_dup, evalAll_slotNumber, evalAll_le, evalAll_verify_ofBool, evalAll_swap, evalAll_sub,
    List.length_cons]
  constructor
  · intro h
    obtain ⟨-, -, hprice, -, -, -, hslot, -, -, hroom, -, hle, -, -, -, -, -, hage, hrest⟩ := h
    exact ⟨hroom, hslot, hprice, hle, hage, hrest⟩
  · intro h
    obtain ⟨hroom, hslot, hprice, hle, hage, hrest⟩ := h
    exact ⟨by omega, by omega, hprice, by omega, by omega, by omega, hslot, by omega, by omega, hroom, by omega, hle,
      by omega, by omega, by omega, by omega, by omega, hage, hrest⟩

theorem evalAll_lendingCollateral {price : Int64} (hnew : ctx.tx.outputs[0]? = some new) (hsized : new.LendingSized) :
    evalAll ctx (lendingCollateralInstructions factor ++ more) (.int price :: stack) = .ok final ↔
      stack.length + 4 < 1024 ∧ new.totalDebt * factor.toUInt64.toNat ≤ new.totalCollateral * price.toUInt64.toNat ∧
        evalAll ctx more stack = .ok final := by
  have hout : ReadsDatum .readOutputDatum := Or.inr rfl
  have hdebt : lendingDatumTotalDebtOffset + 8 ≤ (new.datum.getD []).length := le_trans (by decide) hsized.length_le
  have hcollateral : lendingDatumTotalCollateralOffset + 8 ≤ (new.datum.getD []).length :=
    le_trans (by decide) hsized.length_le
  have hoffset : lendingDatumTotalDebtOffset < 2 ^ 64 ∧ lendingDatumTotalCollateralOffset < 2 ^ 64 := by decide
  simp only [lendingCollateralInstructions, pushLendingU64AsInt, List.append_assoc, List.cons_append, List.nil_append]
  constructor
  · intro hrun
    obtain ⟨-, -, hrun⟩ := (evalAll_pushPoolReserve hout hnew hoffset.1).mp hrun
    obtain ⟨-, hrun⟩ := evalAll_pushInt.mp hrun
    obtain ⟨-, hrun⟩ := evalAll_mulU128.mp hrun
    obtain ⟨hroom, -, hrun⟩ := (evalAll_pushPoolReserve hout hnew hoffset.2).mp hrun
    obtain ⟨-, hrun⟩ := evalAll_rot.mp hrun
    obtain ⟨-, hrun⟩ := evalAll_mulU128.mp hrun
    obtain ⟨-, hrun⟩ := evalAll_swap.mp hrun
    obtain ⟨-, -, hrun⟩ := evalAll_geU128.mp hrun
    obtain ⟨hle, hrun⟩ := evalAll_verify_ofBool.mp hrun
    simp only [Value.toCanonicalBytes, ofLittleEndian_mulU128] at hle
    rw [toNat_pushPoolReserve hdebt, toNat_pushPoolReserve hcollateral] at hle
    exact ⟨hroom, hle, hrun⟩
  · intro h
    obtain ⟨hroom, hle, hrun⟩ := h
    refine (evalAll_pushPoolReserve hout hnew hoffset.1).mpr ⟨by rw [List.length_cons]; omega, hdebt, ?_⟩
    refine evalAll_pushInt.mpr ⟨by rw [List.length_cons, List.length_cons]; omega, evalAll_mulU128.mpr ⟨?_, ?_⟩⟩
    · rw [List.length_cons]
      omega
    refine (evalAll_pushPoolReserve hout hnew hoffset.2).mpr ⟨hroom, hcollateral, ?_⟩
    refine evalAll_rot.mpr ⟨by omega, evalAll_mulU128.mpr ⟨by rw [List.length_cons]; omega, ?_⟩⟩
    refine evalAll_swap.mpr ⟨by omega, evalAll_geU128.mpr ⟨⟨length_toLittleEndian _ _, length_toLittleEndian _ _⟩, ?_, ?_⟩⟩
    · omega
    refine evalAll_verify_ofBool.mpr ⟨?_, hrun⟩
    simp only [Value.toCanonicalBytes, ofLittleEndian_mulU128]
    rwa [toNat_pushPoolReserve hdebt, toNat_pushPoolReserve hcollateral]

theorem evalAll_lendingSignature {slot price pk sig : Value}
    (hfits : oraclePrefix.length + price.toCanonicalBytes.length + slot.toCanonicalBytes.length ≤ maxVecBytes) :
    evalAll ctx (lendingSignatureInstructions oraclePrefix oraclePkHash ++ more) (slot :: price :: pk :: sig :: stack) =
        .ok final ↔
      stack.length + 4 < 1024 ∧ sha3_256 pk.toCanonicalBytes = oraclePkHash ∧
        checksigPqc pk.toCanonicalBytes sig.toCanonicalBytes
          (oraclePrefix ++ price.toCanonicalBytes ++ slot.toCanonicalBytes) = true ∧ evalAll ctx more stack = .ok final := by
  have hkey : ∀ h : Hash256, h.bytes = oraclePkHash.bytes ↔ h = oraclePkHash :=
    fun h => ⟨Hash256.ext, congrArg Hash256.bytes⟩
  simp only [lendingSignatureInstructions, List.cons_append, List.nil_append, evalAll_swap, evalAll_pushBytes, evalAll_cat,
    evalAll_over, evalAll_hashSha3, evalAll_eq, evalAll_rot, evalAll_checkSigPqc, evalAll_verify,
    Value.isTruthy_ofBool, Value.bytes.injEq, Value.toCanonicalBytes_bytes, decide_eq_true_iff, List.length_append,
    List.length_cons, hkey]
  constructor
  · intro h
    obtain ⟨-, hroom, -, -, -, -, -, -, -, -, -, -, hpk, -, -, -, hsigned, hrest⟩ := h
    exact ⟨hroom, hpk, hsigned, hrest⟩
  · intro h
    obtain ⟨hroom, hpk, hsigned, hrest⟩ := h
    exact ⟨by omega, hroom, by omega, by omega, by omega, by omega, by omega, by omega, by omega, by omega, by omega,
      by omega, hpk, by omega, by omega, by omega, hsigned, hrest⟩

/-- **Borrowing and withdrawing.** The witness has left a price with its slot, the oracle's key and its signature. -/
theorem evalAll_lendingOracle {slot price pk sig : Value} (hlead : oraclePrefix.length = 62)
    (hnew : ctx.tx.outputs[0]? = some new) (hsized : new.LendingSized) :
    evalAll ctx (lendingOracleInstructions factor maxAge oraclePrefix oraclePkHash ++ more)
        (slot :: price :: pk :: sig :: stack) = .ok final ↔
      stack.length + 8 < 1024 ∧ OracleApproves ctx factor maxAge oraclePrefix oraclePkHash new slot.toCanonicalBytes
        price.toCanonicalBytes pk.toCanonicalBytes sig.toCanonicalBytes ∧ evalAll ctx more stack = .ok final := by
  have hnumber : price.toCanonicalBytes.length = 8 →
      (wordOf price.toCanonicalBytes).toInt64.toUInt64.toNat = ofLittleEndian price.toCanonicalBytes :=
    toNat_ofLittleEndian
  have hfits : slot.toCanonicalBytes.length = 8 → price.toCanonicalBytes.length = 8 →
      oraclePrefix.length + price.toCanonicalBytes.length + slot.toCanonicalBytes.length ≤ maxVecBytes := by
    intro hslot hprice
    rw [hlead, hslot, hprice]
    decide
  simp only [lendingOracleInstructions, List.append_assoc]
  constructor
  · intro hrun
    obtain ⟨-, hslot, hprice, hle, hage, hrun⟩ := evalAll_lendingFreshness.mp hrun
    obtain ⟨hroom', hdebt, hrun⟩ := (evalAll_lendingCollateral hnew hsized).mp hrun
    obtain ⟨-, hkey, hsigned, hrun⟩ := (evalAll_lendingSignature (hfits hslot hprice)).mp hrun
    rw [hnumber hprice] at hdebt
    simp only [List.length_cons] at hroom'
    exact ⟨hroom', ⟨hslot, hprice, hle, hage, hdebt, hkey, hsigned⟩, hrun⟩
  · intro h
    obtain ⟨hroom, happroves, hrun⟩ := h
    have hprice := happroves.price_length
    refine evalAll_lendingFreshness.mpr ⟨?_, happroves.slot_length, hprice, happroves.slot_le,
      happroves.age_le, (evalAll_lendingCollateral hnew hsized).mpr ⟨?_, ?_, ?_⟩⟩
    · simp only [List.length_cons]
      omega
    · simp only [List.length_cons]
      omega
    · rw [hnumber hprice]
      exact happroves.debt_le
    · exact (evalAll_lendingSignature (hfits happroves.slot_length hprice)).mpr
        ⟨by omega, happroves.key_eq, happroves.signed, hrun⟩

private theorem exists_of_lendingOracle
    (hrun : evalAll ctx (lendingOracleInstructions factor maxAge oraclePrefix oraclePkHash ++ more) stack = .ok final)
    (hnew : ctx.tx.outputs[0]? = some new) (hsized : new.LendingSized) :
    ∃ slot price pk sig rest, stack = slot :: price :: pk :: sig :: rest := by
  obtain _ | ⟨slot, _ | ⟨price, below⟩⟩ := stack
  · cases hrun
  · cases hrun
  · simp only [lendingOracleInstructions, List.append_assoc] at hrun
    obtain ⟨-, -, -, -, -, hrun⟩ := evalAll_lendingFreshness.mp hrun
    obtain ⟨-, -, hrun⟩ := (evalAll_lendingCollateral hnew hsized).mp hrun
    simp only [lendingSignatureInstructions, List.cons_append, List.nil_append, evalAll_swap, evalAll_pushBytes,
      evalAll_cat] at hrun
    obtain ⟨-, -, -, -, -, -, -, -, hrun⟩ := hrun
    obtain _ | ⟨pk, _ | ⟨sig, rest⟩⟩ := below
    · cases hrun
    · obtain ⟨-, hrun⟩ := evalAll_over.mp hrun
      obtain ⟨-, hrun⟩ := evalAll_hashSha3.mp hrun
      obtain ⟨-, hrun⟩ := evalAll_pushBytes.mp hrun
      obtain ⟨-, hrun⟩ := evalAll_eq.mp hrun
      obtain ⟨-, hrun⟩ := evalAll_verify_ofBool.mp hrun
      cases hrun
    · exact ⟨slot, price, pk, sig, rest, rfl⟩

end Oracle

/-! ### The bytes of the lock -/

def lendingOps : List OpCode :=
  [.readInputDatum, .readOutputDatum, .readInputValue, .readOutputValue, .slotNumber, .len, .eq, .verify, .slice, .cat,
    .bytesToInt, .mulU128, .geU128, .ge, .le, .sub, .over, .dup, .swap, .rot, .hashSha3, .checkSigPqc, .selfScriptHash,
    .assertOutputScriptHash, .op1]

section Bytes

variable {ids params oraclePrefix : Bytes} {factor maxAge : Int64} {oraclePkHash : Hash256}
  (hids : ids.length = 96) (hparams : params.length = 10) (hlead : oraclePrefix.length = 62)

include hids hparams hlead

omit [Crypto] in
theorem forall_lendingParts {P : Instruction → Prop} (hint : ∀ n, P (ScriptBuilder.pushInt n))
    (hbytes : ∀ data, data ≠ [] → data.length ≤ 96 → P (.pushBytes data))
    (hsimple : ∀ op ∈ lendingOps, P (.simple op)) :
    (∀ instr ∈ lendingCommonInstructions ids params, P instr) ∧
      (∀ instr ∈ lendingOracleInstructions factor maxAge oraclePrefix oraclePkHash, P instr) ∧
      (∀ instr ∈ lendingRepayInstructions, P instr) ∧ ∀ instr ∈ lendingFinalInstructions, P instr := by
  have hne : ∀ {data : Bytes}, 0 < data.length → data ≠ [] := fun h => List.ne_nil_of_length_pos h
  have hidsP : P (.pushBytes ids) := hbytes _ (hne (by omega)) (by omega)
  have hparamsP : P (.pushBytes params) := hbytes _ (hne (by omega)) (by omega)
  have hprefixP : P (.pushBytes oraclePrefix) := hbytes _ (hne (by omega)) (by omega)
  have hkey : P (.pushBytes oraclePkHash.bytes) := hbytes _ oraclePkHash.bytes_ne_nil (by rw [oraclePkHash.length_eq]; decide)
  have hzeros : P (.pushBytes (List.replicate 8 0)) := hbytes _ (by decide) (by decide)
  simp only [lendingOps, List.forall_mem_cons] at hsimple
  refine ⟨?_, ?_, ?_, ?_⟩
  · simp only [lendingCommonInstructions, lendingInterestInstructions, lendingValueInstructions, assertLendingDatumLen,
      assertLendingDatumRegion, assertPoolDatumField, List.forall_mem_append, List.forall_mem_cons, hint, hidsP, hparamsP,
      hsimple, true_and]
    simp
  · simp only [lendingOracleInstructions, lendingFreshnessInstructions, lendingCollateralInstructions,
      lendingSignatureInstructions, pushLendingU64AsInt, pushPoolReserve, List.forall_mem_append, List.forall_mem_cons, hint,
      hprefixP, hkey, hsimple, true_and]
    simp
  · simp only [lendingRepayInstructions, pushLendingU64AsU128, List.forall_mem_append, List.forall_mem_cons, hint, hzeros,
      hsimple, true_and]
    simp
  · simp only [lendingFinalInstructions, List.forall_mem_cons, hint, hsimple, true_and]
    simp

omit [Crypto] in
private theorem isPlain_lendingParts : (∀ instr ∈ lendingCommonInstructions ids params, instr.IsPlain) ∧
    (∀ instr ∈ lendingOracleInstructions factor maxAge oraclePrefix oraclePkHash, instr.IsPlain) ∧
    (∀ instr ∈ lendingRepayInstructions, instr.IsPlain) ∧ ∀ instr ∈ lendingFinalInstructions, instr.IsPlain := by
  apply forall_lendingParts hids hparams hlead
  · intro n
    exact isPlain_of_isConstant (ScriptBuilder.isConstant_pushInt n)
  · intro data _ hlen
    rw [Instruction.pushBytes, if_pos (by omega)]
    exact isPlain_of_isConstant rfl
  · show ∀ op ∈ lendingOps, op ≠ .opIf ∧ op ≠ .opElse ∧ op ≠ .endIf ∧ op ≠ .checkMultiSigPqc
    decide

omit [Crypto] in
theorem forall_lendingPoolInstructions {P : Instruction → Prop} (hint : ∀ n, P (ScriptBuilder.pushInt n))
    (hbytes : ∀ data, data ≠ [] → data.length ≤ 96 → P (.pushBytes data))
    (hsimple : ∀ op : OpCode, op.isPush = false → op ≠ .checkMultiSigPqc → P (.simple op)) :
    ∀ instr ∈ lendingPoolInstructions ids params oraclePrefix factor maxAge oraclePkHash, P instr := by
  have hops : ∀ op ∈ lendingOps, op.isPush = false ∧ op ≠ .checkMultiSigPqc := by decide
  obtain ⟨hcommon, horacle, hrepay, hfinal⟩ := @forall_lendingParts ids params oraclePrefix factor maxAge oraclePkHash
    hids hparams hlead P hint hbytes fun op hop => hsimple op (hops op hop).1 (hops op hop).2
  simp only [lendingPoolInstructions, List.forall_mem_append, List.forall_mem_cons]
  exact ⟨⟨hcommon, hsimple _ rfl (by decide), horacle, hsimple _ rfl (by decide), hrepay, hsimple _ rfl (by decide),
    List.forall_mem_nil _⟩, hfinal⟩

omit [Crypto] in
omit hids hparams hlead in
private theorem length_lendingPoolInstructions :
    (lendingPoolInstructions ids params oraclePrefix factor maxAge oraclePkHash).length = 153 := by
  simp only [lendingPoolInstructions, lendingCommonInstructions, lendingInterestInstructions, lendingValueInstructions,
    assertLendingDatumLen, assertLendingDatumRegion, assertPoolDatumField, lendingOracleInstructions,
    lendingFreshnessInstructions, lendingCollateralInstructions, lendingSignatureInstructions, pushLendingU64AsInt,
    pushPoolReserve, lendingRepayInstructions, pushLendingU64AsU128, lendingFinalInstructions, List.length_append,
    List.length_cons, List.length_nil]

omit [Crypto] in
private theorem gasTotal_lendingPoolInstructions :
    gasTotal (lendingPoolInstructions ids params oraclePrefix factor maxAge oraclePkHash) ≤ 76500 := by
  have hprice : ∀ instr ∈ lendingPoolInstructions ids params oraclePrefix factor maxAge oraclePkHash,
      (gasCost instr.op).toNat ≤ 500 := by
    refine forall_lendingPoolInstructions hids hparams hlead ?_ ?_ ?_
    · intro n
      exact (ScriptBuilder.gasCost_pushInt n).trans (by decide)
    · intro data _ hlen
      rw [Instruction.pushBytes, if_pos (by omega)]
      exact (show (gasCost .push1).toNat ≤ 500 by decide)
    · intro op _ hmulti
      revert hmulti
      cases op <;> decide
  have htotal := gasTotal_le hprice
  rwa [length_lendingPoolInstructions] at htotal

omit [Crypto] in
theorem length_encode_lendingPoolInstructions :
    (encodeInstructions (lendingPoolInstructions ids params oraclePrefix factor maxAge oraclePkHash)).length ≤ 2048 := by
  have hint := ScriptBuilder.length_encode_pushInt
  have hzeros : (List.replicate 8 (0 : UInt8)).length = 8 := List.length_replicate
  have hkey := oraclePkHash.length_eq
  simp (disch := first | decide | omega) only [lendingPoolInstructions, lendingCommonInstructions,
    lendingInterestInstructions, lendingValueInstructions, assertLendingDatumLen, assertLendingDatumRegion,
    assertPoolDatumField, lendingOracleInstructions, lendingFreshnessInstructions, lendingCollateralInstructions,
    lendingSignatureInstructions, pushLendingU64AsInt, pushPoolReserve, lendingRepayInstructions, pushLendingU64AsU128,
    lendingFinalInstructions, length_encodeInstructions_append, length_encodeInstructions_cons,
    Instruction.length_encode_pushBytes, Instruction.length_encode_simple, hids, hparams, hlead, hzeros, hkey]
  have hnil : (encodeInstructions []).length = 0 := rfl
  have hinput := hint poolInputIndex
  have houtput := hint poolOutputIndex
  have hlen := hint (Int64.ofNat lendingDatumLen)
  have hidsOffset := hint (Int64.ofNat lendingDatumPoolIdOffset)
  have hidsLen := hint (Int64.ofNat 96)
  have hcollateral := hint (Int64.ofNat lendingDatumTotalCollateralOffset)
  have hdebt := hint (Int64.ofNat lendingDatumTotalDebtOffset)
  have hparamsOffset := hint (Int64.ofNat lendingDatumParamsOffset)
  have hparamsLen := hint (Int64.ofNat 10)
  have hinterest := hint (Int64.ofNat lendingDatumInterestBlockOffset)
  have hinterestLen := hint (Int64.ofNat lendingDatumInterestBlockLen)
  have hword := hint 8
  have hreserve := hint (Int64.ofNat poolDatumReserveLen)
  have hfactor := hint factor
  have hage := hint maxAge
  omega

omit [Crypto] in
private theorem decodeScript_lendingPoolInstructions :
    decodeScript (encodeInstructions (lendingPoolInstructions ids params oraclePrefix factor maxAge oraclePkHash)) =
      .ok (lendingPoolInstructions ids params oraclePrefix factor maxAge oraclePkHash) := by
  apply decodeScript_encodeInstructions
  · refine forall_lendingPoolInstructions hids hparams hlead ?_ ?_ ?_
    · exact ScriptBuilder.wellFormed_pushInt
    · intro data hne hlen
      exact Instruction.wellFormed_pushBytes hne (by omega)
    · intro op hpush _
      exact Instruction.wellFormed_simple hpush
  · exact (length_encode_lendingPoolInstructions hids hparams hlead).trans (by decide)

end Bytes

/-! ### The whole lock -/

/-- The pool at input 0 is continued by output 0, as both ways of spending ask. Native values are compared as signed integers. -/
structure LendingContinued (lock ids params : Bytes) (tx : Transaction) (resolved : List TxOutput) (old new : TxOutput) :
    Prop where
  input_eq : resolved[0]? = some old
  output_eq : tx.outputs[0]? = some new
  kept : LendingKept ids params old new
  value_le : old.value.toInt64 ≤ new.value.toInt64
  script_eq : new.lockingScript = lock

section Lock

variable {poolId collateralTokenId debtTokenId oraclePkHash : Hash256} {params : LendingPoolScriptParams}
  {maxPriceAgeSlots : UInt64} {lock witness : Bytes} {tx : Transaction} {resolved : List TxOutput} {slot : Slot}
  {selector : Value} {cells : Stack}

omit [Crypto] in
theorem lendingPoolLock_eq_ok
    (h : lendingPoolLock poolId collateralTokenId debtTokenId params oraclePkHash maxPriceAgeSlots = .ok lock) :
    ∃ factor, lendingLtvFactor params.ltvMaxBps = .ok factor ∧ maxPriceAgeSlots.toNat < 2 ^ 63 ∧
      lock = encodeInstructions (lendingPoolInstructions (poolId.bytes ++ collateralTokenId.bytes ++ debtTokenId.bytes)
        params.toLeBytes (lendingOracleDomainTag ++ poolId.bytes) factor.toInt64 maxPriceAgeSlots.toInt64 oraclePkHash) := by
  obtain ⟨factor, hfactor, h⟩ := bind_eq_ok.mp h
  obtain ⟨hage, h⟩ := require_bind_eq_ok.mp h
  exact ⟨factor, hfactor, hage, (pure_eq_ok.mp h).symm⟩

omit [Crypto] in
theorem lending_constants : (poolId.bytes ++ collateralTokenId.bytes ++ debtTokenId.bytes).length = 96 ∧
    params.toLeBytes.length = 10 ∧ (lendingOracleDomainTag ++ poolId.bytes).length = 62 := by
  have htag : lendingOracleDomainTag.length = 30 := by decide
  refine ⟨?_, ?_, ?_⟩
  · rw [List.length_append, List.length_append, poolId.length_eq, collateralTokenId.length_eq, debtTokenId.length_eq]
  · simp only [LendingPoolScriptParams.toLeBytes, List.length_append, length_toLittleEndian]
  · rw [List.length_append, htag, poolId.length_eq]

/-- **The lock after a witness of constants.** Both ways of spending begin with the same checks, on a stack that has room for four more values, and the top of the witness selects what follows. -/
theorem accepted_lendingPoolLock_iff {factor : UInt64} {ws : List Instruction}
    (hlock : lock = encodeInstructions (lendingPoolInstructions
      (poolId.bytes ++ collateralTokenId.bytes ++ debtTokenId.bytes) params.toLeBytes
      (lendingOracleDomainTag ++ poolId.bytes) factor.toInt64 maxPriceAgeSlots.toInt64 oraclePkHash))
    (hdecode : decodeScript witness = .ok ws) (hconst : ∀ instr ∈ ws, instr.op.isConstant = true)
    (hwitness : witnessStack witness = selector :: cells) :
    Accepted lock witness tx resolved slot ↔ (witness ++ lock).length ≤ OpCode.maxScriptSize ∧ cells.length + 4 < 1024 ∧
      (∃ old new, PoolsAt (.new tx resolved slot lock) old new ∧
        LendingKept (poolId.bytes ++ collateralTokenId.bytes ++ debtTokenId.bytes) params.toLeBytes old new ∧
        old.value.toInt64 ≤ new.value.toInt64) ∧
      ∃ final, evalAll (.new tx resolved slot lock)
        (selected selector (lendingOracleInstructions factor.toInt64 maxPriceAgeSlots.toInt64
          (lendingOracleDomainTag ++ poolId.bytes) oraclePkHash) lendingRepayInstructions ++ lendingFinalInstructions)
        cells = .ok final ∧ Succeeds final := by
  obtain ⟨hids, hparams, hlead⟩ := @lending_constants poolId collateralTokenId debtTokenId params
  have hdecodeLock := hlock ▸ decodeScript_lendingPoolInstructions hids hparams hlead
  obtain ⟨hcommon, horacle, hrepay, hfinal⟩ := isPlain_lendingParts hids hparams hlead
  have hwell := (decodeScript_inv hdecode).1
  have hstack : (ws.map Instruction.pushed).reverse = selector :: cells := (witnessStack_eq hdecode).symm.trans hwitness
  have hcount : ws.length = cells.length + 1 := by
    have hlen := congrArg List.length hstack
    rwa [List.length_reverse, List.length_map, List.length_cons] at hlen
  have hplain : ∀ instr ∈ ws ++ lendingCommonInstructions (poolId.bytes ++ collateralTokenId.bytes ++ debtTokenId.bytes)
      params.toLeBytes, instr.IsPlain := by
    rw [List.forall_mem_append]
    exact ⟨fun instr hinstr => isPlain_of_isConstant (hconst instr hinstr), hcommon⟩
  rw [accepted_iff_conditional hdecode hdecodeLock hplain horacle hrepay hfinal]
  refine and_congr_right fun _ => ?_
  have hprice : gasTotal ws ≤ ws.length * 10 := gasTotal_le fun instr hinstr => gasCost_le_of_isConstant (hconst instr hinstr)
  have hlockPrice := @gasTotal_lendingPoolInstructions _ _ _ factor.toInt64 maxPriceAgeSlots.toInt64 oraclePkHash
    hids hparams hlead
  constructor
  · intro h
    obtain ⟨-, cond, rest, final, hfirst, hsecond, hsuccess⟩ := h
    obtain ⟨-, hrun⟩ := (evalAll_witness hdecode hconst hwell).mp hfirst
    rw [← List.append_nil (lendingCommonInstructions _ _)] at hrun
    obtain ⟨hroom, old, new, hpools, hkept, hvalue, hrun⟩ := (evalAll_lendingCommon hids hparams).mp hrun
    rw [hwitness, List.length_cons] at hroom
    rw [hwitness, evalAll_nil, List.cons.injEq] at hrun
    obtain ⟨rfl, rfl⟩ := hrun
    exact ⟨by omega, ⟨old, new, hpools, hkept, hvalue⟩, final, hsecond, hsuccess⟩
  · intro h
    obtain ⟨hroom, ⟨old, new, hpools, hkept, hvalue⟩, final, hsecond, hsuccess⟩ := h
    refine ⟨?_, selector, cells, final, (evalAll_witness hdecode hconst hwell).mpr ⟨?_, ?_⟩, hsecond, hsuccess⟩
    · have hsplit : gasTotal (ws ++ lendingCommonInstructions (poolId.bytes ++ collateralTokenId.bytes ++ debtTokenId.bytes)
          params.toLeBytes ++ conditional (lendingOracleInstructions factor.toInt64 maxPriceAgeSlots.toInt64
            (lendingOracleDomainTag ++ poolId.bytes) oraclePkHash) lendingRepayInstructions ++ lendingFinalInstructions) =
          gasTotal ws + gasTotal (lendingPoolInstructions (poolId.bytes ++ collateralTokenId.bytes ++ debtTokenId.bytes)
            params.toLeBytes (lendingOracleDomainTag ++ poolId.bytes) factor.toInt64 maxPriceAgeSlots.toInt64
            oraclePkHash) := by
        rw [List.append_assoc, List.append_assoc, gasTotal_append, ← List.append_assoc]
        rfl
      rw [hsplit]
      omega
    · rw [hwitness, List.length_cons]
      omega
    · rw [hwitness, ← List.append_nil (lendingCommonInstructions _ _)]
      refine (evalAll_lendingCommon hids hparams).mpr ⟨?_, old, new, hpools, hkept, hvalue, rfl⟩
      rw [List.length_cons]
      omega

/-- **What the lending pool lock enforces.** On the oracle path a spend has a price that the oracle has signed; its slot is at most the current slot and at most `maxPriceAgeSlots` old as a signed number, and therefore as an unsigned one unless only the price slot has its top bit set; the new debt is covered, and the pool is continued. On the other path a spend is accepted exactly if the pool is continued, collateral does not fall and debt does not rise, for a witness that leaves room on the stack and in the script. -/
theorem lendingPoolLock_enforces
    (hlock : lendingPoolLock poolId collateralTokenId debtTokenId params oraclePkHash maxPriceAgeSlots = .ok lock)
    (hcollision : ∀ script, sha3_256 script = sha3_256 lock → script = lock) (honly : PushOnly witness)
    (hwitness : witnessStack witness = selector :: cells) :
    let ids := poolId.bytes ++ collateralTokenId.bytes ++ debtTokenId.bytes
    (selector.isTruthy = true → Accepted lock witness tx resolved slot →
      ∃ (factor : UInt64) (old new : TxOutput) (priceSlot price pk sig : Value) (rest : Stack),
        lendingLtvFactor params.ltvMaxBps = .ok factor ∧ cells = priceSlot :: price :: pk :: sig :: rest ∧
        LendingContinued lock ids params.toLeBytes tx resolved old new ∧
        ((new.value.toNat < 2 ^ 63 → old.value.toNat < 2 ^ 63) → old.value.toNat ≤ new.value.toNat) ∧
        priceSlot.toCanonicalBytes.length = 8 ∧ price.toCanonicalBytes.length = 8 ∧
        (wordOf priceSlot.toCanonicalBytes).toInt64 ≤ slot.toInt64 ∧
        slot.toInt64 - (wordOf priceSlot.toCanonicalBytes).toInt64 ≤ maxPriceAgeSlots.toInt64 ∧
        ((slot.toNat < 2 ^ 63 → ofLittleEndian priceSlot.toCanonicalBytes < 2 ^ 63) →
          ofLittleEndian priceSlot.toCanonicalBytes ≤ slot.toNat ∧
            slot.toNat - ofLittleEndian priceSlot.toCanonicalBytes ≤ maxPriceAgeSlots.toNat) ∧
        sha3_256 pk.toCanonicalBytes = oraclePkHash ∧
        checksigPqc pk.toCanonicalBytes sig.toCanonicalBytes
          (lendingOracleDomainTag ++ poolId.bytes ++ price.toCanonicalBytes ++ priceSlot.toCanonicalBytes) = true ∧
        new.totalDebt * factor.toNat ≤ new.totalCollateral * ofLittleEndian price.toCanonicalBytes) ∧
    (selector.isTruthy = false → (Accepted lock witness tx resolved slot ↔
      (witness ++ lock).length ≤ OpCode.maxScriptSize ∧ cells.length + 4 < 1024 ∧
        ∃ old new, LendingContinued lock ids params.toLeBytes tx resolved old new ∧
          old.totalCollateral ≤ new.totalCollateral ∧ new.totalDebt ≤ old.totalDebt)) := by
  intro ids
  obtain ⟨factor, hfactor, hage, hbytes⟩ := lendingPoolLock_eq_ok hlock
  obtain ⟨ws, hdecode, hconst⟩ := honly
  have hlead := (@lending_constants poolId collateralTokenId debtTokenId params).2.2
  rw [accepted_lendingPoolLock_iff hbytes hdecode hconst hwitness]
  constructor
  · intro htrue h
    obtain ⟨-, -, ⟨old, new, hpools, hkept, hvalue⟩, final, hrun, -⟩ := h
    rw [selected, if_pos htrue] at hrun
    obtain ⟨priceSlot, price, pk, sig, rest, hcells⟩ := exists_of_lendingOracle hrun hpools.2 hkept.new_holds.sized
    rw [hcells] at hrun
    obtain ⟨-, happroves, hrun⟩ := (evalAll_lendingOracle hlead hpools.2 hkept.new_holds.sized).mp hrun
    obtain ⟨-, ⟨output, hget, hhash⟩, -⟩ := evalAll_lendingFinal.mp hrun
    cases hpools.2.symm.trans hget
    have hword := toNat_wordOf happroves.slot_length
    refine ⟨factor, old, new, priceSlot, price, pk, sig, rest, hfactor, hcells,
      ⟨hpools.1, hpools.2, hkept, hvalue, hcollision _ hhash⟩, Signed.le_of_toInt64_le hvalue, happroves.slot_length,
      happroves.price_length, happroves.slot_le, happroves.age_le, ?_, happroves.key_eq, happroves.signed,
      happroves.debt_le⟩
    intro htop
    rw [← hword] at htop ⊢
    exact ⟨Signed.le_of_toInt64_le happroves.slot_le htop,
      Signed.sub_le_of_toInt64 happroves.slot_le happroves.age_le htop hage⟩
  · intro hfalse
    refine and_congr_right fun _ => and_congr_right fun hroom => ?_
    rw [selected, if_neg (by rw [hfalse]; decide)]
    constructor
    · intro h
      obtain ⟨⟨old, new, hpools, hkept, hvalue⟩, final, hrun, -⟩ := h
      obtain ⟨-, hcollateral, hdebt, hrun⟩ :=
        (evalAll_lendingRepay hpools hkept.old_holds.sized hkept.new_holds.sized).mp hrun
      obtain ⟨-, ⟨output, hget, hhash⟩, -⟩ := evalAll_lendingFinal.mp hrun
      cases hpools.2.symm.trans hget
      exact ⟨old, new, ⟨hpools.1, hpools.2, hkept, hvalue, hcollision _ hhash⟩, hcollateral, hdebt⟩
    · intro h
      obtain ⟨old, new, hcontinued, hcollateral, hdebt⟩ := h
      have hpools : PoolsAt (.new tx resolved slot lock) old new := ⟨hcontinued.input_eq, hcontinued.output_eq⟩
      have hscript : sha3_256 new.lockingScript = sha3_256 lock := congrArg sha3_256 hcontinued.script_eq
      refine ⟨⟨old, new, hpools, hcontinued.kept, hcontinued.value_le⟩, .int 1 :: cells, ?_, rfl⟩
      refine (evalAll_lendingRepay hpools hcontinued.kept.old_holds.sized hcontinued.kept.new_holds.sized).mpr
        ⟨by omega, hcollateral, hdebt, ?_⟩
      exact evalAll_lendingFinal.mpr ⟨by omega, ⟨new, hcontinued.output_eq, hscript⟩, rfl⟩

end Lock

/-! ### A price from the future -/

def lendingParams : LendingPoolScriptParams := ⟨100, 5000, 7500, 8000, 1000⟩

def lendingKey : Bytes := List.replicate 1312 0

/-- A pool whose prices may be 100 slots old. -/
def lendingScript : Bytes :=
  encodeInstructions (lendingPoolInstructions (List.replicate 96 0) lendingParams.toLeBytes
    (lendingOracleDomainTag ++ List.replicate 32 0) 1333334 100 (sampleDigest lendingKey))

def lendingOutput (collateral debt : Nat) : TxOutput :=
  ⟨1000, lendingScript, some (List.replicate 96 0 ++ toLittleEndian 8 collateral ++ toLittleEndian 8 debt ++
    lendingParams.toLeBytes ++ List.replicate 24 0), none⟩

/-- Primitives under which nothing collides with the lock, and every signature of the right length verifies. -/
@[reducible] def lendingCrypto : Crypto :=
  ⟨fun bytes => if bytes = lendingScript then .zero else sampleDigest bytes, sampleDigest, fun _ _ _ _ => true⟩

/-- A signature, the oracle's key, a price of one, and a slot with all bits set. -/
def futureWitness : Bytes :=
  encodeInstructions [.pushBytes (List.replicate 2420 0), .pushBytes lendingKey, .pushBytes (toLittleEndian 8 1000000),
    .pushBytes (List.replicate 8 255), .simple .op1]

def lendingTx (witness : Bytes) : Transaction := .new [⟨⟨.zero, 0⟩, witness⟩] [lendingOutput 100 10]

omit [Crypto] in
theorem lendingCrypto_collision (script : Bytes)
    (h : @sha3_256 lendingCrypto script = @sha3_256 lendingCrypto lendingScript) : script = lendingScript := by
  have hzero : @sha3_256 lendingCrypto lendingScript = .zero := if_pos rfl
  exact eq_of_sampleDigest_zero (h.trans hzero)

omit [Crypto] in
theorem lendingPoolLock_lendingParams :
    lendingPoolLock .zero .zero .zero lendingParams (sampleDigest lendingKey) 100 = .ok lendingScript := by
  decide +kernel

omit [Crypto] in
/-- **A price slot far beyond the current one is taken for a fresh price**, for it is read as the number -1. -/
theorem lendingPoolLock_accepts_future_price :
    ¬ ∀ (_ : Crypto) (poolId collateralTokenId debtTokenId oraclePkHash : Hash256) (params : LendingPoolScriptParams)
      (maxPriceAgeSlots : UInt64) (lock witness : Bytes) (tx : Transaction) (resolved : List TxOutput) (slot : Slot)
      (selector : Value) (cells : Stack),
      lendingPoolLock poolId collateralTokenId debtTokenId params oraclePkHash maxPriceAgeSlots = .ok lock →
        (∀ script, sha3_256 script = sha3_256 lock → script = lock) → PushOnly witness →
        witnessStack witness = selector :: cells → selector.isTruthy = true → Accepted lock witness tx resolved slot →
        ∃ priceSlot rest, cells = priceSlot :: rest ∧ ofLittleEndian priceSlot.toCanonicalBytes ≤ slot.toNat := by
  intro hclaim
  have honly : PushOnly futureWitness := by
    refine ⟨[.pushBytes (List.replicate 2420 0), .pushBytes lendingKey, .pushBytes (toLittleEndian 8 1000000),
      .pushBytes (List.replicate 8 255), .simple .op1], ?_, ?_⟩ <;> decide +kernel
  have hwitness : witnessStack futureWitness = [.int 1, .bytes (List.replicate 8 255),
      .bytes (toLittleEndian 8 1000000), .bytes lendingKey, .bytes (List.replicate 2420 0)] := by decide +kernel
  have hrun : @validateScript lendingCrypto lendingScript futureWitness (lendingTx futureWitness) [lendingOutput 100 5] 5 =
      .ok ⟨true, 1623, [.int 1]⟩ := by decide +kernel
  obtain ⟨priceSlot, rest, hcells, hle⟩ := hclaim lendingCrypto .zero .zero .zero (sampleDigest lendingKey) lendingParams 100
    lendingScript futureWitness (lendingTx futureWitness) [lendingOutput 100 5] 5 _ _ lendingPoolLock_lendingParams
    lendingCrypto_collision honly hwitness rfl ⟨_, hrun, rfl⟩
  cases hcells
  exact absurd hle (by decide)

/-- A signature, the oracle's key, a price of one, and slot three. -/
def freshWitness : Bytes :=
  encodeInstructions [.pushBytes (List.replicate 2420 0), .pushBytes lendingKey, .pushBytes (toLittleEndian 8 1000000),
    .pushBytes (toLittleEndian 8 3), .simple .op1]

omit [Crypto] in
/-- A deposit and a repayment at once, with no more than the selector in the witness, and a borrowing at a fresh price. -/
theorem lendingPoolLock_enforces_bothPaths :
    @Accepted lendingCrypto lendingScript [0x00] (lendingTx [0x00]) [lendingOutput 90 12] 5 ∧
    @Accepted lendingCrypto lendingScript freshWitness (lendingTx freshWitness) [lendingOutput 100 5] 5 ∧
    ∃ factor old new, lendingLtvFactor lendingParams.ltvMaxBps = .ok factor ∧
      LendingContinued lendingScript (List.replicate 96 0) lendingParams.toLeBytes (lendingTx freshWitness)
        [lendingOutput 100 5] old new ∧ new.totalDebt * factor.toNat ≤ new.totalCollateral * 1000000 := by
  have hdeposit : PushOnly [0x00] := ⟨[.simple .op0], by decide, by decide⟩
  have honly : PushOnly freshWitness := by
    refine ⟨[.pushBytes (List.replicate 2420 0), .pushBytes lendingKey, .pushBytes (toLittleEndian 8 1000000),
      .pushBytes (toLittleEndian 8 3), .simple .op1], ?_, ?_⟩ <;> decide +kernel
  have hwitness : witnessStack freshWitness = [.int 1, .bytes (toLittleEndian 8 3),
      .bytes (toLittleEndian 8 1000000), .bytes lendingKey, .bytes (List.replicate 2420 0)] := by decide +kernel
  have hrun : @Accepted lendingCrypto lendingScript freshWitness (lendingTx freshWitness) [lendingOutput 100 5] 5 := by
    have hresult : @validateScript lendingCrypto lendingScript freshWitness (lendingTx freshWitness) [lendingOutput 100 5] 5 =
        .ok ⟨true, 1623, [.int 1]⟩ := by decide +kernel
    exact ⟨_, hresult, rfl⟩
  refine ⟨?_, hrun, ?_⟩
  · apply ((@lendingPoolLock_enforces lendingCrypto .zero .zero .zero (sampleDigest lendingKey) lendingParams 100 lendingScript
      [0x00] (lendingTx [0x00]) [lendingOutput 90 12] 5 (.int 0) [] lendingPoolLock_lendingParams lendingCrypto_collision
      hdeposit (by decide)).2 rfl).mpr
    refine ⟨by decide +kernel, by decide, lendingOutput 90 12, lendingOutput 100 10, ⟨rfl, rfl, ?_, Int64.le_refl _, rfl⟩, ?_, ?_⟩
    · refine ⟨⟨?_, ?_, ?_⟩, ⟨?_, ?_, ?_⟩, ?_⟩ <;> decide +kernel
    · decide +kernel
    · decide +kernel
  · obtain ⟨factor, old, new, priceSlot, price, pk, sig, rest, hfactor, hcells, hcontinued, -, -, -, -, -, -, -, -, hdebt⟩ :=
      (@lendingPoolLock_enforces lendingCrypto .zero .zero .zero (sampleDigest lendingKey) lendingParams 100 lendingScript
        freshWitness (lendingTx freshWitness) [lendingOutput 100 5] 5 _ _ lendingPoolLock_lendingParams lendingCrypto_collision
        honly hwitness).1 rfl hrun
    cases hcells
    exact ⟨factor, old, new, hfactor, hcontinued, hdebt⟩

/-! ### The rounded factor -/

omit [Crypto] in
/-- The factor exists for every admitted LTV, and is the quotient rounded up: no step of its computation wraps. -/
theorem lendingLtvFactor_eq_ok_iff {ltv : UInt16} {factor : UInt64} :
    lendingLtvFactor ltv = .ok factor ↔ (0 < ltv ∧ ltv ≤ 10000) ∧
      factor.toNat = if 0 < 10 ^ 10 % ltv.toNat then 10 ^ 10 / ltv.toNat + 1 else 10 ^ 10 / ltv.toNat := by
  have hscale : (10000 * lendingPriceScale : UInt64).toNat = 10 ^ 10 := by decide
  have hltv : ltv.toUInt64.toNat = ltv.toNat := UInt16.toNat_toUInt64 ltv
  have hquot : 10 ^ 10 / ltv.toNat ≤ 10 ^ 10 := Nat.div_le_self _ _
  have hfactor : (if 10000 * lendingPriceScale % ltv.toUInt64 > 0 then 10000 * lendingPriceScale / ltv.toUInt64 + 1
      else 10000 * lendingPriceScale / ltv.toUInt64 : UInt64).toNat =
      if 0 < 10 ^ 10 % ltv.toNat then 10 ^ 10 / ltv.toNat + 1 else 10 ^ 10 / ltv.toNat := by
    simp only [gt_iff_lt, UInt64.lt_iff_toNat_lt, UInt64.toNat_mod, UInt64.toNat_zero, apply_ite UInt64.toNat,
      UInt64.toNat_add, UInt64.toNat_div, UInt64.toNat_one, hscale, hltv]
    rw [Nat.mod_eq_of_lt (show 10 ^ 10 / ltv.toNat + 1 < 2 ^ 64 by omega)]
  have hrange : ¬ (ltv = 0 ∨ ltv > 10000) ↔ 0 < ltv ∧ ltv ≤ 10000 := by
    rw [not_or, gt_iff_lt, UInt16.not_lt, UInt16.pos_iff_ne_zero]
  simp only [lendingLtvFactor]
  rw [require_bind_eq_ok, hrange, pure_eq_ok, ← UInt64.toNat_inj, hfactor]
  exact and_congr_right fun _ => eq_comm

/-- **The factor rounds against the borrower.** It exists exactly for the LTVs from 1 to 10 000, is a non-negative integer of the script machine, and debt that passes the check with the factor is covered at the exact LTV; the instructions of the lock make this check. -/
theorem lendingLtvFactor_covers (ltv : UInt16) :
    ((∃ factor, lendingLtvFactor ltv = .ok factor) ↔ 0 < ltv ∧ ltv ≤ 10000) ∧
      ∀ factor, lendingLtvFactor ltv = .ok factor →
        factor.toInt64.toInt = factor.toNat ∧
        (∀ debt collateral price : UInt64, debt.toNat * factor.toNat ≤ collateral.toNat * price.toNat →
          debt.toNat * 10000 * lendingPriceScale.toNat ≤ collateral.toNat * price.toNat * ltv.toNat) ∧
        ∀ (ctx : Context) (new : TxOutput) (price : UInt64) (more : List Instruction) (stack final : Stack),
          ctx.tx.outputs[0]? = some new → new.LendingSized →
          evalAll ctx (lendingCollateralInstructions factor.toInt64 ++ more) (.int price.toInt64 :: stack) = .ok final →
          new.totalDebt * 10000 * lendingPriceScale.toNat ≤ new.totalCollateral * price.toNat * ltv.toNat := by
  have hscale : 10000 * lendingPriceScale.toNat = 10 ^ 10 := by decide
  refine ⟨⟨fun ⟨factor, hfactor⟩ => (lendingLtvFactor_eq_ok_iff.mp hfactor).1, fun hltv => ?_⟩, fun factor hfactor => ?_⟩
  · have hquot : 10 ^ 10 / ltv.toNat ≤ 10 ^ 10 := Nat.div_le_self _ _
    refine ⟨UInt64.ofNat (if 0 < 10 ^ 10 % ltv.toNat then 10 ^ 10 / ltv.toNat + 1 else 10 ^ 10 / ltv.toNat), ?_⟩
    refine lendingLtvFactor_eq_ok_iff.mpr ⟨hltv, ?_⟩
    apply UInt64.toNat_ofNat_of_lt'
    simp only [UInt64.size]
    split <;> omega
  · obtain ⟨⟨hpos, -⟩, hvalue⟩ := lendingLtvFactor_eq_ok_iff.mp hfactor
    have hexact : ∀ {debt bound : Nat}, debt * factor.toNat ≤ bound →
        debt * 10000 * lendingPriceScale.toNat ≤ bound * ltv.toNat := by
      intro debt bound hle
      rw [Nat.mul_assoc, hscale]
      exact Rounding.mul_le_of_mul_roundUp_le (UInt16.lt_iff_toNat_lt.mp hpos) (hvalue ▸ hle)
    refine ⟨?_, fun _ _ _ hle => hexact hle, ?_⟩
    · have hquot : 10 ^ 10 / ltv.toNat ≤ 10 ^ 10 := Nat.div_le_self _ _
      rw [Signed.toInt_toInt64, if_pos]
      rw [hvalue]
      split <;> omega
    · intro ctx new price more stack final hnew hsized hrun
      obtain ⟨-, hle, -⟩ := (evalAll_lendingCollateral hnew hsized).mp hrun
      rw [UInt64.toUInt64_toInt64, UInt64.toUInt64_toInt64] at hle
      exact hexact hle

omit [Crypto] in
/-- An LTV that does not divide evenly, at a debt where the rounding decides. -/
theorem lendingLtvFactor_covers_uneven :
    lendingLtvFactor 7500 = .ok 1333334 ∧ 3 * 10000 * lendingPriceScale.toNat ≤ 5 * 800001 * (7500 : UInt16).toNat :=
  ⟨by decide, (@lendingLtvFactor_covers lendingCrypto 7500).2 1333334 (by decide) |>.2.1 3 5 800001 (by decide)⟩

end QuantumVault
