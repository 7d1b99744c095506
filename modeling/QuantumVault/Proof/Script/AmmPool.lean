import QuantumVault.Node.Validation
import QuantumVault.Proof.Script.Datum
import QuantumVault.Proof.Script.Failure

/-!
# What the pool lock enforces

The lock of a pool reads the datums of input 0 and of output 0, whatever input it runs for. When it passes, these two datums carry the token ids and the fee of the lock, the product of the reserves has not shrunk between them, and output 0 has the hash of the lock itself. A pool at input 0 is therefore continued by output 0. Pools with the same lock at other inputs are satisfied by the same output.
-/

namespace QuantumVault

open Result

/-- The output carries a datum with these token ids and this fee. -/
def TxOutput.HoldsPool (tokenAId tokenBId : Hash256) (feeBps : UInt16) (output : TxOutput) : Prop :=
  ∃ datum, output.datum = some datum ∧ datumField datum poolDatumTokenAOffset 32 = tokenAId.bytes ∧
    datumField datum poolDatumTokenBOffset 32 = tokenBId.bytes ∧
    datumField datum poolDatumFeeBpsOffset 2 = toLittleEndian 2 feeBps.toNat

def TxOutput.reserveProduct (output : TxOutput) : Nat :=
  ofLittleEndian (datumField (output.datum.getD []) poolDatumReserveAOffset poolDatumReserveLen) *
    ofLittleEndian (datumField (output.datum.getD []) poolDatumReserveBOffset poolDatumReserveLen)

variable [Crypto] {ctx : Context} {stack final : Stack} {readOp : OpCode} {more : List Instruction}

/-! ### The product of the reserves -/

theorem evalAll_pushPoolProduct {output : TxOutput} (hread : ReadsDatum readOp)
    (hget : (datumSource ctx readOp)[0]? = some output) (hlen : 80 ≤ (output.datum.getD []).length) :
    evalAll ctx (pushPoolReserve readOp poolDatumReserveAOffset ++ (pushPoolReserve readOp poolDatumReserveBOffset ++
        .simple .mulU128 :: more)) stack = .ok final ↔
      stack.length + 3 < 1024 ∧
        evalAll ctx more (.bytes (toLittleEndian 16 output.reserveProduct) :: stack) = .ok final := by
  have ha : poolDatumReserveAOffset + 8 ≤ (output.datum.getD []).length := le_trans (by decide) hlen
  have hb : poolDatumReserveBOffset + 8 ≤ (output.datum.getD []).length := hlen
  rw [evalAll_pushPoolReserve hread hget (by decide), evalAll_pushPoolReserve hread hget (by decide), evalAll_mulU128,
    toNat_pushPoolReserve ha, toNat_pushPoolReserve hb, List.length_cons]
  constructor
  · intro h
    obtain ⟨-, -, hroom, -, -, hrest⟩ := h
    exact ⟨hroom, hrest⟩
  · intro h
    exact ⟨by omega, ha, h.1, hb, by omega, h.2⟩

omit [Crypto] in
theorem TxOutput.ofLittleEndian_reserveProduct (output : TxOutput) :
    ofLittleEndian (toLittleEndian 16 output.reserveProduct) = output.reserveProduct := by
  have hfield : ∀ offset, ofLittleEndian (datumField (output.datum.getD []) offset poolDatumReserveLen) < 2 ^ 64 := by
    intro offset
    refine lt_of_lt_of_le (ofLittleEndian_lt _) ?_
    exact Nat.pow_le_pow_right (by decide) (List.length_take_le _ _)
  have hfit : output.reserveProduct < 2 ^ 64 * 2 ^ 64 := Nat.mul_lt_mul'' (hfield _) (hfield _)
  exact ofLittleEndian_toLittleEndian_of_lt (lt_of_lt_of_le hfit (by decide))

/-! ### The whole lock -/

/-- What the lock promises of the pool output that is spent and of its successor. -/
structure PoolTransition (tokenAId tokenBId : Hash256) (feeBps : UInt16) (old new : TxOutput) : Prop where
  old_holds : old.HoldsPool tokenAId tokenBId feeBps
  new_holds : new.HoldsPool tokenAId tokenBId feeBps
  product_le : old.reserveProduct ≤ new.reserveProduct

variable {tokenAId tokenBId : Hash256} {feeBps : UInt16}

omit [Crypto] in
theorem TxOutput.HoldsPool.of_fields {output : TxOutput}
    (ha : datumField (output.datum.getD []) poolDatumTokenAOffset tokenAId.bytes.length = tokenAId.bytes)
    (hb : datumField (output.datum.getD []) poolDatumTokenBOffset tokenBId.bytes.length = tokenBId.bytes)
    (hfee : datumField (output.datum.getD []) poolDatumFeeBpsOffset (toLittleEndian 2 feeBps.toNat).length =
      toLittleEndian 2 feeBps.toNat) : output.HoldsPool tokenAId tokenBId feeBps := by
  rw [tokenAId.length_eq] at ha
  rw [tokenBId.length_eq] at hb
  rw [length_toLittleEndian] at hfee
  cases hdatum : output.datum with
  | none =>
      rw [hdatum] at ha
      exact absurd ha.symm tokenAId.bytes_ne_nil
  | some datum =>
      rw [hdatum] at ha hb hfee
      exact ⟨datum, hdatum, ha, hb, hfee⟩

omit [Crypto] in
theorem TxOutput.HoldsPool.fields {output : TxOutput} (h : output.HoldsPool tokenAId tokenBId feeBps) :
    datumField (output.datum.getD []) poolDatumTokenAOffset tokenAId.bytes.length = tokenAId.bytes ∧
      datumField (output.datum.getD []) poolDatumTokenBOffset tokenBId.bytes.length = tokenBId.bytes ∧
      datumField (output.datum.getD []) poolDatumFeeBpsOffset (toLittleEndian 2 feeBps.toNat).length =
        toLittleEndian 2 feeBps.toNat := by
  obtain ⟨datum, hdatum, ha, hb, hfee⟩ := h
  rw [hdatum, tokenAId.length_eq, tokenBId.length_eq, length_toLittleEndian]
  exact ⟨ha, hb, hfee⟩

/-- The length of a datum, as the lock measures it, is that of a pool datum. -/
def TxOutput.PoolSized (output : TxOutput) : Prop := (output.datum.getD []).length % 2 ^ 64 = poolDatumLen

omit [Crypto] in
theorem TxOutput.PoolSized.length_le {output : TxOutput} (h : output.PoolSized) : 90 ≤ (output.datum.getD []).length := by
  have hmod : (output.datum.getD []).length % 2 ^ 64 = 90 := h
  exact hmod ▸ Nat.mod_le _ _

/-- **A run of the lock.** It looks at input 0, output 0 and the hash of the script itself, and needs room for five values. -/
theorem evalAll_ammPoolInstructions :
    evalAll ctx (ammPoolInstructions tokenAId tokenBId feeBps) stack = .ok final ↔
      stack.length + 4 < 1024 ∧ (∃ old new, ctx.resolvedInputs[0]? = some old ∧ ctx.tx.outputs[0]? = some new ∧
        (old.PoolSized ∧ new.PoolSized) ∧ PoolTransition tokenAId tokenBId feeBps old new ∧
        sha3_256 new.lockingScript = ctx.lockingScriptHash) ∧ final = .int 1 :: stack := by
  have hin : ReadsDatum .readInputDatum := Or.inl rfl
  have hout : ReadsDatum .readOutputDatum := Or.inr rfl
  have hid : ∀ id : Hash256, id.bytes.length < 2 ^ 64 := fun id => by rw [id.length_eq]; decide
  have hfee : (toLittleEndian 2 feeBps.toNat).length < 2 ^ 64 := by rw [length_toLittleEndian]; decide
  simp only [ammPoolInstructions, List.append_assoc, List.singleton_append]
  constructor
  · intro hrun
    obtain ⟨-, old, hold, holdLen, hrun⟩ := (evalAll_assertDatumLen hin).mp hrun
    obtain ⟨-, new, hnew, hnewLen, hrun⟩ := (evalAll_assertDatumLen hout).mp hrun
    obtain ⟨-, -, holdA, hrun⟩ := (evalAll_assertPoolDatumField hin hold (by decide) (hid tokenAId)).mp hrun
    obtain ⟨-, -, hnewA, hrun⟩ := (evalAll_assertPoolDatumField hout hnew (by decide) (hid tokenAId)).mp hrun
    obtain ⟨-, -, holdB, hrun⟩ := (evalAll_assertPoolDatumField hin hold (by decide) (hid tokenBId)).mp hrun
    obtain ⟨-, -, hnewB, hrun⟩ := (evalAll_assertPoolDatumField hout hnew (by decide) (hid tokenBId)).mp hrun
    obtain ⟨-, -, holdFee, hrun⟩ := (evalAll_assertPoolDatumField hin hold (by decide) hfee).mp hrun
    obtain ⟨-, -, hnewFee, hrun⟩ := (evalAll_assertPoolDatumField hout hnew (by decide) hfee).mp hrun
    have holdSized : old.PoolSized := holdLen
    have hnewSized : new.PoolSized := hnewLen
    obtain ⟨-, hrun⟩ := (evalAll_pushPoolProduct hout hnew (by have := hnewSized.length_le; omega)).mp hrun
    obtain ⟨hroom, hrun⟩ := (evalAll_pushPoolProduct hin hold (by have := holdSized.length_le; omega)).mp hrun
    obtain ⟨-, -, hrun⟩ := evalAll_geU128.mp hrun
    obtain ⟨hle, hrun⟩ := evalAll_verify_ofBool.mp hrun
    obtain ⟨-, hrun⟩ := evalAll_pushInt.mp hrun
    obtain ⟨-, hrun⟩ := evalAll_selfScriptHash.mp hrun
    obtain ⟨output, hget, hhash, hrun⟩ := evalAll_assertOutputScriptHash.mp hrun
    obtain ⟨-, hrun⟩ := evalAll_op1.mp hrun
    cases hnew.symm.trans hget
    simp only [Value.toCanonicalBytes, TxOutput.ofLittleEndian_reserveProduct] at hle
    exact ⟨hroom, ⟨old, new, hold, hnew, ⟨holdSized, hnewSized⟩,
      ⟨.of_fields holdA holdB holdFee, .of_fields hnewA hnewB hnewFee, hle⟩, Hash256.ext hhash⟩,
      (evalAll_nil.mp hrun).symm⟩
  · intro h
    obtain ⟨hroom, ⟨old, new, hold, hnew, ⟨holdSized, hnewSized⟩, htransition, hhash⟩, hfinal⟩ := h
    have holdLen := holdSized.length_le
    have hnewLen := hnewSized.length_le
    obtain ⟨holdA, holdB, holdFee⟩ := htransition.old_holds.fields
    obtain ⟨hnewA, hnewB, hnewFee⟩ := htransition.new_holds.fields
    have hidBound : ∀ (id : Hash256) (offset length : Nat), offset ≤ 32 → 90 ≤ length → offset + id.bytes.length ≤ length := by
      intro id offset length hoffset hlength
      rw [id.length_eq]
      omega
    have hfeeBound : ∀ length, 90 ≤ length → poolDatumFeeBpsOffset + (toLittleEndian 2 feeBps.toNat).length ≤ length := by
      intro length hlength
      rw [length_toLittleEndian]
      exact hlength
    refine (evalAll_assertDatumLen hin).mpr ⟨by omega, old, hold, holdSized, ?_⟩
    refine (evalAll_assertDatumLen hout).mpr ⟨by omega, new, hnew, hnewSized, ?_⟩
    refine (evalAll_assertPoolDatumField hin hold (by decide) (hid tokenAId)).mpr
      ⟨by omega, hidBound _ _ _ (by decide) holdLen, holdA, ?_⟩
    refine (evalAll_assertPoolDatumField hout hnew (by decide) (hid tokenAId)).mpr
      ⟨by omega, hidBound _ _ _ (by decide) hnewLen, hnewA, ?_⟩
    refine (evalAll_assertPoolDatumField hin hold (by decide) (hid tokenBId)).mpr
      ⟨by omega, hidBound _ _ _ (by decide) holdLen, holdB, ?_⟩
    refine (evalAll_assertPoolDatumField hout hnew (by decide) (hid tokenBId)).mpr
      ⟨by omega, hidBound _ _ _ (by decide) hnewLen, hnewB, ?_⟩
    refine (evalAll_assertPoolDatumField hin hold (by decide) hfee).mpr ⟨by omega, hfeeBound _ holdLen, holdFee, ?_⟩
    refine (evalAll_assertPoolDatumField hout hnew (by decide) hfee).mpr ⟨by omega, hfeeBound _ hnewLen, hnewFee, ?_⟩
    refine (evalAll_pushPoolProduct hout hnew (by omega)).mpr ⟨by omega, ?_⟩
    refine (evalAll_pushPoolProduct hin hold (by omega)).mpr ⟨by rw [List.length_cons]; omega, ?_⟩
    refine evalAll_geU128.mpr ⟨⟨length_toLittleEndian _ _, length_toLittleEndian _ _⟩, by omega, ?_⟩
    refine evalAll_verify_ofBool.mpr ⟨?_, ?_⟩
    · simp only [Value.toCanonicalBytes, TxOutput.ofLittleEndian_reserveProduct]
      exact htransition.product_le
    refine evalAll_pushInt.mpr ⟨by omega, evalAll_selfScriptHash.mpr ⟨by rw [List.length_cons]; omega, ?_⟩⟩
    refine evalAll_assertOutputScriptHash.mpr ⟨new, hnew, congrArg Hash256.bytes hhash, ?_⟩
    exact evalAll_op1.mpr ⟨by omega, evalAll_nil.mpr hfinal.symm⟩

/-! ### The bytes of the lock -/

omit [Crypto] in
theorem forall_ammPoolInstructions {P : Instruction → Prop} (hint : ∀ n, P (ScriptBuilder.pushInt n))
    (hbytes : ∀ data, data ≠ [] → data.length ≤ 32 → P (.pushBytes data))
    (hsimple : ∀ op ∈ [OpCode.readInputDatum, .readOutputDatum, .len, .eq, .verify, .slice, .bytesToInt, .mulU128, .geU128,
      .selfScriptHash, .assertOutputScriptHash, .op1], P (.simple op)) :
    ∀ instr ∈ ammPoolInstructions tokenAId tokenBId feeBps, P instr := by
  have hid : ∀ id : Hash256, P (.pushBytes id.bytes) := fun id =>
    hbytes id.bytes id.bytes_ne_nil (le_of_eq id.length_eq)
  have hfee : P (.pushBytes (toLittleEndian 2 feeBps.toNat)) :=
    hbytes _ (by intro hnil; cases hnil) (by rw [length_toLittleEndian]; decide)
  simp only [List.forall_mem_cons] at hsimple
  simp only [ammPoolInstructions, assertPoolDatumLen, assertPoolDatumField, pushPoolReserve, List.forall_mem_append,
    List.forall_mem_cons, hint, hid, hfee, hsimple, true_and]
  simp

omit [Crypto] in
theorem isPlain_ammPoolInstructions : ∀ instr ∈ ammPoolInstructions tokenAId tokenBId feeBps, instr.IsPlain := by
  apply forall_ammPoolInstructions
  · intro n
    exact isPlain_of_isConstant (ScriptBuilder.isConstant_pushInt n)
  · intro data _ hlen
    rw [Instruction.pushBytes, if_pos (by omega)]
    exact isPlain_of_isConstant rfl
  · simp [Instruction.IsPlain, Instruction.simple]

omit [Crypto] in
theorem length_ammPoolInstructions : (ammPoolInstructions tokenAId tokenBId feeBps).length = 96 := by
  simp only [ammPoolInstructions, assertPoolDatumLen, assertPoolDatumField, pushPoolReserve, List.length_append,
    List.length_cons, List.length_nil]

omit [Crypto] in
theorem gasTotal_ammPoolInstructions : gasTotal (ammPoolInstructions tokenAId tokenBId feeBps) ≤ 1920 := by
  have hprice : ∀ instr ∈ ammPoolInstructions tokenAId tokenBId feeBps, (gasCost instr.op).toNat ≤ 20 := by
    apply forall_ammPoolInstructions
    · intro n
      exact (ScriptBuilder.gasCost_pushInt n).trans (by decide)
    · intro data _ hlen
      rw [Instruction.pushBytes, if_pos (by omega)]
      exact (show (gasCost .push1).toNat ≤ 20 by decide)
    · decide
  have htotal := gasTotal_le hprice
  rwa [length_ammPoolInstructions] at htotal

omit [Crypto] in
theorem length_ammPoolLock : (ammPoolLock tokenAId tokenBId feeBps).length ≤ OpCode.maxScriptSize := by
  have hsize : ∀ instr ∈ ammPoolInstructions tokenAId tokenBId feeBps, instr.encode.length ≤ 34 := by
    apply forall_ammPoolInstructions
    · intro n
      exact (ScriptBuilder.length_encode_pushInt n).trans (by decide)
    · intro data _ hlen
      rw [Instruction.pushBytes, if_pos (by omega)]
      simp [Instruction.encode]
      omega
    · decide
  have htotal := length_encodeInstructions_le hsize
  rw [length_ammPoolInstructions] at htotal
  exact htotal.trans (by decide)

omit [Crypto] in
theorem decodeScript_ammPoolLock :
    decodeScript (ammPoolLock tokenAId tokenBId feeBps) = .ok (ammPoolInstructions tokenAId tokenBId feeBps) := by
  refine decodeScript_encodeInstructions ?_ length_ammPoolLock
  apply forall_ammPoolInstructions
  · exact ScriptBuilder.wellFormed_pushInt
  · intro data hne hlen
    exact Instruction.wellFormed_pushBytes hne (by omega)
  · simp [Instruction.WellFormed, Instruction.simple]

/-! ### The lock on its own -/

omit [Crypto] in
private theorem TxOutput.poolSized_iff {output : TxOutput} (hlen : (output.datum.getD []).length ≤ maxVecBytes) :
    output.PoolSized ↔ (output.datum.getD []).length = poolDatumLen := by
  rw [TxOutput.PoolSized, Nat.mod_eq_of_lt (lt_of_le_of_lt hlen (by decide))]

/-- **What the pool lock accepts.** A datum is a vector, so that the length the lock measures is its length. The hash stands for the script of output 0, unless that script is a second preimage. -/
theorem ammPoolLock_accepted_iff {tx : Transaction} {resolved : List TxOutput} {slot : Slot}
    (hdatum : ∀ output ∈ resolved ++ tx.outputs, (output.datum.getD []).length ≤ maxVecBytes)
    (hcollision : ∀ output, tx.outputs[0]? = some output →
      sha3_256 output.lockingScript = sha3_256 (ammPoolLock tokenAId tokenBId feeBps) →
        output.lockingScript = ammPoolLock tokenAId tokenBId feeBps) :
    (Accepted (ammPoolLock tokenAId tokenBId feeBps) [] tx resolved slot ↔
      ∃ old new, resolved[0]? = some old ∧ tx.outputs[0]? = some new ∧
        (old.datum.getD []).length = poolDatumLen ∧ (new.datum.getD []).length = poolDatumLen ∧
        PoolTransition tokenAId tokenBId feeBps old new ∧ new.lockingScript = ammPoolLock tokenAId tokenBId feeBps) ∧
      validateScript (ammPoolLock tokenAId tokenBId feeBps) [] tx resolved slot ≠ .error .outOfGas := by
  have hdecode := @decodeScript_ammPoolLock tokenAId tokenBId feeBps
  have hplain := @isPlain_ammPoolInstructions tokenAId tokenBId feeBps
  have hgas : gasTotal (ammPoolInstructions tokenAId tokenBId feeBps) ≤ 100000 :=
    gasTotal_ammPoolInstructions.trans (by decide)
  refine ⟨?_, validateScript_ne_outOfGas hdecode hplain hgas⟩
  have hsized : ∀ {output}, output ∈ resolved ++ tx.outputs →
      (output.PoolSized ↔ (output.datum.getD []).length = poolDatumLen) :=
    fun h => TxOutput.poolSized_iff (hdatum _ h)
  rw [accepted_without_witness_iff hdecode hplain]
  constructor
  · intro h
    obtain ⟨-, -, final, hrun, -⟩ := h
    obtain ⟨-, ⟨old, new, hold, hnew, ⟨holdSized, hnewSized⟩, htransition, hhash⟩, -⟩ := evalAll_ammPoolInstructions.mp hrun
    have holdMem := List.mem_append_left tx.outputs (List.mem_of_getElem? hold)
    have hnewMem := List.mem_append_right resolved (List.mem_of_getElem? hnew)
    exact ⟨old, new, hold, hnew, (hsized holdMem).mp holdSized, (hsized hnewMem).mp hnewSized, htransition,
      hcollision new hnew hhash⟩
  · intro h
    obtain ⟨old, new, hold, hnew, holdLen, hnewLen, htransition, hscript⟩ := h
    have holdMem := List.mem_append_left tx.outputs (List.mem_of_getElem? hold)
    have hnewMem := List.mem_append_right resolved (List.mem_of_getElem? hnew)
    refine ⟨length_ammPoolLock, hgas, [.int 1], evalAll_ammPoolInstructions.mpr ⟨by decide, ?_, rfl⟩, rfl⟩
    exact ⟨old, new, hold, hnew, ⟨(hsized holdMem).mpr holdLen, (hsized hnewMem).mpr hnewLen⟩, htransition,
      congrArg sha3_256 hscript⟩

def poolDatum (reserveA reserveB : Nat) : Bytes :=
  Hash256.zero.bytes ++ Hash256.zero.bytes ++ toLittleEndian 8 reserveA ++ toLittleEndian 8 reserveB ++ toLittleEndian 8 0 ++
    toLittleEndian 2 30

def poolOutput (reserveA reserveB : Nat) : TxOutput :=
  ⟨1000, ammPoolLock .zero .zero 30, some (poolDatum reserveA reserveB), none⟩

/-- Primitives under which nothing collides with the pool lock. -/
@[reducible] def poolCrypto : Crypto :=
  ⟨fun bytes => if bytes = ammPoolLock .zero .zero 30 then .zero else sampleDigest bytes, sampleDigest, fun _ _ _ _ => false⟩

/-- A swap of reserves beyond the signed range: the product is taken of unsigned words. -/
def wideSwap : Transaction := .new [⟨⟨.zero, 0⟩, []⟩] [poolOutput (2 ^ 63) (2 ^ 63 + 1)]

omit [Crypto] in
theorem ammPoolLock_accepted_wideSwap :
    @Accepted poolCrypto (ammPoolLock .zero .zero 30) [] wideSwap [poolOutput (2 ^ 63 + 1) (2 ^ 63)] 5 ∧
      ¬ @Accepted poolCrypto (ammPoolLock .zero .zero 30) [] wideSwap [poolOutput (2 ^ 63 + 1) (2 ^ 63 + 1)] 5 := by
  have hdatum : ∀ a b, ((poolOutput a b).datum.getD []).length ≤ maxVecBytes := by
    intro a b
    show (poolDatum a b).length ≤ maxVecBytes
    simp only [poolDatum, List.length_append, length_toLittleEndian, Hash256.length_eq]
    decide
  have hall : ∀ a b, ∀ output ∈ [poolOutput a b] ++ wideSwap.outputs, (output.datum.getD []).length ≤ maxVecBytes := by
    intro a b output hmem
    rcases List.mem_append.mp hmem with h | h
    · cases List.mem_singleton.mp h
      exact hdatum _ _
    · cases List.mem_singleton.mp h
      exact hdatum _ _
  have hcollision : ∀ output, wideSwap.outputs[0]? = some output →
      @sha3_256 poolCrypto output.lockingScript = @sha3_256 poolCrypto (ammPoolLock .zero .zero 30) →
        output.lockingScript = ammPoolLock .zero .zero 30 := by
    intro output hget _
    cases hget
    rfl
  constructor
  · apply (@ammPoolLock_accepted_iff poolCrypto .zero .zero 30 wideSwap _ 5 (hall _ _) hcollision).1.mpr
    refine ⟨_, _, rfl, rfl, by decide +kernel, by decide +kernel, ⟨?_, ?_, by decide +kernel⟩, rfl⟩
    · exact ⟨_, rfl, by decide +kernel, by decide +kernel, by decide +kernel⟩
    · exact ⟨_, rfl, by decide +kernel, by decide +kernel, by decide +kernel⟩
  · intro haccepted
    obtain ⟨old, new, hold, hnew, -, -, htransition, -⟩ :=
      (@ammPoolLock_accepted_iff poolCrypto .zero .zero 30 wideSwap _ 5 (hall _ _) hcollision).1.mp haccepted
    cases hold
    cases hnew
    exact absurd htransition.product_le (by decide +kernel)

/-! ### Pools in a transaction -/

/-- **What a spent pool enforces.** Output 0 carries the lock of the pool, and between the output that input 0 spends and output 0 the product of the reserves has not shrunk. -/
theorem ammPoolLock_continued {tx : Transaction} {resolved : List TxOutput} {slot : Slot} {i : Nat} {input : TxInput}
    {spent : TxOutput}
    (hcollision : ∀ script, sha3_256 script = sha3_256 (ammPoolLock tokenAId tokenBId feeBps) →
      script = ammPoolLock tokenAId tokenBId feeBps)
    (hscripts : (tx.inputs.zip resolved).zipIdx.forM (validateInputScript tx resolved slot) = .ok ())
    (hinput : (tx.inputs.zip resolved)[i]? = some (input, spent))
    (hlock : spent.lockingScript = ammPoolLock tokenAId tokenBId feeBps) (hwitness : input.witness = []) :
    ∃ first new, resolved[0]? = some first ∧ tx.outputs[0]? = some new ∧ new.lockingScript = spent.lockingScript ∧
      PoolTransition tokenAId tokenBId feeBps first new ∧ (i = 0 → first = spent) := by
  have hmem : ((input, spent), i) ∈ (tx.inputs.zip resolved).zipIdx := List.mk_mem_zipIdx_iff_getElem?.mpr hinput
  obtain ⟨result, hvalid, -⟩ := bind_eq_ok.mp (forM_eq_ok.mp hscripts _ hmem)
  rw [mapError_eq_ok] at hvalid
  dsimp only at hvalid
  rw [hlock, hwitness] at hvalid
  obtain ⟨-, mid, m, hmid, hrun, hclosed, -⟩ := (validateScript_eq_ok rfl decodeScript_ammPoolLock).mp hvalid
  cases pure_eq_ok.mp hmid
  obtain ⟨-, heval⟩ := run_plain isPlain_ammPoolInstructions hrun hclosed
  obtain ⟨-, ⟨first, new, hfirst, hnew, -, htransition, hhash⟩, -⟩ := evalAll_ammPoolInstructions.mp heval
  refine ⟨first, new, hfirst, hnew, (hcollision _ hhash).trans hlock.symm, htransition, ?_⟩
  intro hzero
  subst hzero
  have hspent : resolved[0]? = some spent := (List.getElem?_zip_eq_some.mp hinput).2
  exact Option.some.inj (hfirst.symm.trans hspent)

/-- A swap: the pool at input 0 and its successor at output 0. -/
def poolSwap : Transaction := .new [⟨⟨.zero, 0⟩, []⟩] [poolOutput 2000 501]

omit [Crypto] in
theorem ammPoolLock_continued_poolSwap :
    ∃ first new, [poolOutput 1000 1000][0]? = some first ∧ poolSwap.outputs[0]? = some new ∧
      new.lockingScript = (poolOutput 1000 1000).lockingScript ∧ PoolTransition .zero .zero 30 first new ∧
      ((0 : Nat) = 0 → first = poolOutput 1000 1000) := by
  refine @ammPoolLock_continued poolCrypto .zero .zero 30 poolSwap [poolOutput 1000 1000] 5 0 ⟨⟨.zero, 0⟩, []⟩ _ ?_
    (by decide +kernel) rfl rfl rfl
  intro script hscript
  have hzero : @sha3_256 poolCrypto (ammPoolLock .zero .zero 30) = .zero := if_pos rfl
  exact eq_of_sampleDigest_zero (hscript.trans hzero)

/-- What pool safety at every input would be: different pools have different successors. -/
def PoolsContinued (tx : Transaction) (resolved : List TxOutput) : Prop :=
  ∃ successor : Nat → Nat,
    (∀ (i j : Nat) (old old' : TxOutput) (tokenAId tokenBId tokenAId' tokenBId' : Hash256) (feeBps feeBps' : UInt16),
      resolved[i]? = some old → old.lockingScript = ammPoolLock tokenAId tokenBId feeBps →
        resolved[j]? = some old' → old'.lockingScript = ammPoolLock tokenAId' tokenBId' feeBps' →
          successor i = successor j → i = j) ∧
    ∀ (i : Nat) (old : TxOutput) (tokenAId tokenBId : Hash256) (feeBps : UInt16),
      resolved[i]? = some old → old.lockingScript = ammPoolLock tokenAId tokenBId feeBps →
        ∃ new, tx.outputs[successor i]? = some new ∧ new.lockingScript = old.lockingScript ∧
          PoolTransition tokenAId tokenBId feeBps old new

/-- Two pools with the same lock, and one successor. -/
def poolMerge : Transaction := .new [⟨⟨.zero, 0⟩, []⟩, ⟨⟨.zero, 1⟩, []⟩] [poolOutput 1000 1000]

omit [Crypto] in
/-- **One output continues two pools.** The second pool is gone, with all its reserves. -/
theorem poolMerge_accepted :
    ¬ ∀ (_ : Crypto) (tx : Transaction) (resolved : List TxOutput) (slot : Slot),
      (tx.inputs.zip resolved).zipIdx.forM (validateInputScript tx resolved slot) = .ok () →
        (∀ input ∈ tx.inputs, input.witness = []) → PoolsContinued tx resolved := by
  intro hclaim
  have hscripts : (poolMerge.inputs.zip [poolOutput 1000 1000, poolOutput 1000 1000]).zipIdx.forM
      (@validateInputScript sampleCrypto poolMerge [poolOutput 1000 1000, poolOutput 1000 1000] 5) = .ok () := by
    decide +kernel
  obtain ⟨successor, hinjective, hcontinued⟩ :=
    hclaim sampleCrypto poolMerge [poolOutput 1000 1000, poolOutput 1000 1000] 5 hscripts (by decide)
  have honly : ∀ i, [poolOutput 1000 1000, poolOutput 1000 1000][i]? = some (poolOutput 1000 1000) → successor i = 0 := by
    intro i hi
    obtain ⟨new, hnew, -⟩ := hcontinued i (poolOutput 1000 1000) .zero .zero 30 hi rfl
    have hlt : successor i < 1 := (List.getElem?_eq_some_iff.mp hnew).1
    omega
  have hsame : (0 : Nat) = 1 :=
    hinjective 0 1 _ _ .zero .zero .zero .zero 30 30 rfl rfl rfl rfl ((honly 0 rfl).trans (honly 1 rfl).symm)
  cases hsame

end QuantumVault
