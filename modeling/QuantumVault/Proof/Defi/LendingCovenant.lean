import QuantumVault.Proof.Defi.SwapCovenant
import QuantumVault.Proof.Script.LendingPool
import QuantumVault.Proof.Script.Multisig

/-!
# Built lending transactions and the lending pool lock

The wallet changes the two totals of a pool and the lock compares the datum before with the datum after. Deposits and repayments that are built always pass. Borrowing and withdrawing pass with a fresh price of the oracle, except when the current slot has its top bit set and the slot of the price has not: the lock compares slots as signed integers, so the price then seems to come from the future.
-/

namespace QuantumVault

open Result

/-! ### The bytes of a lending pool datum -/

namespace LendingPoolDatum

variable (d : LendingPoolDatum)

def ids : Bytes := d.poolId.bytes ++ d.collateralTokenId.bytes ++ d.debtTokenId.bytes

def interestBlock : Bytes := toLittleEndian 16 d.interestMultiplierQ64.toNat ++ toLittleEndian 8 d.lastAccrualSlot.toNat

theorem toCanonicalBytes_eq : d.toCanonicalBytes =
    d.ids ++ (toLittleEndian 8 d.totalCollateral.toNat ++ (toLittleEndian 8 d.totalDebt.toNat ++
      (d.scriptParams.toLeBytes ++ d.interestBlock))) := by
  simp only [toCanonicalBytes, ids, interestBlock, scriptParams, LendingPoolScriptParams.toLeBytes, List.append_assoc]

theorem length_ids : d.ids.length = 96 :=
  (@lending_constants d.poolId d.collateralTokenId d.debtTokenId d.scriptParams).1

theorem length_params : d.scriptParams.toLeBytes.length = 10 :=
  (@lending_constants d.poolId d.collateralTokenId d.debtTokenId d.scriptParams).2.1

theorem length_interestBlock : d.interestBlock.length = lendingDatumInterestBlockLen := by
  rw [interestBlock, List.length_append, length_toLittleEndian, length_toLittleEndian]
  rfl

theorem length_toCanonicalBytes : d.toCanonicalBytes.length = lendingDatumLen := by
  simp only [toCanonicalBytes_eq, List.length_append, length_ids, length_params, length_interestBlock,
    length_toLittleEndian]
  rfl

private theorem ids_field : datumField d.toCanonicalBytes lendingDatumPoolIdOffset d.ids.length = d.ids := by
  rw [toCanonicalBytes_eq]
  exact @datumField_append [] _ _ _ _ rfl rfl

private theorem totalCollateral_field : datumField d.toCanonicalBytes lendingDatumTotalCollateralOffset 8 =
    toLittleEndian 8 d.totalCollateral.toNat := by
  rw [toCanonicalBytes_eq]
  exact datumField_append d.length_ids (length_toLittleEndian _ _)

private theorem totalDebt_field :
    datumField d.toCanonicalBytes lendingDatumTotalDebtOffset 8 = toLittleEndian 8 d.totalDebt.toNat := by
  rw [toCanonicalBytes_eq, ← List.append_assoc]
  apply datumField_append
  · rw [List.length_append, length_ids, length_toLittleEndian]
    rfl
  · exact length_toLittleEndian _ _

private theorem params_field :
    datumField d.toCanonicalBytes lendingDatumParamsOffset d.scriptParams.toLeBytes.length = d.scriptParams.toLeBytes := by
  rw [toCanonicalBytes_eq, ← List.append_assoc, ← List.append_assoc]
  apply datumField_append
  · rw [List.length_append, List.length_append, length_ids, length_toLittleEndian, length_toLittleEndian]
    rfl
  · rfl

theorem interest_field :
    datumField d.toCanonicalBytes lendingDatumInterestBlockOffset lendingDatumInterestBlockLen = d.interestBlock := by
  rw [toCanonicalBytes_eq, ← List.append_assoc, ← List.append_assoc, ← List.append_assoc, ← List.append_nil d.interestBlock]
  apply datumField_append
  · rw [List.length_append, List.length_append, List.length_append, length_ids, length_toLittleEndian,
      length_toLittleEndian, length_params]
    rfl
  · exact d.length_interestBlock

/-! ### Pool outputs -/

def withTotals (totalCollateral totalDebt : UInt64) : LendingPoolDatum := { d with totalCollateral, totalDebt }

/-- An output that holds the pool, with its datum in canonical form. -/
def utxo (script : Bytes) (value : Amount) (stealthInfo : Option StealthInfo) : TxOutput :=
  ⟨value, script, some d.toCanonicalBytes, stealthInfo⟩

variable {d} {output old new : TxOutput} {totalCollateral totalDebt : UInt64}

theorem lendingSized_of_datum (h : output.datum = some d.toCanonicalBytes) : output.LendingSized := by
  rw [TxOutput.LendingSized, h, Option.getD_some, length_toCanonicalBytes]
  rfl

theorem holdsLending_of_datum (h : output.datum = some d.toCanonicalBytes) :
    output.HoldsLending d.ids d.scriptParams.toLeBytes := by
  refine ⟨lendingSized_of_datum h, ?_, ?_⟩
  · rw [h]
    exact d.ids_field
  · rw [h]
    exact d.params_field

theorem totalCollateral_of_datum (h : output.datum = some d.toCanonicalBytes) :
    output.totalCollateral = d.totalCollateral.toNat := by
  rw [TxOutput.totalCollateral, TxOutput.datumNat, h, Option.getD_some, totalCollateral_field,
    ofLittleEndian_toLittleEndian_u64]

theorem totalDebt_of_datum (h : output.datum = some d.toCanonicalBytes) : output.totalDebt = d.totalDebt.toNat := by
  rw [TxOutput.totalDebt, TxOutput.datumNat, h, Option.getD_some, totalDebt_field, ofLittleEndian_toLittleEndian_u64]

private theorem lendingKept_withTotals (hold : old.datum = some d.toCanonicalBytes)
    (hnew : new.datum = some (d.withTotals totalCollateral totalDebt).toCanonicalBytes) :
    LendingKept d.ids d.scriptParams.toLeBytes old new := by
  have hholds : new.HoldsLending (d.withTotals totalCollateral totalDebt).ids
      (d.withTotals totalCollateral totalDebt).scriptParams.toLeBytes := holdsLending_of_datum hnew
  refine ⟨holdsLending_of_datum hold, hholds, ?_⟩
  rw [hold, hnew, Option.getD_some, Option.getD_some, interest_field, interest_field]
  rfl

end LendingPoolDatum

/-! ### The collateral check -/

private theorem toNat_mul_mod (a b : UInt64) : a.toNat * b.toNat % 2 ^ 128 = a.toNat * b.toNat := by
  apply Nat.mod_eq_of_lt
  calc a.toNat * b.toNat < 2 ^ 64 * 2 ^ 64 := Nat.mul_lt_mul'' a.toNat_lt b.toNat_lt
    _ = 2 ^ 128 := by norm_num

theorem checkLendingCollateral_eq_ok {debt collateral priceScaled : UInt64} {ltvMaxBps : UInt16} :
    checkLendingCollateral debt collateral priceScaled ltvMaxBps = .ok () ↔
      ∃ factor, lendingLtvFactor ltvMaxBps = .ok factor ∧
        debt.toNat * factor.toNat ≤ collateral.toNat * priceScaled.toNat := by
  rw [checkLendingCollateral, bind_eq_ok]
  simp only [mapError_eq_ok, require_eq_ok, toNat_mul_mod, gt_iff_lt, Nat.not_lt]

section Lock

variable [Crypto]

/-- **The wallet and the lock draw the same line.** The segment of the lock that checks the collateral of output 0 runs through exactly if the wallet's check does. -/
theorem checkLendingCollateral_iff_evalAll {d : LendingPoolDatum} {ctx : Context} {output : TxOutput} {stack : Stack}
    {priceScaled : UInt64} (houtput : ctx.tx.outputs[0]? = some output) (hdatum : output.datum = some d.toCanonicalBytes)
    (hroom : stack.length + 4 < 1024) :
    checkLendingCollateral d.totalDebt d.totalCollateral priceScaled d.ltvMaxBps = .ok () ↔
      ∃ factor, lendingLtvFactor d.ltvMaxBps = .ok factor ∧
        evalAll ctx (lendingCollateralInstructions factor.toInt64) (.int priceScaled.toInt64 :: stack) = .ok stack := by
  rw [checkLendingCollateral_eq_ok]
  refine exists_congr fun factor => and_congr_right fun _ => ?_
  rw [← List.append_nil (lendingCollateralInstructions _),
    evalAll_lendingCollateral houtput (LendingPoolDatum.lendingSized_of_datum hdatum),
    LendingPoolDatum.totalDebt_of_datum hdatum, LendingPoolDatum.totalCollateral_of_datum hdatum, evalAll_nil]
  exact ⟨fun h => ⟨hroom, h, rfl⟩, fun h => h.2.1⟩

/-! ### The two witnesses -/

omit [Crypto] in
private theorem decodeScript_lendingPath0Witness : decodeScript lendingPath0Witness = .ok [.simple .op0] := by decide

omit [Crypto] in
private theorem length_lendingPath0Witness : lendingPath0Witness.length = 1 := by decide

def lendingPath1Instructions (price : OracleSignedPrice) : List Instruction :=
  [.pushBytes price.signature, .pushBytes price.oraclePubkey, .pushBytes (toLittleEndian 8 price.priceScaled.toNat),
    .pushBytes (toLittleEndian 8 price.slot.toNat), ScriptBuilder.pushInt 1]

section Path1

variable {price : OracleSignedPrice} (hkey : price.oraclePubkey.length ≤ 2592) (hsig : price.signature.length ≤ 4627)

include hkey hsig

omit [Crypto] in
theorem length_lendingPath1Witness : (lendingPath1Witness price).length ≤ 7300 := by
  have hpush : ∀ data : Bytes, data.length ≤ 65535 → (Instruction.pushBytes data).encode.length ≤ data.length + 3 := by
    intro data hlen
    unfold Instruction.pushBytes
    split
    · simp [Instruction.encode]
      omega
    · simp [Instruction.encode]
      omega
  have hsigPush := hpush price.signature (by omega)
  have hkeyPush := hpush price.oraclePubkey (by omega)
  have hwordPush : ∀ x : UInt64, (Instruction.pushBytes (toLittleEndian 8 x.toNat)).encode.length ≤ 11 := by
    intro x
    have hword := hpush (toLittleEndian 8 x.toNat) (by rw [length_toLittleEndian]; decide)
    rwa [length_toLittleEndian] at hword
  have hpriceWord := hwordPush price.priceScaled
  have hslotWord := hwordPush price.slot
  have hselector := ScriptBuilder.length_encode_pushInt 1
  have hnil : (encodeInstructions []).length = 0 := rfl
  simp only [lendingPath1Witness, length_encodeInstructions_cons]
  omega

omit [Crypto] in
theorem decodeScript_lendingPath1Witness (hkeyNe : price.oraclePubkey ≠ []) (hsigNe : price.signature ≠ []) :
    decodeScript (lendingPath1Witness price) = .ok (lendingPath1Instructions price) := by
  have hword : ∀ x : UInt64, toLittleEndian 8 x.toNat ≠ [] := by
    intro x
    apply List.ne_nil_of_length_pos
    rw [length_toLittleEndian]
    decide
  have hwordPush : ∀ x : UInt64, (Instruction.pushBytes (toLittleEndian 8 x.toNat)).WellFormed := by
    intro x
    exact Instruction.wellFormed_pushBytes (hword x) (by rw [length_toLittleEndian]; decide)
  apply decodeScript_encodeInstructions
  · simp only [List.forall_mem_cons]
    refine ⟨?_, ?_, hwordPush _, hwordPush _, ScriptBuilder.wellFormed_pushInt 1, List.forall_mem_nil _⟩
    · exact (Instruction.wellFormed_pushBytes_iff (by omega)).mpr hsigNe
    · exact (Instruction.wellFormed_pushBytes_iff (by omega)).mpr hkeyNe
  · exact (length_lendingPath1Witness hkey hsig).trans (by decide)

omit [Crypto] in
omit hkey hsig in
private theorem isConstant_lendingPath1Instructions : ∀ instr ∈ lendingPath1Instructions price, instr.op.isConstant = true := by
  simp only [lendingPath1Instructions, List.forall_mem_cons, Instruction.isConstant_pushBytes,
    ScriptBuilder.isConstant_pushInt, true_and]
  exact List.forall_mem_nil _

omit [Crypto] in
private theorem witnessStack_lendingPath1Witness (hkeyNe : price.oraclePubkey ≠ []) (hsigNe : price.signature ≠ []) :
    witnessStack (lendingPath1Witness price) =
      [.int 1, .bytes (toLittleEndian 8 price.slot.toNat), .bytes (toLittleEndian 8 price.priceScaled.toNat),
        .bytes price.oraclePubkey, .bytes price.signature] := by
  rw [witnessStack_eq (decodeScript_lendingPath1Witness hkey hsig hkeyNe hsigNe)]
  simp only [lendingPath1Instructions, List.map_cons, List.map_nil, Instruction.pushed_pushBytes]
  rfl

end Path1

/-! ### What the builders build -/

section Builders

variable {req : LendingRequestCore} {bundle : LendingTxBundle} {newDatum : LendingPoolDatum} {witness script : Bytes}
  {tx : Transaction} {resolved : List TxOutput} {slot : Slot} {stealthInfo : Option StealthInfo}
  {totalCollateral totalDebt : UInt64}

/-- The transaction spends the pool with this witness and leaves the new pool under the same lock. -/
structure LendingRequestCore.Assembles (req : LendingRequestCore) (newDatum : LendingPoolDatum) (witness script : Bytes)
    (tx : Transaction) : Prop where
  script_eq : lendingPoolScript req.poolDatum req.oraclePkHash req.maxPriceAgeSlots = .ok script
  input_eq : tx.inputs[0]? = some ⟨req.poolOutpoint, witness⟩
  output_eq : tx.outputs[0]? = some (newDatum.utxo script req.poolValue none)

omit [Crypto] in
theorem assembleLendingTx_eq_ok (h : assembleLendingTx req newDatum witness = .ok bundle) :
    ∃ script, req.Assembles newDatum witness script bundle.tx := by
  unfold assembleLendingTx at h
  obtain ⟨_, -, h⟩ := bind_eq_ok.mp h
  obtain ⟨change, -, h⟩ := okOr_bind_eq_ok.mp h
  obtain ⟨script, hscript, h⟩ := bind_eq_ok.mp h
  cases pure_eq_ok.mp h
  exact ⟨script, hscript, rfl, rfl⟩

omit [Crypto] in
private theorem buildLendingDepositTx_eq_ok {amount : UInt64} (h : buildLendingDepositTx req amount = .ok bundle) :
    ∃ totalCollateral script, req.poolDatum.totalCollateral.toNat ≤ totalCollateral.toNat ∧
      req.Assembles (req.poolDatum.withTotals totalCollateral req.poolDatum.totalDebt) lendingPath0Witness script
        bundle.tx := by
  obtain ⟨-, h⟩ := require_bind_eq_ok.mp h
  obtain ⟨totalCollateral, hadd, h⟩ := okOr_bind_eq_ok.mp h
  obtain ⟨script, hbuilt⟩ := assembleLendingTx_eq_ok h
  have hsum := Word.checkedAdd_eq_some.mp hadd
  exact ⟨totalCollateral, script, by omega, hbuilt⟩

omit [Crypto] in
private theorem buildLendingRepayTx_eq_ok {amount : UInt64} (h : buildLendingRepayTx req amount = .ok bundle) :
    ∃ totalDebt script, totalDebt.toNat ≤ req.poolDatum.totalDebt.toNat ∧
      req.Assembles (req.poolDatum.withTotals req.poolDatum.totalCollateral totalDebt) lendingPath0Witness script
        bundle.tx := by
  obtain ⟨-, h⟩ := require_bind_eq_ok.mp h
  obtain ⟨-, h⟩ := require_bind_eq_ok.mp h
  obtain ⟨totalDebt, hsub, h⟩ := okOr_bind_eq_ok.mp h
  obtain ⟨script, hbuilt⟩ := assembleLendingTx_eq_ok h
  have hdiff := Word.checkedSub_eq_some.mp hsub
  exact ⟨totalDebt, script, by omega, hbuilt⟩

omit [Crypto] in
theorem buildLending_priced_eq_ok {amount : UInt64} {price : OracleSignedPrice}
    (h : buildLendingBorrowTx req amount price = .ok bundle ∨ buildLendingWithdrawTx req amount price = .ok bundle) :
    ∃ totalCollateral totalDebt script, price.poolId = req.poolDatum.poolId ∧
      checkLendingCollateral totalDebt totalCollateral price.priceScaled req.poolDatum.ltvMaxBps = .ok () ∧
      req.Assembles (req.poolDatum.withTotals totalCollateral totalDebt) (lendingPath1Witness price) script bundle.tx := by
  obtain h | h := h
  · obtain ⟨-, h⟩ := require_bind_eq_ok.mp h
    obtain ⟨hpool, h⟩ := require_bind_eq_ok.mp h
    obtain ⟨totalDebt, -, h⟩ := okOr_bind_eq_ok.mp h
    obtain ⟨⟨⟩, hcheck, h⟩ := bind_eq_ok.mp h
    obtain ⟨script, hbuilt⟩ := assembleLendingTx_eq_ok h
    exact ⟨_, totalDebt, script, hpool, hcheck, hbuilt⟩
  · obtain ⟨-, h⟩ := require_bind_eq_ok.mp h
    obtain ⟨hpool, h⟩ := require_bind_eq_ok.mp h
    obtain ⟨totalCollateral, -, h⟩ := okOr_bind_eq_ok.mp h
    obtain ⟨⟨⟩, hcheck, h⟩ := bind_eq_ok.mp h
    obtain ⟨script, hbuilt⟩ := assembleLendingTx_eq_ok h
    exact ⟨totalCollateral, _, script, hpool, hcheck, hbuilt⟩

/-! ### The lock on what is built -/

/-- On a transaction that the wallet has assembled, only the selected branch and the room for the witness are left to check. -/
theorem LendingRequestCore.Assembles.accepted_iff {ws : List Instruction} {selector : Value} {cells : Stack}
    (h : req.Assembles (req.poolDatum.withTotals totalCollateral totalDebt) witness script tx)
    (hspent : resolved[0]? = some (req.poolDatum.utxo script req.poolValue stealthInfo))
    (hdecode : decodeScript witness = .ok ws) (hconst : ∀ instr ∈ ws, instr.op.isConstant = true)
    (hwitness : witnessStack witness = selector :: cells) (hsize : witness.length ≤ 14336)
    (hroom : cells.length + 4 < 1024) :
    ∃ factor, lendingLtvFactor req.poolDatum.ltvMaxBps = .ok factor ∧ req.maxPriceAgeSlots.toNat < 2 ^ 63 ∧
      (Accepted script witness tx resolved slot ↔ ∃ final, evalAll (.new tx resolved slot script)
        (selected selector (lendingOracleInstructions factor.toInt64 req.maxPriceAgeSlots.toInt64
          (lendingOracleDomainTag ++ req.poolDatum.poolId.bytes) req.oraclePkHash) lendingRepayInstructions ++
          lendingFinalInstructions) cells = .ok final ∧ Succeeds final) := by
  obtain ⟨factor, hfactor, hage, hscript⟩ := lendingPoolLock_eq_ok (mapError_eq_ok.mp h.script_eq)
  have hlengths := @lending_constants req.poolDatum.poolId req.poolDatum.collateralTokenId req.poolDatum.debtTokenId
    req.poolDatum.scriptParams
  have hlock : script.length ≤ 2048 :=
    hscript ▸ length_encode_lendingPoolInstructions hlengths.1 hlengths.2.1 hlengths.2.2
  have hkept : LendingKept req.poolDatum.ids req.poolDatum.scriptParams.toLeBytes
      (req.poolDatum.utxo script req.poolValue stealthInfo)
      ((req.poolDatum.withTotals totalCollateral totalDebt).utxo script req.poolValue none) :=
    LendingPoolDatum.lendingKept_withTotals rfl rfl
  refine ⟨factor, hfactor, hage, ?_⟩
  rw [accepted_lendingPoolLock_iff hscript hdecode hconst hwitness]
  constructor
  · intro haccepted
    exact haccepted.2.2.2
  · intro hbranch
    refine ⟨?_, hroom, ⟨_, _, ⟨hspent, h.output_eq⟩, hkept, Int64.le_refl _⟩, hbranch⟩
    rw [List.length_append, OpCode.maxScriptSize]
    omega

/-- **Deposits and repayments pass.** -/
theorem LendingRequestCore.Assembles.accepted_path0
    (h : req.Assembles (req.poolDatum.withTotals totalCollateral totalDebt) lendingPath0Witness script tx)
    (hspent : resolved[0]? = some (req.poolDatum.utxo script req.poolValue stealthInfo))
    (hcollateral : req.poolDatum.totalCollateral.toNat ≤ totalCollateral.toNat)
    (hdebt : totalDebt.toNat ≤ req.poolDatum.totalDebt.toNat) :
    Accepted script lendingPath0Witness tx resolved slot := by
  have hwitness : witnessStack lendingPath0Witness = [.int 0] := by decide
  have hsize : lendingPath0Witness.length ≤ 14336 := by rw [length_lendingPath0Witness]; decide
  obtain ⟨factor, -, -, haccepted⟩ : ∃ factor, _ ∧ _ ∧ (Accepted script lendingPath0Witness tx resolved slot ↔ _) :=
    h.accepted_iff hspent decodeScript_lendingPath0Witness (by decide) hwitness hsize (by decide)
  apply haccepted.mpr
  refine ⟨[.int 1], ?_, rfl⟩
  have hpools : PoolsAt (.new tx resolved slot script) (req.poolDatum.utxo script req.poolValue stealthInfo)
      ((req.poolDatum.withTotals totalCollateral totalDebt).utxo script req.poolValue none) := ⟨hspent, h.output_eq⟩
  rw [selected, if_neg (by decide), evalAll_lendingRepay hpools (LendingPoolDatum.lendingSized_of_datum rfl)
    (LendingPoolDatum.lendingSized_of_datum rfl), LendingPoolDatum.totalCollateral_of_datum rfl,
    LendingPoolDatum.totalCollateral_of_datum rfl, LendingPoolDatum.totalDebt_of_datum rfl,
    LendingPoolDatum.totalDebt_of_datum rfl]
  exact ⟨by decide, hcollateral, hdebt, evalAll_lendingFinal.mpr ⟨by decide, ⟨_, h.output_eq, rfl⟩, rfl⟩⟩

omit [Crypto] in
theorem wordOf_toLittleEndian (x : UInt64) : wordOf (toLittleEndian 8 x.toNat) = x := by
  rw [wordOf, ofLittleEndian_toLittleEndian_u64, UInt64.ofNat_toNat]

/-- What is asked of a price: the oracle has signed it, and it is not from the future and not too old. -/
structure OracleSignedPrice.Fresh (price : OracleSignedPrice) (oraclePkHash : Hash256) (maxPriceAgeSlots : UInt64)
    (slot : Slot) : Prop where
  key_eq : sha3_256 price.oraclePubkey = oraclePkHash
  signed : checksigPqc price.oraclePubkey price.signature
    (oraclePriceMessage price.poolId price.priceScaled price.slot) = true
  slot_le : price.slot.toNat ≤ slot.toNat
  le_age : slot.toNat ≤ price.slot.toNat + maxPriceAgeSlots.toNat

/-- **Borrowing and withdrawing** pass with a fresh price, unless only the slot of the price lies below `2^63`. -/
theorem LendingRequestCore.Assembles.accepted_path1_iff {price : OracleSignedPrice}
    (h : req.Assembles (req.poolDatum.withTotals totalCollateral totalDebt) (lendingPath1Witness price) script tx)
    (hspent : resolved[0]? = some (req.poolDatum.utxo script req.poolValue stealthInfo))
    (hpool : price.poolId = req.poolDatum.poolId)
    (hcheck : checkLendingCollateral totalDebt totalCollateral price.priceScaled req.poolDatum.ltvMaxBps = .ok ())
    (hfresh : price.Fresh req.oraclePkHash req.maxPriceAgeSlots slot) :
    Accepted script (lendingPath1Witness price) tx resolved slot ↔
      ¬ (price.slot.toNat < 2 ^ 63 ∧ 2 ^ 63 ≤ slot.toNat) := by
  obtain ⟨level, hkey, hsig⟩ := exists_level_of_checksigPqc hfresh.signed
  have hkeyLen : price.oraclePubkey.length ≤ 2592 ∧ price.oraclePubkey ≠ [] := by
    refine ⟨?_, List.ne_nil_of_length_pos ?_⟩ <;> rw [hkey] <;> cases level <;> decide
  have hsigLen : price.signature.length ≤ 4627 ∧ price.signature ≠ [] := by
    refine ⟨?_, List.ne_nil_of_length_pos ?_⟩ <;> rw [hsig] <;> cases level <;> decide
  obtain ⟨factor, hfactor, hage, haccepted⟩ : ∃ factor, _ ∧ _ ∧ (Accepted _ _ tx resolved slot ↔ _) := h.accepted_iff hspent
    (decodeScript_lendingPath1Witness hkeyLen.1 hsigLen.1 hkeyLen.2 hsigLen.2) isConstant_lendingPath1Instructions
    (witnessStack_lendingPath1Witness hkeyLen.1 hsigLen.1 hkeyLen.2 hsigLen.2)
    ((length_lendingPath1Witness hkeyLen.1 hsigLen.1).trans (by decide)) (show 4 + 4 < 1024 by decide)
  obtain ⟨checked, hchecked, hcovered⟩ := checkLendingCollateral_eq_ok.mp hcheck
  cases hfactor.symm.trans hchecked
  have hlead := (@lending_constants req.poolDatum.poolId req.poolDatum.collateralTokenId req.poolDatum.debtTokenId
    req.poolDatum.scriptParams).2.2
  have hsized : ((req.poolDatum.withTotals totalCollateral totalDebt).utxo script req.poolValue none).LendingSized :=
    LendingPoolDatum.lendingSized_of_datum rfl
  have hslots := Signed.toInt64_le_iff_of_le hfresh.slot_le
  rw [haccepted, selected, if_pos (by decide), ← hslots]
  constructor
  · intro hrun
    obtain ⟨final, hrun, -⟩ := hrun
    obtain ⟨-, happroves, -⟩ := (evalAll_lendingOracle hlead h.output_eq hsized).mp hrun
    have hle := happroves.slot_le
    rwa [Value.toCanonicalBytes_bytes, wordOf_toLittleEndian] at hle
  · intro hle
    refine ⟨[.int 1], (evalAll_lendingOracle hlead h.output_eq hsized).mpr ⟨by decide, ?_, ?_⟩, rfl⟩
    · constructor
      · exact length_toLittleEndian _ _
      · exact length_toLittleEndian _ _
      · rwa [Value.toCanonicalBytes_bytes, wordOf_toLittleEndian]
      · rw [Value.toCanonicalBytes_bytes, wordOf_toLittleEndian]
        exact Signed.toInt64_sub_le hfresh.slot_le hfresh.le_age hage
      · rw [LendingPoolDatum.totalDebt_of_datum rfl, LendingPoolDatum.totalCollateral_of_datum rfl,
          Value.toCanonicalBytes_bytes, ofLittleEndian_toLittleEndian_u64]
        exact hcovered
      · exact hfresh.key_eq
      · rw [← hpool]
        exact hfresh.signed
    · exact evalAll_lendingFinal.mpr ⟨by decide, ⟨_, h.output_eq, rfl⟩, rfl⟩

/-! ### All four builders -/

/-- The lock of the requested pool accepts the pool input, whatever the other inputs are, exactly under this condition. -/
def LendingTxBundle.AcceptedWhen (bundle : LendingTxBundle) (req : LendingRequestCore) (slot : Slot) (condition : Prop) :
    Prop :=
  ∃ script input, lendingPoolScript req.poolDatum req.oraclePkHash req.maxPriceAgeSlots = .ok script ∧
    bundle.tx.inputs[0]? = some input ∧
      ∀ (resolved : List TxOutput) (stealthInfo : Option StealthInfo),
        resolved[0]? = some (req.poolDatum.utxo script req.poolValue stealthInfo) →
        (Accepted script input.witness bundle.tx resolved slot ↔ condition)

/-- **Built lending transactions meet the lock.** Deposits and repayments are accepted at every slot. Borrowing and withdrawing with a fresh price are accepted exactly if it is not so that the slot of the price lies below `2^63` and the current slot does not. The wallet checks the collateral as the lock does. -/
theorem lendingBuilders_meet_covenant (req : LendingRequestCore) (slot : Slot) :
    (∀ (amount : UInt64) (bundle : LendingTxBundle),
      buildLendingDepositTx req amount = .ok bundle ∨ buildLendingRepayTx req amount = .ok bundle →
        bundle.AcceptedWhen req slot True) ∧
    (∀ (amount : UInt64) (price : OracleSignedPrice) (bundle : LendingTxBundle),
      price.Fresh req.oraclePkHash req.maxPriceAgeSlots slot →
      buildLendingBorrowTx req amount price = .ok bundle ∨ buildLendingWithdrawTx req amount price = .ok bundle →
        bundle.AcceptedWhen req slot (¬ (price.slot.toNat < 2 ^ 63 ∧ 2 ^ 63 ≤ slot.toNat))) ∧
    ∀ (d : LendingPoolDatum) (ctx : Context) (output : TxOutput) (stack : Stack) (priceScaled : UInt64),
      ctx.tx.outputs[0]? = some output → output.datum = some d.toCanonicalBytes → stack.length + 4 < 1024 →
        (checkLendingCollateral d.totalDebt d.totalCollateral priceScaled d.ltvMaxBps = .ok () ↔
          ∃ factor, lendingLtvFactor d.ltvMaxBps = .ok factor ∧
            evalAll ctx (lendingCollateralInstructions factor.toInt64) (.int priceScaled.toInt64 :: stack) = .ok stack) := by
  refine ⟨fun amount bundle hbuilt => ?_, fun amount price bundle hfresh hbuilt => ?_,
    fun d ctx output stack priceScaled => checkLendingCollateral_iff_evalAll⟩
  · obtain hbuilt | hbuilt := hbuilt
    · obtain ⟨totalCollateral, script, hle, hassembles⟩ := buildLendingDepositTx_eq_ok hbuilt
      exact ⟨script, _, hassembles.script_eq, hassembles.input_eq, fun resolved stealthInfo hspent =>
        iff_true_intro (hassembles.accepted_path0 hspent hle le_rfl)⟩
    · obtain ⟨totalDebt, script, hle, hassembles⟩ := buildLendingRepayTx_eq_ok hbuilt
      exact ⟨script, _, hassembles.script_eq, hassembles.input_eq, fun resolved stealthInfo hspent =>
        iff_true_intro (hassembles.accepted_path0 hspent le_rfl hle)⟩
  · obtain ⟨totalCollateral, totalDebt, script, hpool, hcheck, hassembles⟩ := buildLending_priced_eq_ok hbuilt
    exact ⟨script, _, hassembles.script_eq, hassembles.input_eq, fun resolved stealthInfo hspent =>
      hassembles.accepted_path1_iff hspent hpool hcheck hfresh⟩

end Builders

end Lock

/-! ### A slot with its top bit set -/

def sampleLendingRequest : LendingRequestCore :=
  ⟨⟨.zero, 0⟩, .new .zero .zero 1000 100, 500, sampleDigest lendingKey, 100, ⟨.zero, 1⟩, 90, [1], 3⟩

def samplePrice (slot : UInt64) : OracleSignedPrice :=
  ⟨.zero, 1000000, slot, lendingKey, List.replicate 2420 0⟩

/-- **A price one slot old is refused**, for the current slot is read as a negative number. -/
theorem lendingBuilders_miss_covenant :
    ¬ ∀ (_ : Crypto) (req : LendingRequestCore) (slot : Slot) (amount : UInt64) (price : OracleSignedPrice)
      (bundle : LendingTxBundle), price.Fresh req.oraclePkHash req.maxPriceAgeSlots slot →
        buildLendingBorrowTx req amount price = .ok bundle → bundle.AcceptedWhen req slot True := by
  intro hclaim
  have hfresh : @OracleSignedPrice.Fresh lendingCrypto (samplePrice (2 ^ 63 - 1)) sampleLendingRequest.oraclePkHash
      sampleLendingRequest.maxPriceAgeSlots (2 ^ 63) := by
    refine @OracleSignedPrice.Fresh.mk lendingCrypto _ _ _ _ ?_ ?_ ?_ ?_ <;> decide +kernel
  obtain ⟨bundle, hbuilt⟩ := isOk_iff.mp
    (show (buildLendingBorrowTx sampleLendingRequest 50 (samplePrice (2 ^ 63 - 1))).isOk = true by decide +kernel)
  obtain ⟨totalCollateral, totalDebt, script, hpool, hcheck, hassembles⟩ := buildLending_priced_eq_ok (.inl hbuilt)
  obtain ⟨script', input, hscript, hinput, haccepted⟩ := hclaim lendingCrypto _ _ _ _ _ hfresh hbuilt
  cases Except.ok.inj (hassembles.script_eq.symm.trans hscript)
  cases Option.some.inj (hassembles.input_eq.symm.trans hinput)
  have hrefused := (@LendingRequestCore.Assembles.accepted_path1_iff lendingCrypto _ _ _ _ _ none _ _ _ hassembles rfl
    hpool hcheck hfresh).mp ((haccepted [_] none rfl).mpr trivial)
  exact hrefused (by decide +kernel)

theorem lendingBuilders_meet_covenant_sample :
    (∃ bundle, buildLendingDepositTx sampleLendingRequest 7 = .ok bundle ∧
      @LendingTxBundle.AcceptedWhen lendingCrypto bundle sampleLendingRequest 5 True) ∧
    ∃ bundle, buildLendingBorrowTx sampleLendingRequest 50 (samplePrice 40) = .ok bundle ∧
      @LendingTxBundle.AcceptedWhen lendingCrypto bundle sampleLendingRequest 120 (¬ (40 < 2 ^ 63 ∧ 2 ^ 63 ≤ 120)) := by
  obtain ⟨deposit, hdeposit⟩ := isOk_iff.mp
    (show (buildLendingDepositTx sampleLendingRequest 7).isOk = true by decide +kernel)
  obtain ⟨loan, hloan⟩ := isOk_iff.mp
    (show (buildLendingBorrowTx sampleLendingRequest 50 (samplePrice 40)).isOk = true by decide +kernel)
  refine ⟨⟨deposit, hdeposit, (@lendingBuilders_meet_covenant lendingCrypto _ _).1 7 _ (.inl hdeposit)⟩, loan, hloan, ?_⟩
  have hfresh : @OracleSignedPrice.Fresh lendingCrypto (samplePrice 40) sampleLendingRequest.oraclePkHash
      sampleLendingRequest.maxPriceAgeSlots 120 := by
    refine @OracleSignedPrice.Fresh.mk lendingCrypto _ _ _ _ ?_ ?_ ?_ ?_ <;> decide +kernel
  exact (@lendingBuilders_meet_covenant lendingCrypto _ _).2.1 50 _ _ hfresh (.inl hloan)

end QuantumVault
