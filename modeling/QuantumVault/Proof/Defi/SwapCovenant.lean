import QuantumVault.Defi.TxHelpers
import QuantumVault.Proof.Defi.Amm
import QuantumVault.Proof.Script.AmmPool

/-!
# Built swaps and the pool lock

The wallet computes a swap in checked 128-bit arithmetic and the lock checks it on a stack of 64-bit integers. They agree: the lock passes on every swap that is built, at every slot, and on every swap that is built on the pool it leaves. The bytes of the datum are where the two meet, so they come first.
-/

namespace QuantumVault

open Result

/-! ### The bytes of a pool datum -/

theorem datumField_append {before field after : Bytes} {offset length : Nat} (hoffset : before.length = offset)
    (hlength : field.length = length) : datumField (before ++ (field ++ after)) offset length = field := by
  rw [datumField, List.drop_left' hoffset, List.take_left' hlength]

namespace PoolDatum

variable (d : PoolDatum)

theorem length_toCanonicalBytes : d.toCanonicalBytes.length = poolDatumLen := by
  simp only [toCanonicalBytes, List.length_append, Hash256.length_eq, length_toLittleEndian]
  rfl

theorem tokenAId_field : datumField d.toCanonicalBytes poolDatumTokenAOffset 32 = d.tokenAId.bytes := by
  rw [toCanonicalBytes, List.append_assoc, List.append_assoc, List.append_assoc, List.append_assoc]
  exact @datumField_append [] _ _ _ _ rfl d.tokenAId.length_eq

theorem tokenBId_field : datumField d.toCanonicalBytes poolDatumTokenBOffset 32 = d.tokenBId.bytes := by
  rw [toCanonicalBytes, List.append_assoc, List.append_assoc, List.append_assoc, List.append_assoc]
  exact datumField_append d.tokenAId.length_eq d.tokenBId.length_eq

theorem length_tokenIds : (d.tokenAId.bytes ++ d.tokenBId.bytes).length = 64 := by
  rw [List.length_append, d.tokenAId.length_eq, d.tokenBId.length_eq]

theorem reserveA_field : datumField d.toCanonicalBytes poolDatumReserveAOffset 8 = toLittleEndian 8 d.reserveA.toNat := by
  rw [toCanonicalBytes, List.append_assoc, List.append_assoc, List.append_assoc]
  exact datumField_append d.length_tokenIds (length_toLittleEndian _ _)

theorem reserveB_field : datumField d.toCanonicalBytes poolDatumReserveBOffset 8 = toLittleEndian 8 d.reserveB.toNat := by
  rw [toCanonicalBytes, List.append_assoc, List.append_assoc]
  apply datumField_append
  · rw [List.length_append, length_tokenIds, length_toLittleEndian]
    rfl
  · exact length_toLittleEndian _ _

private theorem lpTotal_field : datumField d.toCanonicalBytes poolDatumLpTotalOffset 8 = toLittleEndian 8 d.lpTotal.toNat := by
  rw [toCanonicalBytes, List.append_assoc]
  apply datumField_append
  · rw [List.length_append, List.length_append, length_tokenIds, length_toLittleEndian, length_toLittleEndian]
    rfl
  · exact length_toLittleEndian _ _

theorem feeBps_field : datumField d.toCanonicalBytes poolDatumFeeBpsOffset 2 = toLittleEndian 2 d.feeBps.toNat := by
  rw [toCanonicalBytes, ← List.append_nil (toLittleEndian 2 _)]
  apply datumField_append
  · rw [List.length_append, List.length_append, List.length_append, length_tokenIds, length_toLittleEndian,
      length_toLittleEndian, length_toLittleEndian]
    rfl
  · exact length_toLittleEndian _ _

theorem field_le {offset length : Nat} (h : offset + length ≤ 90) : offset + length ≤ d.toCanonicalBytes.length := by
  rw [length_toCanonicalBytes]
  exact h

/-- **Decoding inverts the canonical encoding.** -/
theorem fromCanonicalBytes_toCanonicalBytes : fromCanonicalBytes d.toCanonicalBytes = .ok d := by
  have hread32 : ∀ {offset : Nat} {h : Hash256}, datumField d.toCanonicalBytes offset 32 = h.bytes →
      read32 d.toCanonicalBytes offset = .ok h := by
    intro offset h hfield
    change (d.toCanonicalBytes.drop offset).take 32 = h.bytes at hfield
    rw [read32, dif_pos (by rw [hfield, h.length_eq])]
    exact congrArg Except.ok (Hash256.ext hfield)
  have hreadU64 : ∀ {offset : Nat} {n : UInt64}, offset + 8 ≤ 90 →
      datumField d.toCanonicalBytes offset 8 = toLittleEndian 8 n.toNat → readU64 d.toCanonicalBytes offset = .ok n := by
    intro offset n hbound hfield
    change (d.toCanonicalBytes.drop offset).take 8 = _ at hfield
    rw [readU64, require_bind_eq_ok, hfield, ofLittleEndian_toLittleEndian_u64, UInt64.ofNat_toNat]
    exact ⟨d.field_le hbound, rfl⟩
  have hreadU16 : readU16 d.toCanonicalBytes poolDatumFeeBpsOffset = .ok d.feeBps := by
    have hfield := d.feeBps_field
    change (d.toCanonicalBytes.drop poolDatumFeeBpsOffset).take 2 = _ at hfield
    have hlt : d.feeBps.toNat < 256 ^ 2 := d.feeBps.toNat_lt
    rw [readU16, require_bind_eq_ok, hfield, ofLittleEndian_toLittleEndian_of_lt hlt, UInt16.ofNat_toNat]
    exact ⟨d.field_le (by decide), rfl⟩
  rw [fromCanonicalBytes, require_bind_eq_ok]
  refine ⟨d.length_toCanonicalBytes, ?_⟩
  rw [hread32 d.tokenAId_field, ok_bind, hread32 d.tokenBId_field, ok_bind, hreadU64 (by decide) d.reserveA_field, ok_bind,
    hreadU64 (by decide) d.reserveB_field, ok_bind, hreadU64 (by decide) d.lpTotal_field, ok_bind, hreadU16, ok_bind]
  rfl

end PoolDatum

/-! ### Pool outputs -/

/-- The output that holds a pool: its datum in canonical form under the lock of its token ids and its fee. -/
def PoolDatum.utxo (d : PoolDatum) (value : Amount) : TxOutput :=
  ⟨value, ammPoolLock d.tokenAId d.tokenBId d.feeBps, some d.toCanonicalBytes, none⟩

namespace PoolDatum

variable {d : PoolDatum} {output : TxOutput}

theorem utxo_lockingScript (d : PoolDatum) (value : Amount) :
    (d.utxo value).lockingScript = ammPoolLock d.tokenAId d.tokenBId d.feeBps := by
  rw [utxo]

theorem poolSized_of_datum (h : output.datum = some d.toCanonicalBytes) : output.PoolSized := by
  rw [TxOutput.PoolSized, h, Option.getD_some, length_toCanonicalBytes]
  rfl

theorem holdsPool_of_datum (h : output.datum = some d.toCanonicalBytes) :
    output.HoldsPool d.tokenAId d.tokenBId d.feeBps :=
  ⟨_, h, d.tokenAId_field, d.tokenBId_field, d.feeBps_field⟩

theorem toNat_reserveA_field :
    ofLittleEndian (datumField d.toCanonicalBytes poolDatumReserveAOffset poolDatumReserveLen) = d.reserveA.toNat := by
  rw [poolDatumReserveLen, reserveA_field, ofLittleEndian_toLittleEndian_u64]

theorem toNat_reserveB_field :
    ofLittleEndian (datumField d.toCanonicalBytes poolDatumReserveBOffset poolDatumReserveLen) = d.reserveB.toNat := by
  rw [poolDatumReserveLen, reserveB_field, ofLittleEndian_toLittleEndian_u64]

theorem reserveProduct_of_datum (h : output.datum = some d.toCanonicalBytes) : output.reserveProduct = d.invariant := by
  rw [TxOutput.reserveProduct, h, Option.getD_some, toNat_reserveA_field, toNat_reserveB_field]
  rfl

end PoolDatum

/-! ### One swap -/

private theorem PoolState.applySwap_constants (s : PoolState) (direction : SwapDirection) (amountIn amountOut : UInt64) :
    let s' := (s.applySwap direction amountIn amountOut).2
    s'.datum.tokenAId = s.datum.tokenAId ∧ s'.datum.tokenBId = s.datum.tokenBId ∧ s'.datum.feeBps = s.datum.feeBps := by
  unfold PoolState.applySwap
  split
  · split
    · exact ⟨rfl, rfl, rfl⟩
    · split <;> exact ⟨rfl, rfl, rfl⟩
  · split
    · exact ⟨rfl, rfl, rfl⟩
    · split <;> exact ⟨rfl, rfl, rfl⟩

private theorem PoolDatum.swapReserves_eq (d : PoolDatum) (direction : SwapDirection) :
    d.swapReserves direction = (d.reserveIn direction, d.reserveOut direction) := by
  cases direction <;> rfl

section Swaps

variable [Crypto]

/-- What the lock asks of a pool and its successor. -/
structure PoolDatum.ContinuedBy (old new : PoolDatum) : Prop where
  tokenAId_eq : new.tokenAId = old.tokenAId
  tokenBId_eq : new.tokenBId = old.tokenBId
  feeBps_eq : new.feeBps = old.feeBps
  invariant_le : old.invariant ≤ new.invariant

omit [Crypto] in
private theorem PoolDatum.ContinuedBy.transition {old new : PoolDatum} {spent left : TxOutput} (h : old.ContinuedBy new)
    (hspent : spent.datum = some old.toCanonicalBytes) (hleft : left.datum = some new.toCanonicalBytes) :
    PoolTransition old.tokenAId old.tokenBId old.feeBps spent left := by
  refine ⟨holdsPool_of_datum hspent, ?_, ?_⟩
  · rw [← h.tokenAId_eq, ← h.tokenBId_eq, ← h.feeBps_eq]
    exact holdsPool_of_datum hleft
  · rw [reserveProduct_of_datum hspent, reserveProduct_of_datum hleft]
    exact h.invariant_le

omit [Crypto] in
private theorem PoolDatum.ContinuedBy.lockingScript_eq {old new : PoolDatum} {value : Amount} (h : old.ContinuedBy new) :
    (new.utxo value).lockingScript = ammPoolLock old.tokenAId old.tokenBId old.feeBps := by
  rw [utxo_lockingScript, h.tokenAId_eq, h.tokenBId_eq, h.feeBps_eq]

/-- **The lock passes without a witness** when the pool is input 0 and its successor is output 0. -/
theorem PoolDatum.ContinuedBy.accepted {old new : PoolDatum} {spent : TxOutput} {value : Amount} {tx : Transaction}
    {resolved : List TxOutput} {slot : Slot} (h : old.ContinuedBy new) (hspent : spent.datum = some old.toCanonicalBytes)
    (hinput : resolved[0]? = some spent) (houtput : tx.outputs[0]? = some (new.utxo value)) :
    Accepted (ammPoolLock old.tokenAId old.tokenBId old.feeBps) [] tx resolved slot := by
  refine (accepted_without_witness_iff decodeScript_ammPoolLock isPlain_ammPoolInstructions).mpr
    ⟨length_ammPoolLock, ?_, [.int 1], ?_, rfl⟩
  · exact gasTotal_ammPoolInstructions.trans (by decide)
  · refine evalAll_ammPoolInstructions.mpr ⟨by decide, ⟨spent, new.utxo value, hinput, houtput, ?_, ?_, ?_⟩, rfl⟩
    · exact ⟨poolSized_of_datum hspent, poolSized_of_datum rfl⟩
    · exact h.transition hspent rfl
    · exact congrArg sha3_256 h.lockingScript_eq

omit [Crypto] in
theorem outputs_withFee_new (inputs : List TxInput) (first second : TxOutput) (fee : Amount) :
    ((Transaction.new inputs [first, second]).withFee fee).outputs[0]? = some first := rfl

omit [Crypto] in
theorem TxOutput.withDatum_new (value : Amount) (script datum : Bytes) :
    (TxOutput.new value script).withDatum datum = ⟨value, script, some datum, none⟩ := rfl

/-- **What a built swap is**: its output 0 is a pool that continues the pool of the request, at the same value. -/
theorem buildSwapTx_eq_ok {req : SwapRequest} {bundle : SwapTxBundle} (h : buildSwapTx req = .ok bundle) :
    req.poolDatum.ContinuedBy bundle.newPoolDatum ∧
      bundle.tx.outputs[0]? = some (bundle.newPoolDatum.utxo req.poolValue) := by
  unfold buildSwapTx at h
  obtain ⟨_, -, h⟩ := bind_eq_ok.mp h
  obtain ⟨⟨amountOut, fee⟩, hswap, h⟩ := okOr_bind_eq_ok.mp h
  obtain ⟨-, h⟩ := require_bind_eq_ok.mp h
  obtain ⟨change, -, h⟩ := okOr_bind_eq_ok.mp h
  have hconstants := PoolState.applySwap_constants (PoolState.mk (sha3_256 (ammPoolLock req.poolDatum.tokenAId
    req.poolDatum.tokenBId req.poolDatum.feeBps)) req.poolDatum) req.direction req.amountIn amountOut
  dsimp only at h hconstants
  generalize happlied : PoolState.applySwap _ req.direction req.amountIn amountOut = applied at h hconstants
  obtain ⟨result, state⟩ := applied
  obtain ⟨⟨⟩, happly, h⟩ := bind_eq_ok.mp h
  cases mapError_eq_ok.mp happly
  cases pure_eq_ok.mp h
  obtain ⟨ha, hb, hfee⟩ := hconstants
  change computeSwapOutput (req.poolDatum.swapReserves req.direction).1 (req.poolDatum.swapReserves req.direction).2 _ _ = _
    at hswap
  rw [PoolDatum.swapReserves_eq] at hswap
  refine ⟨⟨ha, hb, hfee, swap_invariant_le hswap happlied⟩, ?_⟩
  rw [outputs_withFee_new, TxOutput.withDatum_new, PoolDatum.utxo, ha, hb, hfee]

omit [Crypto] in
private theorem buildCreatePoolTx_eq_ok {req : CreatePoolRequest} {bundle : CreatePoolTxBundle}
    (h : buildCreatePoolTx req = .ok bundle) : bundle.tx.outputs[0]? = some (bundle.poolDatum.utxo req.poolValue) := by
  unfold buildCreatePoolTx at h
  obtain ⟨⟨lpIssued, seeded⟩, -, h⟩ := bind_eq_ok.mp h
  obtain ⟨_, -, h⟩ := bind_eq_ok.mp h
  obtain ⟨change, -, h⟩ := okOr_bind_eq_ok.mp h
  cases pure_eq_ok.mp h
  rw [outputs_withFee_new, TxOutput.withDatum_new, PoolDatum.utxo]

/-! ### Chains of swaps -/

/-- The request describes a pool output: its value, and the pool that its datum decodes to. -/
def SwapRequest.Describes (req : SwapRequest) (pool : TxOutput) : Prop :=
  req.poolValue = pool.value ∧
    ∃ bytes, pool.datum = some bytes ∧ PoolDatum.fromCanonicalBytes bytes = .ok req.poolDatum

/-- Swaps built one on the other: each takes the pool that the one before it has left in output 0. Every step lists the pool spent and what was built. -/
inductive SwapChain : TxOutput → List (TxOutput × SwapTxBundle) → Prop where
  | nil (pool : TxOutput) : SwapChain pool []
  | cons {pool next : TxOutput} {req : SwapRequest} {bundle : SwapTxBundle} {rest : List (TxOutput × SwapTxBundle)}
      (describes : req.Describes pool) (built : buildSwapTx req = .ok bundle) (left : bundle.tx.outputs[0]? = some next)
      (later : SwapChain next rest) : SwapChain pool ((pool, bundle) :: rest)

/-- Every swap that is ever built on a pool output is accepted by the lock of the pool it spends, whatever the other inputs and the slot. -/
def SwapsAccepted (pool : TxOutput) : Prop :=
  ∀ steps, SwapChain pool steps → ∀ step ∈ steps, ∀ (resolved : List TxOutput) (slot : Slot),
    resolved[0]? = some step.1 → Accepted step.1.lockingScript [] step.2.tx resolved slot

/-- A swap leaves a canonical pool output again, so the lock passes all along the chain. -/
theorem PoolDatum.swapsAccepted (d : PoolDatum) (value : Amount) : SwapsAccepted (d.utxo value) := by
  intro steps hchain
  generalize hpool : d.utxo value = pool at hchain
  induction hchain generalizing d value with
  | nil => exact List.forall_mem_nil _
  | cons describes built left later ih =>
      subst hpool
      obtain ⟨hvalue, bytes, hbytes, hdecode⟩ := describes
      cases Option.some.inj hbytes
      cases Except.ok.inj (d.fromCanonicalBytes_toCanonicalBytes.symm.trans hdecode)
      obtain ⟨hcontinued, houtput⟩ := buildSwapTx_eq_ok built
      rw [List.forall_mem_cons]
      constructor
      · intro resolved slot hinput
        rw [PoolDatum.utxo_lockingScript]
        exact hcontinued.accepted rfl hinput houtput
      · exact ih _ _ (Option.some.inj (houtput.symm.trans left))

/-- **Built swaps meet the pool lock.** The datum decodes to what was encoded and has its fields where the lock reads them; a swap that is built is accepted when its pool is input 0; and so is every swap built later, on the pool it leaves or on a pool that was created. -/
theorem swapBuilder_meets_covenant :
    (∀ d : PoolDatum, PoolDatum.fromCanonicalBytes d.toCanonicalBytes = .ok d ∧
      d.toCanonicalBytes.length = poolDatumLen ∧
      datumField d.toCanonicalBytes poolDatumTokenAOffset 32 = d.tokenAId.bytes ∧
      datumField d.toCanonicalBytes poolDatumTokenBOffset 32 = d.tokenBId.bytes ∧
      ofLittleEndian (datumField d.toCanonicalBytes poolDatumReserveAOffset poolDatumReserveLen) = d.reserveA.toNat ∧
      ofLittleEndian (datumField d.toCanonicalBytes poolDatumReserveBOffset poolDatumReserveLen) = d.reserveB.toNat ∧
      datumField d.toCanonicalBytes poolDatumFeeBpsOffset 2 = toLittleEndian 2 d.feeBps.toNat) ∧
    (∀ (req : SwapRequest) (bundle : SwapTxBundle), buildSwapTx req = .ok bundle →
      (∀ (resolved : List TxOutput) (slot : Slot) (stealthInfo : Option StealthInfo),
        resolved[0]? = some ⟨req.poolValue,
            ammPoolLock req.poolDatum.tokenAId req.poolDatum.tokenBId req.poolDatum.feeBps,
            some req.poolDatum.toCanonicalBytes, stealthInfo⟩ →
          Accepted (ammPoolLock req.poolDatum.tokenAId req.poolDatum.tokenBId req.poolDatum.feeBps) [] bundle.tx resolved
            slot) ∧
        ∃ next, bundle.tx.outputs[0]? = some next ∧ SwapsAccepted next) ∧
    ∀ (req : CreatePoolRequest) (bundle : CreatePoolTxBundle), buildCreatePoolTx req = .ok bundle →
      ∃ pool, bundle.tx.outputs[0]? = some pool ∧ SwapsAccepted pool := by
  refine ⟨fun d => ?_, fun req bundle hbuilt => ⟨fun resolved slot stealthInfo hinput => ?_, ?_⟩, fun req bundle hbuilt => ?_⟩
  · exact ⟨d.fromCanonicalBytes_toCanonicalBytes, d.length_toCanonicalBytes, d.tokenAId_field, d.tokenBId_field,
      PoolDatum.toNat_reserveA_field, PoolDatum.toNat_reserveB_field, d.feeBps_field⟩
  · obtain ⟨hcontinued, houtput⟩ := buildSwapTx_eq_ok hbuilt
    exact hcontinued.accepted rfl hinput houtput
  · exact ⟨_, (buildSwapTx_eq_ok hbuilt).2, PoolDatum.swapsAccepted _ _⟩
  · exact ⟨_, buildCreatePoolTx_eq_ok hbuilt, PoolDatum.swapsAccepted _ _⟩

end Swaps

/-! ### A pool beyond 2^63 -/

/-- A sale to a pool whose first reserve has its top bit set. -/
def sampleSwapRequest : SwapRequest :=
  ⟨⟨.zero, 0⟩, ⟨.zero, .zero, 0xF000000000000000, 1000000, 7, 30⟩, 500, ⟨.zero, 1⟩, 90, [1], .bToA, 2000, 1, 3⟩

theorem swapBuilder_meets_covenant_sample :
    ∃ bundle, @buildSwapTx sampleCrypto sampleSwapRequest = .ok bundle ∧
      @Accepted sampleCrypto (ammPoolLock .zero .zero 30) [] bundle.tx
        [⟨500, ammPoolLock .zero .zero 30, some sampleSwapRequest.poolDatum.toCanonicalBytes, none⟩] 9 := by
  obtain ⟨bundle, hbuilt⟩ := isOk_iff.mp (show (@buildSwapTx sampleCrypto sampleSwapRequest).isOk = true by decide +kernel)
  exact ⟨bundle, hbuilt, ((@swapBuilder_meets_covenant sampleCrypto).2.1 _ _ hbuilt).1 _ _ none rfl⟩

end QuantumVault
