import QuantumVault.Lib.Greedy
import QuantumVault.Mempool.Ordering
import QuantumVault.Proof.Mempool.SwapFormula

/-!
# What a batch does to its pool

A batch is a greedy run: the orders come in canonical order, and each is filled against the reserves at its turn or passed over. The run is compared with one on natural numbers, where nothing is clamped. The reserves keep their product and the books balance exactly when the run on natural numbers stays below the word, and no order is filled twice exactly when an order that comes again could not be filled again.
-/

namespace QuantumVault

/-! ### The canonical order -/

namespace OrderKey

private theorem toNat_max_sub (w : UInt64) : (Word.max - w).toNat + w.toNat = 2 ^ 64 - 1 := by
  have hmax : Word.max.toNat = 2 ^ 64 - 1 := rfl
  have hlt := w.toNat_lt
  have hle : w ≤ Word.max := by
    rw [UInt64.le_iff_toNat_le]
    omega
  rw [UInt64.toNat_sub_of_le _ _ hle]
  omega

private theorem compare_eq (a b : OrderKey) : compare a b = (compare a.negFeeDensity b.negFeeDensity).then
    ((compare a.timestampMs b.timestampMs).then (compare a.txId b.txId)) := rfl

theorem compare_new_eq_lt_iff {density density' timestampMs timestampMs' : UInt64} {txId txId' : TxId} :
    compare (new density timestampMs txId) (new density' timestampMs' txId') = .lt ↔
      density' < density ∨ (density = density' ∧
        (timestampMs < timestampMs' ∨ (timestampMs = timestampMs' ∧ compare txId txId' = .lt))) := by
  have h := toNat_max_sub density
  have h' := toNat_max_sub density'
  have hlt : Word.max - density < Word.max - density' ↔ density' < density := by
    rw [UInt64.lt_iff_toNat_lt, UInt64.lt_iff_toNat_lt]
    omega
  have heq : Word.max - density = Word.max - density' ↔ density = density' := by
    rw [← UInt64.toNat_inj, ← UInt64.toNat_inj]
    omega
  rw [compare_eq, new, new, ← hlt, ← heq]
  simp only [Ordering.then_eq_lt, Std.compare_eq_lt, Std.LawfulEqOrd.compare_eq_iff_eq]

end OrderKey

theorem verifyOrder_iff {keys : List OrderKey} : verifyOrder keys = true ↔ keys.Pairwise fun a b => compare a b = .lt := by
  induction keys with
  | nil => simp [verifyOrder]
  | cons a rest ih =>
      cases rest with
      | nil => simp [verifyOrder]
      | cons b rest =>
          rw [verifyOrder, Bool.and_eq_true, beq_iff_eq, ih, List.pairwise_cons (a := a)]
          apply and_congr_left
          intro hrest
          refine ⟨fun hab c hc => ?_, fun h => h b List.mem_cons_self⟩
          rcases List.mem_cons.mp hc with rfl | hc
          · exact hab
          · exact Std.TransCmp.lt_trans hab ((List.pairwise_cons.mp hrest).1 c hc)

/-- **The canonical order of distinct keys passes the check.** -/
theorem verifyOrder_deterministicSort {keys : List OrderKey} (h : keys.Nodup) :
    verifyOrder (deterministicSort keys) = true := by
  rw [verifyOrder_iff]
  exact Sorting.pairwise_lt_sorted h

namespace Batcher

/-! ### The variables of the loop -/

def SwapDirection.opposite : SwapDirection → SwapDirection
  | .aToB => .bToA
  | .bToA => .aToB

/-- The reserve of the token that is sold in a direction. -/
def PoolState.reserve (pool : PoolState) : SwapDirection → UInt64
  | .aToB => pool.reserveA
  | .bToA => pool.reserveB

def BatchState.reserve (s : BatchState) : SwapDirection → UInt64
  | .aToB => s.reserveA
  | .bToA => s.reserveB

def BatchResult.newReserve (batch : BatchResult) : SwapDirection → UInt64
  | .aToB => batch.newReserveA
  | .bToA => batch.newReserveB

def PoolState.start (pool : PoolState) : BatchState := ⟨pool.reserveA, pool.reserveB, [], 0⟩

def BatchState.result (s : BatchState) (poolId : Hash256) : BatchResult :=
  ⟨poolId, s.matched, s.reserveA, s.reserveB, s.totalFees⟩

/-- What the order would be paid at its turn, and the fee. -/
def quote (s : BatchState) (order : OrderIntent) : Option (UInt64 × UInt64) :=
  computeSwapOutput (s.reserve order.direction) (s.reserve order.direction.opposite) order.offerAmount

def BatchState.filled (s : BatchState) (order : OrderIntent) (output fee : UInt64) : BatchState :=
  match order.direction with
  | .aToB => ⟨Word.saturatingAdd s.reserveA order.offerAmount, Word.saturatingSub s.reserveB output,
      s.matched ++ [order.orderTxId], Word.saturatingAdd s.totalFees fee⟩
  | .bToA => ⟨Word.saturatingSub s.reserveA output, Word.saturatingAdd s.reserveB order.offerAmount,
      s.matched ++ [order.orderTxId], Word.saturatingAdd s.totalFees fee⟩

/-- The orders the loop finds, in canonical order of their keys. -/
def visits (orders : List OrderIntent) : List OrderIntent :=
  (deterministicSort (orders.map OrderIntent.orderKey)).filterMap fun key => (orderMap orders)[key.txId]?

/-- The executed orders, each with the variables of the loop at its turn. -/
def executions (pool : PoolState) (orders : List OrderIntent) : List (BatchState × OrderIntent) :=
  Greedy.fills (executeOrder pool.poolId) pool.start (visits orders)

/-! ### One order -/

section Order

variable {poolId : Hash256} {s s' : BatchState} {order : OrderIntent} {output fee : UInt64}

theorem executeOrder_eq : executeOrder poolId s order = if order.poolId ≠ poolId then none else
    (quote s order).bind fun paid =>
      if paid.1 < order.minReceive then none else some (s.filled order paid.1 paid.2) := by
  obtain ⟨_, _, direction, _, _, _, _⟩ := order
  cases direction <;> rfl

theorem executeOrder_eq_some : executeOrder poolId s order = some s' ↔ order.poolId = poolId ∧
    ∃ output fee, quote s order = some (output, fee) ∧ order.minReceive ≤ output ∧ s' = s.filled order output fee := by
  rw [executeOrder_eq, Option.ite_none_left_eq_some, not_not, Option.bind_eq_some_iff]
  simp only [Option.ite_none_left_eq_some, UInt64.not_lt, Option.some.injEq, Prod.exists, eq_comm (a := s')]

private theorem executeOrder_eq_none : executeOrder poolId s order = none ↔
    (order.poolId = poolId → ∀ paid ∈ quote s order, paid.1 < order.minReceive) := by
  rw [executeOrder_eq]
  by_cases hpool : order.poolId = poolId
  · simp [hpool, Option.bind_eq_none_iff]
  · simp [hpool]

theorem quote_eq_some : quote s order = some (output, fee) ↔
    (0 < (s.reserve order.direction).toNat ∧ 0 < (s.reserve order.direction.opposite).toNat ∧
      0 < order.offerAmount.toNat ∧ order.offerAmount.toNat * 3 < 2 ^ 64) ∧
    output.toNat = swapPaid (s.reserve order.direction).toNat (s.reserve order.direction.opposite).toNat
      order.offerAmount.toNat ∧ fee.toNat = swapFee order.offerAmount.toNat := by
  have hfee := swapFee_le order.offerAmount.toNat
  have hoffer := order.offerAmount.toNat_lt
  rw [quote, computeSwapOutput_eq, Option.ite_none_left_eq_some, Option.some.injEq, Prod.mk.injEq,
    Word.ofNat_eq_iff swapPaid_lt_word, Word.ofNat_eq_iff (by omega)]
  simp only [not_or, ← UInt64.toNat_eq_zero_iff, not_le, Nat.pos_iff_ne_zero, and_assoc, ne_eq]

private theorem output_lt (h : quote s order = some (output, fee)) :
    output.toNat < (s.reserve order.direction.opposite).toNat := by
  obtain ⟨⟨hin, hout, -, -⟩, hpaid, -⟩ := quote_eq_some.mp h
  rw [hpaid]
  exact Rounding.swap_lt hin hout

@[simp] theorem matched_filled : (s.filled order output fee).matched = s.matched ++ [order.orderTxId] := by
  rw [BatchState.filled]
  cases order.direction <;> rfl

@[simp] theorem totalFees_filled : (s.filled order output fee).totalFees = Word.saturatingAdd s.totalFees fee := by
  rw [BatchState.filled]
  cases order.direction <;> rfl

theorem reserve_filled (direction : SwapDirection) :
    (s.filled order output fee).reserve direction =
      if direction = order.direction then Word.saturatingAdd (s.reserve direction) order.offerAmount
      else Word.saturatingSub (s.reserve direction) output := by
  rw [BatchState.filled]
  cases order.direction <;> cases direction <;> rfl

theorem matched_of_executeOrder (h : executeOrder poolId s order = some s') :
    s'.matched = s.matched ++ [order.orderTxId] := by
  obtain ⟨-, output, fee, -, -, rfl⟩ := executeOrder_eq_some.mp h
  exact matched_filled

end Order

/-! ### The batch as a greedy run -/

private theorem foldl_batchStep {poolId : Hash256} {found : Std.ExtTreeMap TxId OrderIntent} {keys : List OrderKey}
    {s : BatchState} : keys.foldl (batchStep poolId found) s =
      Greedy.run (executeOrder poolId) s (keys.filterMap fun key => found[key.txId]?) := by
  induction keys generalizing s with
  | nil => rfl
  | cons key keys ih =>
      rw [List.foldl_cons, ih, batchStep, List.filterMap_cons]
      cases found[key.txId]? with
      | none => rfl
      | some order => rfl

theorem buildAmmBatch_eq (pool : PoolState) (orders : List OrderIntent) : buildAmmBatch pool orders =
    .ok ((Greedy.run (executeOrder pool.poolId) pool.start (visits orders)).result pool.poolId) := by
  rw [visits, ← foldl_batchStep]
  rfl

theorem matched_run (pool : PoolState) (orders : List OrderIntent) :
    (Greedy.run (executeOrder pool.poolId) pool.start (visits orders)).matched =
      (executions pool orders).map fun turn => turn.2.orderTxId :=
  Greedy.log_run BatchState.matched fun _ _ _ => matched_of_executeOrder

/-- One order given several times is visited as often. -/
theorem visits_replicate (n : Nat) (order : OrderIntent) : visits (List.replicate n order) = List.replicate n order := by
  have hsort : deterministicSort ((List.replicate n order).map OrderIntent.orderKey) =
      List.replicate n order.orderKey := by
    rw [List.map_replicate]
    exact List.perm_replicate.mp (Sorting.perm_sorted _)
  have hfound : n ≠ 0 → (orderMap (List.replicate n order))[order.orderTxId]? = some order := by
    intro hn
    have hentries : (List.replicate n order).map (fun order => (order.orderTxId, order)) =
        (List.replicate n order.orderTxId).map fun id => (id, order) := by
      rw [List.map_replicate, List.map_replicate]
    rw [orderMap, hentries, TreeMap.getElem?_insertAll_const, if_pos (List.mem_replicate.mpr ⟨hn, rfl⟩)]
  rw [visits, hsort]
  cases n with
  | zero => rfl
  | succ n => exact List.filterMap_replicate_of_some (hfound (Nat.succ_ne_zero n))

/-! ### Conservation -/

/-- What an executed order pays into the pool, of the token sold in a direction. -/
def paidIn (token : SwapDirection) (turn : BatchState × OrderIntent) : Nat :=
  if token = turn.2.direction then turn.2.offerAmount.toNat else 0

/-- What an executed order is paid by the pool, of the token sold in a direction. -/
def paidOut (token : SwapDirection) (turn : BatchState × OrderIntent) : Nat :=
  if token = turn.2.direction then 0 else ((quote turn.1 turn.2).map fun paid => paid.1.toNat).getD 0

def charged (turn : BatchState × OrderIntent) : Nat := ((quote turn.1 turn.2).map fun paid => paid.2.toNat).getD 0

/-- The product of the reserves does not go down, and reserves and fees are the exact sums over the executed orders. -/
structure KeepsValue (pool : PoolState) (orders : List OrderIntent) (batch : BatchResult) : Prop where
  product : pool.reserveA.toNat * pool.reserveB.toNat ≤ batch.newReserveA.toNat * batch.newReserveB.toNat
  balance (token : SwapDirection) : (pool.reserve token).toNat + ((executions pool orders).map (paidIn token)).sum =
    (batch.newReserve token).toNat + ((executions pool orders).map (paidOut token)).sum
  fees : batch.totalFees.toNat = ((executions pool orders).map charged).sum

/-- The reserves and the fees of a batch as natural numbers, which nothing clamps. -/
structure ExactState where
  reserve : SwapDirection → Nat
  totalFees : Nat

namespace ExactState

/-- The order can be filled against the reserves. -/
def Fillable (poolId : Hash256) (e : ExactState) (order : OrderIntent) : Prop :=
  order.poolId = poolId ∧ 0 < e.reserve order.direction ∧ 0 < e.reserve order.direction.opposite ∧
    0 < order.offerAmount.toNat ∧ order.offerAmount.toNat * 3 < 2 ^ 64 ∧
    order.minReceive.toNat ≤
      swapPaid (e.reserve order.direction) (e.reserve order.direction.opposite) order.offerAmount.toNat

instance (poolId : Hash256) (e : ExactState) (order : OrderIntent) : Decidable (e.Fillable poolId order) :=
  inferInstanceAs (Decidable (_ ∧ _))

def filled (e : ExactState) (order : OrderIntent) : ExactState where
  reserve token :=
    if token = order.direction then e.reserve token + order.offerAmount.toNat
    else e.reserve token -
      swapPaid (e.reserve order.direction) (e.reserve order.direction.opposite) order.offerAmount.toNat
  totalFees := e.totalFees + swapFee order.offerAmount.toNat

def execute (poolId : Hash256) (e : ExactState) (order : OrderIntent) : Option ExactState :=
  if e.Fillable poolId order then some (e.filled order) else none

/-- After the order the reserve it pays into and the fees are still words. -/
def Fits (turn : ExactState × OrderIntent) : Prop :=
  turn.1.reserve turn.2.direction + turn.2.offerAmount.toNat < 2 ^ 64 ∧
    turn.1.totalFees + swapFee turn.2.offerAmount.toNat < 2 ^ 64

def product (e : ExactState) : Nat := e.reserve .aToB * e.reserve .bToA

end ExactState

def BatchState.exact (s : BatchState) : ExactState := ⟨fun token => (s.reserve token).toNat, s.totalFees.toNat⟩

instance (turn : ExactState × OrderIntent) : Decidable (ExactState.Fits turn) := inferInstanceAs (Decidable (_ ∧ _))

/-- In the batch on natural numbers, the reserves and the fees stay words. -/
def FitsExactly (pool : PoolState) (orders : List OrderIntent) : Prop :=
  ∀ turn ∈ Greedy.fills (ExactState.execute pool.poolId) pool.start.exact (visits orders), ExactState.Fits turn

section Conservation

variable {poolId : Hash256} {s s' : BatchState} {order : OrderIntent} {output fee : UInt64}

theorem exists_executeOrder_iff : (∃ s', executeOrder poolId s order = some s') ↔ s.exact.Fillable poolId order := by
  constructor
  · rintro ⟨s', h⟩
    obtain ⟨hpool, output, fee, hquote, hmin, -⟩ := executeOrder_eq_some.mp h
    obtain ⟨⟨hin, hout, hoffer, hwide⟩, hpaid, -⟩ := quote_eq_some.mp hquote
    rw [UInt64.le_iff_toNat_le, hpaid] at hmin
    exact ⟨hpool, hin, hout, hoffer, hwide, hmin⟩
  · rintro ⟨hpool, hin, hout, hoffer, hwide, hmin⟩
    have hfee := swapFee_le order.offerAmount.toNat
    have hlt := order.offerAmount.toNat_lt
    obtain ⟨output, hpaid⟩ : ∃ w : UInt64, w.toNat = swapPaid (s.reserve order.direction).toNat
        (s.reserve order.direction.opposite).toNat order.offerAmount.toNat := Word.exists_toNat_eq swapPaid_lt_word
    obtain ⟨fee, hcharge⟩ : ∃ w : UInt64, w.toNat = swapFee order.offerAmount.toNat := Word.exists_toNat_eq (by omega)
    have hquote : quote s order = some (output, fee) :=
      quote_eq_some.mpr ⟨⟨hin, hout, hoffer, hwide⟩, hpaid, hcharge⟩
    refine ⟨_, executeOrder_eq_some.mpr ⟨hpool, output, fee, hquote, ?_, rfl⟩⟩
    rw [UInt64.le_iff_toNat_le, hpaid]
    exact hmin

/-- While nothing is clamped, a fill is the one on natural numbers. -/
theorem exact_filled (hquote : quote s order = some (output, fee)) (hfits : ExactState.Fits (s.exact, order)) :
    (s.filled order output fee).exact = s.exact.filled order := by
  obtain ⟨-, hpaid, hcharge⟩ := quote_eq_some.mp hquote
  obtain ⟨hreserve, htotal⟩ := hfits
  rw [BatchState.exact, ExactState.filled, ExactState.mk.injEq]
  constructor
  · funext token
    rw [reserve_filled]
    split
    · rename_i htoken
      subst htoken
      rw [Word.toNat_saturatingAdd]
      exact Nat.min_eq_left (by simp only [BatchState.exact] at hreserve; omega)
    · rw [Word.toNat_saturatingSub, hpaid]
      rfl
  · rw [totalFees_filled, Word.toNat_saturatingAdd, hcharge]
    exact Nat.min_eq_left (by simp only [BatchState.exact] at htotal; omega)

private theorem execute_of_executeOrder (h : executeOrder poolId s order = some s') :
    ∃ e', ExactState.execute poolId s.exact order = some e' ∧ (ExactState.Fits (s.exact, order) → e' = s'.exact) := by
  obtain ⟨-, output, fee, hquote, -, rfl⟩ := executeOrder_eq_some.mp h
  refine ⟨_, if_pos (exists_executeOrder_iff.mp ⟨_, h⟩), fun hfits => ?_⟩
  exact (exact_filled hquote hfits).symm

private theorem execute_eq_none (h : executeOrder poolId s order = none) :
    ExactState.execute poolId s.exact order = none := by
  apply if_neg
  intro hfillable
  obtain ⟨s', hs'⟩ := exists_executeOrder_iff.mpr hfillable
  rw [h] at hs'
  cases hs'

theorem fitsExactly_iff {pool : PoolState} {orders : List OrderIntent} :
    FitsExactly pool orders ↔ ∀ turn ∈ executions pool orders, ExactState.Fits (turn.1.exact, turn.2) :=
  (Greedy.forall_fills_iff (f := BatchState.exact) (P := fun turn => ExactState.Fits (turn.1.exact, turn.2))
    (fun _ _ => Iff.rfl) (fun _ _ => execute_eq_none) fun _ _ _ => execute_of_executeOrder).symm

private theorem paidOut_of_quote (token : SwapDirection) (h : quote s order = some (output, fee)) :
    paidOut token (s, order) = if token = order.direction then 0 else output.toNat := by
  rw [paidOut, h]
  rfl

private theorem charged_of_quote (h : quote s order = some (output, fee)) : charged (s, order) = fee.toNat := by
  rw [charged, h]
  rfl

/-- What the clamp of the reserve paid into loses. -/
private def reserveLoss (token : SwapDirection) (turn : BatchState × OrderIntent) : Nat :=
  if token = turn.2.direction then (turn.1.reserve token).toNat + turn.2.offerAmount.toNat - Wide.maxWord else 0

/-- What the clamp of the fees loses. -/
private def feeLoss (turn : BatchState × OrderIntent) : Nat :=
  turn.1.totalFees.toNat + swapFee turn.2.offerAmount.toNat - Wide.maxWord

private theorem reserve_step (token : SwapDirection) (h : executeOrder poolId s order = some s') :
    (s.reserve token).toNat + paidIn token (s, order) =
      (s'.reserve token).toNat + paidOut token (s, order) + reserveLoss token (s, order) := by
  obtain ⟨-, output, fee, hquote, -, rfl⟩ := executeOrder_eq_some.mp h
  rw [paidOut_of_quote token hquote, reserve_filled, paidIn, reserveLoss]
  by_cases htoken : token = order.direction
  · simp only [htoken, if_true]
    rw [Word.toNat_saturatingAdd, Wide.maxWord]
    omega
  · have hopposite : token = order.direction.opposite := by
      cases token <;> cases hdirection : order.direction <;> simp_all [SwapDirection.opposite]
    have hlt := output_lt hquote
    rw [← hopposite] at hlt
    simp only [htoken, if_false]
    rw [Word.toNat_saturatingSub]
    omega

private theorem fees_step (h : executeOrder poolId s order = some s') :
    s.totalFees.toNat + charged (s, order) = s'.totalFees.toNat + 0 + feeLoss (s, order) := by
  obtain ⟨-, output, fee, hquote, -, rfl⟩ := executeOrder_eq_some.mp h
  obtain ⟨-, -, hcharge⟩ := quote_eq_some.mp hquote
  rw [charged_of_quote hquote, totalFees_filled, Word.toNat_saturatingAdd, hcharge]
  simp only [feeLoss, Wide.maxWord]
  omega

private theorem fits_iff (turn : BatchState × OrderIntent) :
    ExactState.Fits (turn.1.exact, turn.2) ↔ (∀ token, reserveLoss token turn = 0) ∧ feeLoss turn = 0 := by
  have hreserve : (∀ token, reserveLoss token turn = 0) ↔
      (turn.1.reserve turn.2.direction).toNat + turn.2.offerAmount.toNat < 2 ^ 64 := by
    constructor
    · intro hloss
      have hloss := hloss turn.2.direction
      rw [reserveLoss, if_pos rfl, Wide.maxWord] at hloss
      omega
    · intro hfits token
      rw [reserveLoss, Wide.maxWord]
      split
      · rename_i htoken
        subst htoken
        omega
      · rfl
  have hfee : feeLoss turn = 0 ↔ turn.1.totalFees.toNat + swapFee turn.2.offerAmount.toNat < 2 ^ 64 := by
    rw [feeLoss, Wide.maxWord]
    omega
  rw [hreserve, hfee]
  rfl

theorem ExactState.product_le {e e' : ExactState} (h : e.execute poolId order = some e') : e.product ≤ e'.product := by
  rw [ExactState.execute, Option.ite_none_right_eq_some] at h
  obtain ⟨-, h⟩ := h
  cases h
  have hproduct := @Rounding.swap_product_le (e.reserve order.direction) (e.reserve order.direction.opposite)
    (order.offerAmount.toNat - swapFee order.offerAmount.toNat) order.offerAmount.toNat (Nat.sub_le _ _)
  rw [ExactState.product, ExactState.product, ExactState.filled]
  cases hdirection : order.direction with
  | aToB =>
      rw [hdirection] at hproduct
      exact hproduct
  | bToA =>
      rw [hdirection] at hproduct
      rw [Nat.mul_comm, Nat.mul_comm (ite _ _ _)]
      exact hproduct

end Conservation

private theorem product_run_le {pool : PoolState} {orders : List OrderIntent} (h : FitsExactly pool orders) :
    pool.start.exact.product ≤ (Greedy.run (executeOrder pool.poolId) pool.start (visits orders)).exact.product := by
  have hrun : Greedy.run (ExactState.execute pool.poolId) pool.start.exact (visits orders) =
      (Greedy.run (executeOrder pool.poolId) pool.start (visits orders)).exact := by
    refine Greedy.run_of_forall_fills (P := fun turn => ExactState.Fits (turn.1.exact, turn.2))
      (fun _ _ => execute_eq_none) (fun s s' order hexecute hfits => ?_) (fitsExactly_iff.mp h)
    obtain ⟨e', hexact, hagree⟩ := execute_of_executeOrder hexecute
    rw [hexact, hagree hfits]
  rw [← hrun]
  exact Greedy.run_induction (motive := fun e => pool.start.exact.product ≤ e.product)
    (fun _ _ _ hle hstep => hle.trans (ExactState.product_le hstep)) le_rfl

theorem keepsValue_iff (pool : PoolState) (orders : List OrderIntent) :
    KeepsValue pool orders ((Greedy.run (executeOrder pool.poolId) pool.start (visits orders)).result pool.poolId) ↔
      FitsExactly pool orders := by
  have hreserve : ∀ token, (pool.start.reserve token).toNat + ((executions pool orders).map (paidIn token)).sum =
      ((Greedy.run (executeOrder pool.poolId) pool.start (visits orders)).reserve token).toNat +
        ((executions pool orders).map (paidOut token)).sum ↔
      ∀ turn ∈ executions pool orders, reserveLoss token turn = 0 :=
    fun token => Greedy.balanced_iff (fun s : BatchState => (s.reserve token).toNat) fun _ _ _ => reserve_step token
  have hfees : pool.start.totalFees.toNat + ((executions pool orders).map charged).sum =
      (Greedy.run (executeOrder pool.poolId) pool.start (visits orders)).totalFees.toNat +
        ((executions pool orders).map fun _ => 0).sum ↔ ∀ turn ∈ executions pool orders, feeLoss turn = 0 :=
    Greedy.balanced_iff (fun s : BatchState => s.totalFees.toNat) fun _ _ _ => fees_step
  have hstart : ∀ token, pool.start.reserve token = pool.reserve token := fun token => by cases token <;> rfl
  have hend : ∀ (s : BatchState) token, (s.result pool.poolId).newReserve token = s.reserve token :=
    fun s token => by cases token <;> rfl
  have hzero : pool.start.totalFees.toNat = 0 := rfl
  rw [List.map_const', List.sum_replicate, smul_zero, Nat.add_zero, hzero, Nat.zero_add] at hfees
  simp only [hstart] at hreserve
  simp only [fitsExactly_iff, fits_iff, forall_and]
  constructor
  · intro h
    refine ⟨fun turn hturn token => ?_, hfees.mp h.fees.symm⟩
    have hbalance := h.balance token
    rw [hend] at hbalance
    exact (hreserve token).mp hbalance turn hturn
  · intro h
    refine ⟨?_, fun token => ?_, (hfees.mpr h.2).symm⟩
    · have hfits : FitsExactly pool orders := fitsExactly_iff.mpr fun turn hturn =>
        (fits_iff turn).mpr ⟨h.1 turn hturn, h.2 turn hturn⟩
      exact product_run_le hfits
    · rw [hend]
      exact (hreserve token).mpr fun turn hturn => h.1 turn hturn token

/-- **A batch keeps the value in its pool exactly when no reserve and no sum of fees leaves the word.** -/
theorem buildAmmBatch_keepsValue_iff (pool : PoolState) (orders : List OrderIntent) :
    ∃ batch, buildAmmBatch pool orders = .ok batch ∧
      batch.matchedOrders = (executions pool orders).map (fun turn => turn.2.orderTxId) ∧
      (KeepsValue pool orders batch ↔ FitsExactly pool orders) :=
  ⟨_, buildAmmBatch_eq pool orders, matched_run pool orders, keepsValue_iff pool orders⟩

/-- An order to sell the first token of the pool with the zero id, named by a repeated byte. -/
def markedOrder (marker : UInt8) (offerAmount feeDensity : UInt64) : OrderIntent where
  orderTxId := repeatedByte marker
  poolId := .zero
  direction := .aToB
  offerAmount := offerAmount
  minReceive := 1
  feeDensity := feeDensity
  timestampMs := 1000

/-- A pool close to the largest reserve takes an offer that it cannot book in full. -/
theorem buildAmmBatch_clamps_reserve : ¬ ∀ (pool : PoolState) (orders : List OrderIntent) (batch : BatchResult),
    buildAmmBatch pool orders = .ok batch → KeepsValue pool orders batch := by
  intro h
  have hkeeps := h ⟨.zero, 0xF000000000000000, 1000000⟩ (List.replicate 1 (markedOrder 1 0x1800000000000000 50)) _
    (buildAmmBatch_eq _ _)
  have hfits := (keepsValue_iff _ _).mp hkeeps
  rw [FitsExactly, visits_replicate] at hfits
  exact absurd hfits (by decide)

/-! ### Repeated orders -/

section Repeats

variable {orders : List OrderIntent} {order : OrderIntent} {id : TxId}

private theorem getElem?_orderMap (h : (orderMap orders)[id]? = some order) : order ∈ orders ∧ order.orderTxId = id := by
  rw [orderMap] at h
  rcases TreeMap.mem_or_of_getElem?_insertAll h with hmem | hempty
  · obtain ⟨_, horder, heq⟩ := List.mem_map.mp hmem
    cases heq
    exact ⟨horder, rfl⟩
  · simp at hempty

private theorem orderMap_of_mem_visits (h : order ∈ visits orders) : (orderMap orders)[order.orderTxId]? = some order := by
  obtain ⟨key, -, hfound⟩ := List.mem_filterMap.mp h
  rwa [(getElem?_orderMap hfound).2]

private theorem filterMap_matched (pool : PoolState) (orders : List OrderIntent) :
    (((executions pool orders).map fun turn => turn.2.orderTxId).filterMap fun id => (orderMap orders)[id]?) =
      (executions pool orders).map Prod.snd := by
  have hfound : ∀ order ∈ (executions pool orders).map Prod.snd, (orderMap orders)[order.orderTxId]? = some order :=
    fun order horder => orderMap_of_mem_visits (Greedy.sublist_map_snd_fills.subset horder)
  have hids : ((executions pool orders).map fun turn => turn.2.orderTxId) =
      ((executions pool orders).map Prod.snd).map OrderIntent.orderTxId := by
    rw [List.map_map]
    rfl
  rw [hids, List.filterMap_map]
  exact (List.filterMap_congr hfound).trans List.filterMap_some

end Repeats

/-- No id is matched twice, and the reserves are those after executing the order of each matched id once. -/
def FillsOnce (pool : PoolState) (orders : List OrderIntent) (batch : BatchResult) : Prop :=
  batch.matchedOrders.Nodup ∧
    ∃ s, (batch.matchedOrders.filterMap fun id => (orderMap orders)[id]?).foldlM (executeOrder pool.poolId) pool.start =
      some s ∧ batch.newReserveA = s.reserveA ∧ batch.newReserveB = s.reserveB

/-- In the batch that executes each id at most once, an order for the pool whose id comes again meets reserves that do not pay what it asks for. -/
def RefusesRepeats (pool : PoolState) (orders : List OrderIntent) : Prop :=
  ∀ turn ∈ Greedy.turns (Greedy.once (executeOrder pool.poolId) BatchState.matched OrderIntent.orderTxId) pool.start
      (visits orders),
    turn.2.orderTxId ∈ turn.1.matched → turn.2.poolId = pool.poolId →
      ∀ paid ∈ quote turn.1 turn.2, paid.1 < turn.2.minReceive

theorem nodup_matched_iff (pool : PoolState) (orders : List OrderIntent) :
    ((executions pool orders).map fun turn => turn.2.orderTxId).Nodup ↔ RefusesRepeats pool orders := by
  simp only [RefusesRepeats, ← executeOrder_eq_none]
  rw [Greedy.forall_turns_once_iff, ← matched_run]
  exact Greedy.nodup_log_iff BatchState.matched (fun _ _ _ => matched_of_executeOrder) List.nodup_nil

theorem fillsOnce_iff (pool : PoolState) (orders : List OrderIntent) :
    FillsOnce pool orders ((Greedy.run (executeOrder pool.poolId) pool.start (visits orders)).result pool.poolId) ↔
      RefusesRepeats pool orders := by
  rw [← nodup_matched_iff, FillsOnce, BatchState.result, matched_run, filterMap_matched]
  exact and_iff_left ⟨_, Greedy.foldlM_map_snd_fills, rfl, rfl⟩

/-! ### Distinct orders -/

/-- The denser fee comes first, then the earlier arrival, then the smaller id. -/
def OrderIntent.Precedes (a b : OrderIntent) : Prop :=
  b.feeDensity < a.feeDensity ∨ (a.feeDensity = b.feeDensity ∧
    (a.timestampMs < b.timestampMs ∨ (a.timestampMs = b.timestampMs ∧ compare a.orderTxId b.orderTxId = .lt)))

/-- The turn of an order for the pool: it is executed if there is an output for it and the output is enough. -/
def settle (s : BatchState) (order : OrderIntent) : BatchState :=
  match quote s order with
  | some (output, fee) => if order.minReceive ≤ output then s.filled order output fee else s
  | none => s

section Distinct

variable {orders orders' : List OrderIntent}

theorem compare_orderKey (a b : OrderIntent) : compare a.orderKey b.orderKey = .lt ↔ a.Precedes b :=
  OrderKey.compare_new_eq_lt_iff

private theorem map_fst_entries :
    (orders.map fun order => (order.orderTxId, order)).map Prod.fst = orders.map OrderIntent.orderTxId := by
  rw [List.map_map]
  rfl

theorem orderMap_of_mem (h : (orders.map OrderIntent.orderTxId).Nodup) {order : OrderIntent} (hmem : order ∈ orders) :
    (orderMap orders)[order.orderTxId]? = some order :=
  TreeMap.getElem?_insertAll_of_mem (by rwa [map_fst_entries]) (List.mem_map_of_mem hmem)

theorem perm_visits (h : (orders.map OrderIntent.orderTxId).Nodup) : (visits orders).Perm orders := by
  have hall : ((orders.map OrderIntent.orderKey).filterMap fun key => (orderMap orders)[key.txId]?) = orders := by
    rw [List.filterMap_map]
    exact (List.filterMap_congr fun order horder => orderMap_of_mem h horder).trans List.filterMap_some
  have hperm := (Sorting.perm_sorted (orders.map OrderIntent.orderKey)).filterMap fun key => (orderMap orders)[key.txId]?
  rwa [hall] at hperm

private theorem map_orderKey_visits (h : (orders.map OrderIntent.orderTxId).Nodup) :
    (visits orders).map OrderIntent.orderKey = deterministicSort (orders.map OrderIntent.orderKey) := by
  have hkeys : ∀ key ∈ deterministicSort (orders.map OrderIntent.orderKey),
      ((orderMap orders)[key.txId]?).map OrderIntent.orderKey = some key := by
    intro key hkey
    obtain ⟨order, horder, rfl⟩ := List.mem_map.mp ((Sorting.perm_sorted _).mem_iff.mp hkey)
    have hfound : (orderMap orders)[order.orderKey.txId]? = some order := orderMap_of_mem h horder
    rw [hfound, Option.map_some]
  rw [visits, List.map_filterMap]
  exact (List.filterMap_congr hkeys).trans List.filterMap_some

theorem pairwise_visits (h : (orders.map OrderIntent.orderTxId).Nodup) :
    (visits orders).Pairwise OrderIntent.Precedes := by
  have hkeys : (orders.map OrderIntent.orderKey).Nodup := by
    have hids : (orders.map OrderIntent.orderKey).map OrderKey.txId = orders.map OrderIntent.orderTxId := by
      rw [List.map_map]
      rfl
    exact List.Nodup.of_map OrderKey.txId (by rwa [hids])
  have hsorted := Sorting.pairwise_lt_sorted hkeys
  rw [← deterministicSort, ← map_orderKey_visits h, List.pairwise_map] at hsorted
  exact hsorted.imp fun hlt => (compare_orderKey _ _).mp hlt

private theorem buildAmmBatch_eq_of_perm (pool : PoolState) (h : (orders.map OrderIntent.orderTxId).Nodup)
    (hperm : orders.Perm orders') : buildAmmBatch pool orders = buildAmmBatch pool orders' := by
  have hmap : orderMap orders = orderMap orders' :=
    TreeMap.insertAll_perm (by rwa [map_fst_entries]) (hperm.map _)
  have hsort : deterministicSort (orders.map OrderIntent.orderKey) = deterministicSort (orders'.map OrderIntent.orderKey) :=
    Sorting.sorted_eq_of_perm (hperm.map _)
  rw [buildAmmBatch_eq, buildAmmBatch_eq, visits, visits, hmap, hsort]

private theorem refusesRepeats_of_nodup (pool : PoolState) (h : (orders.map OrderIntent.orderTxId).Nodup) :
    RefusesRepeats pool orders := by
  have hexecuted : ((executions pool orders).map Prod.snd).Sublist (visits orders) := Greedy.sublist_map_snd_fills
  have hids := ((perm_visits h).map OrderIntent.orderTxId).nodup_iff.mpr h
  have hmatched := hids.sublist (hexecuted.map OrderIntent.orderTxId)
  rw [List.map_map] at hmatched
  exact (nodup_matched_iff pool orders).mp hmatched

private theorem foldl_settle {poolId : Hash256} {s : BatchState} (h : ∀ order ∈ orders, order.poolId = poolId) :
    orders.foldl settle s = Greedy.run (executeOrder poolId) s orders := by
  induction orders generalizing s with
  | nil => rfl
  | cons order orders ih =>
      obtain ⟨hpool, hrest⟩ := List.forall_mem_cons.mp h
      have hturn : settle s order = (executeOrder poolId s order).getD s := by
        rw [settle, executeOrder_eq, if_neg (not_not.mpr hpool)]
        cases quote s order with
        | none => rfl
        | some paid =>
            rw [Option.bind_some]
            by_cases hmin : paid.1 < order.minReceive
            · simp only [if_neg (UInt64.not_le.mpr hmin), if_pos hmin, Option.getD_none]
            · simp only [if_pos (UInt64.not_lt.mp hmin), if_neg hmin, Option.getD_some]
      rw [List.foldl_cons, hturn, Greedy.run, ih hrest]

end Distinct

/-- **No order is executed twice exactly when none that comes again is paid what it asks for.** In particular no order is when the ids are distinct. -/
theorem buildAmmBatch_fillsOnce_iff (pool : PoolState) (orders : List OrderIntent) :
    ∃ batch, buildAmmBatch pool orders = .ok batch ∧ (FillsOnce pool orders batch ↔ RefusesRepeats pool orders) ∧
      ((orders.map OrderIntent.orderTxId).Nodup → FillsOnce pool orders batch) :=
  ⟨_, buildAmmBatch_eq pool orders, fillsOnce_iff pool orders,
    fun hdistinct => (fillsOnce_iff pool orders).mpr (refusesRepeats_of_nodup pool hdistinct)⟩

/-- An order that asks for all it is paid at the first turn. -/
def greedyOrder : OrderIntent := { markedOrder 1 100 50 with minReceive := 99 }

private theorem refusesRepeats_greedyOrder : RefusesRepeats ⟨.zero, 10000, 10000⟩ (List.replicate 2 greedyOrder) := by
  rw [RefusesRepeats, visits_replicate]
  have hfirst : Greedy.once (executeOrder .zero) BatchState.matched OrderIntent.orderTxId
      (PoolState.start ⟨.zero, 10000, 10000⟩) greedyOrder = some ⟨10100, 9901, [repeatedByte 1], 0⟩ := by decide
  have hagain : quote ⟨10100, 9901, [repeatedByte 1], 0⟩ greedyOrder = some (97, 0) := by decide
  simp only [List.replicate_succ, List.replicate_zero, Greedy.turns, hfirst, Option.getD_some, List.forall_mem_cons]
  refine ⟨fun hmatched => absurd hmatched List.not_mem_nil, fun _ _ paid hpaid => ?_, List.forall_mem_nil _⟩
  obtain rfl := Option.some.inj (hagain.symm.trans hpaid)
  decide

/-- The order given twice is executed once. -/
theorem buildAmmBatch_fillsOnce_iff_greedyOrder : ∃ batch,
    buildAmmBatch ⟨.zero, 10000, 10000⟩ (List.replicate 2 greedyOrder) = .ok batch ∧
      FillsOnce ⟨.zero, 10000, 10000⟩ (List.replicate 2 greedyOrder) batch := by
  obtain ⟨batch, hbatch, hiff, -⟩ := buildAmmBatch_fillsOnce_iff ⟨.zero, 10000, 10000⟩ (List.replicate 2 greedyOrder)
  exact ⟨batch, hbatch, hiff.mpr refusesRepeats_greedyOrder⟩

/-- The same order given twice is executed twice. -/
theorem buildAmmBatch_fills_twice : ¬ ∀ (pool : PoolState) (orders : List OrderIntent) (batch : BatchResult),
    buildAmmBatch pool orders = .ok batch → FillsOnce pool orders batch := by
  intro h
  have honce := (h ⟨.zero, 10000, 10000⟩ (List.replicate 2 (markedOrder 1 100 50)) _ (buildAmmBatch_eq _ _)).1
  rw [BatchState.result, visits_replicate] at honce
  exact absurd honce (by decide)

/-- **Distinct orders have one batch, the fold over the orders for the pool in canonical order.** -/
theorem buildAmmBatch_canonical (pool : PoolState) (orders : List OrderIntent)
    (hdistinct : (orders.map OrderIntent.orderTxId).Nodup) :
    (∀ orders', orders.Perm orders' → buildAmmBatch pool orders = buildAmmBatch pool orders') ∧
      ∃ queue : List OrderIntent,
        queue.Perm (orders.filter fun order => order.poolId = pool.poolId) ∧ queue.Pairwise OrderIntent.Precedes ∧
        buildAmmBatch pool orders = .ok ((queue.foldl settle pool.start).result pool.poolId) ∧
        ∃ executed : List OrderIntent, executed.Sublist queue ∧
          (queue.foldl settle pool.start).matched = executed.map OrderIntent.orderTxId ∧
          verifyOrder (executed.map OrderIntent.orderKey) = true := by
  refine ⟨fun orders' => buildAmmBatch_eq_of_perm pool hdistinct,
    (visits orders).filter fun order => order.poolId = pool.poolId, (perm_visits hdistinct).filter _,
    (pairwise_visits hdistinct).filter _, ?_⟩
  have hwrong : ∀ (s : BatchState) (order : OrderIntent), decide (order.poolId = pool.poolId) = false →
      executeOrder pool.poolId s order = none := by
    intro s order hpool
    rw [executeOrder_eq, if_pos (of_decide_eq_false hpool)]
  have hfor : ∀ order ∈ (visits orders).filter fun order => order.poolId = pool.poolId, order.poolId = pool.poolId :=
    fun order horder => of_decide_eq_true (List.mem_filter.mp horder).2
  rw [foldl_settle hfor, Greedy.run_filter hwrong]
  refine ⟨buildAmmBatch_eq pool orders, (executions pool orders).map Prod.snd, ?_, ?_, ?_⟩
  · rw [executions, ← Greedy.fills_filter hwrong]
    exact Greedy.sublist_map_snd_fills
  · rw [matched_run, List.map_map]
    rfl
  · rw [verifyOrder_iff, List.pairwise_map]
    have hexecuted : ((executions pool orders).map Prod.snd).Sublist (visits orders) := Greedy.sublist_map_snd_fills
    exact ((pairwise_visits hdistinct).sublist hexecuted).imp fun hlt => (compare_orderKey _ _).mpr hlt

/-- Two orders give the same batch either way round. -/
theorem buildAmmBatch_canonical_swap :
    buildAmmBatch ⟨.zero, 10000, 10000⟩ [markedOrder 10 100 50, markedOrder 11 100 200] =
      buildAmmBatch ⟨.zero, 10000, 10000⟩ [markedOrder 11 100 200, markedOrder 10 100 50] :=
  (buildAmmBatch_canonical ⟨.zero, 10000, 10000⟩ [markedOrder 10 100 50, markedOrder 11 100 200] (by decide)).1 _
    (List.Perm.swap _ _ _)

end Batcher

end QuantumVault
