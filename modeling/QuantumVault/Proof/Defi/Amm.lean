import QuantumVault.Defi.Amm
import QuantumVault.Lib.Rounding

/-!
# Pool accounting over whole histories

Starting from the empty pool, whatever sequence of deposits, withdrawals and swaps is applied, the square of the shares stays under the product of the reserves. That is what keeps a share from being worth more than its part of the pool, and it survives every rounding because each operation rounds in favour of the pool.
-/

namespace QuantumVault

open Result

/-! ### The integer square root -/

private theorem add_div_le_succ {n x : Nat} (hpos : 0 < x) (hle : x ≤ n) : x + n / x ≤ n + 1 := by
  have hquot : 1 ≤ n / x := (Nat.one_le_div_iff hpos).mpr hle
  have hmul : n / x * x ≤ n := Nat.div_mul_le_self n x
  nlinarith

/-- The iteration ends at the root: the current guess is never below it, and the last one is not improved. -/
theorem sqrtLoop_eq {n rounds x : Nat} (hn : n + 1 < 2 ^ 128) (hpos : 0 < x) (hle : x ≤ n)
    (hroot : n < (x + 1) * (x + 1)) (hrounds : x ≤ rounds) : sqrtLoop n rounds x ((x + n / x) / 2) = Nat.sqrt n := by
  induction rounds generalizing x with
  | zero => omega
  | succ rounds ih =>
      rw [sqrtLoop]
      split
      · rename_i hlt
        have hquot : 1 ≤ n / x := (Nat.one_le_div_iff hpos).mpr hle
        have hnext : 0 < (x + n / x) / 2 := by omega
        have hsum := add_div_le_succ hnext (by omega : (x + n / x) / 2 ≤ n)
        rw [Nat.mod_eq_of_lt (by omega)]
        exact ih hnext (by omega) (Rounding.lt_succ_sq_newton n hpos) (by omega)
      · rename_i hge
        exact Nat.eq_sqrt.mpr ⟨Rounding.sq_le_of_newton (not_lt.mp hge), hroot⟩

private theorem sqrtU128_eq {n : Nat} (hn : n + 1 < 2 ^ 128) : sqrtU128 n = Nat.sqrt n := by
  unfold sqrtU128
  split
  · rename_i hzero
    rw [hzero, Nat.sqrt_zero]
  · rename_i hpos
    have hfirst : (n + 1) / 2 = (n + n / n) / 2 := by rw [Nat.div_self (by omega)]
    rw [hfirst]
    exact sqrtLoop_eq hn (by omega) le_rfl (by nlinarith) le_rfl

/-! ### What each operation computes -/

theorem checkedAddAmount_eq_ok {a b c : UInt64} : checkedAddAmount a b = .ok c ↔ c.toNat = a.toNat + b.toNat := by
  rw [checkedAddAmount, okOr_eq_ok, Word.checkedAdd_eq_some]

theorem checkedSubAmount_eq_ok {a b c : UInt64} : checkedSubAmount a b = .ok c ↔ a.toNat = b.toNat + c.toNat := by
  rw [checkedSubAmount, okOr_eq_ok, Word.checkedSub_eq_some]

theorem checkedShare_eq_ok {a b : UInt64} {c share : Nat} :
    checkedShare a.toNat b.toNat c = .ok share ↔ 0 < c ∧ a.toNat * b.toNat / c = share := by
  rw [checkedShare, Wide.checkedMul_of_lt a.toNat_lt b.toNat_lt, okOr_some, ok_bind, okOr_eq_ok,
    Wide.checkedDiv_eq_some]

theorem UInt64.toNat_eq_zero_iff {a : UInt64} : a.toNat = 0 ↔ a = 0 := by
  rw [← UInt64.toNat_inj, UInt64.toNat_zero]

private theorem toNat_ofNat_of_not_gt {n : Nat} (h : ¬ n > Wide.maxWord) : (UInt64.ofNat n).toNat = n := by
  rw [Wide.maxWord] at h
  rw [UInt64.toNat_ofNat', Nat.mod_eq_of_lt (by omega)]

theorem computeSwapOutput_eq_some {reserveIn reserveOut amountIn out fee : UInt64} {feeBps : UInt16}
    (h : computeSwapOutput reserveIn reserveOut amountIn feeBps = some (out, fee)) :
    0 < reserveIn.toNat ∧ 0 < reserveOut.toNat ∧ ∃ net ≤ amountIn.toNat,
      out.toNat = reserveOut.toNat * net / (reserveIn.toNat + net) := by
  unfold computeSwapOutput at h
  split at h
  · cases h
  · rename_i hzero
    simp only [not_or, ← UInt64.toNat_eq_zero_iff] at hzero
    simp only [Option.bind_eq_bind, Option.bind_eq_some_iff] at h
    obtain ⟨charged, -, charge, -, h⟩ := h
    split at h
    · cases h
    · rename_i hcharge
      simp only [Option.bind_eq_some_iff] at h
      obtain ⟨net, hnet, numerator, hnumerator, denominator, hdenominator, h⟩ := h
      rw [Wide.checkedSub_of_le (by omega)] at hnet
      cases hnet
      have hlt := amountIn.toNat_lt
      rw [Wide.checkedMul_of_lt reserveOut.toNat_lt (by omega)] at hnumerator
      rw [Wide.checkedAdd_of_lt reserveIn.toNat_lt (by omega)] at hdenominator
      cases hnumerator
      cases hdenominator
      split at h
      · cases h
      · obtain ⟨amountOut, hdiv, h⟩ := Option.bind_eq_some_iff.mp h
        split at h
        · cases h
        · rename_i hfits
          cases h
          obtain ⟨-, rfl⟩ := Wide.checkedDiv_eq_some.mp hdiv
          exact ⟨by omega, by omega, _, Nat.sub_le _ _, toNat_ofNat_of_not_gt hfits⟩

namespace PoolDatum

def reserveIn (d : PoolDatum) : SwapDirection → UInt64
  | .aToB => d.reserveA
  | .bToA => d.reserveB

def reserveOut (d : PoolDatum) : SwapDirection → UInt64
  | .aToB => d.reserveB
  | .bToA => d.reserveA

theorem invariant_eq (d : PoolDatum) (direction : SwapDirection) :
    d.invariant = (d.reserveIn direction).toNat * (d.reserveOut direction).toNat := by
  cases direction with
  | aToB => rfl
  | bToA => exact Nat.mul_comm _ _

end PoolDatum

theorem PoolState.applySwap_eq_ok {s s' : PoolState} {direction : SwapDirection} {amountIn amountOut : UInt64}
    (h : s.applySwap direction amountIn amountOut = (.ok (), s')) :
    (s'.datum.reserveIn direction).toNat = (s.datum.reserveIn direction).toNat + amountIn.toNat ∧
      (s.datum.reserveOut direction).toNat = amountOut.toNat + (s'.datum.reserveOut direction).toNat ∧
      s'.datum.lpTotal = s.datum.lpTotal := by
  cases direction with
  | aToB =>
      simp only [applySwap] at h
      split at h
      · cases h
      · rename_i reserveA hadd
        split at h
        · cases h
        · rename_i reserveB hsub
          cases h
          exact ⟨checkedAddAmount_eq_ok.mp hadd, checkedSubAmount_eq_ok.mp hsub, rfl⟩
  | bToA =>
      simp only [applySwap] at h
      split at h
      · cases h
      · rename_i reserveB hadd
        split at h
        · cases h
        · rename_i reserveA hsub
          cases h
          exact ⟨checkedAddAmount_eq_ok.mp hadd, checkedSubAmount_eq_ok.mp hsub, rfl⟩

private theorem product_succ_lt (a b : UInt64) : a.toNat * b.toNat + 1 < 2 ^ 128 := by
  have ha := a.toNat_lt
  have hb := b.toNat_lt
  have : a.toNat * b.toNat ≤ (2 ^ 64 - 1) * (2 ^ 64 - 1) := Nat.mul_le_mul (by omega) (by omega)
  omega

private theorem lpIssued_first {reserveA reserveB amountA amountB issued : UInt64}
    (h : lpIssued reserveA reserveB 0 amountA amountB = .ok issued) :
    issued.toNat = Nat.sqrt (amountA.toNat * amountB.toNat) := by
  rw [lpIssued, if_pos rfl, Wide.checkedMul_of_lt amountA.toNat_lt amountB.toNat_lt, okOr_some, ok_bind, pure_eq_ok,
    sqrtU128_eq (product_succ_lt amountA amountB)] at h
  have hroot : Nat.sqrt (amountA.toNat * amountB.toNat) < 2 ^ 64 :=
    Nat.sqrt_lt.mpr (Nat.mul_lt_mul'' amountA.toNat_lt amountB.toNat_lt)
  rw [← h, UInt64.toNat_ofNat', Nat.mod_eq_of_lt hroot]

theorem lpIssued_later {reserveA reserveB lpTotal amountA amountB issued : UInt64} (hlp : lpTotal ≠ 0)
    (h : lpIssued reserveA reserveB lpTotal amountA amountB = .ok issued) :
    issued.toNat * reserveA.toNat ≤ lpTotal.toNat * amountA.toNat ∧
      issued.toNat * reserveB.toNat ≤ lpTotal.toNat * amountB.toNat := by
  rw [lpIssued, if_neg hlp] at h
  obtain ⟨shareA, hshareA, h⟩ := bind_eq_ok.mp h
  obtain ⟨shareB, hshareB, h⟩ := bind_eq_ok.mp h
  obtain ⟨hfits, h⟩ := require_bind_eq_ok.mp h
  obtain ⟨-, rfl⟩ := checkedShare_eq_ok.mp hshareA
  obtain ⟨-, rfl⟩ := checkedShare_eq_ok.mp hshareB
  rw [pure_eq_ok] at h
  rw [← h, toNat_ofNat_of_not_gt hfits]
  constructor
  · exact (Nat.mul_le_mul_right _ (Nat.min_le_left _ _)).trans (Nat.div_mul_le_self _ _)
  · exact (Nat.mul_le_mul_right _ (Nat.min_le_right _ _)).trans (Nat.div_mul_le_self _ _)

theorem computeAddLiquidity_eq_ok {reserveA reserveB lpTotal amountA amountB issued : UInt64} {d : PoolDatum}
    (h : computeAddLiquidity reserveA reserveB lpTotal amountA amountB = .ok (issued, d)) :
    0 < amountA.toNat ∧ 0 < amountB.toNat ∧ lpIssued reserveA reserveB lpTotal amountA amountB = .ok issued ∧
      d.reserveA.toNat = reserveA.toNat + amountA.toNat ∧ d.reserveB.toNat = reserveB.toNat + amountB.toNat ∧
      d.lpTotal.toNat = lpTotal.toNat + issued.toNat := by
  rw [computeAddLiquidity] at h
  obtain ⟨hpos, h⟩ := require_bind_eq_ok.mp h
  obtain ⟨issued', hissued, h⟩ := bind_eq_ok.mp h
  obtain ⟨newA, hnewA, h⟩ := bind_eq_ok.mp h
  obtain ⟨newB, hnewB, h⟩ := bind_eq_ok.mp h
  obtain ⟨newLp, hnewLp, h⟩ := bind_eq_ok.mp h
  cases h
  rw [not_or, ← UInt64.toNat_eq_zero_iff, ← UInt64.toNat_eq_zero_iff] at hpos
  exact ⟨by omega, by omega, hissued, checkedAddAmount_eq_ok.mp hnewA, checkedAddAmount_eq_ok.mp hnewB,
    checkedAddAmount_eq_ok.mp hnewLp⟩

theorem computeRemoveLiquidity_eq_ok {reserveA reserveB lpTotal lpBurned amountA amountB : UInt64} {d : PoolDatum}
    (h : computeRemoveLiquidity reserveA reserveB lpTotal lpBurned = .ok (amountA, amountB, d)) :
    0 < lpTotal.toNat ∧ lpBurned.toNat ≤ lpTotal.toNat ∧
      amountA.toNat = reserveA.toNat * lpBurned.toNat / lpTotal.toNat ∧
      amountB.toNat = reserveB.toNat * lpBurned.toNat / lpTotal.toNat ∧
      reserveA.toNat = amountA.toNat + d.reserveA.toNat ∧ reserveB.toNat = amountB.toNat + d.reserveB.toNat ∧
      lpTotal.toNat = lpBurned.toNat + d.lpTotal.toNat := by
  rw [computeRemoveLiquidity] at h
  obtain ⟨-, h⟩ := require_bind_eq_ok.mp h
  obtain ⟨hle, h⟩ := require_bind_eq_ok.mp h
  obtain ⟨shareA, hshareA, h⟩ := bind_eq_ok.mp h
  obtain ⟨shareB, hshareB, h⟩ := bind_eq_ok.mp h
  obtain ⟨hfits, h⟩ := require_bind_eq_ok.mp h
  obtain ⟨newA, hnewA, h⟩ := bind_eq_ok.mp h
  obtain ⟨newB, hnewB, h⟩ := bind_eq_ok.mp h
  obtain ⟨newLp, hnewLp, h⟩ := bind_eq_ok.mp h
  cases h
  rw [not_or] at hfits
  obtain ⟨hpos, hA⟩ := checkedShare_eq_ok.mp hshareA
  obtain ⟨-, hB⟩ := checkedShare_eq_ok.mp hshareB
  exact ⟨hpos, UInt64.le_iff_toNat_le.mp (UInt64.not_lt.mp hle), (toNat_ofNat_of_not_gt hfits.1).trans hA.symm,
    (toNat_ofNat_of_not_gt hfits.2).trans hB.symm, checkedSubAmount_eq_ok.mp hnewA, checkedSubAmount_eq_ok.mp hnewB,
    checkedSubAmount_eq_ok.mp hnewLp⟩

/-! ### The invariant -/

/-- The shares are covered by the reserves, and a pool without shares has no reserves. -/
structure PoolDatum.Sound (d : PoolDatum) : Prop where
  sq_le : d.lpTotal.toNat * d.lpTotal.toNat ≤ d.reserveA.toNat * d.reserveB.toNat
  lpTotal_iff : d.lpTotal.toNat = 0 ↔ d.reserveA.toNat = 0
  reserve_iff : d.reserveA.toNat = 0 ↔ d.reserveB.toNat = 0

namespace PoolDatum.Sound

variable {d d' : PoolDatum} {amountA amountB issued : UInt64}

theorem reserves_eq_zero (h : d.Sound) (hlp : d.lpTotal = 0) : d.reserveA.toNat = 0 ∧ d.reserveB.toNat = 0 := by
  have hA := h.lpTotal_iff.mp (by rw [hlp, UInt64.toNat_zero])
  exact ⟨hA, h.reserve_iff.mp hA⟩

theorem reserves_pos (h : d.Sound) (hlp : d.lpTotal ≠ 0) :
    0 < d.lpTotal.toNat ∧ 0 < d.reserveA.toNat ∧ 0 < d.reserveB.toNat := by
  have hne : d.lpTotal.toNat ≠ 0 := mt UInt64.toNat_eq_zero_iff.mp hlp
  have hA := mt h.lpTotal_iff.mpr hne
  have hB := mt h.reserve_iff.mpr hA
  omega

private theorem issued_le (h : d.Sound) (hadd : lpIssued d.reserveA d.reserveB d.lpTotal amountA amountB = .ok issued) :
    issued.toNat * d.reserveA.toNat ≤ d.lpTotal.toNat * amountA.toNat ∧
      issued.toNat * d.reserveB.toNat ≤ d.lpTotal.toNat * amountB.toNat := by
  by_cases hlp : d.lpTotal = 0
  · obtain ⟨hA, hB⟩ := h.reserves_eq_zero hlp
    rw [hA, hB, Nat.mul_zero]
    exact ⟨Nat.zero_le _, Nat.zero_le _⟩
  · exact lpIssued_later hlp hadd

theorem addLiquidity (h : d.Sound)
    (hadd : computeAddLiquidity d.reserveA d.reserveB d.lpTotal amountA amountB = .ok (issued, d')) : d'.Sound := by
  obtain ⟨hposA, hposB, hissued, hnewA, hnewB, hnewLp⟩ := computeAddLiquidity_eq_ok hadd
  by_cases hlp : d.lpTotal = 0
  · obtain ⟨hA, hB⟩ := h.reserves_eq_zero hlp
    rw [hlp] at hissued hnewLp
    have hroot := lpIssued_first hissued
    have hsq := Nat.sqrt_le (amountA.toNat * amountB.toNat)
    have hrootPos := Nat.sqrt_pos.mpr (Nat.mul_pos hposA hposB)
    rw [UInt64.toNat_zero] at hnewLp
    refine ⟨?_, by omega, by omega⟩
    rw [hnewLp, hnewA, hnewB, hA, hB, hroot]
    simpa using hsq
  · obtain ⟨hpos, hA, hB⟩ := h.reserves_pos hlp
    obtain ⟨hshareA, hshareB⟩ := lpIssued_later hlp hissued
    refine ⟨?_, by omega, by omega⟩
    rw [hnewLp, hnewA, hnewB]
    exact Rounding.issue_sq_le hA hB h.sq_le hshareA hshareB

theorem removeLiquidity {lpBurned : UInt64} (h : d.Sound)
    (hremove : computeRemoveLiquidity d.reserveA d.reserveB d.lpTotal lpBurned = .ok (amountA, amountB, d')) :
    d'.Sound := by
  obtain ⟨hpos, hle, hA, hB, hnewA, hnewB, hnewLp⟩ := computeRemoveLiquidity_eq_ok hremove
  have hlp : d.lpTotal ≠ 0 := mt UInt64.toNat_eq_zero_iff.mpr (by omega)
  obtain ⟨-, hposA, hposB⟩ := h.reserves_pos hlp
  have hrestA : d'.reserveA.toNat = d.reserveA.toNat - d.reserveA.toNat * lpBurned.toNat / d.lpTotal.toNat := by omega
  have hrestB : d'.reserveB.toNat = d.reserveB.toNat - d.reserveB.toNat * lpBurned.toNat / d.lpTotal.toNat := by omega
  have hrestLp : d'.lpTotal.toNat = d.lpTotal.toNat - lpBurned.toNat := by omega
  have hallA := Rounding.burn_rest_eq_zero_iff hposA hpos hle
  have hallB := Rounding.burn_rest_eq_zero_iff hposB hpos hle
  refine ⟨?_, ?_, ?_⟩
  · rw [hrestLp, hrestA, hrestB]
    exact Rounding.burn_sq_le hpos h.sq_le
  · rw [hrestA, hallA, hrestLp]
    omega
  · rw [hrestA, hrestB, hallA, hallB]

end PoolDatum.Sound

/-! ### Swaps on a sound pool -/

section Swap

variable {d : PoolDatum} {direction : SwapDirection} {amountIn out fee : UInt64} {feeBps : UInt16} {poolId : Hash256}
  {s' : PoolState}

theorem swap_out_lt
    (hswap : computeSwapOutput (d.reserveIn direction) (d.reserveOut direction) amountIn feeBps = some (out, fee)) :
    out.toNat < (d.reserveOut direction).toNat := by
  obtain ⟨hin, hout, net, -, hpaid⟩ := computeSwapOutput_eq_some hswap
  rw [hpaid]
  exact Rounding.swap_lt hin hout

theorem swap_invariant_le
    (hswap : computeSwapOutput (d.reserveIn direction) (d.reserveOut direction) amountIn feeBps = some (out, fee))
    (happly : (PoolState.mk poolId d).applySwap direction amountIn out = (.ok (), s')) :
    d.invariant ≤ s'.datum.invariant := by
  obtain ⟨-, -, net, hnet, hpaid⟩ := computeSwapOutput_eq_some hswap
  obtain ⟨hnewIn, hnewOut, -⟩ := PoolState.applySwap_eq_ok happly
  have hrest : (s'.datum.reserveOut direction).toNat = (d.reserveOut direction).toNat - out.toNat := by
    dsimp only at hnewOut
    omega
  rw [d.invariant_eq direction, s'.datum.invariant_eq direction, hnewIn, hrest, hpaid]
  exact Rounding.swap_product_le hnet

theorem PoolDatum.Sound.swap (h : d.Sound)
    (hswap : computeSwapOutput (d.reserveIn direction) (d.reserveOut direction) amountIn feeBps = some (out, fee))
    (happly : (PoolState.mk poolId d).applySwap direction amountIn out = (.ok (), s')) : s'.datum.Sound := by
  obtain ⟨hin, -, -⟩ := computeSwapOutput_eq_some hswap
  have hlt := swap_out_lt hswap
  have hproduct := swap_invariant_le hswap happly
  obtain ⟨hnewIn, hnewOut, hlp⟩ := PoolState.applySwap_eq_ok happly
  have hsq := h.sq_le
  have hlpIff := h.lpTotal_iff
  have hreserveIff := h.reserve_iff
  unfold PoolDatum.invariant at hproduct
  refine ⟨?_, ?_, ?_⟩
  · rw [hlp]
    exact hsq.trans hproduct
  all_goals
    rw [hlp] at *
    cases direction
    all_goals
      simp only [PoolDatum.reserveIn, PoolDatum.reserveOut] at *
      omega

end Swap

/-! ### Histories -/

/-- One operation on a pool. A swap states its fee, at most the whole input. -/
inductive PoolOp where
  | addLiquidity (amountA amountB : UInt64)
  | removeLiquidity (lpBurned : UInt64)
  | swap (direction : SwapDirection) (amountIn : UInt64) (feeBps : UInt16) (hfee : feeBps ≤ 10000)

/-- The pool after an operation, if the operation succeeds. The new reserves and shares come from the computation, the ids and the fee stay. -/
def PoolOp.apply (d : PoolDatum) : PoolOp → Option PoolDatum
  | .addLiquidity amountA amountB =>
      match computeAddLiquidity d.reserveA d.reserveB d.lpTotal amountA amountB with
      | .ok (_, new) => some { d with reserveA := new.reserveA, reserveB := new.reserveB, lpTotal := new.lpTotal }
      | .error _ => none
  | .removeLiquidity lpBurned =>
      match computeRemoveLiquidity d.reserveA d.reserveB d.lpTotal lpBurned with
      | .ok (_, _, new) => some { d with reserveA := new.reserveA, reserveB := new.reserveB, lpTotal := new.lpTotal }
      | .error _ => none
  | .swap direction amountIn feeBps _ =>
      match computeSwapOutput (d.reserveIn direction) (d.reserveOut direction) amountIn feeBps with
      | none => none
      | some (out, _) =>
          match (PoolState.mk .zero d).applySwap direction amountIn out with
          | (.ok (), s) => some s.datum
          | (.error _, _) => none

/-- A history: an operation that fails is not applied. -/
def runPool (d : PoolDatum) (ops : List PoolOp) : PoolDatum :=
  ops.foldl (fun d op => (op.apply d).getD d) d

def emptyPool : PoolDatum := ⟨.zero, .zero, 0, 0, 0, 0⟩

private theorem emptyPool_sound : emptyPool.Sound := ⟨le_rfl, by decide, by decide⟩

theorem PoolDatum.Sound.apply {d d' : PoolDatum} {op : PoolOp} (h : d.Sound) (happly : op.apply d = some d') :
    d'.Sound := by
  cases op with
  | addLiquidity amountA amountB =>
      rw [PoolOp.apply] at happly
      split at happly
      · rename_i issued new hadd
        cases happly
        obtain ⟨hsq, hlp, hreserve⟩ := h.addLiquidity hadd
        exact ⟨hsq, hlp, hreserve⟩
      · cases happly
  | removeLiquidity lpBurned =>
      rw [PoolOp.apply] at happly
      split at happly
      · rename_i amountA amountB new hremove
        cases happly
        obtain ⟨hsq, hlp, hreserve⟩ := h.removeLiquidity hremove
        exact ⟨hsq, hlp, hreserve⟩
      · cases happly
  | swap direction amountIn feeBps hfee =>
      rw [PoolOp.apply] at happly
      split at happly
      · cases happly
      · rename_i out fee hswap
        split at happly
        · rename_i s hs
          cases happly
          exact h.swap hswap hs
        · cases happly

private theorem runPool_sound (ops : List PoolOp) {d : PoolDatum} (h : d.Sound) : (runPool d ops).Sound := by
  induction ops generalizing d with
  | nil => exact h
  | cons op ops ih =>
      have hstep : ((op.apply d).getD d).Sound := by
        cases happly : op.apply d with
        | none => exact h
        | some d' => exact h.apply happly
      exact ih hstep

/-- **Pool accounting over whole histories.** After every sequence of deposits, withdrawals and swaps on the empty pool: the square of the shares is at most the product of the reserves; the pool has no shares exactly when it has no reserve of either token; a swap pays out less than the whole reserve and does not lower the product; and burning the shares of a deposit at once pays back no more than was deposited. -/
theorem poolAccounting_sound (ops : List PoolOp) :
    let d := runPool emptyPool ops
    d.lpTotal.toNat ^ 2 ≤ d.reserveA.toNat * d.reserveB.toNat ∧
      (d.lpTotal = 0 ↔ d.reserveA = 0) ∧ (d.reserveA = 0 ↔ d.reserveB = 0) ∧
      (∀ (direction : SwapDirection) (amountIn out fee : UInt64) (feeBps : UInt16) (poolId : Hash256), feeBps ≤ 10000 →
        computeSwapOutput (d.reserveIn direction) (d.reserveOut direction) amountIn feeBps = some (out, fee) →
        out < d.reserveOut direction ∧
          ∀ s', (PoolState.mk poolId d).applySwap direction amountIn out = (.ok (), s') →
            d.invariant ≤ s'.datum.invariant) ∧
      (∀ (amountA amountB issued backA backB : UInt64) (d₁ d₂ : PoolDatum),
        computeAddLiquidity d.reserveA d.reserveB d.lpTotal amountA amountB = .ok (issued, d₁) →
        computeRemoveLiquidity d₁.reserveA d₁.reserveB d₁.lpTotal issued = .ok (backA, backB, d₂) →
        backA ≤ amountA ∧ backB ≤ amountB) := by
  intro d
  have h : d.Sound := runPool_sound ops emptyPool_sound
  refine ⟨?_, ?_, ?_, ?_, ?_⟩
  · rw [sq]
    exact h.sq_le
  · rw [← UInt64.toNat_eq_zero_iff, ← UInt64.toNat_eq_zero_iff]
    exact h.lpTotal_iff
  · rw [← UInt64.toNat_eq_zero_iff, ← UInt64.toNat_eq_zero_iff]
    exact h.reserve_iff
  · intro direction amountIn out fee feeBps poolId _ hswap
    exact ⟨UInt64.lt_iff_toNat_lt.mpr (swap_out_lt hswap), fun s' happly => swap_invariant_le hswap happly⟩
  · intro amountA amountB issued backA backB d₁ d₂ hadd hremove
    obtain ⟨-, -, hissued, hnewA, hnewB, hnewLp⟩ := computeAddLiquidity_eq_ok hadd
    obtain ⟨-, -, hA, hB, -⟩ := computeRemoveLiquidity_eq_ok hremove
    obtain ⟨hshareA, hshareB⟩ := h.issued_le hissued
    rw [UInt64.le_iff_toNat_le, UInt64.le_iff_toNat_le, hA, hB, hnewA, hnewB, hnewLp]
    exact ⟨Rounding.issue_burn_le hshareA, Rounding.issue_burn_le hshareB⟩

end QuantumVault
