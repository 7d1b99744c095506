import QuantumVault.Defi.Oracle
import QuantumVault.Lib.Rounding

/-!
# The average over time

What the window holds after any run, and what the average of its prices is. A run is taken back to the observations added since the window was last cleared.
-/

namespace QuantumVault

namespace Oracle

open Result

/-! ### The window -/

inductive WindowOp where
  | add (obs : PriceObservation)
  | clear
deriving DecidableEq

namespace WindowOp

def apply (w : OracleWindow) : WindowOp → OracleWindow
  | add obs => w.addObservation obs
  | clear => w.clear

def added (before : List PriceObservation) : WindowOp → List PriceObservation
  | add obs => before ++ [obs]
  | clear => []

end WindowOp

variable {w : OracleWindow} {before : List PriceObservation} {ops : List WindowOp}

/-- The window holds the end of what was added. -/
def Holds (before : List PriceObservation) (w : OracleWindow) : Prop :=
  w.observations = before.rtake (max w.maxSize 1)

theorem Holds.apply (h : Holds before w) (op : WindowOp) : Holds (op.added before) (op.apply w) := by
  cases op with
  | add obs =>
      show Window.push w.maxSize w.observations obs = _
      rw [show w.observations = _ from h]
      exact Window.push_rtake
  | clear => exact (List.rtake_nil _).symm

theorem Holds.run (h : Holds before w) : Holds (ops.foldl WindowOp.added before) (ops.foldl WindowOp.apply w) := by
  induction ops generalizing before w with
  | nil => exact h
  | cons op ops ih => exact ih (h.apply op)

private theorem maxSize_run (w : OracleWindow) (ops : List WindowOp) : (ops.foldl WindowOp.apply w).maxSize = w.maxSize := by
  induction ops generalizing w with
  | nil => rfl
  | cons op ops ih =>
      rw [List.foldl_cons, ih]
      cases op <;> rfl

private theorem new_eq_some {poolId : Hash256} {maxSize : Nat} :
    OracleWindow.new poolId maxSize = some w ↔
      maxSize ≤ OracleWindow.maxCapacity ∧ w = ⟨poolId, maxSize, []⟩ := by
  rw [OracleWindow.new, Option.ite_none_right_eq_some, Option.some.injEq, eq_comm (a := w)]

theorem observations_run {poolId : Hash256} {maxSize : Nat} (hnew : OracleWindow.new poolId maxSize = some w)
    (ops : List WindowOp) :
    (ops.foldl WindowOp.apply w).observations = (ops.foldl WindowOp.added []).rtake (max maxSize 1) := by
  obtain ⟨-, rfl⟩ := new_eq_some.mp hnew
  have hempty : Holds [] ⟨poolId, maxSize, []⟩ := (List.rtake_nil _).symm
  have hholds : Holds _ _ := @Holds.run _ _ ops hempty
  rw [Holds, maxSize_run] at hholds
  exact hholds

/-! ### The average -/

def priceWeights (observations : List PriceObservation) : List (Nat × Nat) :=
  (observations.zip observations.tail).map fun pair => (pair.1.priceQ64.toNat, pair.2.slot.toNat - pair.1.slot.toNat)

def Chronological (observations : List PriceObservation) : Prop := observations.Pairwise fun a b => a.slot ≤ b.slot

private theorem twapStep_inv {sums sums' : Nat × UInt64} {pair : PriceObservation × PriceObservation}
    (h : twapStep sums pair = .ok sums') : pair.1.slot ≤ pair.2.slot ∧
      sums'.1 = sums.1 + pair.1.priceQ64.toNat * (pair.2.slot.toNat - pair.1.slot.toNat) ∧ sums'.1 < 2 ^ 128 ∧
      sums'.2.toNat = sums.2.toNat + (pair.2.slot.toNat - pair.1.slot.toNat) := by
  rw [twapStep, okOr_bind_eq_ok] at h
  obtain ⟨dt, hdt, h⟩ := h
  obtain ⟨priceTime, hprice, h⟩ := okOr_bind_eq_ok.mp h
  obtain ⟨sumPriceTime, hsum, h⟩ := okOr_bind_eq_ok.mp h
  obtain ⟨sumTime, htime, h⟩ := okOr_bind_eq_ok.mp h
  cases pure_eq_ok.mp h
  rw [Word.checkedSub_eq_some] at hdt
  rw [Word.checkedAdd_eq_some] at htime
  have hgap : pair.2.slot.toNat - pair.1.slot.toNat = dt.toNat := by omega
  rw [hgap]
  obtain ⟨-, hprice⟩ := Option.ite_none_right_eq_some.mp hprice
  cases hprice
  obtain ⟨hlt, hsum⟩ := Option.ite_none_right_eq_some.mp hsum
  cases hsum
  exact ⟨UInt64.le_iff_toNat_le.mpr (by omega), rfl, hlt, htime⟩

private theorem foldlM_twapStep_inv {pairs : List (PriceObservation × PriceObservation)} {sums sums' : Nat × UInt64}
    (hsums : sums.1 < 2 ^ 128) (h : pairs.foldlM twapStep sums = .ok sums') :
    (∀ pair ∈ pairs, pair.1.slot ≤ pair.2.slot) ∧ sums'.1 < 2 ^ 128 ∧
      sums'.1 = sums.1 + Rounding.weightedSum
        (pairs.map fun pair => (pair.1.priceQ64.toNat, pair.2.slot.toNat - pair.1.slot.toNat)) ∧
      sums'.2.toNat = sums.2.toNat + Rounding.totalWeight
        (pairs.map fun pair => (pair.1.priceQ64.toNat, pair.2.slot.toNat - pair.1.slot.toNat)) := by
  induction pairs generalizing sums with
  | nil =>
      cases pure_eq_ok.mp h
      exact ⟨by simp, hsums, rfl, rfl⟩
  | cons pair pairs ih =>
      obtain ⟨mid, hstep, hrest⟩ := foldlM_cons_eq_ok.mp h
      obtain ⟨hle, hprice, hmid, htime⟩ := twapStep_inv hstep
      obtain ⟨hrestLe, hlt, hprices, htimes⟩ := ih hmid hrest
      refine ⟨List.forall_mem_cons.mpr ⟨hle, hrestLe⟩, hlt, ?_, ?_⟩
      · rw [hprices, hprice, Rounding.weightedSum, Rounding.weightedSum, List.map_cons, List.map_cons, List.sum_cons,
          Nat.add_assoc]
      · rw [htimes, htime, Rounding.totalWeight, Rounding.totalWeight, List.map_cons, List.map_cons, List.sum_cons,
          Nat.add_assoc]

private theorem chronological_of_neighbours {observations : List PriceObservation}
    (h : ∀ pair ∈ observations.zip observations.tail, pair.1.slot ≤ pair.2.slot) : Chronological observations := by
  have : IsTrans PriceObservation fun a b => a.slot ≤ b.slot := ⟨fun _ _ _ => UInt64.le_trans⟩
  apply List.isChain_iff_pairwise.mp
  induction observations with
  | nil => exact .nil
  | cons a observations ih =>
      cases observations with
      | nil => exact .singleton a
      | cons b observations =>
          rw [List.tail_cons, List.zip_cons_cons, List.forall_mem_cons] at h
          exact .cons_cons h.1 (ih h.2)

/-- **What an average is.** It is returned only if some time has passed and no slot decreases, and is the exact mean of the prices, each weighted by the slots until the next observation, rounded down. -/
theorem computeTwap_inv {observations : List PriceObservation} {twap : PriceQ64} (hmany : 2 ≤ observations.length)
    (h : computeTwap observations = .ok twap) : Chronological observations ∧
      0 < Rounding.totalWeight (priceWeights observations) ∧
      twap.toNat = Rounding.weightedSum (priceWeights observations) / Rounding.totalWeight (priceWeights observations) := by
  match observations, hmany, h with
  | a :: b :: rest, _, h =>
      simp only [computeTwap] at h
      obtain ⟨⟨sumPriceTime, sumTime⟩, hfold, h⟩ := bind_eq_ok.mp h
      obtain ⟨hle, hlt, hprices, htimes⟩ := foldlM_twapStep_inv (by decide) hfold
      obtain ⟨hsome, h⟩ := require_bind_eq_ok.mp h
      obtain ⟨quotient, hdiv, h⟩ := okOr_bind_eq_ok.mp h
      obtain ⟨hpos, rfl⟩ := Wide.checkedDiv_eq_some.mp hdiv
      cases pure_eq_ok.mp h
      rw [Nat.zero_add] at hprices
      rw [UInt64.toNat_zero, Nat.zero_add] at htimes
      refine ⟨chronological_of_neighbours hle, htimes ▸ hpos, ?_⟩
      rw [BitVec.toNat_ofNat, Nat.mod_eq_of_lt (Nat.lt_of_le_of_lt (Nat.div_le_self _ _) hlt), priceWeights, ← hprices,
        ← htimes]

/-! ### Both together -/

/-- A window of this size can be made, and after the calls it holds the last of the observations added since it was cleared, as many as its size and no more. -/
def WindowHolds (poolId : Hash256) (maxSize : Nat) (ops : List WindowOp) : Prop :=
  ∃ w, OracleWindow.new poolId maxSize = some w ∧
    (ops.foldl WindowOp.apply w).observations =
      (ops.foldl WindowOp.added []).rtake (min (ops.foldl WindowOp.added []).length maxSize)

/-- **The window and the average.** The window holds what it should exactly if room can be reserved for its size, and its size is not zero or nothing was added; and an average of two observations or more is the floor of the exact weighted mean and lies between prices that count, while a slot that decreases is always an error. -/
theorem window_holds_iff_and_twap_exact (poolId : Hash256) (maxSize : Nat) (ops : List WindowOp) :
    (WindowHolds poolId maxSize ops ↔
      maxSize ≤ OracleWindow.maxCapacity ∧ (maxSize ≠ 0 ∨ ops.foldl WindowOp.added [] = [])) ∧
    ∀ observations : List PriceObservation,
      (∀ twap, 2 ≤ observations.length → computeTwap observations = .ok twap →
        twap.toNat = Rounding.weightedSum (priceWeights observations) / Rounding.totalWeight (priceWeights observations) ∧
        (∃ p ∈ priceWeights observations, 0 < p.2 ∧ p.1 ≤ twap.toNat) ∧
        ∃ p ∈ priceWeights observations, 0 < p.2 ∧ twap.toNat ≤ p.1) ∧
      (¬ Chronological observations → ∃ e, computeTwap observations = .error e) := by
  refine ⟨?_, fun observations => ⟨fun twap hmany htwap => ?_, fun hdecreases => ?_⟩⟩
  · constructor
    · rintro ⟨w, hnew, hholds⟩
      rw [observations_run hnew] at hholds
      exact ⟨(new_eq_some.mp hnew).1, Window.rtake_max_one_eq_iff.mp hholds⟩
    · rintro ⟨hroom, hsize⟩
      have hnew : OracleWindow.new poolId maxSize = some _ := new_eq_some.mpr ⟨hroom, rfl⟩
      refine ⟨_, hnew, ?_⟩
      rw [observations_run hnew]
      exact Window.rtake_max_one_eq_iff.mpr hsize
  · obtain ⟨-, hpos, hmean⟩ := computeTwap_inv hmany htwap
    rw [hmean]
    exact ⟨rfl, Rounding.exists_le_mean hpos, Rounding.exists_mean_le hpos⟩
  · cases htwap : computeTwap observations with
    | error e => exact ⟨e, rfl⟩
    | ok twap =>
        by_cases hmany : 2 ≤ observations.length
        · exact absurd (computeTwap_inv hmany htwap).1 hdecreases
        · obtain _ | ⟨a, _ | ⟨b, rest⟩⟩ := observations
          · exact absurd .nil hdecreases
          · exact absurd (List.pairwise_singleton _ a) hdecreases
          · simp at hmany

def sampleObservation (price : PriceQ64) (slot : UInt64) : PriceObservation := ⟨.zero, price, slot, .zero, []⟩

/-- A window of two that has dropped one of three; and a price of 10 for four slots and one of 20 for two, where the last price does not count. -/
theorem window_holds_iff_and_twap_exact_sample :
    WindowHolds .zero 2 [.add (sampleObservation 10 0), .add (sampleObservation 20 4), .add (sampleObservation 99 6)] ∧
      ∃ p ∈ priceWeights [sampleObservation 10 0, sampleObservation 20 4, sampleObservation 99 6],
        0 < p.2 ∧ (13 : PriceQ64).toNat ≤ p.1 := by
  obtain ⟨hwindow, haverage⟩ := window_holds_iff_and_twap_exact .zero 2
    [.add (sampleObservation 10 0), .add (sampleObservation 20 4), .add (sampleObservation 99 6)]
  exact ⟨hwindow.mpr ⟨by decide, by decide⟩, ((haverage _).1 13 (by decide) (by decide)).2.2⟩

/-- A window for no observations holds the one that was added. -/
theorem window_of_size_zero_holds_one :
    ¬ ∀ (poolId : Hash256) (maxSize : Nat) (ops : List WindowOp), WindowHolds poolId maxSize ops := by
  intro h
  obtain ⟨w, hnew, hholds⟩ := h .zero 0 [.add (sampleObservation 10 0)]
  obtain ⟨-, rfl⟩ := new_eq_some.mp hnew
  exact absurd hholds (by decide)

end Oracle

end QuantumVault
