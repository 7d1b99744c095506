import QuantumVault.Defi.Intents

/-!
# Whether a built swap can be executed

The builder derives the least amount to receive as a part of the offer in basis points, rounded down, and does not look at what comes out. A slippage above 10 000 is a negative difference; an offer whose part is less than one unit gives an intent that no batcher accepts, at any slot.
-/

namespace QuantumVault

open Result

/-! ### The check of a swap -/

private theorem OrderIntent.validate_swap {intent : OrderIntent} {poolId : Hash256} {side : SwapDirection}
    {offer minReceive : UInt64}
    (hkind : intent.kind = .swap poolId side offer minReceive) {slot : UInt64} :
    intent.validate slot = .ok () ↔ slot < intent.deadlineSlot ∧ offer ≠ 0 ∧ minReceive ≠ 0 := by
  rw [validate, hkind, require_bind_eq_ok, require_eq_ok, UInt64.not_le, not_or]

theorem OrderIntent.forall_validate_swap {intent : OrderIntent} {poolId : Hash256} {side : SwapDirection}
    {offer minReceive : UInt64} (hkind : intent.kind = .swap poolId side offer minReceive) :
    (∀ slot < intent.deadlineSlot, intent.validate slot = .ok ()) ↔
      intent.deadlineSlot = 0 ∨ offer ≠ 0 ∧ minReceive ≠ 0 := by
  simp only [validate_swap hkind]
  refine ⟨fun h => ?_, fun h slot hslot => ⟨hslot, ?_⟩⟩
  · by_cases hzero : intent.deadlineSlot = 0
    · exact Or.inl hzero
    · exact Or.inr (h 0 (UInt64.pos_iff_ne_zero.mpr hzero)).2
  · obtain hzero | hamounts := h
    · rw [hzero] at hslot
      exact absurd hslot UInt64.not_lt_zero
    · exact hamounts

/-! ### The builder -/

namespace SwapIntentBuilder

variable {b : SwapIntentBuilder}

def slippageBps (b : SwapIntentBuilder) : UInt16 := b.maxSlippageBps.getD defaultSlippageBps

/-- The fields without which nothing is built. -/
structure Filled (b : SwapIntentBuilder) (offer : UInt64) (poolId : Hash256) (deadline : UInt64) : Prop where
  offer_eq : b.offerAmount = some offer
  pool_eq : b.poolId = some poolId
  deadline_eq : b.deadlineSlot = some deadline

def minReceiveOf (offer : UInt64) (slippageBps : UInt16) : UInt64 :=
  UInt64.ofNat (offer.toNat * (10000 - slippageBps.toNat) / 10000)

theorem toNat_minReceiveOf (offer : UInt64) (slippageBps : UInt16) :
    (minReceiveOf offer slippageBps).toNat = offer.toNat * (10000 - slippageBps.toNat) / 10000 := by
  apply UInt64.toNat_ofNat_of_lt'
  have hoffer := offer.toNat_lt
  apply (Nat.div_lt_iff_lt_mul (by decide)).mpr
  exact Nat.mul_lt_mul_of_lt_of_le hoffer (Nat.sub_le _ _) (by decide)

def intentOf (b : SwapIntentBuilder) (offer : UInt64) (poolId : Hash256) (deadline : UInt64) : OrderIntent :=
  let minReceive := minReceiveOf offer b.slippageBps
  ⟨.swap poolId .aToB offer minReceive, deadline, b.ownerPkHash.map Hash256.bytes, b.nonce, offer, minReceive⟩

private theorem build_of_not_filled (h : ∀ offer poolId deadline, ¬ b.Filled offer poolId deadline) :
    b.build = .error (.invalidAmount 0) := by
  obtain ⟨orderId, poolId?, offer?, slippage?, deadline?, hash?, nonce⟩ := b
  obtain _ | offer := offer?
  · rfl
  obtain _ | poolId := poolId?
  · rfl
  obtain _ | deadline := deadline?
  · rfl
  exact absurd ⟨rfl, rfl, rfl⟩ (h offer poolId deadline)

section Filled

variable {offer deadline : UInt64} {poolId : Hash256} (h : b.Filled offer poolId deadline)

include h

/-- A slippage above 10 000 is taken off 10 000 all the same. -/
theorem build_of_large (hlarge : 10000 < b.slippageBps.toNat) : b.build = .error .abort := by
  have hsub : Wide.checkedSub 10000 (b.maxSlippageBps.getD defaultSlippageBps).toNat = none := if_neg (by
    rw [← slippageBps]
    omega)
  rw [build, h.offer_eq, h.pool_eq, h.deadline_eq]
  simp only [okOr_some, ok_bind, hsub]
  rfl

private theorem build_of_small (hsmall : b.slippageBps.toNat ≤ 10000) : b.build = .ok (b.intentOf offer poolId deadline) := by
  have hmin : min (min (offer.toNat * (10000 - b.slippageBps.toNat)) Wide.max / 10000) Wide.maxWord =
      offer.toNat * (10000 - b.slippageBps.toNat) / 10000 := by
    have hoffer := offer.toNat_lt
    have hproduct : offer.toNat * (10000 - b.slippageBps.toNat) ≤ (2 ^ 64 - 1) * 10000 :=
      Nat.mul_le_mul (by omega) (Nat.sub_le _ _)
    have hmax : Wide.max = 2 ^ 128 - 1 := rfl
    have hword : Wide.maxWord = 2 ^ 64 - 1 := rfl
    omega
  rw [slippageBps] at hsmall hmin
  rw [build, h.offer_eq, h.pool_eq, h.deadline_eq]
  simp only [okOr_some, ok_bind, Wide.checkedSub_of_le hsmall, hmin]
  rw [intentOf, minReceiveOf, slippageBps, OrderIntent.newSwap, Option.or_none]
  rfl

end Filled

/-- The builder does not end the process, and what it builds asks for no more than it offers and passes at every slot before its deadline. -/
def BuildsExecutable (b : SwapIntentBuilder) : Prop :=
  b.build ≠ .error .abort ∧ ∀ intent, b.build = .ok intent →
    intent.minReceive ≤ intent.offerAmount ∧ ∀ slot < intent.deadlineSlot, intent.validate slot = .ok ()

/-- If nothing is missing, the slippage is at most 10 000, and the part of the offer comes to a unit or no slot lies before the deadline. -/
def Executable (b : SwapIntentBuilder) : Prop :=
  ∀ offer poolId deadline, b.Filled offer poolId deadline →
    b.slippageBps.toNat ≤ 10000 ∧ (deadline = 0 ∨ 10000 ≤ offer.toNat * (10000 - b.slippageBps.toNat))

private theorem minReceiveOf_le (offer : UInt64) (slippageBps : UInt16) : minReceiveOf offer slippageBps ≤ offer := by
  rw [UInt64.le_iff_toNat_le, toNat_minReceiveOf]
  apply Nat.div_le_of_le_mul
  rw [Nat.mul_comm 10000]
  exact Nat.mul_le_mul_left _ (Nat.sub_le _ _)

private theorem amounts_ne_zero_iff (offer : UInt64) (slippageBps : UInt16) :
    offer ≠ 0 ∧ minReceiveOf offer slippageBps ≠ 0 ↔ 10000 ≤ offer.toNat * (10000 - slippageBps.toNat) := by
  have hpart : minReceiveOf offer slippageBps ≠ 0 ↔ 10000 ≤ offer.toNat * (10000 - slippageBps.toNat) := by
    rw [← UInt64.pos_iff_ne_zero, UInt64.lt_iff_toNat_lt, toNat_minReceiveOf]
    exact Nat.div_pos_iff.trans (and_iff_right (by decide))
  rw [hpart, and_iff_right_iff_imp]
  rintro hle rfl
  simp at hle

private theorem buildsExecutable_iff (b : SwapIntentBuilder) : b.BuildsExecutable ↔ b.Executable := by
  by_cases hfilled : ∃ offer poolId deadline, b.Filled offer poolId deadline
  · obtain ⟨offer, poolId, deadline, h⟩ := hfilled
    have honly : b.Executable ↔ b.slippageBps.toNat ≤ 10000 ∧
        (deadline = 0 ∨ 10000 ≤ offer.toNat * (10000 - b.slippageBps.toNat)) := by
      refine ⟨fun hexec => hexec offer poolId deadline h, fun hexec offer' poolId' deadline' h' => ?_⟩
      cases h.offer_eq.symm.trans h'.offer_eq
      cases h.deadline_eq.symm.trans h'.deadline_eq
      exact hexec
    rw [honly, BuildsExecutable]
    obtain hlarge | hsmall := Nat.lt_or_ge 10000 b.slippageBps.toNat
    · rw [build_of_large h hlarge]
      exact iff_of_false (fun hexec => hexec.1 rfl) (by omega)
    · have hchecked := @OrderIntent.forall_validate_swap (b.intentOf offer poolId deadline) _ _ _ _ rfl
      rw [amounts_ne_zero_iff] at hchecked
      rw [build_of_small h hsmall, and_iff_right hsmall]
      simp only [ne_eq, reduceCtorEq, not_false_eq_true, true_and, Except.ok.injEq, forall_eq', hchecked]
      exact and_iff_right (minReceiveOf_le offer _)
  · simp only [not_exists] at hfilled
    rw [BuildsExecutable, build_of_not_filled hfilled]
    exact iff_of_true (by simp) fun offer poolId deadline h => absurd h (hfilled offer poolId deadline)

end SwapIntentBuilder

/-- **Which built swaps can be executed.** The builder meets its part exactly with a field missing, or with a slippage of at most 10 000 and an offer whose part comes to a unit (or a deadline of zero); the function that is given both amounts always does. -/
theorem built_swaps_executable (b : SwapIntentBuilder) :
    (b.BuildsExecutable ↔ b.Executable) ∧
      ∀ (poolId : Hash256) (side : SwapDirection) (offer minReceive deadlineSlot : UInt64) (ownerPkHash : Hash256)
        (nonce : UInt64) (intent : OrderIntent),
        buildSwapIntent poolId side offer minReceive deadlineSlot ownerPkHash nonce = .ok intent →
          ∀ slot < intent.deadlineSlot, intent.validate slot = .ok () := by
  refine ⟨b.buildsExecutable_iff, ?_⟩
  intro poolId side offer minReceive deadlineSlot ownerPkHash nonce intent hbuild
  rw [buildSwapIntent, require_bind_eq_ok, not_or] at hbuild
  obtain ⟨hamounts, hbuild⟩ := hbuild
  obtain ⟨_, -, hbuild⟩ := bind_eq_ok.mp hbuild
  cases pure_eq_ok.mp hbuild
  exact (OrderIntent.forall_validate_swap rfl).mpr (Or.inr hamounts)

/-- An offer of a thousand at the default slippage. -/
theorem built_swaps_executable_default :
    SwapIntentBuilder.BuildsExecutable ⟨none, some .zero, some 1000, none, some 10, none, 0⟩ := by
  apply (built_swaps_executable _).1.mpr
  intro offer poolId deadline h
  cases h.offer_eq
  exact ⟨by decide, Or.inr (by decide)⟩

/-- One unit at the default slippage gives an intent that is refused at every slot, and a slippage of 10 001 ends the process. -/
theorem built_swaps_not_executable :
    ¬ (∀ b : SwapIntentBuilder, ∀ intent, b.build = .ok intent →
      ∀ slot < intent.deadlineSlot, intent.validate slot = .ok ()) ∧
    ¬ ∀ b : SwapIntentBuilder, b.build ≠ .error .abort := by
  refine ⟨fun h => ?_, fun h => ?_⟩
  · have := h ⟨none, some .zero, some 1, none, some 10, none, 0⟩ _ rfl 5 (by decide)
    exact absurd this (by decide)
  · exact h ⟨none, some .zero, some 1, some 10001, some 10, none, 0⟩ (by decide)

end QuantumVault
