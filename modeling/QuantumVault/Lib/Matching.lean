import Mathlib

/-!
# Matchings found by one pass

A list of items is gone through once, and each item takes a free place it fits, if there is one. What has been taken is a matching, whatever the choice among several free places. It is a largest one if places that share an item are fit by the same items: the place an item has taken can then be exchanged for the one that another matching gives it.
-/

namespace QuantumVault

variable {ι β : Type*} {fits : ι → β → Prop} {x : β} {xs : List β} {p q : ι}

/-- Pairs of a position in the list and a place that the item there fits. No position and no place is used twice. -/
structure Matching (fits : ι → β → Prop) (xs : List β) where
  pairs : Finset (ℕ × ι)
  position_injOn : Set.InjOn Prod.fst (pairs : Set (ℕ × ι))
  place_injOn : Set.InjOn Prod.snd (pairs : Set (ℕ × ι))
  fits_of_mem : ∀ pair ∈ pairs, ∃ x, xs[pair.1]? = some x ∧ fits pair.2 x

/-- One pass over the items, from the places in use before to those in use after. -/
inductive GreedyPass [DecidableEq ι] (fits : ι → β → Prop) : Finset ι → List β → Finset ι → Prop
  | nil (used : Finset ι) : GreedyPass fits used [] used
  | skip {used used' : Finset ι} {x : β} {xs : List β} (hnone : ∀ p, fits p x → p ∈ used)
      (hrest : GreedyPass fits used xs used') : GreedyPass fits used (x :: xs) used'
  | take {used used' : Finset ι} {x : β} {xs : List β} {p : ι} (hfree : p ∉ used) (hfits : fits p x)
      (hrest : GreedyPass fits (insert p used) xs used') : GreedyPass fits used (x :: xs) used'

namespace Matching

/-! ### Sizes -/

theorem card_le_length (m : Matching fits xs) : m.pairs.card ≤ xs.length := by
  have hrange : ∀ pair ∈ m.pairs, pair.1 ∈ Finset.range xs.length := by
    intro pair hpair
    obtain ⟨x, hx, -⟩ := m.fits_of_mem pair hpair
    exact Finset.mem_range.mpr (List.getElem?_eq_some_iff.mp hx).1
  simpa using Finset.card_le_card_of_injOn Prod.fst hrange m.position_injOn

theorem card_le_card (m : Matching fits xs) {places : Finset ι} (h : ∀ pair ∈ m.pairs, pair.2 ∈ places) :
    m.pairs.card ≤ places.card :=
  Finset.card_le_card_of_injOn Prod.snd h m.place_injOn

/-! ### Longer and shorter lists -/

def shift : ℕ × ι ↪ ℕ × ι := ⟨fun pair => (pair.1 + 1, pair.2), fun a b h => by simpa [Prod.ext_iff] using h⟩

@[simp] theorem shift_apply (pair : ℕ × ι) : shift pair = (pair.1 + 1, pair.2) := rfl

/-- A matching that leaves one more item out. -/
def skip (m : Matching fits xs) (x : β) : Matching fits (x :: xs) where
  pairs := m.pairs.map shift
  position_injOn := by
    simp only [Finset.coe_map, Set.InjOn, Set.forall_mem_image, shift_apply, Nat.add_right_cancel_iff]
    exact fun a ha b hb heq => by rw [m.position_injOn ha hb heq]
  place_injOn := by
    simp only [Finset.coe_map, Set.InjOn, Set.forall_mem_image, shift_apply]
    exact fun a ha b hb heq => by rw [m.place_injOn ha hb heq]
  fits_of_mem := by
    rw [Finset.forall_mem_map]
    exact fun pair hpair => m.fits_of_mem pair hpair

/-- A matching that gives one more item a place of its own. -/
def take [DecidableEq ι] (m : Matching fits xs) (hfits : fits p x) (hfree : ∀ pair ∈ m.pairs, pair.2 ≠ p) :
    Matching fits (x :: xs) where
  pairs := insert (0, p) (m.skip x).pairs
  position_injOn := by
    rw [Finset.coe_insert, Set.injOn_insert (by simp [skip])]
    exact ⟨(m.skip x).position_injOn, by simp [skip]⟩
  place_injOn := by
    rw [Finset.coe_insert, Set.injOn_insert (by simp [skip])]
    refine ⟨(m.skip x).place_injOn, ?_⟩
    simpa [skip] using fun i hi => hfree (i, p) hi rfl
  fits_of_mem := by
    rw [Finset.forall_mem_insert]
    exact ⟨⟨x, rfl, hfits⟩, (m.skip x).fits_of_mem⟩

noncomputable def tail (m : Matching fits (x :: xs)) : Matching fits xs where
  pairs := m.pairs.preimage shift shift.injective.injOn
  position_injOn := by
    intro a ha b hb heq
    simp only [Finset.coe_preimage, Set.mem_preimage, Finset.mem_coe] at ha hb
    exact shift.injective (m.position_injOn ha hb (congrArg (· + 1) heq))
  place_injOn := by
    intro a ha b hb heq
    simp only [Finset.coe_preimage, Set.mem_preimage, Finset.mem_coe] at ha hb
    exact shift.injective (m.place_injOn ha hb heq)
  fits_of_mem := fun pair hpair => m.fits_of_mem (shift pair) (Finset.mem_preimage.mp hpair)

theorem mem_tail {m : Matching fits (x :: xs)} {pair : ℕ × ι} : pair ∈ m.tail.pairs ↔ shift pair ∈ m.pairs := by
  rw [tail, Finset.mem_preimage]

theorem card_le_tail_succ [DecidableEq ι] (m : Matching fits (x :: xs)) : m.pairs.card ≤ m.tail.pairs.card + 1 := by
  have hsub : m.pairs ⊆ m.tail.pairs.map shift ∪ m.pairs.filter (·.1 = 0) := by
    rintro ⟨i, p⟩ hpair
    obtain _ | i := i
    · exact Finset.mem_union_right _ (Finset.mem_filter.mpr ⟨hpair, rfl⟩)
    · exact Finset.mem_union_left _ (Finset.mem_map.mpr ⟨(i, p), mem_tail.mpr hpair, rfl⟩)
  have hfirst : (m.pairs.filter (·.1 = 0)).card ≤ 1 := by
    rw [Finset.card_le_one]
    intro a ha b hb
    rw [Finset.mem_filter] at ha hb
    exact m.position_injOn ha.1 hb.1 (ha.2.trans hb.2.symm)
  calc m.pairs.card ≤ (m.tail.pairs.map shift ∪ m.pairs.filter (·.1 = 0)).card := Finset.card_le_card hsub
    _ ≤ (m.tail.pairs.map shift).card + (m.pairs.filter (·.1 = 0)).card := Finset.card_union_le _ _
    _ ≤ m.tail.pairs.card + 1 := by rw [Finset.card_map]; exact Nat.add_le_add_left hfirst _

theorem card_le_tail [DecidableEq ι] {m : Matching fits (x :: xs)} (h : ∀ p, (0, p) ∉ m.pairs) :
    m.pairs.card ≤ m.tail.pairs.card := by
  have hsub : m.pairs ⊆ m.tail.pairs.map shift := by
    rintro ⟨i, p⟩ hpair
    obtain _ | i := i
    · exact absurd hpair (h p)
    · exact Finset.mem_map.mpr ⟨(i, p), mem_tail.mpr hpair, rfl⟩
  exact (Finset.card_le_card hsub).trans_eq (Finset.card_map _)

/-! ### Other places -/

def without [DecidableEq ι] (m : Matching fits xs) (p : ι) : Matching fits xs where
  pairs := m.pairs.filter (·.2 ≠ p)
  position_injOn := m.position_injOn.mono (Finset.coe_subset.mpr (Finset.filter_subset _ _))
  place_injOn := m.place_injOn.mono (Finset.coe_subset.mpr (Finset.filter_subset _ _))
  fits_of_mem := fun pair hpair => m.fits_of_mem pair (Finset.mem_of_mem_filter pair hpair)

theorem card_le_without_succ [DecidableEq ι] (m : Matching fits xs) (p : ι) :
    m.pairs.card ≤ (m.without p).pairs.card + 1 := by
  have hplace : (m.pairs.filter (¬ ·.2 ≠ p)).card ≤ 1 := by
    rw [Finset.card_le_one]
    intro a ha b hb
    rw [Finset.mem_filter, not_not] at ha hb
    exact m.place_injOn ha.1 hb.1 (ha.2.trans hb.2.symm)
  rw [← Finset.card_filter_add_card_filter_not (·.2 ≠ p)]
  exact Nat.add_le_add_left hplace _

/-- Two places exchanged that are fit by the same items. -/
def exchange [DecidableEq ι] (m : Matching fits xs) (h : ∀ x ∈ xs, fits p x ↔ fits q x) : Matching fits xs where
  pairs := m.pairs.map ((Equiv.refl ℕ).prodCongr (Equiv.swap p q)).toEmbedding
  position_injOn := by
    simp only [Finset.coe_map, Set.InjOn, Set.forall_mem_image, Equiv.coe_toEmbedding, Equiv.prodCongr_apply]
    exact fun a ha b hb heq => by rw [m.position_injOn ha hb heq]
  place_injOn := by
    simp only [Finset.coe_map, Set.InjOn, Set.forall_mem_image, Equiv.coe_toEmbedding, Equiv.prodCongr_apply]
    exact fun a ha b hb heq => by rw [m.place_injOn ha hb ((Equiv.swap p q).injective heq)]
  fits_of_mem := by
    rw [Finset.forall_mem_map]
    intro pair hpair
    obtain ⟨x, hx, hfits⟩ := m.fits_of_mem pair hpair
    refine ⟨x, hx, ?_⟩
    show fits (Equiv.swap p q pair.2) x
    rw [Equiv.swap_apply_def]
    split
    · next heq => exact (h x (List.mem_of_getElem? hx)).mp (heq ▸ hfits)
    · split
      · next heq => exact (h x (List.mem_of_getElem? hx)).mpr (heq ▸ hfits)
      · exact hfits

/-- What holds of the places of a matching, and of the two that are exchanged, holds of its places afterwards. -/
theorem exchange_forall [DecidableEq ι] {P : ι → Prop} {m : Matching fits xs} (h : ∀ x ∈ xs, fits p x ↔ fits q x)
    (hplaces : ∀ pair ∈ m.pairs, P pair.2) (hp : P p) (hq : P q) : ∀ pair ∈ (m.exchange h).pairs, P pair.2 := by
  rw [exchange, Finset.forall_mem_map]
  intro pair hpair
  show P (Equiv.swap p q pair.2)
  rw [Equiv.swap_apply_def]
  split
  · exact hq
  · split
    · exact hp
    · exact hplaces pair hpair

end Matching

/-! ### The pass -/

namespace GreedyPass

variable [DecidableEq ι] {used used' : Finset ι}

/-- The places a pass takes, with the items it takes them for. -/
theorem exists_matching (h : GreedyPass fits used xs used') :
    ∃ m : Matching fits xs, (∀ pair ∈ m.pairs, pair.2 ∉ used) ∧ m.pairs.card + used.card = used'.card := by
  induction h with
  | nil used => exact ⟨⟨∅, by simp, by simp, by simp⟩, by simp, by simp⟩
  | @skip used used' x xs hnone hrest ih =>
      obtain ⟨m, hfree, hcard⟩ := ih
      refine ⟨m.skip x, ?_, by rwa [Matching.skip, Finset.card_map]⟩
      simp only [Matching.skip, Finset.forall_mem_map]
      exact hfree
  | @take used used' x xs p hp hfits hrest ih =>
      obtain ⟨m, hfree, hcard⟩ := ih
      simp only [Finset.mem_insert, not_or] at hfree
      refine ⟨m.take hfits fun pair hpair => (hfree pair hpair).1, ?_, ?_⟩
      · simp only [Matching.take, Matching.skip, Finset.forall_mem_insert, Finset.forall_mem_map]
        exact ⟨hp, fun pair hpair => (hfree pair hpair).2⟩
      · have hnew : (0, p) ∉ m.pairs.map Matching.shift := by simp
        rw [Finset.card_insert_of_notMem hp] at hcard
        simp only [Matching.take, Matching.skip, Finset.card_insert_of_notMem hnew, Finset.card_map]
        omega

/-- **A pass finds a largest matching**, if places that share an item are fit by the same items. -/
theorem card_le (h : GreedyPass fits used xs used')
    (hclass : ∀ p q, ∀ x ∈ xs, ∀ y ∈ xs, fits p x → fits q x → fits p y → fits q y) (m : Matching fits xs)
    (hfree : ∀ pair ∈ m.pairs, pair.2 ∉ used) : m.pairs.card + used.card ≤ used'.card := by
  induction h with
  | nil used =>
      have := m.card_le_length
      rw [List.length_nil] at this
      omega
  | @skip used used' x xs hnone hrest ih =>
      replace ih := ih fun p q y hy z hz => hclass p q y (List.mem_cons_of_mem x hy) z (List.mem_cons_of_mem x hz)
      have hfirst : ∀ p, (0, p) ∉ m.pairs := by
        intro p hpair
        obtain ⟨y, hy, hfits⟩ := m.fits_of_mem _ hpair
        cases hy
        exact hfree _ hpair (hnone p hfits)
      have := Matching.card_le_tail hfirst
      have := ih m.tail fun pair hpair => hfree (Matching.shift pair) (Matching.mem_tail.mp hpair)
      omega
  | @take used used' x xs p hp hfits hrest ih =>
      replace ih := ih fun p q y hy z hz => hclass p q y (List.mem_cons_of_mem x hy) z (List.mem_cons_of_mem x hz)
      rw [Finset.card_insert_of_notMem hp] at ih
      by_cases hfirst : ∃ q, (0, q) ∈ m.pairs
      · obtain ⟨q, hpair⟩ := hfirst
        obtain ⟨y, hy, hq⟩ := m.fits_of_mem _ hpair
        cases hy
        have hx : x ∈ x :: xs := List.mem_cons_self
        have hsame : ∀ y ∈ x :: xs, fits q y ↔ fits p y :=
          fun y hy => ⟨hclass q p x hx y hy hq hfits, hclass p q x hx y hy hfits hq⟩
        have htaken : (0, p) ∈ (m.exchange hsame).pairs := Finset.mem_map.mpr ⟨(0, q), hpair, by simp⟩
        have hstill := Matching.exchange_forall (P := (· ∉ used)) hsame hfree (hfree _ hpair) hp
        have hrestFree : ∀ pair ∈ (m.exchange hsame).tail.pairs, pair.2 ∉ insert p used := by
          intro pair hmem
          have hmem := Matching.mem_tail.mp hmem
          rw [Finset.mem_insert, not_or]
          refine ⟨fun heq => ?_, hstill (Matching.shift pair) hmem⟩
          have := (m.exchange hsame).place_injOn hmem htaken heq
          simp at this
        have hcard : (m.exchange hsame).pairs.card = m.pairs.card := Finset.card_map _
        have := (m.exchange hsame).card_le_tail_succ
        have := ih _ hrestFree
        omega
      -- the item has no place in the matching: whoever has the one it has taken gives it up
      · rw [not_exists] at hfirst
        have hrestFree : ∀ pair ∈ (m.tail.without p).pairs, pair.2 ∉ insert p used := by
          intro pair hmem
          obtain ⟨hmem, hne⟩ := Finset.mem_filter.mp hmem
          rw [Finset.mem_insert, not_or]
          exact ⟨hne, hfree (Matching.shift pair) (Matching.mem_tail.mp hmem)⟩
        have := Matching.card_le_tail hfirst
        have := m.tail.card_le_without_succ p
        have := ih _ hrestFree
        omega

end GreedyPass

end QuantumVault
