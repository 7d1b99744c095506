import Mathlib

/-!
# Unbounded loops

A loop is a function that either goes on from a new position or returns. `Returns` says what the loop does, without any bound; `run` is the executable version, which gives up after a number of rounds. When the positions a loop can continue from form a finite set, one round more than their number is always enough, because a loop that comes back to a position never returns.
-/

namespace QuantumVault

namespace Loop

variable {α β : Type*}

/-- At most the given number of rounds of the loop. -/
def run (step : α → α ⊕ β) : (rounds : Nat) → α → Option β
  | 0, _ => none
  | rounds + 1, a =>
      match step a with
      | .inl a' => run step rounds a'
      | .inr b => some b

/-- The loop started at a position returns a result. -/
inductive Returns (step : α → α ⊕ β) : α → β → Prop where
  | done {a : α} {b : β} (h : step a = .inr b) : Returns step a b
  | next {a a' : α} {b : β} (h : step a = .inl a') (hrest : Returns step a' b) : Returns step a b

/-- The loop returns after exactly this many continued rounds. -/
inductive ReturnsIn (step : α → α ⊕ β) : Nat → α → β → Prop where
  | done {a : α} {b : β} (h : step a = .inr b) : ReturnsIn step 0 a b
  | next {n : Nat} {a a' : α} {b : β} (h : step a = .inl a') (hrest : ReturnsIn step n a' b) :
      ReturnsIn step (n + 1) a b

/-- The loop goes on from one position at another. -/
def Continues (step : α → α ⊕ β) (a a' : α) : Prop := step a = .inl a'

variable {step : α → α ⊕ β} {a a' : α} {b b' : β} {n m : Nat}

theorem returns_of_run (h : run step n a = some b) : Returns step a b := by
  induction n generalizing a with
  | zero => cases h
  | succ n ih =>
      rw [run] at h
      split at h
      · rename_i a' hstep
        exact .next hstep (ih h)
      · rename_i b' hstep
        cases h
        exact .done hstep

theorem Returns.exists_returnsIn (h : Returns step a b) : ∃ n, ReturnsIn step n a b := by
  induction h with
  | done h => exact ⟨0, .done h⟩
  | next h _ ih =>
      obtain ⟨n, hn⟩ := ih
      exact ⟨n + 1, .next h hn⟩

theorem ReturnsIn.run_eq (h : ReturnsIn step n a b) (hlt : n < m) : run step m a = some b := by
  induction h generalizing m with
  | done h =>
      obtain ⟨m, rfl⟩ : ∃ k, m = k + 1 := ⟨m - 1, by omega⟩
      rw [run, h]
  | next h _ ih =>
      obtain ⟨m, rfl⟩ : ∃ k, m = k + 1 := ⟨m - 1, by omega⟩
      rw [run, h]
      exact ih (by omega)

theorem ReturnsIn.unique (h : ReturnsIn step n a b) (h' : ReturnsIn step m a b') : n = m ∧ b = b' := by
  induction h generalizing m b' with
  | done h =>
      cases h' with
      | done h' => exact ⟨rfl, Sum.inr.inj (h.symm.trans h')⟩
      | next h' _ => cases h.symm.trans h'
  | next h _ ih =>
      cases h' with
      | done h' => cases h.symm.trans h'
      | next h' hrest' =>
          cases Sum.inl.inj (h.symm.trans h')
          obtain ⟨rfl, rfl⟩ := ih hrest'
          exact ⟨rfl, rfl⟩

theorem Returns.unique (h : Returns step a b) (h' : Returns step a b') : b = b' := by
  obtain ⟨n, hn⟩ := h.exists_returnsIn
  obtain ⟨m, hm⟩ := h'.exists_returnsIn
  exact (hn.unique hm).2

theorem ReturnsIn.of_visited (h : ReturnsIn step n a b) (hvisit : Relation.ReflTransGen (Continues step) a a') :
    ∃ m ≤ n, ReturnsIn step m a' b := by
  induction hvisit with
  | refl => exact ⟨n, le_rfl, h⟩
  | tail _ hlast ih =>
      obtain ⟨m, hm, hreturns⟩ := ih
      cases hreturns with
      | done h => cases h.symm.trans hlast
      | next h hrest =>
          cases Sum.inl.inj (h.symm.trans hlast)
          exact ⟨_, by omega, hrest⟩

theorem ReturnsIn.le_card (h : ReturnsIn step n a b) {S : Finset α}
    (hS : ∀ x y, Relation.ReflTransGen (Continues step) a x → step x = .inl y → x ∈ S) : n ≤ S.card := by
  classical
  induction h generalizing S with
  | done h => exact Nat.zero_le _
  | @next n a a' b h hrest ih =>
      have hmem : a ∈ S := hS a a' .refl h
      have herase : ∀ x y, Relation.ReflTransGen (Continues step) a' x → step x = .inl y → x ∈ S.erase a := by
        intro x y hvisit hstep
        refine Finset.mem_erase.mpr ⟨?_, hS x y (.head h hvisit) hstep⟩
        rintro rfl
        -- coming back to the first position would make its number of rounds smaller than itself
        obtain ⟨m, hm, hagain⟩ := hrest.of_visited hvisit
        have := (hagain.unique (.next h hrest)).1
        omega
      have hle := ih herase
      have hcard := Finset.card_erase_of_mem hmem
      have hpos := Finset.card_pos.mpr ⟨a, hmem⟩
      omega

/-- **One round more than the number of positions is enough.** -/
theorem run_eq_some_iff {S : Finset α} (hS : ∀ x y, step x = .inl y → x ∈ S) (hn : S.card < n) :
    run step n a = some b ↔ Returns step a b := by
  constructor
  · exact returns_of_run
  · intro h
    obtain ⟨m, hm⟩ := h.exists_returnsIn
    have hle := hm.le_card (S := S) fun x y _ => hS x y
    exact hm.run_eq (by omega)

/-- A loop whose measure goes down at every continued round returns, at a position that the invariant still holds of. -/
theorem exists_run {inv : α → Prop} {μ : α → Nat} (hstep : ∀ x y, inv x → step x = .inl y → inv y ∧ μ y < μ x)
    (hinv : inv a) (hn : μ a < n) : ∃ x b, inv x ∧ step x = .inr b ∧ run step n a = some b := by
  induction n generalizing a with
  | zero => omega
  | succ n ih =>
      rw [run]
      cases h : step a with
      | inl a' =>
          obtain ⟨hinv', hlt⟩ := hstep a a' hinv h
          exact ih hinv' (by omega)
      | inr b => exact ⟨a, b, hinv, h, rfl⟩

end Loop

end QuantumVault
