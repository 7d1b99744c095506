import QuantumVault.Lib.Result

/-!
# Outcomes

Two ways to speak of a computation that returns or fails without taking it apart. An `Outcome` is a pair of postconditions, one for the value and one for the error. `Extends` compares two runs, the second of which has more of some resource: the first may stop for want of it, and in every other case the second ends as the first does.

The last section finds the place where a loop failed.
-/

namespace QuantumVault

namespace Result

universe u v

variable {ε : Type u} {α β γ δ : Type v}

/-! ### Postconditions -/

/-- A value satisfies the first condition, an error the second. -/
def Outcome (x : Except ε α) (Q : α → Prop) (R : ε → Prop) : Prop :=
  match x with
  | .ok a => Q a
  | .error e => R e

section Rules

variable {x : Except ε α} {f : α → Except ε β} {P Q : α → Prop} {R S : ε → Prop} {T : β → Prop} {a : α} {e : ε}

theorem Outcome.value (h : Outcome x Q R) (hx : x = .ok a) : Q a := by
  subst hx
  exact h

theorem Outcome.failure (h : Outcome x Q R) (hx : x = .error e) : R e := by
  subst hx
  exact h

theorem Outcome.imp (h : Outcome x P R) (hQ : ∀ a, P a → Q a) (hS : ∀ e, R e → S e) : Outcome x Q S := by
  cases x with
  | ok a => exact hQ a h
  | error e => exact hS e h

theorem Outcome.bind (h : Outcome x P R) (hf : ∀ a, P a → Outcome (f a) T R) : Outcome (x >>= f) T R := by
  cases x with
  | ok a => exact hf a h
  | error e => exact h

theorem outcome_require {p : Prop} [Decidable p] (h : ¬ p → R e) : Outcome (require p e) (fun _ => p) R := by
  unfold require
  split
  · rename_i hp
    exact hp
  · rename_i hp
    exact h hp

theorem outcome_okOr {o : Option α} (h : o = none → R e) : Outcome (okOr o e) (fun a => o = some a) R := by
  cases o with
  | none => exact h rfl
  | some a => exact rfl

end Rules

/-! ### More of a resource -/

/-- The first computation stops with the given error, or the second ends as it does. -/
def Extends (stop : ε) (r : α → β → Prop) (x : Except ε α) (y : Except ε β) : Prop :=
  match x with
  | .ok a => ∃ b, y = .ok b ∧ r a b
  | .error e => e = stop ∨ y = .error e

section Extends

variable {stop : ε} {r : α → β → Prop} {q : γ → δ → Prop} {x : Except ε α} {y : Except ε β} {f : α → Except ε γ}
  {g : β → Except ε δ}

theorem extends_refl (x : Except ε α) : Extends stop Eq x x := by
  cases x with
  | ok a => exact ⟨a, rfl, rfl⟩
  | error e => exact Or.inr rfl

theorem extends_pure {a : α} {b : β} (h : r a b) : Extends stop r (pure a) (pure b) := ⟨b, rfl, h⟩

theorem extends_error (e : ε) : Extends stop r (.error e) (.error e) := Or.inr rfl

theorem extends_okOr {o : Option α} {o' : Option β} (h : ∀ a, o = some a → ∃ b, o' = some b ∧ r a b) :
    Extends stop r (okOr o stop) (okOr o' stop) := by
  cases o with
  | none => exact Or.inl rfl
  | some a =>
      obtain ⟨b, rfl, hr⟩ := h a rfl
      exact ⟨b, rfl, hr⟩

theorem Extends.bind (h : Extends stop r x y) (hf : ∀ a b, r a b → Extends stop q (f a) (g b)) :
    Extends stop q (x >>= f) (y >>= g) := by
  cases x with
  | ok a =>
      obtain ⟨b, rfl, hr⟩ := h
      exact hf a b hr
  | error e =>
      rcases h with hstop | rfl
      · exact Or.inl hstop
      · exact Or.inr rfl

theorem Extends.eq {x y : Except ε α} (h : Extends stop Eq x y) (hne : x ≠ .error stop) : y = x := by
  cases x with
  | ok a =>
      obtain ⟨b, rfl, rfl⟩ := h
      rfl
  | error e =>
      rcases h with rfl | hy
      · exact absurd rfl hne
      · exact hy

theorem extends_foldlM {item : Type*} {step : α → item → Except ε α} {step' : β → item → Except ε β}
    (hstep : ∀ a b i, r a b → Extends stop r (step a i) (step' b i)) {a : α} {b : β} (hr : r a b) (items : List item) :
    Extends stop r (items.foldlM step a) (items.foldlM step' b) := by
  induction items generalizing a b with
  | nil => exact extends_pure hr
  | cons i items ih =>
      rw [List.foldlM_cons, List.foldlM_cons]
      exact (hstep a b i hr).bind fun a' b' hr' => ih hr'

end Extends

/-! ### Where a loop failed -/

/-- The loop comes to the remaining items in the second state. -/
def Passes {item : Type*} (step : α → item → Except ε α) (items : List item) (a : α) (rest : List item) (b : α) : Prop :=
  ∃ before, items = before ++ rest ∧ before.foldlM step a = .ok b

theorem bind_eq_error {x : Except ε α} {f : α → Except ε β} {e : ε} :
    (x >>= f) = .error e ↔ x = .error e ∨ ∃ a, x = .ok a ∧ f a = .error e := by
  cases x <;> simp [bind, Except.bind]

theorem foldlM_eq_error {item : Type*} {step : α → item → Except ε α} {items : List item} {a : α} {e : ε} :
    items.foldlM step a = .error e ↔ ∃ i after mid, Passes step items a (i :: after) mid ∧ step mid i = .error e := by
  constructor
  · intro h
    induction items generalizing a with
    | nil => cases h
    | cons i items ih =>
        rw [List.foldlM_cons, bind_eq_error] at h
        rcases h with hfail | ⟨b, hstep, hrest⟩
        · exact ⟨i, items, a, ⟨[], rfl, rfl⟩, hfail⟩
        · obtain ⟨j, after, mid, ⟨before, rfl, hbefore⟩, hfail⟩ := ih hrest
          exact ⟨j, after, mid, ⟨i :: before, rfl, foldlM_cons_eq_ok.mpr ⟨b, hstep, hbefore⟩⟩, hfail⟩
  · intro h
    obtain ⟨i, after, mid, ⟨before, rfl, hbefore⟩, hfail⟩ := h
    rw [List.foldlM_append, hbefore, ok_bind, List.foldlM_cons, hfail]
    rfl

theorem Passes.invariant {item : Type*} {step : α → item → Except ε α} {items rest : List item} {a b : α} (P : α → Prop)
    (hpass : Passes step items a rest b) (hstep : ∀ s i s', i ∈ items → P s → step s i = .ok s' → P s') (ha : P a) : P b := by
  obtain ⟨before, rfl, hrun⟩ := hpass
  exact foldlM_invariant P (fun s i s' hi => hstep s i s' (List.mem_append_left rest hi)) ha hrun

end Result

end QuantumVault
