import QuantumVault.Lib.Result

/-!
# Simulation of fallible computations

Two computations simulate each other when both succeed with related results or both fail with the same error, up to a translation of errors. The relation passes through sequencing and through loops, so a lower model is related to an upper one step by step, along the common structure of the two.
-/

namespace QuantumVault

namespace Result

universe u v

variable {ε ε' : Type u} {α α' β β' : Type v}

/-- Both succeed with related results, or both fail and the second error is the translation of the first. -/
def Sim (g : ε → ε') (R : α → α' → Prop) : Except ε α → Except ε' α' → Prop
  | .ok a, .ok a' => R a a'
  | .error e, .error e' => e' = g e
  | _, _ => False

variable {g : ε → ε'} {R : α → α' → Prop} {S : β → β' → Prop}

@[simp] theorem sim_ok {a : α} {a' : α'} : Sim g R (.ok a) (.ok a') ↔ R a a' := Iff.rfl

@[simp] theorem sim_pure {a : α} {a' : α'} : Sim g R (pure a) (pure a') ↔ R a a' := Iff.rfl

@[simp] theorem sim_error {e : ε} {e' : ε'} : Sim g R (.error e) (.error e') ↔ e' = g e := Iff.rfl

theorem Sim.mono {R' : α → α' → Prop} (hR : ∀ a a', R a a' → R' a a') {x : Except ε α} {y : Except ε' α'}
    (h : Sim g R x y) : Sim g R' x y := by
  cases x <;> cases y
  · exact h
  · exact h
  · exact h
  · exact hR _ _ h

theorem sim_require {p q : Prop} [Decidable p] [Decidable q] {e : ε} {e' : ε'} (hpq : p ↔ q) (he : e' = g e) :
    Sim g Eq (require p e) (require q e') := by
  by_cases hp : p
  · have hq : q := hpq.mp hp
    simp [require, hp, hq]
  · have hq : ¬ q := fun hq => hp (hpq.mpr hq)
    simp [require, hp, hq, he]

theorem sim_okOr (o : Option α) (e : ε) : Sim g Eq (okOr o e) (okOr o (g e)) := by
  cases o <;> rfl

theorem Sim.bind {x : Except ε α} {y : Except ε' α'} {f : α → Except ε β} {f' : α' → Except ε' β'} (h : Sim g R x y)
    (hf : ∀ a a', x = .ok a → R a a' → Sim g S (f a) (f' a')) : Sim g S (x >>= f) (y >>= f') := by
  cases x <;> cases y
  · exact h
  · exact h.elim
  · exact h.elim
  · exact hf _ _ rfl h

theorem Sim.foldlM {item : Type*} {step : α → item → Except ε α} {step' : α' → item → Except ε' α'} {xs : List item}
    (hstep : ∀ x ∈ xs, ∀ a a', R a a' → Sim g R (step a x) (step' a' x)) {a : α} {a' : α'} (h : R a a') :
    Sim g R (xs.foldlM step a) (xs.foldlM step' a') := by
  induction xs generalizing a a' with
  | nil => exact h
  | cons x xs ih =>
      rw [List.foldlM_cons, List.foldlM_cons]
      refine (hstep x List.mem_cons_self a a' h).bind fun b b' _ hb => ?_
      exact ih (fun y hy => hstep y (List.mem_cons_of_mem x hy)) hb

theorem Sim.mapM {item : Type*} {f : item → Except ε α} {f' : item → Except ε' α'} {xs : List item}
    (hf : ∀ x ∈ xs, Sim g R (f x) (f' x)) : Sim g (List.Forall₂ R) (xs.mapM f) (xs.mapM f') := by
  induction xs with
  | nil => exact List.Forall₂.nil
  | cons x xs ih =>
      rw [List.mapM_cons, List.mapM_cons]
      refine (hf x List.mem_cons_self).bind fun a a' _ ha => ?_
      refine (ih fun y hy => hf y (List.mem_cons_of_mem x hy)).bind fun as as' _ has => ?_
      exact List.Forall₂.cons ha has

theorem mapM_eq_ok_of_forall₂ {item : Type*} {f : item → Except ε α} {xs : List item} {ys : List α}
    (h : List.Forall₂ (fun x y => f x = .ok y) xs ys) : xs.mapM f = .ok ys := by
  induction h with
  | nil => rfl
  | cons hxy _ ih =>
      rw [List.mapM_cons, hxy, ok_bind, ih]
      rfl

end Result

end QuantumVault
