import Mathlib

/-!
# Fallible computations

Inversion rules for computations that return a value or an error, and the induction rules for a loop of them. A caller that knows a computation succeeded takes it apart with these lemmas and never unfolds the monad.
-/

namespace QuantumVault

namespace Result

universe u v

variable {ε : Type u} {α β : Type v}

/-- Go on if the condition holds, fail with the given error otherwise. -/
def require (p : Prop) [Decidable p] (e : ε) : Except ε Unit :=
  if p then .ok () else .error e

/-- The value of an option, or an error in place of a missing one. -/
def okOr (o : Option α) (e : ε) : Except ε α :=
  match o with
  | some a => .ok a
  | none => .error e

@[simp] theorem require_eq_ok {p : Prop} [Decidable p] {e : ε} {u : Unit} : require p e = .ok u ↔ p := by
  unfold require
  split <;> simp_all

@[simp] theorem require_eq_error {p : Prop} [Decidable p] {e e' : ε} :
    require p e = .error e' ↔ ¬ p ∧ e = e' := by
  unfold require
  split <;> simp_all

@[simp] theorem okOr_eq_ok {o : Option α} {e : ε} {a : α} : okOr o e = .ok a ↔ o = some a := by
  cases o <;> simp [okOr]

@[simp] theorem okOr_some {a : α} {e : ε} : okOr (some a) e = .ok a := rfl

theorem bind_eq_ok {x : Except ε α} {f : α → Except ε β} {b : β} :
    (x >>= f) = .ok b ↔ ∃ a, x = .ok a ∧ f a = .ok b := by
  cases x <;> simp [bind, Except.bind]

theorem require_bind_eq_ok {β : Type} {p : Prop} [Decidable p] {e : ε} {f : Unit → Except ε β} {b : β} :
    (require p e >>= f) = .ok b ↔ p ∧ f () = .ok b := by
  rw [bind_eq_ok]
  constructor
  · intro h
    obtain ⟨u, hp, hf⟩ := h
    exact ⟨require_eq_ok.mp hp, hf⟩
  · intro h
    obtain ⟨hp, hf⟩ := h
    exact ⟨(), require_eq_ok.mpr hp, hf⟩

theorem okOr_bind_eq_ok {o : Option α} {e : ε} {f : α → Except ε β} {b : β} :
    (okOr o e >>= f) = .ok b ↔ ∃ a, o = some a ∧ f a = .ok b := by
  rw [bind_eq_ok]
  simp

theorem mapError_eq_ok {ε' : Type u} {x : Except ε α} {g : ε → ε'} {a : α} :
    x.mapError g = .ok a ↔ x = .ok a := by
  cases x <;> simp [Except.mapError]

@[simp] theorem mapError_ok {ε' : Type u} {g : ε → ε'} {a : α} :
    (Except.ok a : Except ε α).mapError g = .ok a := rfl

@[simp] theorem ok_bind {a : α} {f : α → Except ε β} : ((.ok a : Except ε α) >>= f) = f a := rfl

@[simp] theorem error_bind {e : ε} {f : α → Except ε β} : ((.error e : Except ε α) >>= f) = .error e := rfl

@[simp] theorem pure_eq_ok {a b : α} : (pure a : Except ε α) = .ok b ↔ a = b := by
  simp [pure, Except.pure]

theorem isOk_iff {x : Except ε α} : x.isOk = true ↔ ∃ a, x = .ok a := by
  cases x <;> simp [Except.isOk, Except.toBool]

/-! ### Loops -/

variable {σ : Type v} {item : Type*} {step : σ → item → Except ε σ}

theorem foldlM_cons_eq_ok {s s' : σ} {x : item} {xs : List item} :
    (x :: xs).foldlM step s = .ok s' ↔ ∃ t, step s x = .ok t ∧ xs.foldlM step t = .ok s' := by
  rw [List.foldlM_cons, bind_eq_ok]

theorem forM_eq_ok {check : item → Except ε PUnit} {xs : List item} {u : PUnit} :
    xs.forM check = .ok u ↔ ∀ x ∈ xs, check x = .ok () := by
  induction xs with
  | nil => simp [List.forM]
  | cons x xs ih =>
      change (check x >>= fun _ => xs.forM check) = .ok u ↔ _
      rw [bind_eq_ok, List.forall_mem_cons]
      constructor
      · intro h
        obtain ⟨_, hx, hxs⟩ := h
        exact ⟨hx, ih.mp hxs⟩
      · intro h
        obtain ⟨hx, hxs⟩ := h
        exact ⟨(), hx, ih.mpr hxs⟩

theorem foldlM_congr {step' : σ → item → Except ε σ} {xs : List item} (h : ∀ x ∈ xs, ∀ s, step s x = step' s x) (s : σ) :
    xs.foldlM step s = xs.foldlM step' s := by
  induction xs generalizing s with
  | nil => rfl
  | cons x xs ih =>
      rw [List.forall_mem_cons] at h
      rw [List.foldlM_cons, List.foldlM_cons, h.1]
      exact bind_congr fun t => ih h.2 t

theorem forM_congr {check check' : item → Except ε PUnit} {xs : List item} (h : ∀ x ∈ xs, check x = check' x) :
    xs.forM check = xs.forM check' := by
  induction xs with
  | nil => rfl
  | cons x xs ih =>
      rw [List.forall_mem_cons] at h
      change (check x >>= fun _ => xs.forM check) = (check' x >>= fun _ => xs.forM check')
      rw [h.1, ih h.2]

theorem forM_map {κ : Type*} {f : κ → item} {check : item → Except ε PUnit} {xs : List κ} :
    (xs.map f).forM check = xs.forM fun x => check (f x) := by
  induction xs with
  | nil => rfl
  | cons x xs ih =>
      change (check (f x) >>= fun _ => (xs.map f).forM check) = _
      rw [ih]
      rfl

theorem foldlM_append_eq_ok {s s' : σ} {xs ys : List item} :
    (xs ++ ys).foldlM step s = .ok s' ↔ ∃ t, xs.foldlM step s = .ok t ∧ ys.foldlM step t = .ok s' := by
  rw [List.foldlM_append, bind_eq_ok]

theorem mapM_okOr_eq_ok {f : item → Option α} {e : item → ε} {xs : List item} {ys : List α} :
    (xs.mapM fun x => okOr (f x) (e x)) = .ok ys ↔ xs.map f = ys.map some := by
  induction xs generalizing ys with
  | nil => cases ys <;> simp [pure, Except.pure]
  | cons x xs ih =>
      rw [List.mapM_cons, okOr_bind_eq_ok]
      constructor
      · intro h
        obtain ⟨y, hy, hrest⟩ := h
        obtain ⟨ys', hys, heq⟩ := bind_eq_ok.mp hrest
        rw [pure_eq_ok] at heq
        rw [← heq, List.map_cons, List.map_cons, hy, ih.mp hys]
      · intro heq
        cases ys with
        | nil => simp at heq
        | cons y ys =>
            rw [List.map_cons, List.map_cons, List.cons.injEq] at heq
            exact ⟨y, heq.1, bind_eq_ok.mpr ⟨ys, ih.mpr heq.2, rfl⟩⟩

/-- What every successful step preserves, a successful loop preserves. -/
theorem foldlM_invariant (P : σ → Prop) {xs : List item} (hstep : ∀ s x s', x ∈ xs → P s → step s x = .ok s' → P s')
    {s s' : σ} (hs : P s) (hrun : xs.foldlM step s = .ok s') : P s' := by
  induction xs generalizing s with
  | nil =>
      rw [List.foldlM_nil, pure_eq_ok] at hrun
      exact hrun ▸ hs
  | cons x xs ih =>
      obtain ⟨t, ht, hrest⟩ := foldlM_cons_eq_ok.mp hrun
      have hxs : ∀ s y s', y ∈ xs → P s → step s y = .ok s' → P s' :=
        fun s y s' hy => hstep s y s' (List.mem_cons_of_mem x hy)
      exact ih hxs (hstep s x t List.mem_cons_self hs ht) hrest

/-- A loop succeeds if every step does that starts where the steps before it lead. -/
theorem foldlM_total (P : σ → Prop) {xs : List item} (hstep : ∀ s, ∀ x ∈ xs, P s → ∃ s', step s x = .ok s' ∧ P s')
    {s : σ} (hs : P s) : ∃ s', xs.foldlM step s = .ok s' ∧ P s' := by
  induction xs generalizing s with
  | nil => exact ⟨s, rfl, hs⟩
  | cons x xs ih =>
      obtain ⟨t, ht, hpt⟩ := hstep s x List.mem_cons_self hs
      obtain ⟨s', hrest, hs'⟩ := ih (fun s y hy => hstep s y (List.mem_cons_of_mem x hy)) hpt
      exact ⟨s', foldlM_cons_eq_ok.mpr ⟨t, ht, hrest⟩, hs'⟩

end Result

end QuantumVault
