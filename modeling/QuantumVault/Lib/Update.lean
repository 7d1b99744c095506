import QuantumVault.Lib.Result

/-!
# Updates that can be refused

A method that changes a state in place and may fail leaves a state behind either way. An update is such a computation: it ends with a value or an error, and always with a state. A check reads the state and never changes it, and an update that only checks before its first change is transactional: whoever it refuses finds the state as it was.
-/

namespace QuantumVault

variable {ε σ α β : Type}

/-- A computation on a state that may fail and keeps what it has done. -/
structure Update (ε σ α : Type) where
  run : σ → Except ε α × σ

namespace Update

instance : Monad (Update ε σ) where
  pure a := ⟨fun s => (.ok a, s)⟩
  bind x f := ⟨fun s =>
    match x.run s with
    | (.ok a, s') => (f a).run s'
    | (.error e, s') => (.error e, s')⟩

/-- A computation that does not touch the state. -/
def lift (x : Except ε α) : Update ε σ α := ⟨fun s => (x, s)⟩

/-- Go on if the condition holds, fail with the given error otherwise. -/
def check (p : Prop) [Decidable p] (e : ε) : Update ε σ Unit := lift (Result.require p e)

/-- A change that cannot fail. -/
def perform (f : σ → σ) : Update ε σ Unit := ⟨fun s => (.ok (), f s)⟩

/-- The state itself. -/
def read : Update ε σ σ := ⟨fun s => (.ok s, s)⟩

variable {x : Update ε σ α} {f : α → Update ε σ β} {s s' s'' : σ} {a : α} {b : β} {e : ε}

/-! ### How an update ends -/

theorem run_bind : (x >>= f).run s =
    match x.run s with
    | (.ok a, s') => (f a).run s'
    | (.error e, s') => (.error e, s') := rfl

theorem run_bind_eq_ok :
    (x >>= f).run s = (.ok b, s'') ↔ ∃ a s', x.run s = (.ok a, s') ∧ (f a).run s' = (.ok b, s'') := by
  rw [run_bind]
  obtain ⟨r, s'⟩ := x.run s
  cases r <;> simp

@[simp] theorem run_pure : (pure a : Update ε σ α).run s = (.ok a, s) := rfl

@[simp] theorem run_lift_eq_ok {y : Except ε α} : (lift y : Update ε σ α).run s = (.ok a, s') ↔ y = .ok a ∧ s' = s := by
  simp [lift, eq_comm]

@[simp] theorem run_check_eq_ok {p : Prop} [Decidable p] {u : Unit} :
    (check p e : Update ε σ Unit).run s = (.ok u, s') ↔ p ∧ s' = s := by
  simp [check]

@[simp] theorem run_perform_eq_ok {g : σ → σ} {u : Unit} :
    (perform g : Update ε σ Unit).run s = (.ok u, s') ↔ s' = g s := by
  simp [perform, eq_comm]

@[simp] theorem run_read_eq_ok {t : σ} : (read : Update ε σ σ).run s = (.ok t, s') ↔ t = s ∧ s' = s := by
  simp [read, eq_comm]

section Loops

variable {item : Type} {step : item → Update ε σ PUnit} {i : item} {xs ys : List item} {u : PUnit}

theorem run_forM_nil_eq_ok : (forM ([] : List item) step).run s = (.ok u, s') ↔ s' = s := by
  simp [eq_comm]

theorem run_forM_cons_eq_ok : (forM (i :: xs) step).run s = (.ok u, s'') ↔
    ∃ s', (step i).run s = (.ok (), s') ∧ (forM xs step).run s' = (.ok u, s'') := by
  rw [List.forM_cons, run_bind_eq_ok]
  constructor
  · intro h
    obtain ⟨_, s', hx, hxs⟩ := h
    exact ⟨s', hx, hxs⟩
  · intro h
    obtain ⟨s', hx, hxs⟩ := h
    exact ⟨(), s', hx, hxs⟩

theorem run_forM_append_eq_ok : (forM (xs ++ ys) step).run s = (.ok u, s'') ↔
    ∃ s', (forM xs step).run s = (.ok (), s') ∧ (forM ys step).run s' = (.ok u, s'') := by
  induction xs generalizing s with
  | nil => simp only [List.nil_append, run_forM_nil_eq_ok, exists_eq_left]
  | cons x xs ih =>
      simp only [List.cons_append, run_forM_cons_eq_ok, ih]
      constructor
      · intro h
        obtain ⟨t, hx, s', hxs, hys⟩ := h
        exact ⟨s', ⟨t, hx, hxs⟩, hys⟩
      · intro h
        obtain ⟨s', ⟨t, hx, hxs⟩, hys⟩ := h
        exact ⟨t, hx, s', hxs, hys⟩

theorem forM_map {κ : Type} (f : κ → item) (xs : List κ) : forM (xs.map f) step = forM xs fun x => step (f x) := by
  induction xs with
  | nil => rfl
  | cons x xs ih => rw [List.map_cons, List.forM_cons, List.forM_cons, ih]

theorem run_forM_concat_eq_ok : (forM (xs ++ [i]) step).run s = (.ok u, s'') ↔
    ∃ s', (forM xs step).run s = (.ok (), s') ∧ (step i).run s' = (.ok (), s'') := by
  simp only [run_forM_append_eq_ok, run_forM_cons_eq_ok, run_forM_nil_eq_ok, exists_eq_right']

end Loops

/-! ### Refused updates -/

/-- An update that never changes the state. -/
def Reads (x : Update ε σ α) : Prop := ∀ s, (x.run s).2 = s

/-- An update that leaves the state as it was when it fails. -/
def Transactional (x : Update ε σ α) : Prop := ∀ s e s', x.run s = (.error e, s') → s' = s

theorem reads_read : Reads (read : Update ε σ σ) := fun _ => rfl

theorem reads_lift (y : Except ε α) : Reads (lift y : Update ε σ α) := fun _ => rfl

theorem reads_check (p : Prop) [Decidable p] (e : ε) : Reads (check p e : Update ε σ Unit) := reads_lift _

theorem Reads.bind (hx : Reads x) (hf : ∀ a, Reads (f a)) : Reads (x >>= f) := by
  intro s
  have hstate := hx s
  rw [run_bind]
  generalize x.run s = result at hstate
  obtain ⟨r, s'⟩ := result
  obtain rfl : s' = s := hstate
  cases r with
  | ok a => exact hf a s'
  | error e => rfl

/-- An update that cannot fail. -/
def Infallible (x : Update ε σ α) : Prop := ∀ s, ∃ a s', x.run s = (.ok a, s')

theorem infallible_perform (g : σ → σ) : Infallible (perform g : Update ε σ Unit) := fun s => ⟨(), g s, rfl⟩

theorem Infallible.bind (hx : Infallible x) (hf : ∀ a, Infallible (f a)) : Infallible (x >>= f) := by
  intro s
  obtain ⟨a, s', hrun⟩ := hx s
  rw [run_bind, hrun]
  exact hf a s'

theorem Infallible.transactional (hx : Infallible x) : Transactional x := by
  intro s e s' h
  obtain ⟨a, t, hrun⟩ := hx s
  rw [hrun] at h
  cases h

/-- Checks before a transactional update keep it so. -/
theorem Reads.transactional (hx : Reads x) (hf : ∀ a, Transactional (f a)) : Transactional (x >>= f) := by
  intro s e s'' h
  have hstate := hx s
  rw [run_bind] at h
  generalize x.run s = result at hstate h
  obtain ⟨r, s'⟩ := result
  obtain rfl : s' = s := hstate
  cases r with
  | ok a => exact hf a s' e s'' h
  | error e' => exact (congrArg Prod.snd h).symm

end Update

end QuantumVault
