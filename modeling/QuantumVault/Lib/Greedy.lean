import Mathlib

/-!
# Greedy runs

A run goes once through a list of items. An item changes the state if it can be applied at its turn, and is passed over otherwise. The turns of a run are its items with the states they meet, the fills are the turns at which the item is applied. A quantity that every fill moves by what it brings in, what it takes out and what it loses is accounted for over the whole run, and a property of all turns can be transported between two runs that agree for as long as it holds. When every fill is logged, the log has a repetition exactly when some item is applied although it is in the log already.
-/

namespace QuantumVault

namespace Greedy

variable {σ τ ι : Type*}

/-- The state after the items. -/
def run (apply : σ → ι → Option σ) (s : σ) : List ι → σ
  | [] => s
  | x :: xs => run apply ((apply s x).getD s) xs

/-- The items, each with the state at its turn. -/
def turns (apply : σ → ι → Option σ) (s : σ) : List ι → List (σ × ι)
  | [] => []
  | x :: xs => (s, x) :: turns apply ((apply s x).getD s) xs

def fills (apply : σ → ι → Option σ) (s : σ) (xs : List ι) : List (σ × ι) :=
  (turns apply s xs).filter fun turn => (apply turn.1 turn.2).isSome

variable {apply : σ → ι → Option σ} {s s' : σ} {x : ι} {xs : List ι}

theorem mem_fills {turn : σ × ι} :
    turn ∈ fills apply s xs ↔ turn ∈ turns apply s xs ∧ ∃ s', apply turn.1 turn.2 = some s' := by
  rw [fills, List.mem_filter, Option.isSome_iff_exists]

@[simp] theorem fills_nil : fills apply s [] = [] := rfl

theorem fills_cons_of_some (h : apply s x = some s') : fills apply s (x :: xs) = (s, x) :: fills apply s' xs := by
  rw [fills, turns, List.filter_cons_of_pos (by rw [h]; rfl), h]
  rfl

theorem fills_cons_of_none (h : apply s x = none) : fills apply s (x :: xs) = fills apply s xs := by
  rw [fills, turns, List.filter_cons_of_neg (by rw [h]; simp), h]
  rfl

theorem map_snd_turns : (turns apply s xs).map Prod.snd = xs := by
  induction xs generalizing s with
  | nil => rfl
  | cons x xs ih => rw [turns, List.map_cons, ih]

theorem sublist_map_snd_fills : ((fills apply s xs).map Prod.snd).Sublist xs := by
  have h := (List.filter_sublist (p := fun turn => (apply turn.1 turn.2).isSome) (l := turns apply s xs)).map Prod.snd
  rwa [map_snd_turns] at h

/-- Applying the filled items alone never fails and gives the same state. -/
theorem foldlM_map_snd_fills : ((fills apply s xs).map Prod.snd).foldlM apply s = some (run apply s xs) := by
  induction xs generalizing s with
  | nil => rfl
  | cons x xs ih =>
      rw [run]
      cases h : apply s x with
      | none =>
          rw [fills_cons_of_none h]
          exact ih
      | some s' =>
          rw [fills_cons_of_some h, List.map_cons, List.foldlM_cons, h]
          exact ih

theorem run_filter {p : ι → Bool} (h : ∀ s x, p x = false → apply s x = none) :
    run apply s (xs.filter p) = run apply s xs := by
  induction xs generalizing s with
  | nil => rfl
  | cons x xs ih =>
      cases hp : p x with
      | false => rw [List.filter_cons_of_neg (by rw [hp]; simp), run, h s x hp, ih, Option.getD_none]
      | true => rw [List.filter_cons_of_pos hp, run, run, ih]

theorem fills_filter {p : ι → Bool} (h : ∀ s x, p x = false → apply s x = none) :
    fills apply s (xs.filter p) = fills apply s xs := by
  induction xs generalizing s with
  | nil => rfl
  | cons x xs ih =>
      cases hp : p x with
      | false => rw [List.filter_cons_of_neg (by rw [hp]; simp), fills_cons_of_none (h s x hp), ih]
      | true =>
          rw [List.filter_cons_of_pos hp]
          cases happly : apply s x with
          | none => rw [fills_cons_of_none happly, fills_cons_of_none happly, ih]
          | some s' => rw [fills_cons_of_some happly, fills_cons_of_some happly, ih]

theorem run_induction {motive : σ → Prop} (hstep : ∀ s s' x, motive s → apply s x = some s' → motive s')
    (hs : motive s) : motive (run apply s xs) := by
  induction xs generalizing s with
  | nil => exact hs
  | cons x xs ih =>
      rw [run]
      cases h : apply s x with
      | none => exact ih hs
      | some s' => exact ih (hstep s s' x hs h)

/-! ### Accounting -/

theorem add_sum_fills (value : σ → Nat) {gain out loss : σ × ι → Nat}
    (hstep : ∀ s s' x, apply s x = some s' → value s + gain (s, x) = value s' + out (s, x) + loss (s, x)) :
    value s + ((fills apply s xs).map gain).sum =
      value (run apply s xs) + ((fills apply s xs).map out).sum + ((fills apply s xs).map loss).sum := by
  induction xs generalizing s with
  | nil => simp [run]
  | cons x xs ih =>
      rw [run]
      cases h : apply s x with
      | none =>
          rw [fills_cons_of_none h]
          exact ih
      | some s' =>
          have hrest := ih (s := s')
          have hfirst := hstep s s' x h
          rw [fills_cons_of_some h, List.map_cons, List.map_cons, List.map_cons, List.sum_cons, List.sum_cons,
            List.sum_cons, Option.getD_some]
          omega

theorem balanced_iff (value : σ → Nat) {gain out loss : σ × ι → Nat}
    (hstep : ∀ s s' x, apply s x = some s' → value s + gain (s, x) = value s' + out (s, x) + loss (s, x)) :
    value s + ((fills apply s xs).map gain).sum = value (run apply s xs) + ((fills apply s xs).map out).sum ↔
      ∀ turn ∈ fills apply s xs, loss turn = 0 := by
  have hsum : value s + ((fills apply s xs).map gain).sum = value (run apply s xs) + ((fills apply s xs).map out).sum +
      ((fills apply s xs).map loss).sum := add_sum_fills value hstep
  have hzero : (∀ turn ∈ fills apply s xs, loss turn = 0) ↔ ((fills apply s xs).map loss).sum = 0 := by
    rw [List.sum_eq_zero_iff, List.forall_mem_map]
  rw [hzero]
  omega

/-! ### Transport -/

variable {apply' : τ → ι → Option τ} {f : σ → τ} {P : σ × ι → Prop} {Q : τ × ι → Prop}

/-- Two runs that agree wherever a property holds have the property at all turns together. -/
theorem forall_turns_iff (hPQ : ∀ s x, P (s, x) ↔ Q (f s, x))
    (hstep : ∀ s x, P (s, x) → apply' (f s) x = (apply s x).map f) :
    (∀ turn ∈ turns apply s xs, P turn) ↔ ∀ turn ∈ turns apply' (f s) xs, Q turn := by
  induction xs generalizing s with
  | nil => simp [turns]
  | cons x xs ih =>
      rw [turns, turns, List.forall_mem_cons, List.forall_mem_cons, ← hPQ]
      apply and_congr_right
      intro hP
      have hnext : (apply' (f s) x).getD (f s) = f ((apply s x).getD s) := by
        rw [hstep s x hP]
        cases apply s x with
        | none => rfl
        | some s' => rfl
      rw [hnext]
      exact ih

theorem forall_fills_iff (hPQ : ∀ s x, P (s, x) ↔ Q (f s, x))
    (hnone : ∀ s x, apply s x = none → apply' (f s) x = none)
    (hsome : ∀ s s' x, apply s x = some s' → ∃ t', apply' (f s) x = some t' ∧ (P (s, x) → t' = f s')) :
    (∀ turn ∈ fills apply s xs, P turn) ↔ ∀ turn ∈ fills apply' (f s) xs, Q turn := by
  simp only [mem_fills, and_imp]
  refine forall_turns_iff (P := fun turn => (∃ s', apply turn.1 turn.2 = some s') → P turn)
    (Q := fun turn => (∃ t', apply' turn.1 turn.2 = some t') → Q turn) (fun s x => ?_) fun s x hP => ?_
  · rw [hPQ]
    refine imp_congr_left ⟨fun h => ?_, fun h => ?_⟩
    · obtain ⟨s', hs'⟩ := h
      obtain ⟨t', ht', -⟩ := hsome s s' x hs'
      exact ⟨t', ht'⟩
    · obtain ⟨t', ht'⟩ := h
      cases happly : apply s x with
      | none => rw [hnone s x happly] at ht'; cases ht'
      | some s' => exact ⟨s', rfl⟩
  · cases happly : apply s x with
    | none => exact hnone s x happly
    | some s' =>
        obtain ⟨t', ht', hagree⟩ := hsome s s' x happly
        rw [ht', hagree (hP ⟨s', happly⟩)]
        rfl

/-- Two runs that agree wherever a property of the fills holds end alike if it holds at all fills. -/
theorem run_of_forall_fills (hnone : ∀ s x, apply s x = none → apply' (f s) x = none)
    (hsome : ∀ s s' x, apply s x = some s' → P (s, x) → apply' (f s) x = some (f s'))
    (hfills : ∀ turn ∈ fills apply s xs, P turn) : run apply' (f s) xs = f (run apply s xs) := by
  induction xs generalizing s with
  | nil => rfl
  | cons x xs ih =>
      rw [run, run]
      cases h : apply s x with
      | none =>
          rw [fills_cons_of_none h] at hfills
          rw [hnone s x h]
          exact ih hfills
      | some s' =>
          rw [fills_cons_of_some h, List.forall_mem_cons] at hfills
          rw [hsome s s' x h hfills.1]
          exact ih hfills.2

/-! ### Logs -/

variable {κ : Type*}

theorem log_run (log : σ → List κ) {entry : ι → κ}
    (hlog : ∀ s s' x, apply s x = some s' → log s' = log s ++ [entry x]) :
    log (run apply s xs) = log s ++ (fills apply s xs).map fun turn => entry turn.2 := by
  induction xs generalizing s with
  | nil => simp [run]
  | cons x xs ih =>
      rw [run]
      cases h : apply s x with
      | none =>
          rw [fills_cons_of_none h]
          exact ih
      | some s' =>
          rw [fills_cons_of_some h, Option.getD_some, ih, hlog s s' x h, List.map_cons, List.append_assoc,
            List.singleton_append]

/-- **No entry comes twice exactly when logged items are refused at their later turns.** -/
theorem nodup_log_iff (log : σ → List κ) {entry : ι → κ}
    (hlog : ∀ s s' x, apply s x = some s' → log s' = log s ++ [entry x]) (hs : (log s).Nodup) :
    (log (run apply s xs)).Nodup ↔
      ∀ turn ∈ turns apply s xs, entry turn.2 ∈ log turn.1 → apply turn.1 turn.2 = none := by
  induction xs generalizing s with
  | nil => simp [run, turns, hs]
  | cons x xs ih =>
      rw [run, turns, List.forall_mem_cons]
      cases h : apply s x with
      | none => simp only [Option.getD_none, ih hs, implies_true, true_and]
      | some s' =>
          rw [Option.getD_some]
          by_cases hmem : entry x ∈ log s
          · -- the entry is in the log twice from here on
            refine iff_of_false ?_ fun hall => by cases hall.1 hmem
            rw [log_run log hlog, hlog s s' x h]
            intro hnodup
            exact (List.disjoint_of_nodup_append (List.nodup_append.mp hnodup).1) hmem (List.mem_singleton_self _)
          · have hs' : (log s').Nodup := by
              rw [hlog s s' x h]
              exact List.nodup_append.mpr ⟨hs, List.nodup_singleton _, by rintro a ha b hb rfl; simp_all⟩
            rw [ih hs']
            simp [hmem]

variable [DecidableEq κ] {log : σ → List κ} {entry : ι → κ}

/-- Apply an item only while it is not in the log. -/
def once (apply : σ → ι → Option σ) (log : σ → List κ) (entry : ι → κ) (s : σ) (x : ι) : Option σ :=
  if entry x ∈ log s then none else apply s x

/-- Whether logged items are refused can be told from the run that does not try them again. -/
theorem forall_turns_once_iff :
    (∀ turn ∈ turns (once apply log entry) s xs, entry turn.2 ∈ log turn.1 → apply turn.1 turn.2 = none) ↔
      ∀ turn ∈ turns apply s xs, entry turn.2 ∈ log turn.1 → apply turn.1 turn.2 = none := by
  have hstep : ∀ s x, (entry x ∈ log s → apply s x = none) → apply s x = (once apply log entry s x).map id := by
    intro s x hrefused
    rw [Option.map_id_apply, once]
    split
    · rename_i hmem
      exact hrefused hmem
    · rfl
  exact forall_turns_iff (f := id) (P := fun turn => entry turn.2 ∈ log turn.1 → apply turn.1 turn.2 = none)
    (Q := fun turn => entry turn.2 ∈ log turn.1 → apply turn.1 turn.2 = none) (fun _ _ => Iff.rfl) hstep

end Greedy

end QuantumVault
