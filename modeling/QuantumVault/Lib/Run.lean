import Mathlib

/-!
# What holds throughout a run

A run is a list of events, and what has happened up to a moment is a prefix of it. A property of the past holds throughout the run when every event preserves it. Where an event preserves it under a condition, the property holds throughout exactly if all events meet their condition.
-/

namespace QuantumVault

namespace Run

variable {ε : Type*} {events : List ε} {P : List ε → Prop} {Good : List ε → ε → Prop}

theorem throughout (hstart : P []) (hstep : ∀ past event, past ++ [event] <+: events → P past → P (past ++ [event])) :
    ∀ past, past <+: events → P past := by
  intro past
  induction past using List.reverseRecOn with
  | nil => exact fun _ => hstart
  | append_singleton past event ih =>
      intro hleads
      exact hstep past event hleads (ih ((List.prefix_append past [event]).trans hleads))

theorem throughout_iff (hstart : P [])
    (hstep : ∀ past event, past ++ [event] <+: events → P past → (P (past ++ [event]) ↔ Good past event)) :
    (∀ past, past <+: events → P past) ↔ ∀ past event, past ++ [event] <+: events → Good past event := by
  refine ⟨fun h past event hleads => ?_, fun h => ?_⟩
  · have hpast := h past ((List.prefix_append past [event]).trans hleads)
    exact (hstep past event hleads hpast).mp (h _ hleads)
  · exact throughout hstart fun past event hleads hpast => (hstep past event hleads hpast).mpr (h past event hleads)

/-! ### Along a list -/

variable {event : ε}

theorem steps_nil : ∀ past event, past ++ [event] <+: ([] : List ε) → Good past event := by
  intro past event h
  exact absurd (List.append_eq_nil_iff.mp (List.prefix_nil.mp h)).2 (List.cons_ne_nil _ _)

theorem steps_cons_iff : (∀ past e, past ++ [e] <+: event :: events → Good past e) ↔
    Good [] event ∧ ∀ past e, past ++ [e] <+: events → Good (event :: past) e := by
  refine ⟨fun h => ⟨?_, fun past e hleads => ?_⟩, fun h past e hleads => ?_⟩
  · exact h [] event (List.cons_prefix_cons.mpr ⟨rfl, List.nil_prefix⟩)
  · exact h (event :: past) e (List.cons_prefix_cons.mpr ⟨rfl, hleads⟩)
  · cases past with
    | nil =>
        obtain rfl := (List.cons_prefix_cons.mp hleads).1
        exact h.1
    | cons first past =>
        obtain ⟨rfl, hrest⟩ := List.cons_prefix_cons.mp hleads
        exact h.2 past e hrest

end Run

end QuantumVault
