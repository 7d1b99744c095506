import Mathlib

/-!
# Counting in fixed windows

A limiter counts what it admits since the start of a window, and starts a new window with the first request that comes at least one length after the start of the last one. Each window admits up to the limit. Windows start at least one length apart, so an interval of that length meets at most two of them, whether or not idle counters are thrown away in between.
-/

namespace QuantumVault

namespace FixedWindow

structure Bucket where
  count : Nat
  start : Nat
deriving DecidableEq

/-- The bucket that counts a request. -/
def current (window now : Nat) : Option Bucket → Bucket
  | none => ⟨0, now⟩
  | some bucket => if window ≤ now - bucket.start then ⟨0, now⟩ else bucket

/-- A bucket is thrown away once its window is over. -/
def purge (window now : Nat) (bucket : Option Bucket) : Option Bucket :=
  bucket.filter fun bucket => now - bucket.start < window

variable {limit window now later : Nat} {bucket : Option Bucket} {b : Bucket} {admitted : List (Nat × Nat)}

/-! ### Intervals -/

/-- Admitted requests, each with the start of its window: no window admits more than the limit, and a window starts after all requests of an earlier one and at least one length after its start. -/
structure Spaced (limit window : Nat) (admitted : List (Nat × Nat)) : Prop where
  start_le : ∀ e ∈ admitted, e.2 ≤ e.1
  count_le : ∀ start, (admitted.map Prod.snd).count start ≤ limit
  apart : ∀ e ∈ admitted, ∀ e' ∈ admitted, e.2 < e'.2 → e.1 < e'.2 ∧ e.2 + window ≤ e'.2

theorem Spaced.not_three (h : Spaced limit window admitted) {e₁ e₂ e₃ : Nat × Nat} (h₁ : e₁ ∈ admitted) (h₂ : e₂ ∈ admitted)
    (h₃ : e₃ ∈ admitted) (hlt : e₁.2 < e₂.2) (hlt' : e₂.2 < e₃.2) : e₁.1 + window < e₃.1 := by
  have hfirst := (h.apart e₁ h₁ e₂ h₂ hlt).1
  have hsecond := (h.apart e₂ h₂ e₃ h₃ hlt').2
  have hthird := h.start_le e₃ h₃
  omega

/-- **At most two windows.** Any closed interval of one length contains at most twice the limit. -/
theorem Spaced.length_le (h : Spaced limit window admitted) (start : Nat) :
    ((admitted.map Prod.fst).filter fun time => start ≤ time ∧ time ≤ start + window).length ≤ 2 * limit := by
  rw [List.filter_map, List.length_map]
  let inside := admitted.filter fun e => start ≤ e.1 ∧ e.1 ≤ start + window
  show inside.length ≤ 2 * limit
  have hmem {e : Nat × Nat} (he : e ∈ inside) : e ∈ admitted ∧ start ≤ e.1 ∧ e.1 ≤ start + window := by
    simpa [inside] using he
  have hwindows : (inside.map Prod.snd).toFinset.card ≤ 2 := by
    by_contra hmany
    obtain ⟨x, y, z, hx, hy, hz, hxy, hxz, hyz⟩ := Finset.two_lt_card_iff.mp (Nat.lt_of_not_le hmany)
    simp only [List.mem_toFinset, List.mem_map] at hx hy hz
    obtain ⟨e₁, h₁, rfl⟩ := hx
    obtain ⟨e₂, h₂, rfl⟩ := hy
    obtain ⟨e₃, h₃, rfl⟩ := hz
    have hreach {e e' e'' : Nat × Nat} (he : e ∈ inside) (he' : e' ∈ inside) (he'' : e'' ∈ inside) (hlt : e.2 < e'.2)
        (hlt' : e'.2 < e''.2) : False := by
      have := h.not_three (hmem he).1 (hmem he').1 (hmem he'').1 hlt hlt'
      have := (hmem he).2.1
      have := (hmem he'').2.2
      omega
    rcases lt_or_gt_of_ne hxy with h12 | h12 <;> rcases lt_or_gt_of_ne hxz with h13 | h13 <;>
      rcases lt_or_gt_of_ne hyz with h23 | h23
    · exact hreach h₁ h₂ h₃ h12 h23
    · exact hreach h₁ h₃ h₂ h13 h23
    · omega
    · exact hreach h₃ h₁ h₂ h13 h12
    · exact hreach h₂ h₁ h₃ h12 h13
    · omega
    · exact hreach h₂ h₃ h₁ h23 h13
    · exact hreach h₃ h₂ h₁ h23 h12
  have hcount {s : Nat} : (inside.map Prod.snd).count s ≤ limit :=
    (List.Sublist.count_le s (List.filter_sublist.map Prod.snd)).trans (h.count_le s)
  calc inside.length = (inside.map Prod.snd).length := (List.length_map _).symm
    _ = ∑ s ∈ (inside.map Prod.snd).toFinset, (inside.map Prod.snd).count s :=
      (List.sum_toFinset_count_eq_length _).symm
    _ ≤ (inside.map Prod.snd).toFinset.card * limit := Finset.sum_le_card_nsmul _ _ _ fun s _ => hcount
    _ ≤ 2 * limit := Nat.mul_le_mul_right _ hwindows

/-! ### The counter -/

/-- What a bucket says at a time about everything admitted before it. Without a bucket, all windows are over. -/
structure Counts (limit window now : Nat) (bucket : Option Bucket) (admitted : List (Nat × Nat)) : Prop where
  spaced : Spaced limit window admitted
  past : ∀ e ∈ admitted, e.1 < now
  ended : bucket = none → ∀ e ∈ admitted, e.2 + window ≤ now
  count_eq : ∀ b, bucket = some b → b.count = (admitted.map Prod.snd).count b.start
  open_le : ∀ b, bucket = some b → b.start ≤ now
  closed : ∀ b, bucket = some b → ∀ e ∈ admitted, e.2 ≠ b.start → e.1 < b.start ∧ e.2 + window ≤ b.start

theorem Counts.start (limit window now : Nat) : Counts limit window now none [] := by
  refine ⟨⟨?_, ?_, ?_⟩, ?_, ?_, ?_, ?_, ?_⟩ <;> simp

theorem Counts.mono (h : Counts limit window now bucket admitted) (hle : now ≤ later) :
    Counts limit window later bucket admitted where
  spaced := h.spaced
  past e he := (h.past e he).trans_le hle
  ended hnone e he := (h.ended hnone e he).trans hle
  count_eq := h.count_eq
  open_le b hb := (h.open_le b hb).trans hle
  closed := h.closed

theorem Counts.all_ended (h : Counts limit window now (some b) admitted) (hle : now ≤ later)
    (hover : window ≤ later - b.start) : ∀ e ∈ admitted, e.2 + window ≤ later := by
  intro e he
  have hopen := h.open_le b rfl
  by_cases hsame : e.2 = b.start
  · omega
  · have := (h.closed b rfl e he hsame).2
    omega

theorem Counts.fresh (h : Counts limit window now bucket admitted) (hle : now ≤ later)
    (hover : ∀ e ∈ admitted, e.2 + window ≤ later) : Counts limit window later (some ⟨0, later⟩) admitted where
  spaced := h.spaced
  past e he := (h.past e he).trans_le hle
  ended hnone := by cases hnone
  count_eq b hb := by
    cases hb
    refine (List.count_eq_zero.mpr fun hmem => ?_).symm
    obtain ⟨e, he, heq⟩ := List.mem_map.mp hmem
    change e.2 = later at heq
    have := h.past e he
    have := h.spaced.start_le e he
    omega
  open_le b hb := by
    cases hb
    exact le_rfl
  closed b hb e he _ := by
    cases hb
    exact ⟨(h.past e he).trans_le hle, hover e he⟩

theorem Counts.current (h : Counts limit window now bucket admitted) :
    Counts limit window now (some (current window now bucket)) admitted := by
  cases bucket with
  | none => exact h.fresh le_rfl (h.ended rfl)
  | some b =>
      rw [FixedWindow.current]
      split
      · next hover => exact h.fresh le_rfl (h.all_ended le_rfl hover)
      · exact h

theorem Counts.purge (h : Counts limit window now bucket admitted) :
    Counts limit window now (purge window now bucket) admitted := by
  cases bucket with
  | none => exact h
  | some b =>
      rw [FixedWindow.purge, Option.filter_some]
      split
      · exact h
      · next hover =>
          have hclosed : window ≤ now - b.start := by simpa using hover
          refine ⟨h.spaced, h.past, fun _ => h.all_ended le_rfl hclosed, ?_, ?_, ?_⟩ <;> simp

theorem Counts.admit (h : Counts limit window now (some b) admitted) (hroom : b.count < limit) (hlt : now < later) :
    Counts limit window later (some { b with count := b.count + 1 }) (admitted ++ [(now, b.start)]) := by
  have hopen := h.open_le b rfl
  have hcount := h.count_eq b rfl
  have hmem {e : Nat × Nat} : e ∈ admitted ++ [(now, b.start)] ↔ e ∈ admitted ∨ e = (now, b.start) := by simp
  refine ⟨⟨?_, ?_, ?_⟩, ?_, ?_, ?_, ?_, ?_⟩
  · intro e he
    obtain he | rfl := hmem.mp he
    · exact h.spaced.start_le e he
    · exact hopen
  · intro s
    rw [List.map_append, List.count_append, List.map_singleton]
    have hle := h.spaced.count_le s
    by_cases hs : b.start = s
    · subst hs
      rw [List.count_singleton_self]
      omega
    · rw [List.count_eq_zero.mpr fun hin => hs (List.mem_singleton.mp hin).symm]
      exact hle
  · intro e he e' he' hlt
    obtain he | rfl := hmem.mp he <;> obtain he' | rfl := hmem.mp he'
    · exact h.spaced.apart e he e' he' hlt
    · exact h.closed b rfl e he hlt.ne
    · -- no earlier window starts after the one that is open
      have hback := h.closed b rfl e' he' hlt.ne'
      have := h.spaced.start_le e' he'
      exact absurd hlt (by dsimp only; omega)
    · exact absurd hlt (lt_irrefl _)
  · intro e he
    obtain he | rfl := hmem.mp he
    · exact (h.past e he).trans hlt
    · exact hlt
  · intro hnone
    cases hnone
  · intro b' hb'
    cases hb'
    rw [List.map_append, List.count_append, List.map_singleton, List.count_singleton_self, hcount]
  · intro b' hb'
    cases hb'
    exact hopen.trans hlt.le
  · intro b' hb' e he hne
    cases hb'
    obtain he | rfl := hmem.mp he
    · exact h.closed b rfl e he hne
    · exact absurd rfl hne

end FixedWindow

end QuantumVault
