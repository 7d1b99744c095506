import Mathlib

/-!
# Numbers in digits

Lists of digits in a base, the most significant digit first, and the loops that multi-word arithmetic is made of: carrying through a list of column sums, borrowing, comparing, and adding into one column. Each loop is described by what it does to the number that the digits make up.
-/

namespace QuantumVault

namespace Limbs

variable {B : Nat} {ds es : List Nat} {d e : Nat}

/-- The number that the digits make up. -/
def value (B : Nat) (ds : List Nat) : Nat := Nat.ofDigits B ds.reverse

@[simp] theorem value_nil : value B [] = 0 := rfl

theorem value_append : value B (ds ++ es) = value B ds * B ^ es.length + value B es := by
  rw [value, List.reverse_append, Nat.ofDigits_append, List.length_reverse, value, value]
  ring

@[simp] theorem value_singleton : value B [d] = d := by simp [value]

@[simp] theorem value_cons : value B (d :: ds) = d * B ^ ds.length + value B ds := by
  rw [← List.singleton_append, value_append, value_singleton]

theorem value_lt (h : ∀ d ∈ ds, d < B) : value B ds < B ^ ds.length := by
  induction ds with
  | nil => simp
  | cons d ds ih =>
      rw [List.forall_mem_cons] at h
      have hd : d + 1 ≤ B := h.1
      have hds := ih h.2
      calc value B (d :: ds) = d * B ^ ds.length + value B ds := value_cons
        _ < d * B ^ ds.length + B ^ ds.length := by omega
        _ = (d + 1) * B ^ ds.length := by ring
        _ ≤ B * B ^ ds.length := Nat.mul_le_mul_right _ hd
        _ = B ^ (d :: ds).length := by rw [List.length_cons, pow_succ']

theorem value_map_mul (c : Nat) : value B (ds.map (· * c)) = value B ds * c := by
  induction ds with
  | nil => simp
  | cons d ds ih =>
      rw [List.map_cons, value_cons, value_cons, ih, List.length_map]
      ring

theorem value_zipWith_add (hlen : ds.length = es.length) :
    value B (List.zipWith (· + ·) ds es) = value B ds + value B es := by
  induction ds generalizing es with
  | nil => simp [List.length_eq_zero_iff.mp hlen.symm]
  | cons d ds ih =>
      cases es with
      | nil => simp at hlen
      | cons e es =>
          rw [List.length_cons, List.length_cons, Nat.add_right_cancel_iff] at hlen
          rw [List.zipWith_cons_cons, value_cons, value_cons, value_cons, ih hlen, List.length_zipWith, hlen, Nat.min_self]
          ring

/-! ### Carrying -/

/-- Carry through column sums, from the least significant one on. -/
def carry (B : Nat) (ds : List Nat) (c : Nat) : List Nat × Nat :=
  ds.foldr (fun d acc => ((d + acc.2) % B :: acc.1, (d + acc.2) / B)) ([], c)

theorem carry_cons (c : Nat) : carry B (d :: ds) c =
    ((d + (carry B ds c).2) % B :: (carry B ds c).1, (d + (carry B ds c).2) / B) := rfl

@[simp] theorem length_carry (c : Nat) : (carry B ds c).1.length = ds.length := by
  induction ds with
  | nil => rfl
  | cons d ds ih => rw [carry_cons, List.length_cons, List.length_cons, ih]

theorem carry_lt (hB : 0 < B) (c : Nat) : ∀ d ∈ (carry B ds c).1, d < B := by
  induction ds with
  | nil => simp [carry]
  | cons d ds ih =>
      rw [carry_cons, List.forall_mem_cons]
      exact ⟨Nat.mod_lt _ hB, ih⟩

/-- **Carrying keeps the number**: what runs out at the top counts with the next power of the base. -/
theorem value_carry (c : Nat) :
    value B (carry B ds c).1 + (carry B ds c).2 * B ^ ds.length = value B ds + c := by
  induction ds with
  | nil => simp [carry]
  | cons d ds ih =>
      have hsplit := Nat.mod_add_div (d + (carry B ds c).2) B
      rw [carry_cons, value_cons, value_cons, length_carry, List.length_cons, pow_succ']
      calc (d + (carry B ds c).2) % B * B ^ ds.length + value B (carry B ds c).1 +
              (d + (carry B ds c).2) / B * (B * B ^ ds.length)
          = ((d + (carry B ds c).2) % B + B * ((d + (carry B ds c).2) / B)) * B ^ ds.length +
              value B (carry B ds c).1 := by ring
        _ = d * B ^ ds.length + (value B (carry B ds c).1 + (carry B ds c).2 * B ^ ds.length) := by rw [hsplit]; ring
        _ = d * B ^ ds.length + value B ds + c := by rw [ih]; ring

/-- The carried digits are the number below the next power of the base, and the carry is what is above it. -/
theorem carry_eq (hB : 0 < B) (c : Nat) :
    value B (carry B ds c).1 = (value B ds + c) % B ^ ds.length ∧
      (carry B ds c).2 = (value B ds + c) / B ^ ds.length := by
  have hlt : value B (carry B ds c).1 < B ^ ds.length := by
    have h := value_lt (@carry_lt B ds hB c)
    rwa [length_carry] at h
  have hpos : 0 < B ^ ds.length := Nat.pow_pos hB
  rw [← value_carry c]
  constructor
  · rw [Nat.add_mul_mod_self_right, Nat.mod_eq_of_lt hlt]
  · rw [Nat.add_mul_div_right _ _ hpos, Nat.div_eq_of_lt hlt, Nat.zero_add]

/-! ### Borrowing -/

/-- Subtract digit by digit, from the least significant ones on. -/
def borrow (B : Nat) (pairs : List (Nat × Nat)) : List Nat × Nat :=
  pairs.foldr (fun p acc =>
    if p.1 < p.2 + acc.2 then ((p.1 + B - p.2 - acc.2) :: acc.1, 1) else ((p.1 - p.2 - acc.2) :: acc.1, 0)) ([], 0)

variable {pairs : List (Nat × Nat)}

theorem borrow_cons {p : Nat × Nat} : borrow B (p :: pairs) =
    if p.1 < p.2 + (borrow B pairs).2 then ((p.1 + B - p.2 - (borrow B pairs).2) :: (borrow B pairs).1, 1)
    else ((p.1 - p.2 - (borrow B pairs).2) :: (borrow B pairs).1, 0) := rfl

theorem borrow_le_one : (borrow B pairs).2 ≤ 1 := by
  cases pairs with
  | nil => simp [borrow]
  | cons p pairs =>
      rw [borrow_cons]
      split <;> simp

@[simp] theorem length_borrow : (borrow B pairs).1.length = pairs.length := by
  induction pairs with
  | nil => rfl
  | cons p pairs ih =>
      rw [borrow_cons]
      split <;> rw [List.length_cons, List.length_cons, ih]

/-- **Borrowing keeps the difference**: a borrow at the top counts with the next power of the base. -/
theorem value_borrow (h : ∀ p ∈ pairs, p.1 < B ∧ p.2 < B) :
    value B (borrow B pairs).1 + value B (pairs.map Prod.snd) =
      value B (pairs.map Prod.fst) + (borrow B pairs).2 * B ^ pairs.length := by
  induction pairs with
  | nil => simp [borrow]
  | cons p pairs ih =>
      rw [List.forall_mem_cons] at h
      have hrec := ih h.2
      have hone := @borrow_le_one B pairs
      rw [borrow_cons, List.map_cons, List.map_cons]
      split
      · rename_i hlt
        have hdigit : p.1 + B - p.2 - (borrow B pairs).2 + p.2 + (borrow B pairs).2 = p.1 + B := by omega
        simp only [value_cons, length_borrow, List.length_map, List.length_cons, pow_succ']
        calc (p.1 + B - p.2 - (borrow B pairs).2) * B ^ pairs.length + value B (borrow B pairs).1 +
                (p.2 * B ^ pairs.length + value B (pairs.map Prod.snd))
            = (p.1 + B - p.2 - (borrow B pairs).2 + p.2) * B ^ pairs.length +
                (value B (borrow B pairs).1 + value B (pairs.map Prod.snd)) := by ring
          _ = (p.1 + B - p.2 - (borrow B pairs).2 + p.2 + (borrow B pairs).2) * B ^ pairs.length +
                value B (pairs.map Prod.fst) := by rw [hrec]; ring
          _ = p.1 * B ^ pairs.length + value B (pairs.map Prod.fst) + 1 * (B * B ^ pairs.length) := by rw [hdigit]; ring
      · rename_i hge
        have hdigit : p.1 - p.2 - (borrow B pairs).2 + p.2 + (borrow B pairs).2 = p.1 := by omega
        simp only [value_cons, length_borrow, List.length_map, List.length_cons, pow_succ']
        calc (p.1 - p.2 - (borrow B pairs).2) * B ^ pairs.length + value B (borrow B pairs).1 +
                (p.2 * B ^ pairs.length + value B (pairs.map Prod.snd))
            = (p.1 - p.2 - (borrow B pairs).2 + p.2) * B ^ pairs.length +
                (value B (borrow B pairs).1 + value B (pairs.map Prod.snd)) := by ring
          _ = (p.1 - p.2 - (borrow B pairs).2 + p.2 + (borrow B pairs).2) * B ^ pairs.length +
                value B (pairs.map Prod.fst) := by rw [hrec]; ring
          _ = p.1 * B ^ pairs.length + value B (pairs.map Prod.fst) + 0 * (B * B ^ pairs.length) := by rw [hdigit]; ring

/-! ### Comparing -/

theorem value_cons_lt_value_cons (hlen : ds.length = es.length) (hds : ∀ a ∈ ds, a < B) (hlt : d < e) :
    value B (d :: ds) < value B (e :: es) := by
  have hbelow := value_lt hds
  rw [value_cons, value_cons, ← hlen]
  calc d * B ^ ds.length + value B ds < d * B ^ ds.length + B ^ ds.length := by omega
    _ = (d + 1) * B ^ ds.length := by ring
    _ ≤ e * B ^ ds.length := Nat.mul_le_mul_right _ hlt
    _ ≤ e * B ^ ds.length + value B es := Nat.le_add_right _ _

/-! ### Single columns -/

theorem value_set {i : Nat} (hi : i < ds.length) :
    value B (ds.set i e) + ds[i] * B ^ (ds.length - 1 - i) = value B ds + e * B ^ (ds.length - 1 - i) := by
  induction ds generalizing i with
  | nil => simp at hi
  | cons d ds ih =>
      cases i with
      | zero =>
          simp
          ring
      | succ i =>
          rw [List.length_cons, Nat.add_lt_add_iff_right] at hi
          have hrec := ih hi
          have hexp : ds.length + 1 - 1 - (i + 1) = ds.length - 1 - i := by omega
          rw [List.set_cons_succ, value_cons, value_cons, List.length_set, List.getElem_cons_succ, List.length_cons, hexp]
          omega

theorem value_set_add {i : Nat} (hi : i < ds.length) :
    value B (ds.set i (ds[i] + e)) = value B ds + e * B ^ (ds.length - 1 - i) := by
  have h := value_set (B := B) (e := ds[i] + e) hi
  rw [Nat.add_mul] at h
  omega

end Limbs

end QuantumVault
