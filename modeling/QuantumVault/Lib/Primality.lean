import Mathlib

/-!
# Primality certificates

A number is prime when a base has order `p - 1` modulo it, and that needs one power for every prime factor of `p - 1`. The powers are taken by repeated squaring, so that the kernel evaluates them on numbers of hundreds of bits.
-/

namespace QuantumVault

/-- The power modulo `m`, by repeated squaring over as many bits of the exponent as given. -/
def powMod (m : Nat) : (bits base exponent : Nat) → Nat
  | 0, _, _ => 1 % m
  | bits + 1, base, exponent =>
      let rest := powMod m bits (base * base % m) (exponent / 2)
      if exponent % 2 = 0 then rest else base * rest % m

theorem powMod_eq {m bits base exponent : Nat} (h : exponent < 2 ^ bits) :
    powMod m bits base exponent = base ^ exponent % m := by
  induction bits generalizing base exponent with
  | zero =>
      obtain rfl : exponent = 0 := by omega
      rfl
  | succ bits ih =>
      have hhalf : powMod m bits (base * base % m) (exponent / 2) = base ^ (2 * (exponent / 2)) % m := by
        rw [ih (by omega), ← Nat.pow_mod, pow_mul, sq]
      have hsplit := Nat.div_add_mod exponent 2
      rw [powMod, hhalf]
      split
      · rename_i heven
        rw [heven, Nat.add_zero] at hsplit
        rw [hsplit]
      · rename_i hodd
        have hone : exponent % 2 = 1 := by omega
        rw [Nat.mul_mod_mod, ← pow_succ', ← hone, hsplit]

/-- The powers of a base that show that `p` is prime, for a list of the prime factors of `p - 1`. -/
structure PrimalityCertificate (p base : Nat) (factors : List Nat) : Prop where
  one_lt : 1 < p
  prod_eq : factors.prod = p - 1
  power_eq : powMod p (p.log2 + 1) base (p - 1) = 1
  power_ne : ∀ q ∈ factors, powMod p (p.log2 + 1) base ((p - 1) / q) ≠ 1

namespace PrimalityCertificate

variable {p base : Nat} {factors : List Nat} (h : PrimalityCertificate p base factors)
  (hfactors : ∀ q ∈ factors, q.Prime)

include h

theorem pow_eq_one_iff {e : Nat} (he : e ≤ p - 1) :
    (base : ZMod p) ^ e = 1 ↔ powMod p (p.log2 + 1) base e = 1 := by
  have hfits : e < 2 ^ (p.log2 + 1) := lt_of_le_of_lt (he.trans (Nat.sub_le p 1)) Nat.lt_log2_self
  rw [powMod_eq hfits, ← Nat.cast_pow, ← Nat.cast_one, ZMod.natCast_eq_natCast_iff', Nat.mod_eq_of_lt h.one_lt]

theorem pow_pred : (base : ZMod p) ^ (p - 1) = 1 := (h.pow_eq_one_iff le_rfl).mpr h.power_eq

include hfactors

theorem pow_pred_div_ne {q : Nat} (hq : q.Prime) (hdvd : q ∣ p - 1) : (base : ZMod p) ^ ((p - 1) / q) ≠ 1 := by
  rw [← h.prod_eq, hq.prime.dvd_prod_iff] at hdvd
  obtain ⟨r, hr, hqr⟩ := hdvd
  obtain rfl := (Nat.prime_dvd_prime_iff_eq hq (hfactors r hr)).mp hqr
  intro hone
  exact h.power_ne q hr ((h.pow_eq_one_iff (Nat.div_le_self _ _)).mp hone)

theorem prime : p.Prime := lucas_primality p base h.pow_pred fun _ => h.pow_pred_div_ne hfactors

theorem orderOf_eq : orderOf (base : ZMod p) = p - 1 :=
  orderOf_eq_of_pow_and_pow_div_prime (Nat.sub_pos_of_lt h.one_lt) h.pow_pred fun _ => h.pow_pred_div_ne hfactors

end PrimalityCertificate

end QuantumVault
