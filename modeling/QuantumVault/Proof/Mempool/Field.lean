import QuantumVault.Core.Threshold
import QuantumVault.Lib.Primality

/-!
# The field of the threshold scheme

The modulus is prime and two is a primitive root of it. The arithmetic on 256 bits is that of the field: of any operands for products and powers, of reduced ones for sums and differences.
-/

namespace QuantumVault

namespace Threshold

/-! ### The prime -/

def fieldPrime : Nat := 2 ^ 256 - 189

theorem fieldPrime_eq :
    fieldPrime = 115792089237316195423570985008687907853269984665640564039457584007913129639747 := rfl

def fieldPrimeFactors : List Nat :=
  [2, 3, 29, 222587, 1521613, 4463413, 440208639276132997491800604758226661590679912188273141493]

/-- The large factors of `fieldPrime - 1` and of their predecessors, each with a primitive root and the prime factors of its own predecessor. -/
def largeFactors : List (Nat × Nat × List Nat) := [
  (10262543633, 3, [2, 2, 2, 2, 11, 83, 702529]),
  (246301047193, 5, [2, 2, 2, 3, 10262543633]),
  (68964293214041, 12, [2, 2, 2, 5, 7, 246301047193]),
  (23236691026952546459, 2, [2, 7, 41, 587, 68964293214041]),
  (1219974856409, 6, [2, 2, 2, 7, 11, 3761, 526583]),
  (14220365526706201077871, 6, [2, 3, 3, 5, 23, 2221, 36151, 87881, 973591]),
  (440208639276132997491800604758226661590679912188273141493, 2,
    [2, 2, 3, 7, 13, 1219974856409, 23236691026952546459, 14220365526706201077871])]

private theorem certificates_largeFactors : ∀ c ∈ largeFactors, PrimalityCertificate c.1 c.2.1 c.2.2 := by
  simp only [largeFactors, List.forall_mem_cons]
  refine ⟨?_, ?_, ?_, ?_, ?_, ?_, ?_, List.forall_mem_nil _⟩
  all_goals constructor <;> decide +kernel

theorem certificate_of_mem {p base : Nat} {factors : List Nat} (h : (p, base, factors) ∈ largeFactors) :
    PrimalityCertificate p base factors := certificates_largeFactors _ h

private theorem prime_10262543633 : Nat.Prime 10262543633 := by
  have hcert : PrimalityCertificate 10262543633 3 [2, 2, 2, 2, 11, 83, 702529] :=
    certificate_of_mem (by decide)
  apply hcert.prime
  simp only [List.forall_mem_cons]
  norm_num

private theorem prime_68964293214041 : Nat.Prime 68964293214041 := by
  have hinner : PrimalityCertificate 246301047193 5 [2, 2, 2, 3, 10262543633] :=
    certificate_of_mem (by decide)
  have hprime : Nat.Prime 246301047193 := by
    apply hinner.prime
    simp only [List.forall_mem_cons, prime_10262543633]
    norm_num
  have hcert : PrimalityCertificate 68964293214041 12 [2, 2, 2, 5, 7, 246301047193] :=
    certificate_of_mem (by decide)
  apply hcert.prime
  simp only [List.forall_mem_cons, hprime]
  norm_num

private theorem prime_23236691026952546459 : Nat.Prime 23236691026952546459 := by
  have hcert : PrimalityCertificate 23236691026952546459 2 [2, 7, 41, 587, 68964293214041] :=
    certificate_of_mem (by decide)
  apply hcert.prime
  simp only [List.forall_mem_cons, prime_68964293214041]
  norm_num

private theorem prime_1219974856409 : Nat.Prime 1219974856409 := by
  have hcert : PrimalityCertificate 1219974856409 6 [2, 2, 2, 7, 11, 3761, 526583] :=
    certificate_of_mem (by decide)
  apply hcert.prime
  simp only [List.forall_mem_cons]
  norm_num

private theorem prime_14220365526706201077871 : Nat.Prime 14220365526706201077871 := by
  have hcert : PrimalityCertificate 14220365526706201077871 6 [2, 3, 3, 5, 23, 2221, 36151, 87881, 973591] :=
    certificate_of_mem (by decide)
  apply hcert.prime
  simp only [List.forall_mem_cons]
  norm_num

private theorem prime_440208639276132997491800604758226661590679912188273141493 :
    Nat.Prime 440208639276132997491800604758226661590679912188273141493 := by
  have hcert : PrimalityCertificate 440208639276132997491800604758226661590679912188273141493 2
      [2, 2, 3, 7, 13, 1219974856409, 23236691026952546459, 14220365526706201077871] :=
    certificate_of_mem (by decide)
  apply hcert.prime
  simp only [List.forall_mem_cons, prime_1219974856409, prime_23236691026952546459, prime_14220365526706201077871]
  norm_num

theorem prime_of_mem_fieldPrimeFactors : ∀ q ∈ fieldPrimeFactors, q.Prime := by
  simp only [fieldPrimeFactors, List.forall_mem_cons, prime_440208639276132997491800604758226661590679912188273141493]
  norm_num

theorem certificate_fieldPrime : PrimalityCertificate fieldPrime 2 fieldPrimeFactors := by
  constructor <;> decide +kernel

instance : Fact fieldPrime.Prime := ⟨certificate_fieldPrime.prime prime_of_mem_fieldPrimeFactors⟩

theorem orderOf_two : orderOf (2 : ZMod fieldPrime) = fieldPrime - 1 :=
  certificate_fieldPrime.orderOf_eq prime_of_mem_fieldPrimeFactors

private theorem two_ne_zero : (2 : ZMod fieldPrime) ≠ 0 := by
  intro hzero
  have horder := orderOf_two
  rw [hzero, orderOf_zero] at horder
  cases horder

/-- Powers of two are equal exactly if their exponents are congruent modulo `p - 1`, which is not the prime. -/
theorem two_pow_eq_two_pow_iff {m n : Nat} : (2 : ZMod fieldPrime) ^ m = 2 ^ n ↔ m ≡ n [MOD fieldPrime - 1] := by
  have hunit : orderOf (Units.mk0 (2 : ZMod fieldPrime) two_ne_zero) = fieldPrime - 1 := by
    rw [← orderOf_units, Units.val_mk0, orderOf_two]
  rw [← hunit, ← pow_eq_pow_iff_modEq, Units.ext_iff, Units.val_pow_eq_pow_val, Units.val_pow_eq_pow_val, Units.val_mk0]

/-! ### Numbers as elements of the field -/

/-- The element of the field that a number stands for. -/
def toField (a : U256) : ZMod fieldPrime := a.toNat

namespace Field

variable {a b : U256}

theorem toNat_modulus : modulus.toNat = fieldPrime := rfl

theorem lt_modulus_iff : a < modulus ↔ a.toNat < fieldPrime := BitVec.lt_def

theorem val_toField (ha : a < modulus) : (toField a).val = a.toNat := ZMod.val_cast_of_lt (lt_modulus_iff.mp ha)

theorem toField_inj (ha : a < modulus) (hb : b < modulus) : toField a = toField b ↔ a = b := by
  constructor
  · intro h
    apply BitVec.eq_of_toNat_eq
    rw [← val_toField ha, ← val_toField hb, h]
  · exact congrArg toField

theorem toField_eq_of_toNat {n : Nat} (h : a.toNat = n % fieldPrime) : toField a = (n : ZMod fieldPrime) := by
  rw [toField, h, ZMod.natCast_mod]

theorem lt_modulus_of_toNat {n : Nat} (h : a.toNat = n % fieldPrime) : a < modulus := by
  rw [lt_modulus_iff, h]
  exact Nat.mod_lt _ (by decide)

theorem toNat_reduce (a : U256) : (reduce a).toNat = a.toNat % fieldPrime := by
  have hlt := a.isLt
  unfold reduce subRaw
  split
  · rename_i hle
    rw [BitVec.toNat_sub_of_le hle, toNat_modulus]
    rw [BitVec.le_def, toNat_modulus] at hle
    rw [fieldPrime_eq] at hle ⊢
    omega
  · rename_i hgt
    rw [BitVec.le_def, toNat_modulus] at hgt
    rw [Nat.mod_eq_of_lt (not_le.mp hgt)]

theorem add_eq (a b : U256) :
    add a b = if 2 ^ 256 ≤ a.toNat + b.toNat then a + b - modulus else reduce (a + b) := by
  change (if decide (2 ^ 256 ≤ a.toNat + b.toNat) = true then a + b - modulus else reduce (a + b)) = _
  simp only [decide_eq_true_eq]

theorem sub_eq (a b : U256) : sub a b = if a < b then a - b + modulus else a - b := by
  change (if decide (a < b) = true then a - b + modulus else a - b) = _
  simp only [decide_eq_true_eq]

theorem toNat_add (ha : a < modulus) (hb : b < modulus) : (add a b).toNat = (a.toNat + b.toNat) % fieldPrime := by
  rw [lt_modulus_iff, fieldPrime_eq] at ha hb
  rw [add_eq]
  split
  · rw [BitVec.toNat_sub, BitVec.toNat_add, toNat_modulus, fieldPrime_eq]
    omega
  · rename_i hcarry
    rw [toNat_reduce, BitVec.toNat_add, Nat.mod_eq_of_lt (not_le.mp hcarry)]

theorem toNat_sub (ha : a < modulus) (hb : b < modulus) :
    (sub a b).toNat = (a.toNat + (fieldPrime - b.toNat)) % fieldPrime := by
  rw [lt_modulus_iff, fieldPrime_eq] at ha hb
  rw [sub_eq]
  split
  · rename_i hborrow
    rw [BitVec.toNat_add, BitVec.toNat_sub, toNat_modulus, fieldPrime_eq]
    rw [BitVec.lt_def] at hborrow
    omega
  · rename_i hborrow
    rw [BitVec.toNat_sub, fieldPrime_eq]
    rw [BitVec.lt_def] at hborrow
    omega

theorem fold_mod (n : Nat) : (n % 2 ^ 256 + 189 * (n / 2 ^ 256)) % fieldPrime = n % fieldPrime := by
  have hsplit : n = n % 2 ^ 256 + 189 * (n / 2 ^ 256) + fieldPrime * (n / 2 ^ 256) := by
    rw [fieldPrime_eq]
    omega
  conv_rhs => rw [hsplit]
  rw [Nat.add_mul_mod_self_left]

theorem foldOverflow_eq (n : Nat) : foldOverflow n =
    if n / 2 ^ 256 > 0 then
      if 2 ^ 256 ≤ (BitVec.ofNat 256 n).toNat + (BitVec.ofNat 256 (n / 2 ^ 256 * 189)).toNat then
        BitVec.ofNat 256 n + BitVec.ofNat 256 (n / 2 ^ 256 * 189) - modulus
      else BitVec.ofNat 256 n + BitVec.ofNat 256 (n / 2 ^ 256 * 189)
    else BitVec.ofNat 256 n := by
  change (if n / 2 ^ 256 > 0 then
    if decide (2 ^ 256 ≤ (BitVec.ofNat 256 n).toNat + (BitVec.ofNat 256 (n / 2 ^ 256 * 189)).toNat) = true then
      BitVec.ofNat 256 n + BitVec.ofNat 256 (n / 2 ^ 256 * 189) - modulus
    else BitVec.ofNat 256 n + BitVec.ofNat 256 (n / 2 ^ 256 * 189)
    else BitVec.ofNat 256 n) = _
  simp only [decide_eq_true_eq]

/-- The second fold keeps the residue: a carry counts 189 times, and that is what is left of it when the modulus is taken away. -/
theorem foldOverflow_mod {n : Nat} (h : n < 2 ^ 256 * 190) : (foldOverflow n).toNat % fieldPrime = n % fieldPrime := by
  have hsmall : n / 2 ^ 256 * 189 < 2 ^ 256 := by omega
  rw [foldOverflow_eq, BitVec.toNat_ofNat, BitVec.toNat_ofNat, Nat.mod_eq_of_lt hsmall]
  split
  · split
    · rename_i hcarry
      have hvalue : (BitVec.ofNat 256 n + BitVec.ofNat 256 (n / 2 ^ 256 * 189) - modulus).toNat =
          n % 2 ^ 256 + n / 2 ^ 256 * 189 - fieldPrime := by
        rw [BitVec.toNat_sub, BitVec.toNat_add, BitVec.toNat_ofNat, BitVec.toNat_ofNat, Nat.mod_eq_of_lt hsmall,
          toNat_modulus, fieldPrime_eq]
        omega
      have hsplit : n = n % 2 ^ 256 + n / 2 ^ 256 * 189 - fieldPrime + fieldPrime * (n / 2 ^ 256 + 1) := by
        rw [fieldPrime_eq]
        omega
      rw [hvalue]
      conv_rhs => rw [hsplit]
      rw [Nat.add_mul_mod_self_left]
    · rename_i hcarry
      rw [BitVec.toNat_add, BitVec.toNat_ofNat, BitVec.toNat_ofNat, Nat.mod_eq_of_lt hsmall,
        Nat.mod_eq_of_lt (not_le.mp hcarry), Nat.mul_comm]
      exact fold_mod n
  · rename_i hnone
    rw [BitVec.toNat_ofNat, Nat.mod_eq_of_lt (show n < 2 ^ 256 by omega)]

theorem toNat_mul (a b : U256) : (mul a b).toNat = a.toNat * b.toNat % fieldPrime := by
  have hprod : a.toNat * b.toNat < 2 ^ 256 * 2 ^ 256 := Nat.mul_lt_mul'' a.isLt b.isLt
  have hfold : a.toNat * b.toNat % 2 ^ 256 + 189 * (a.toNat * b.toNat / 2 ^ 256) < 2 ^ 256 * 190 := by omega
  rw [mul, toNat_reduce, foldOverflow_mod hfold, fold_mod]

/-! ### The operations of the field -/

theorem toNat_fromU32 (v : UInt32) : (fromU32 v).toNat = v.toNat := by
  have hlt : v.toNat < 2 ^ 32 := v.toNat_lt
  rw [fromU32, BitVec.toNat_ofNat, Nat.mod_eq_of_lt (by omega)]

theorem fromU32_lt (v : UInt32) : fromU32 v < modulus := by
  have hlt : v.toNat < 2 ^ 32 := v.toNat_lt
  rw [lt_modulus_iff, toNat_fromU32, fieldPrime_eq]
  omega

theorem zero_lt : zero < modulus := by decide

theorem toField_zero : toField zero = 0 := Nat.cast_zero

theorem toField_fromU32 (v : UInt32) : toField (fromU32 v) = v.toNat := by rw [toField, toNat_fromU32]

theorem toField_one : toField (fromU32 1) = 1 := by
  rw [toField_fromU32]
  exact Nat.cast_one

theorem add_lt (ha : a < modulus) (hb : b < modulus) : add a b < modulus := lt_modulus_of_toNat (toNat_add ha hb)

theorem toField_add (ha : a < modulus) (hb : b < modulus) : toField (add a b) = toField a + toField b := by
  rw [toField_eq_of_toNat (toNat_add ha hb), Nat.cast_add]
  rfl

theorem toField_sub (ha : a < modulus) (hb : b < modulus) : toField (sub a b) = toField a - toField b := by
  rw [toField_eq_of_toNat (toNat_sub ha hb), Nat.cast_add, Nat.cast_sub (le_of_lt (lt_modulus_iff.mp hb)),
    ZMod.natCast_self, zero_sub, ← sub_eq_add_neg]
  rfl

theorem mul_lt (a b : U256) : mul a b < modulus := lt_modulus_of_toNat (toNat_mul a b)

theorem toField_mul (a b : U256) : toField (mul a b) = toField a * toField b := by
  rw [toField_eq_of_toNat (toNat_mul a b), Nat.cast_mul]
  rfl

/-- The number that the lowest bits of an exponent make up. -/
def lowBits (exp : U256) (n : Nat) : Nat := exp.toNat % 2 ^ n

private theorem lowBits_succ (exp : U256) (n : Nat) :
    lowBits exp (n + 1) = lowBits exp n + if exp.getLsbD n then 2 ^ n else 0 := by
  rw [lowBits, lowBits, Nat.mod_pow_succ, BitVec.getLsbD, Nat.testBit_eq_decide_div_mod_eq]
  have hbit : exp.toNat / 2 ^ n % 2 < 2 := Nat.mod_lt _ (by decide)
  split
  · rename_i hone
    rw [of_decide_eq_true hone, Nat.mul_one]
  · rename_i hzero
    have hnot : ¬ exp.toNat / 2 ^ n % 2 = 1 := by simpa using hzero
    have hval : exp.toNat / 2 ^ n % 2 = 0 := by omega
    rw [hval, Nat.mul_zero]

theorem toField_pow_loop (base exp : U256) (n : Nat) :
    let state := (List.range n).foldl (fun (state : U256 × U256) i =>
      (if exp.getLsbD i then mul state.1 state.2 else state.1, mul state.2 state.2)) (fromU32 1, base)
    state.1 < modulus ∧ toField state.1 = toField base ^ lowBits exp n ∧ toField state.2 = toField base ^ 2 ^ n := by
  induction n with
  | zero =>
      refine ⟨fromU32_lt 1, ?_, ?_⟩
      · rw [lowBits, Nat.pow_zero, Nat.mod_one, pow_zero]
        exact toField_one
      · rw [Nat.pow_zero, pow_one]
        rfl
  | succ n ih =>
      obtain ⟨hlt, hresult, hbase⟩ := ih
      rw [List.range_succ, List.foldl_append, lowBits_succ]
      simp only [List.foldl_cons, List.foldl_nil]
      refine ⟨?_, ?_, ?_⟩
      · split
        · exact mul_lt _ _
        · exact hlt
      · split
        · rw [toField_mul, hresult, hbase, pow_add]
        · rw [hresult, Nat.add_zero]
      · rw [toField_mul, hbase, ← pow_add, Nat.pow_succ, Nat.mul_two]

theorem pow_lt (base exp : U256) : pow base exp < modulus := (toField_pow_loop base exp 256).1

theorem toField_pow (base exp : U256) : toField (pow base exp) = toField base ^ exp.toNat := by
  have hloop := (toField_pow_loop base exp 256).2.1
  rwa [lowBits, Nat.mod_eq_of_lt exp.isLt] at hloop

theorem toNat_pow (base exp : U256) : (pow base exp).toNat = base.toNat ^ exp.toNat % fieldPrime := by
  rw [← val_toField (pow_lt base exp), toField_pow, toField, ← Nat.cast_pow, ZMod.val_natCast]

/-- Fermat's little theorem; the inverse of zero is zero. -/
theorem toField_inv (a : U256) : toField (inv a) = (toField a)⁻¹ := by
  have hexp : (BitVec.ofNat 256 (2 ^ 256 - 191)).toNat = fieldPrime - 2 := rfl
  rw [inv, toField_pow, hexp]
  by_cases hzero : toField a = 0
  · rw [hzero, inv_zero]
    exact zero_pow (by decide)
  · apply eq_inv_of_mul_eq_one_left
    rw [← pow_succ]
    exact ZMod.pow_card_sub_one_eq_one hzero

end Field

end Threshold

end QuantumVault
