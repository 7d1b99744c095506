import QuantumVault.Core.LimbField
import QuantumVault.Proof.Mempool.Field

/-!
# The words compute the field operations

Four words make up a number of 256 bits. Every loop on words is a loop on the digits of that number, so each operation on byte arrays gives the bytes of what the operation on numbers gives, and no column overflows.
-/

namespace QuantumVault

open Threshold

namespace LimbField

/-! ### Words as digits -/

def num (l : List UInt64) : Nat := Limbs.value (2 ^ 64) (l.map UInt64.toNat)

def toU256 (l : List UInt64) : U256 := BitVec.ofNat 256 (num l)

section Words

variable {a b l : List UInt64}

theorem num_lt (l : List UInt64) : num l < (2 ^ 64) ^ l.length := by
  have h := @Limbs.value_lt (2 ^ 64) (l.map UInt64.toNat) (by simpa using fun w _ => w.toNat_lt)
  rwa [List.length_map] at h

private theorem num_append (l l' : List UInt64) : num (l ++ l') = num l * (2 ^ 64) ^ l'.length + num l' := by
  rw [num, List.map_append, Limbs.value_append, List.length_map, num, num]

theorem toNat_toU256 (h : l.length = 4) : (toU256 l).toNat = num l := by
  have hlt := num_lt l
  rw [h, ← pow_mul] at hlt
  rw [toU256, BitVec.toNat_ofNat, Nat.mod_eq_of_lt hlt]

private theorem value_toBigEndian (a : U256) : Limbs.value 256 ((toBigEndian a).map UInt8.toNat) = a.toNat := by
  have hlt : a.toNat < 256 ^ 32 := a.isLt
  rw [← ofLittleEndian_reverse, toBigEndian, List.reverse_reverse, ofLittleEndian_toLittleEndian_of_lt hlt]

theorem length_toBigEndian (a : U256) : (toBigEndian a).length = 32 := by simp [toBigEndian]

private theorem num_toLimbs {bs : Bytes} (hlen : bs.length = 32) : num (toLimbs bs) = Limbs.value 256 (bs.map UInt8.toNat) := by
  have hsplit : bs = bs.take 8 ++ ((bs.drop 8).take 8 ++ ((bs.drop 16).take 8 ++ (bs.drop 24).take 8)) := by
    have hlast : (bs.drop 24).take 8 = bs.drop 24 := List.take_of_length_le (by rw [List.length_drop, hlen])
    have h16 : (bs.drop 16).take 8 ++ bs.drop 24 = bs.drop 16 := by
      have h := List.take_append_drop 8 (bs.drop 16)
      rwa [List.drop_drop] at h
    have h8 : (bs.drop 8).take 8 ++ bs.drop 16 = bs.drop 8 := by
      have h := List.take_append_drop 8 (bs.drop 8)
      rwa [List.drop_drop] at h
    rw [hlast, h16, h8, List.take_append_drop]
  have h0 : (bs.take 8).length = 8 := by simp [hlen]
  have h1 : ((bs.drop 8).take 8).length = 8 := by simp [hlen]
  have h2 : ((bs.drop 16).take 8).length = 8 := by simp [hlen]
  have h3 : ((bs.drop 24).take 8).length = 8 := by simp [hlen]
  conv_rhs => rw [hsplit]
  simp only [num, toLimbs, List.map_cons, List.map_nil, List.map_append, Limbs.value_cons, Limbs.value_nil, Limbs.value_append,
    Word.toNat_fromBeBytes h0, Word.toNat_fromBeBytes h1, Word.toNat_fromBeBytes h2, Word.toNat_fromBeBytes h3,
    List.length_append, List.length_map, h1, h2, h3, List.length_cons, List.length_nil]
  norm_num

theorem length_toLimbs (bs : Bytes) : (toLimbs bs).length = 4 := rfl

@[simp] theorem toU256_toLimbs (a : U256) : toU256 (toLimbs (toBigEndian a)) = a := by
  apply BitVec.eq_of_toNat_eq
  rw [toNat_toU256 (length_toLimbs _), num_toLimbs (length_toBigEndian a), value_toBigEndian]

theorem length_fromLimbs (l : List UInt64) : (fromLimbs l).length = 8 * l.length := by
  induction l with
  | nil => rfl
  | cons w l ih =>
      rw [fromLimbs, List.flatMap_cons, List.length_append, ← fromLimbs, ih, Word.length_toBeBytes, List.length_cons]
      omega

private theorem value_fromLimbs (l : List UInt64) : Limbs.value 256 ((fromLimbs l).map UInt8.toNat) = num l := by
  induction l with
  | nil => rfl
  | cons w l ih =>
      have hpow : (256 : Nat) ^ (8 * l.length) = (2 ^ 64) ^ l.length := by rw [pow_mul]; norm_num
      rw [fromLimbs, List.flatMap_cons, List.map_append, Limbs.value_append, ← fromLimbs, ih, Word.value_toBeBytes,
        List.length_map, length_fromLimbs, hpow, num, num, List.map_cons, Limbs.value_cons, List.length_map]

theorem fromLimbs_eq (h : l.length = 4) : fromLimbs l = toBigEndian (toU256 l) := by
  have hlen : (fromLimbs l).reverse.length = 32 := by rw [List.length_reverse, length_fromLimbs, h]
  have hvalue : ofLittleEndian (fromLimbs l).reverse = (toU256 l).toNat := by
    rw [ofLittleEndian_reverse, value_fromLimbs, toNat_toU256 h]
  have hbytes := toLittleEndian_ofLittleEndian (fromLimbs l).reverse
  rw [hlen, hvalue] at hbytes
  rw [toBigEndian, hbytes, List.reverse_reverse]

end Words

/-! ### Comparing, adding and subtracting -/

section Raw

variable {a b : List UInt64}

private theorem gte_eq (hlen : a.length = b.length) : gte a b = decide (num b ≤ num a) := by
  induction a generalizing b with
  | nil =>
      cases b with
      | nil => rfl
      | cons y ys => simp at hlen
  | cons x xs ih =>
      cases b with
      | nil => simp at hlen
      | cons y ys =>
          rw [List.length_cons, List.length_cons, Nat.add_right_cancel_iff] at hlen
          have hbelow : ∀ zs : List UInt64, ∀ d ∈ zs.map UInt64.toNat, d < 2 ^ 64 := fun zs => by
            simpa using fun w _ => w.toNat_lt
          rw [gte]
          split
          · rename_i hgt
            have hlt : num (y :: ys) < num (x :: xs) :=
              Limbs.value_cons_lt_value_cons (by simpa using hlen.symm) (hbelow ys) (UInt64.lt_iff_toNat_lt.mp hgt)
            exact (decide_eq_true hlt.le).symm
          · split
            · rename_i hlt'
              have hlt : num (x :: xs) < num (y :: ys) :=
                Limbs.value_cons_lt_value_cons (by simpa using hlen) (hbelow xs) (UInt64.lt_iff_toNat_lt.mp hlt')
              exact (decide_eq_false (not_le.mpr hlt)).symm
            · rename_i hgt hlt
              have heq : x = y := UInt64.le_antisymm (UInt64.not_lt.mp hgt) (UInt64.not_lt.mp hlt)
              have hrest : num ys ≤ num xs ↔ num (y :: ys) ≤ num (y :: xs) := by
                rw [num, num, num, num, List.map_cons, List.map_cons, Limbs.value_cons, Limbs.value_cons, List.length_map,
                  List.length_map, hlen, Nat.add_le_add_iff_left]
              rw [ih hlen, heq]
              exact decide_eq_decide.mpr hrest

def columns (a b : List UInt64) : List Nat := (a.zip b).map fun words => words.1.toNat + words.2.toNat

theorem value_columns (hlen : a.length = b.length) : Limbs.value (2 ^ 64) (columns a b) = num a + num b := by
  have h := @Limbs.value_zipWith_add (2 ^ 64) (a.map UInt64.toNat) (b.map UInt64.toNat) (by simpa using hlen)
  rw [num, num, ← h, columns, List.zip, List.map_zipWith, List.zipWith_map]

theorem addStep_foldr (words : List (UInt64 × UInt64)) :
    (words.foldr addStep ([], 0)).1.map UInt64.toNat =
        (Limbs.carry (2 ^ 64) (words.map fun w => w.1.toNat + w.2.toNat) 0).1 ∧
      (words.foldr addStep ([], 0)).2.toNat =
        (Limbs.carry (2 ^ 64) (words.map fun w => w.1.toNat + w.2.toNat) 0).2 ∧
      (words.foldr addStep ([], 0)).2.toNat ≤ 1 := by
  induction words with
  | nil => simp [Limbs.carry]
  | cons w words ih =>
      obtain ⟨hdigits, hcarry, hone⟩ := ih
      have h1 := w.1.toNat_lt
      have h2 := w.2.toNat_lt
      have hsmall : (w.1.toNat + w.2.toNat + (words.foldr addStep ([], 0)).2.toNat) / 2 ^ 64 < 2 ^ 64 := by omega
      rw [List.foldr_cons, addStep, List.map_cons, List.map_cons, Limbs.carry_cons, ← hdigits, ← hcarry]
      refine ⟨?_, ?_, ?_⟩
      · rw [UInt64.toNat_ofNat']
      · rw [UInt64.toNat_ofNat', Nat.mod_eq_of_lt hsmall]
      · rw [UInt64.toNat_ofNat', Nat.mod_eq_of_lt hsmall]
        omega

theorem length_addRaw (ha : a.length = 4) (hb : b.length = 4) : (addRaw a b).1.length = 4 := by
  have h := congrArg List.length (addStep_foldr (a.zip b)).1
  rw [List.length_map, Limbs.length_carry, List.length_map, List.length_zip, ha, hb] at h
  exact h

theorem addRaw_eq (ha : a.length = 4) (hb : b.length = 4) :
    (toU256 (addRaw a b).1, (addRaw a b).2) = Field.addRaw (toU256 a) (toU256 b) := by
  obtain ⟨hdigits, hcarry, hone⟩ := addStep_foldr (a.zip b)
  have hcolumns : (columns a b).length = 4 := by simp [columns, ha, hb]
  have hsum := @Limbs.carry_eq (2 ^ 64) (columns a b) (by norm_num) 0
  rw [value_columns (ha.trans hb.symm), hcolumns, Nat.add_zero, ← pow_mul] at hsum
  have hnum : num (addRaw a b).1 = (num a + num b) % 2 ^ 256 := by
    rw [← hsum.1, columns, ← hdigits]
    rfl
  have htop : ((a.zip b).foldr addStep ([], 0)).2.toNat = (num a + num b) / 2 ^ 256 := by
    rw [hcarry, ← hsum.2, columns]
  have hna := num_lt a
  have hnb := num_lt b
  rw [ha, ← pow_mul] at hna
  rw [hb, ← pow_mul] at hnb
  rw [Field.addRaw, Prod.mk.injEq]
  constructor
  · apply BitVec.eq_of_toNat_eq
    rw [toNat_toU256 (length_addRaw ha hb), BitVec.toNat_add, toNat_toU256 ha, toNat_toU256 hb, hnum]
  · rw [toNat_toU256 ha, toNat_toU256 hb]
    change (((a.zip b).foldr addStep ([], 0)).2 != 0) = _
    have hzero : ((a.zip b).foldr addStep ([], 0)).2 = 0 ↔ ¬ 2 ^ 256 ≤ num a + num b := by
      rw [← UInt64.toNat_inj, htop, UInt64.toNat_zero]
      omega
    by_cases hle : 2 ^ 256 ≤ num a + num b
    · rw [decide_eq_true hle]
      exact bne_iff_ne.mpr fun h => hzero.mp h hle
    · rw [decide_eq_false hle, hzero.mpr hle]
      rfl

theorem subStep_foldr (words : List (UInt64 × UInt64)) :
    (words.foldr subStep ([], 0)).1.map UInt64.toNat =
        (Limbs.borrow (2 ^ 64) (words.map fun w => (w.1.toNat, w.2.toNat))).1 ∧
      (words.foldr subStep ([], 0)).2 = ((Limbs.borrow (2 ^ 64) (words.map fun w => (w.1.toNat, w.2.toNat))).2 : Int) := by
  induction words with
  | nil => simp [Limbs.borrow]
  | cons w words ih =>
      obtain ⟨hdigits, hborrow⟩ := ih
      have hone := @Limbs.borrow_le_one (2 ^ 64) (words.map fun w => (w.1.toNat, w.2.toNat))
      have h1 := w.1.toNat_lt
      have h2 := w.2.toNat_lt
      rw [List.foldr_cons, subStep, List.map_cons, Limbs.borrow_cons, hborrow]
      split
      · rename_i hneg
        rw [if_pos (by omega), List.map_cons, hdigits, UInt64.toNat_ofNat']
        refine ⟨congrArg (· :: _) ?_, rfl⟩
        omega
      · rename_i hneg
        rw [if_neg (by omega), List.map_cons, hdigits, UInt64.toNat_ofNat']
        refine ⟨congrArg (· :: _) ?_, rfl⟩
        omega

theorem length_subRaw (ha : a.length = 4) (hb : b.length = 4) : (subRaw a b).1.length = 4 := by
  have h := congrArg List.length (subStep_foldr (a.zip b)).1
  rw [List.length_map, Limbs.length_borrow, List.length_map, List.length_zip, ha, hb] at h
  exact h

theorem subRaw_eq (ha : a.length = 4) (hb : b.length = 4) :
    (toU256 (subRaw a b).1, (subRaw a b).2) = Field.subRaw (toU256 a) (toU256 b) := by
  obtain ⟨hdigits, hborrow⟩ := subStep_foldr (a.zip b)
  have hbelow : ∀ p ∈ (a.zip b).map fun w => (w.1.toNat, w.2.toNat), p.1 < 2 ^ 64 ∧ p.2 < 2 ^ 64 := by
    rw [List.forall_mem_map]
    exact fun w _ => ⟨w.1.toNat_lt, w.2.toNat_lt⟩
  have hvalue := Limbs.value_borrow hbelow
  have hone := @Limbs.borrow_le_one (2 ^ 64) ((a.zip b).map fun w => (w.1.toNat, w.2.toNat))
  have hfst : ((a.zip b).map fun w => (w.1.toNat, w.2.toNat)).map Prod.fst = a.map UInt64.toNat := by
    rw [List.map_map, ← List.map_fst_zip (ha.trans hb.symm).le, List.map_map, List.map_fst_zip (ha.trans hb.symm).le]
    rfl
  have hsnd : ((a.zip b).map fun w => (w.1.toNat, w.2.toNat)).map Prod.snd = b.map UInt64.toNat := by
    rw [List.map_map, ← List.map_snd_zip (hb.trans ha.symm).le, List.map_map, List.map_snd_zip (hb.trans ha.symm).le]
    rfl
  rw [← hdigits, hfst, hsnd, List.length_map, List.length_zip, ha, hb, Nat.min_self, ← pow_mul] at hvalue
  replace hvalue : num (subRaw a b).1 + num b = num a +
      (Limbs.borrow (2 ^ 64) ((a.zip b).map fun w => (w.1.toNat, w.2.toNat))).2 * 2 ^ 256 := hvalue
  have hnout := num_lt (subRaw a b).1
  have hnb := num_lt b
  have hna := num_lt a
  rw [length_subRaw ha hb, ← pow_mul] at hnout
  rw [hb, ← pow_mul] at hnb
  rw [ha, ← pow_mul] at hna
  rw [Field.subRaw, Prod.mk.injEq]
  generalize (Limbs.borrow (2 ^ 64) ((a.zip b).map fun w => (w.1.toNat, w.2.toNat))).2 = top at hvalue hone hborrow
  constructor
  · apply BitVec.eq_of_toNat_eq
    rw [toNat_toU256 (length_subRaw ha hb), BitVec.toNat_sub, toNat_toU256 ha, toNat_toU256 hb]
    omega
  · have hless : toU256 a < toU256 b ↔ num a < num b := by rw [BitVec.lt_def, toNat_toU256 ha, toNat_toU256 hb]
    change (((a.zip b).foldr subStep ([], 0)).2 != 0) = _
    rw [hborrow, decide_eq_decide.mpr hless]
    by_cases hlt : num a < num b
    · rw [decide_eq_true hlt]
      exact bne_iff_ne.mpr (by omega)
    · have hzero : top = 0 := by omega
      rw [decide_eq_false hlt, hzero]
      rfl

theorem toU256_pLimbs : toU256 pLimbs = Field.modulus := by decide

theorem length_pLimbs : pLimbs.length = 4 := rfl

private theorem toU256_addP (ha : a.length = 4) : toU256 (addRaw a pLimbs).1 = (Field.addRaw (toU256 a) Field.modulus).1 := by
  rw [← toU256_pLimbs, ← addRaw_eq ha length_pLimbs]

theorem toU256_subP (ha : a.length = 4) : toU256 (subRaw a pLimbs).1 = (Field.subRaw (toU256 a) Field.modulus).1 := by
  rw [← toU256_pLimbs, ← subRaw_eq ha length_pLimbs]

theorem length_reduce (ha : a.length = 4) : (reduce a).length = 4 := by
  unfold reduce
  split
  · exact length_subRaw ha length_pLimbs
  · exact ha

theorem toU256_reduce (ha : a.length = 4) : toU256 (reduce a) = Field.reduce (toU256 a) := by
  have hle : gte a pLimbs = true ↔ Field.modulus ≤ toU256 a := by
    rw [gte_eq (ha.trans length_pLimbs.symm), decide_eq_true_iff, BitVec.le_def, ← toU256_pLimbs,
      toNat_toU256 length_pLimbs, toNat_toU256 ha]
  unfold reduce Field.reduce
  by_cases h : Field.modulus ≤ toU256 a
  · rw [if_pos (hle.mpr h), if_pos h, toU256_subP ha]
  · rw [if_neg fun hg => h (hle.mp hg), if_neg h]

end Raw

/-! ### Sums and differences of byte arrays -/

section Sums

private theorem fromU32_eq (v : UInt32) : fromU32 v = toBigEndian (Field.fromU32 v) := by
  have hlt : v.toNat < 256 ^ 4 := v.toNat_lt
  have hvalue : ofLittleEndian (toLittleEndian 4 v.toNat ++ List.replicate 28 0) = v.toNat := by
    rw [ofLittleEndian_append_zeros, ofLittleEndian_toLittleEndian_of_lt hlt]
  have hbytes := toLittleEndian_ofLittleEndian (toLittleEndian 4 v.toNat ++ List.replicate 28 0)
  rw [hvalue, List.length_append, length_toLittleEndian, List.length_replicate] at hbytes
  rw [toBigEndian, Field.toNat_fromU32, hbytes, List.reverse_append, List.reverse_replicate, fromU32]

theorem add_eq (a b : U256) : add (toBigEndian a) (toBigEndian b) = toBigEndian (Field.add a b) := by
  have hraw := addRaw_eq (length_toLimbs (toBigEndian a)) (length_toLimbs (toBigEndian b))
  have hlen := length_addRaw (length_toLimbs (toBigEndian a)) (length_toLimbs (toBigEndian b))
  rw [toU256_toLimbs, toU256_toLimbs] at hraw
  unfold add Field.add
  rw [← hraw]
  dsimp only
  split
  · rw [fromLimbs_eq (length_subRaw hlen length_pLimbs), toU256_subP hlen]
  · rw [fromLimbs_eq (length_reduce hlen), toU256_reduce hlen]

theorem sub_eq (a b : U256) : sub (toBigEndian a) (toBigEndian b) = toBigEndian (Field.sub a b) := by
  have hraw := subRaw_eq (length_toLimbs (toBigEndian a)) (length_toLimbs (toBigEndian b))
  have hlen := length_subRaw (length_toLimbs (toBigEndian a)) (length_toLimbs (toBigEndian b))
  rw [toU256_toLimbs, toU256_toLimbs] at hraw
  unfold sub Field.sub
  rw [← hraw]
  dsimp only
  split
  · rw [fromLimbs_eq (length_addRaw hlen length_pLimbs), toU256_addP hlen]
  · rw [fromLimbs_eq hlen]

private theorem reduceBytes_eq (a : U256) : reduceBytes (toBigEndian a) = toBigEndian (Field.reduceBytes a) := by
  rw [reduceBytes, fromLimbs_eq (length_reduce (length_toLimbs _)), toU256_reduce (length_toLimbs _), toU256_toLimbs,
    Field.reduceBytes]

end Sums

/-! ### The columns of a product -/

section Columns

variable {prod : List Nat} {la lb : List UInt64}

/-- Eight columns, none above a bound. -/
structure Columns8 (M : Nat) (prod : List Nat) : Prop where
  length : prod.length = 8
  le : ∀ (j c : Nat), prod[j]? = some c → c ≤ M

/-- What adding into a column does. -/
structure Accumulated (prod : List Nat) (k v : Nat) (prod' : List Nat) : Prop where
  length : prod'.length = 8
  self : ∃ x, prod[k]? = some x ∧ prod'[k]? = some (x + v)
  other : ∀ j, j ≠ k → prod'[j]? = prod[j]?
  value : Limbs.value (2 ^ 64) prod' = Limbs.value (2 ^ 64) prod + v * (2 ^ 64) ^ (7 - k)

theorem Columns8.accumulate {M k v : Nat} (h : Columns8 M prod) (hk : k < 8) (hroom : M + v < 2 ^ 128) :
    ∃ prod', accumulate prod k v = some prod' ∧ Accumulated prod k v prod' := by
  have hlt : k < prod.length := h.length ▸ hk
  have hx : prod[k]? = some prod[k] := List.getElem?_eq_getElem hlt
  have hsum : Wide.checkedAdd prod[k] v = some (prod[k] + v) :=
    if_pos ((Nat.add_le_add_right (h.le k _ hx) v).trans_lt hroom)
  refine ⟨prod.set k (prod[k] + v), ?_, ?_, ⟨prod[k], hx, List.getElem?_set_self hlt⟩, ?_, ?_⟩
  · rw [LimbField.accumulate, hx]
    change (Wide.checkedAdd prod[k] v >>= fun sum => pure (prod.set k sum)) = _
    rw [hsum]
    rfl
  · rw [List.length_set, h.length]
  · exact fun j hj => List.getElem?_set_ne (Ne.symm hj)
  · rw [Limbs.value_set_add hlt, h.length]

def wordAt (l : List UInt64) (i : Nat) : Nat := (l.getD i 0).toNat

theorem getElem?_eq_some_wordAt {i : Nat} (hlen : la.length = 4) (hi : i < 4) :
    ∃ x, la[i]? = some x ∧ x.toNat = wordAt la i := by
  have hlt : i < la.length := hlen ▸ hi
  refine ⟨la[i], List.getElem?_eq_getElem hlt, ?_⟩
  rw [wordAt, List.getD_eq_getElem _ _ hlt]

/-- **One product of words** adds its value at its place. The two columns it goes into are different, so no column grows by more than a word. -/
theorem Columns8.mulStep {M i j : Nat} (h : Columns8 M prod) (ha : la.length = 4) (hb : lb.length = 4) (hi : i < 4)
    (hj : j < 4) (hroom : M + 2 ^ 65 < 2 ^ 128) :
    ∃ prod', mulStep la lb prod (i, j) = some prod' ∧ Columns8 (M + 2 ^ 64) prod' ∧
      Limbs.value (2 ^ 64) prod' =
        Limbs.value (2 ^ 64) prod + wordAt la i * wordAt lb j * (2 ^ 64) ^ (6 - (i + j)) := by
  obtain ⟨x, hx, hxw⟩ := getElem?_eq_some_wordAt ha hi
  obtain ⟨y, hy, hyw⟩ := getElem?_eq_some_wordAt hb hj
  have hmul := Wide.checkedMul_of_lt x.toNat_lt y.toNat_lt
  have hplt : x.toNat * y.toNat < 2 ^ 64 * 2 ^ 64 := Nat.mul_lt_mul'' x.toNat_lt y.toNat_lt
  rw [← hxw, ← hyw]
  generalize x.toNat * y.toNat = p at hmul hplt
  obtain ⟨prod₁, hstep₁, h₁⟩ := h.accumulate (k := i + j) (v := p / 2 ^ 64) (by omega) (by omega)
  obtain ⟨x₁, hold₁, hnew₁⟩ := h₁.self
  have hle₁ := h.le _ _ hold₁
  have hcolumns₁ : Columns8 (M + 2 ^ 64) prod₁ := by
    refine ⟨h₁.length, fun l c hc => ?_⟩
    by_cases hl : l = i + j
    · subst hl
      cases hnew₁.symm.trans hc
      omega
    · rw [h₁.other l hl] at hc
      exact (h.le l c hc).trans (Nat.le_add_right _ _)
  obtain ⟨prod₂, hstep₂, h₂⟩ := hcolumns₁.accumulate (k := i + j + 1) (v := p % 2 ^ 64) (by omega) (by omega)
  obtain ⟨x₂, hold₂, hnew₂⟩ := h₂.self
  have hle₂ := h.le _ _ ((h₁.other _ (by omega)).symm.trans hold₂)
  refine ⟨prod₂, ?_, ⟨h₂.length, fun l c hc => ?_⟩, ?_⟩
  · have hindex : i + j + 1 < 8 := by omega
    simp only [LimbField.mulStep, hx, hy, hmul, hstep₁, Option.bind_eq_bind, Option.bind_some, if_pos hindex, hstep₂]
  · by_cases hl : l = i + j + 1
    · subst hl
      cases hnew₂.symm.trans hc
      omega
    · rw [h₂.other l hl] at hc
      exact hcolumns₁.le l c hc
  · have hexp : 7 - (i + j) = 6 - (i + j) + 1 := by omega
    have hexp' : 7 - (i + j + 1) = 6 - (i + j) := by omega
    have hsplit := Nat.div_add_mod p (2 ^ 64)
    rw [h₂.value, h₁.value, hexp, hexp', pow_succ]
    calc Limbs.value (2 ^ 64) prod + p / 2 ^ 64 * ((2 ^ 64) ^ (6 - (i + j)) * 2 ^ 64) + p % 2 ^ 64 * (2 ^ 64) ^ (6 - (i + j))
        = Limbs.value (2 ^ 64) prod + (2 ^ 64 * (p / 2 ^ 64) + p % 2 ^ 64) * (2 ^ 64) ^ (6 - (i + j)) := by ring
      _ = Limbs.value (2 ^ 64) prod + p * (2 ^ 64) ^ (6 - (i + j)) := by rw [hsplit]

/-- **The nested loops** add up all products of words. -/
theorem Columns8.mulSteps {M : Nat} {ps : List (Nat × Nat)} (h : Columns8 M prod) (ha : la.length = 4)
    (hb : lb.length = 4) (hps : ∀ ij ∈ ps, ij.1 < 4 ∧ ij.2 < 4) (hroom : M + (ps.length + 1) * 2 ^ 64 < 2 ^ 128) :
    ∃ prod', ps.foldlM (LimbField.mulStep la lb) prod = some prod' ∧ Columns8 (M + ps.length * 2 ^ 64) prod' ∧
      Limbs.value (2 ^ 64) prod' = Limbs.value (2 ^ 64) prod +
        (ps.map fun ij => wordAt la ij.1 * wordAt lb ij.2 * (2 ^ 64) ^ (6 - (ij.1 + ij.2))).sum := by
  induction ps generalizing prod M with
  | nil => exact ⟨prod, rfl, by simpa using h, by simp⟩
  | cons ij ps ih =>
      rw [List.forall_mem_cons] at hps
      rw [List.length_cons] at hroom
      obtain ⟨prod₁, hstep, h₁, hvalue₁⟩ := h.mulStep ha hb hps.1.1 hps.1.2 (by omega)
      obtain ⟨prod₂, hrest, h₂, hvalue₂⟩ := ih h₁ hps.2 (by omega)
      refine ⟨prod₂, ?_, ?_, ?_⟩
      · rw [List.foldlM_cons, hstep]
        exact hrest
      · have hbound : M + 2 ^ 64 + ps.length * 2 ^ 64 = M + (ij :: ps).length * 2 ^ 64 := by
          rw [List.length_cons]
          ring
        exact hbound ▸ h₂
      · rw [hvalue₂, hvalue₁, List.map_cons, List.sum_cons, Nat.add_assoc]

/-! ### Carrying through the columns -/

/-- The columns from a position on are words, and the number they make up is fixed. -/
structure Propagated (total m : Nat) (prod : List Nat) : Prop where
  columns : Columns8 (2 ^ 70 + (8 - m) * 2 ^ 64) prod
  words : ∀ (j c : Nat), prod[j]? = some c → m ≤ j → c < 2 ^ 64
  value : Limbs.value (2 ^ 64) prod = total

theorem Propagated.step {total i : Nat} (h : Propagated total (i + 1) prod) (hpos : 0 < i) (hi : i < 8) :
    ∃ prod', propagateStep prod i = some prod' ∧ Propagated total i prod' := by
  have hlt : i < prod.length := h.columns.length ▸ hi
  have hx : prod[i]? = some prod[i] := List.getElem?_eq_getElem hlt
  generalize prod[i] = x at hx
  have hxle := h.columns.le i x hx
  have hbound : 2 ^ 70 + (8 - (i + 1)) * 2 ^ 64 ≤ 2 ^ 71 := by omega
  have hgrow : 2 ^ 70 + (8 - (i + 1)) * 2 ^ 64 + 2 ^ 64 = 2 ^ 70 + (8 - i) * 2 ^ 64 := by
    have hsucc : 8 - i = 8 - (i + 1) + 1 := by omega
    rw [hsucc, Nat.succ_mul, Nat.add_assoc]
  have hcarry : x / 2 ^ 64 ≤ 2 ^ 64 := by omega
  obtain ⟨prod₁, hstep, h₁⟩ := h.columns.accumulate (k := i - 1) (v := x / 2 ^ 64) (by omega) (by omega)
  obtain ⟨x₁, hold₁, hnew₁⟩ := h₁.self
  have hle₁ := h.columns.le _ _ hold₁
  have hx₁ : prod₁[i]? = some x := (h₁.other i (by omega)).trans hx
  have hlt₁ : i < prod₁.length := h₁.length ▸ hi
  refine ⟨prod₁.set i (x % 2 ^ 64), ?_, ⟨?_, fun j c hc => ?_⟩, fun j c hc hj => ?_, ?_⟩
  · simp only [propagateStep, hx, hstep, hx₁, Option.bind_eq_bind, Option.bind_some]
    rfl
  · rw [List.length_set, h₁.length]
  · rw [← hgrow]
    by_cases hji : j = i
    · subst hji
      rw [List.getElem?_set_self hlt₁] at hc
      cases hc
      exact (Nat.mod_lt x (by norm_num)).le.trans (Nat.le_add_left _ _)
    · rw [List.getElem?_set_ne (Ne.symm hji)] at hc
      by_cases hji' : j = i - 1
      · subst hji'
        cases hnew₁.symm.trans hc
        exact Nat.add_le_add hle₁ hcarry
      · rw [h₁.other j hji'] at hc
        exact (h.columns.le j c hc).trans (Nat.le_add_right _ _)
  · by_cases hji : j = i
    · subst hji
      rw [List.getElem?_set_self hlt₁] at hc
      cases hc
      exact Nat.mod_lt _ (by norm_num)
    · rw [List.getElem?_set_ne (Ne.symm hji), h₁.other j (by omega)] at hc
      exact h.words j c hc (by omega)
  · have hset := Limbs.value_set (B := 2 ^ 64) (e := x % 2 ^ 64) hlt₁
    have hget : prod₁[i] = x := Option.some.inj ((List.getElem?_eq_getElem hlt₁).symm.trans hx₁)
    have hexp : 7 - (i - 1) = 7 - i + 1 := by omega
    have hpow : (2 ^ 64) ^ (7 - i + 1) = (2 ^ 64) ^ (7 - i) * 2 ^ 64 := pow_succ _ _
    have hlast : 8 - 1 - i = 7 - i := by omega
    have hsplit := Nat.div_add_mod x (2 ^ 64)
    rw [hget, h₁.length, h₁.value, h.value, hexp, hpow, hlast] at hset
    have hmoved : x * (2 ^ 64) ^ (7 - i) =
        x / 2 ^ 64 * ((2 ^ 64) ^ (7 - i) * 2 ^ 64) + x % 2 ^ 64 * (2 ^ 64) ^ (7 - i) := by
      calc x * (2 ^ 64) ^ (7 - i) = (2 ^ 64 * (x / 2 ^ 64) + x % 2 ^ 64) * (2 ^ 64) ^ (7 - i) := by rw [hsplit]
        _ = _ := by ring
    rw [hmoved] at hset
    omega

/-- **The carries** leave words in all columns but the first. -/
theorem Propagated.steps {total n : Nat} (h : Propagated total (n + 1) prod) (hn : n < 8) :
    ∃ prod', (List.range' 1 n).reverse.foldlM propagateStep prod = some prod' ∧ Propagated total 1 prod' := by
  induction n generalizing prod with
  | zero => exact ⟨prod, rfl, h⟩
  | succ n ih =>
      obtain ⟨prod₁, hstep, h₁⟩ := h.step (Nat.succ_pos n) hn
      obtain ⟨prod₂, hrest, h₂⟩ := ih h₁ (by omega)
      refine ⟨prod₂, ?_, h₂⟩
      rw [List.range'_concat, List.reverse_append, List.reverse_singleton, List.singleton_append, Nat.one_mul,
        Nat.add_comm 1 n, List.foldlM_cons, hstep]
      exact hrest

theorem Propagated.lt {total : Nat} (h : Propagated total 1 prod) (htotal : total < (2 ^ 64) ^ 8) :
    ∀ c ∈ prod, c < 2 ^ 64 := by
  have hlen := h.columns.length
  have hvalue := h.value
  have hwords := h.words
  cases prod with
  | nil => simp
  | cons c prod =>
      rw [List.length_cons, Nat.succ.injEq] at hlen
      rw [Limbs.value_cons, hlen] at hvalue
      have htop : c * (2 ^ 64) ^ 7 < 2 ^ 64 * (2 ^ 64) ^ 7 := by omega
      refine List.forall_mem_cons.mpr ⟨Nat.lt_of_mul_lt_mul_right htop, fun d hd => ?_⟩
      obtain ⟨j, hj⟩ := List.mem_iff_getElem?.mp hd
      exact hwords (j + 1) d (by rw [List.getElem?_cons_succ, hj]) (Nat.le_add_left 1 j)

private theorem map_toNat_ofNat (h : ∀ c ∈ prod, c < 2 ^ 64) : (prod.map UInt64.ofNat).map UInt64.toNat = prod := by
  rw [List.map_map]
  refine (List.map_congr_left fun c hc => ?_).trans (List.map_id prod)
  rw [Function.comp_apply, UInt64.toNat_ofNat', Nat.mod_eq_of_lt (h c hc), id]

theorem num_eq_wordAt (h : la.length = 4) :
    num la = wordAt la 0 * (2 ^ 64) ^ 3 + (wordAt la 1 * (2 ^ 64) ^ 2 + (wordAt la 2 * (2 ^ 64) ^ 1 + wordAt la 3)) := by
  obtain ⟨w₀, w₁, w₂, w₃, rfl⟩ := List.length_eq_four.mp h
  rw [num, List.map_cons, List.map_cons, List.map_cons, List.map_cons, List.map_nil, Limbs.value_cons, Limbs.value_cons,
    Limbs.value_cons, Limbs.value_singleton]
  rfl

/-- The loops visit every pair of words once. -/
theorem sum_mulIndices (B : Nat) (x y : Nat → Nat) :
    (mulIndices.map fun ij => x ij.1 * y ij.2 * B ^ (6 - (ij.1 + ij.2))).sum =
      (x 0 * B ^ 3 + (x 1 * B ^ 2 + (x 2 * B ^ 1 + x 3))) * (y 0 * B ^ 3 + (y 1 * B ^ 2 + (y 2 * B ^ 1 + y 3))) := by
  have hindices : mulIndices = [(3, 3), (3, 2), (3, 1), (3, 0), (2, 3), (2, 2), (2, 1), (2, 0), (1, 3), (1, 2), (1, 1),
    (1, 0), (0, 3), (0, 2), (0, 1), (0, 0)] := rfl
  rw [hindices]
  simp only [List.map_cons, List.map_nil, List.sum_cons, List.sum_nil]
  ring

/-- **The eight words of a product** make up the product. -/
theorem product_eq (ha : la.length = 4) (hb : lb.length = 4) :
    ∃ ws, product la lb = some ws ∧ ws.length = 8 ∧ num ws = num la * num lb := by
  have hempty : Columns8 0 (List.replicate 8 0) := by
    refine ⟨rfl, fun j c hc => ?_⟩
    rw [List.getElem?_replicate] at hc
    split at hc <;> simp_all
  have hindices : ∀ ij ∈ mulIndices, ij.1 < 4 ∧ ij.2 < 4 := by decide
  have hcount : mulIndices.length = 16 := rfl
  obtain ⟨prod₁, hsum, hcolumns, hvalue⟩ := hempty.mulSteps ha hb hindices (by rw [hcount]; norm_num)
  rw [hcount] at hcolumns
  have htotal : Limbs.value (2 ^ 64) prod₁ = num la * num lb := by
    have hzero : Limbs.value (2 ^ 64) (List.replicate 8 0) = 0 := by
      rw [Limbs.value, List.reverse_replicate, Nat.ofDigits_replicate_zero]
    rw [hvalue, hzero, Nat.zero_add, sum_mulIndices, num_eq_wordAt ha, num_eq_wordAt hb]
  have hstart : Propagated (num la * num lb) (7 + 1) prod₁ := by
    refine ⟨⟨hcolumns.length, fun j c hc => (hcolumns.le j c hc).trans (by norm_num)⟩, fun j c hc hj => ?_, htotal⟩
    rw [List.getElem?_eq_none (by rw [hcolumns.length]; omega)] at hc
    cases hc
  obtain ⟨prod₂, hcarries, hdone⟩ := hstart.steps (by decide)
  have hla := num_lt la
  have hlb := num_lt lb
  rw [ha] at hla
  rw [hb] at hlb
  have hlt := hdone.lt ((Nat.mul_lt_mul'' hla hlb).trans_eq (by ring))
  refine ⟨prod₂.map UInt64.ofNat, ?_, ?_, ?_⟩
  · simp only [product, hsum, hcarries, Option.bind_eq_bind, Option.bind_some]
    rfl
  · rw [List.length_map, hdone.columns.length]
  · rw [num, map_toNat_ofNat hlt, hdone.value]

end Columns

/-! ### Folding a product -/

section Folding

variable {high low words : List UInt64}

private theorem correctionStep_foldrM (high : List UInt64) : ∃ words carry,
    high.foldrM correctionStep ([], 0) = some (words, carry) ∧ carry < 189 ∧
      words.map UInt64.toNat = (Limbs.carry (2 ^ 64) ((high.map UInt64.toNat).map (· * 189)) 0).1 ∧
      carry = (Limbs.carry (2 ^ 64) ((high.map UInt64.toNat).map (· * 189)) 0).2 := by
  induction high with
  | nil => exact ⟨[], 0, rfl, by decide, rfl, rfl⟩
  | cons x high ih =>
      obtain ⟨words, carry, hrun, hlt, hwords, hcarry⟩ := ih
      have hx := x.toNat_lt
      have hmul := Wide.checkedMul_of_lt hx (show 189 < 2 ^ 64 by norm_num)
      have hadd : Wide.checkedAdd (x.toNat * 189) carry = some (x.toNat * 189 + carry) := if_pos (by omega)
      refine ⟨UInt64.ofNat (x.toNat * 189 + carry) :: words, (x.toNat * 189 + carry) / 2 ^ 64, ?_, by omega, ?_, ?_⟩
      · simp only [List.foldrM_cons, hrun, correctionStep, hmul, hadd, Option.bind_eq_bind, Option.bind_some]
        rfl
      · rw [List.map_cons, List.map_cons, List.map_cons, Limbs.carry_cons, ← hwords, ← hcarry, UInt64.toNat_ofNat']
      · rw [List.map_cons, List.map_cons, Limbs.carry_cons, ← hcarry]

/-- **The correction** is the upper half times 189. -/
theorem correction_eq (hhigh : high.length = 4) : ∃ top words,
    correction high = some (top :: words) ∧ top.toNat < 189 ∧ words.length = 4 ∧
      top.toNat * 2 ^ 256 + num words = num high * 189 := by
  obtain ⟨words, carry, hrun, hlt, hwords, hcarry⟩ := correctionStep_foldrM high
  have hvalue := @Limbs.value_carry (2 ^ 64) ((high.map UInt64.toNat).map (· * 189)) 0
  have hlen := congrArg List.length hwords
  rw [List.length_map, Limbs.length_carry, List.length_map, List.length_map, hhigh] at hlen
  rw [← hwords, ← hcarry, List.length_map, List.length_map, hhigh, Limbs.value_map_mul, ← pow_mul] at hvalue
  have htop : (UInt64.ofNat carry).toNat = carry := by
    rw [UInt64.toNat_ofNat', Nat.mod_eq_of_lt (by omega)]
  refine ⟨UInt64.ofNat carry, words, ?_, htop.trans_lt hlt, hlen, ?_⟩
  · simp only [correction, hrun, Option.bind_eq_bind, Option.bind_some]
    rfl
  · rw [htop, num, num, Nat.add_comm]
    exact hvalue

private theorem resultStep_foldrM (pairs : List (UInt64 × UInt64)) : ∃ words carry,
    pairs.foldrM resultStep ([], 0) = some (words, carry) ∧ carry ≤ 1 ∧
      words.map UInt64.toNat = (Limbs.carry (2 ^ 64) (pairs.map fun w => w.1.toNat + w.2.toNat) 0).1 ∧
      carry = (Limbs.carry (2 ^ 64) (pairs.map fun w => w.1.toNat + w.2.toNat) 0).2 := by
  induction pairs with
  | nil => exact ⟨[], 0, rfl, by decide, rfl, rfl⟩
  | cons w pairs ih =>
      obtain ⟨words, carry, hrun, hone, hwords, hcarry⟩ := ih
      have h1 := w.1.toNat_lt
      have h2 := w.2.toNat_lt
      have hboth : Wide.checkedAdd w.1.toNat w.2.toNat = some (w.1.toNat + w.2.toNat) := if_pos (by omega)
      have hadd : Wide.checkedAdd (w.1.toNat + w.2.toNat) carry = some (w.1.toNat + w.2.toNat + carry) := if_pos (by omega)
      refine ⟨UInt64.ofNat (w.1.toNat + w.2.toNat + carry) :: words, (w.1.toNat + w.2.toNat + carry) / 2 ^ 64, ?_,
        by omega, ?_, ?_⟩
      · simp only [List.foldrM_cons, hrun, resultStep, hboth, hadd, Option.bind_eq_bind, Option.bind_some]
        rfl
      · rw [List.map_cons, List.map_cons, Limbs.carry_cons, ← hwords, ← hcarry, UInt64.toNat_ofNat']
      · rw [List.map_cons, Limbs.carry_cons, ← hcarry]

private theorem result_eq (hlow : low.length = 4) (hwords : words.length = 4) : ∃ result carry,
    (low.zip words).foldrM resultStep ([], 0) = some (result, carry) ∧ carry ≤ 1 ∧ result.length = 4 ∧
      carry * 2 ^ 256 + num result = num low + num words := by
  obtain ⟨result, carry, hrun, hone, hresult, hcarry⟩ := resultStep_foldrM (low.zip words)
  have hcolumns : (columns low words).length = 4 := by simp [columns, hlow, hwords]
  have hvalue := @Limbs.value_carry (2 ^ 64) (columns low words) 0
  have hlen := congrArg List.length hresult
  rw [← columns, List.length_map, Limbs.length_carry, hcolumns] at hlen
  rw [hcolumns, columns, ← hresult, ← hcarry, ← columns, value_columns (hlow.trans hwords.symm), ← pow_mul] at hvalue
  refine ⟨result, carry, hrun, hone, hlen, ?_⟩
  rw [Nat.add_comm]
  exact hvalue

/-- **What stands above 256 bits** is folded as on whole numbers. -/
theorem foldOverflow_eq {top : UInt64} (htop : top.toNat ≤ 189) (hwords : words.length = 4) :
    ∃ folded, foldOverflow top words = some folded ∧ folded.length = 4 ∧
      toU256 folded = Field.foldOverflow (top.toNat * 2 ^ 256 + num words) := by
  have hlt := num_lt words
  rw [hwords, ← pow_mul] at hlt
  have hdiv : (top.toNat * 2 ^ 256 + num words) / 2 ^ 256 = top.toNat := by omega
  have hlow : BitVec.ofNat 256 (top.toNat * 2 ^ 256 + num words) = toU256 words := by
    apply BitVec.eq_of_toNat_eq
    rw [toNat_toU256 hwords, BitVec.toNat_ofNat]
    omega
  unfold foldOverflow Field.foldOverflow
  dsimp only
  rw [hdiv, hlow]
  by_cases hpos : top.toNat > 0
  · have hextra := Wide.checkedMul_of_lt top.toNat_lt (show 189 < 2 ^ 64 by norm_num)
    have hsmall : top.toNat * 189 < 2 ^ 64 := by omega
    have hlow : (UInt64.ofNat (top.toNat * 189)).toNat = top.toNat * 189 := by
      rw [UInt64.toNat_ofNat', Nat.mod_eq_of_lt hsmall]
    have hnum : toU256 [0, 0, UInt64.ofNat (top.toNat * 189 / 2 ^ 64), UInt64.ofNat (top.toNat * 189)] =
        BitVec.ofNat 256 (top.toNat * 189) := by
      rw [Nat.div_eq_of_lt hsmall, toU256, num]
      simp only [List.map_cons, List.map_nil, hlow, Limbs.value_cons, Limbs.value_nil, UInt64.toNat_zero, UInt64.reduceOfNat,
        Nat.zero_mul, Nat.zero_add, Nat.add_zero, List.length_nil, Nat.pow_zero, Nat.mul_one]
    have hfour : [0, 0, UInt64.ofNat (top.toNat * 189 / 2 ^ 64), UInt64.ofNat (top.toNat * 189)].length = 4 := rfl
    have hraw := addRaw_eq hwords hfour
    have hlen := length_addRaw hwords hfour
    rw [hnum] at hraw
    rw [if_pos hpos, if_pos hpos, hextra, ← hraw]
    dsimp only
    refine ⟨_, rfl, ?_, ?_⟩
    · split
      · exact length_subRaw hlen length_pLimbs
      · exact hlen
    · split
      · exact toU256_subP hlen
      · rfl
  · rw [if_neg hpos, if_neg hpos]
    exact ⟨words, rfl, hwords, rfl⟩

/-- **Multiplication** never overflows a column and is the one on whole numbers. -/
theorem mul_eq (a b : U256) : mul (toBigEndian a) (toBigEndian b) = some (toBigEndian (Field.mul a b)) := by
  obtain ⟨ws, hproduct, hlen, hnum⟩ := product_eq (length_toLimbs (toBigEndian a)) (length_toLimbs (toBigEndian b))
  rw [← toNat_toU256 (length_toLimbs _), ← toNat_toU256 (length_toLimbs _), toU256_toLimbs, toU256_toLimbs] at hnum
  have hhigh : (ws.take 4).length = 4 := by simp [hlen]
  have hlow : (ws.drop 4).length = 4 := by simp [hlen]
  obtain ⟨top, words, hcorrection, htop, hwords, hscaled⟩ := correction_eq hhigh
  obtain ⟨result, carry, hresult, hone, hrlen, hsum⟩ := result_eq hlow hwords
  have hadd : Wide.checkedAdd top.toNat carry = some (top.toNat + carry) := if_pos (by omega)
  have htop' : (UInt64.ofNat (top.toNat + carry)).toNat = top.toNat + carry := by
    rw [UInt64.toNat_ofNat', Nat.mod_eq_of_lt (by omega)]
  obtain ⟨folded, hfold, hflen, hfolded⟩ := @foldOverflow_eq _ (UInt64.ofNat (top.toNat + carry)) (by omega) hrlen
  have hsplit : num ws = num (ws.take 4) * 2 ^ 256 + num (ws.drop 4) := by
    conv_lhs => rw [← List.take_append_drop 4 ws]
    rw [num_append, hlow, ← pow_mul]
  have hlt := num_lt (ws.drop 4)
  rw [hlow, ← pow_mul] at hlt
  have hupper : a.toNat * b.toNat / 2 ^ 256 = num (ws.take 4) := by omega
  have hlower : a.toNat * b.toNat % 2 ^ 256 = num (ws.drop 4) := by omega
  have hvalue : (UInt64.ofNat (top.toNat + carry)).toNat * 2 ^ 256 + num result =
      num (ws.drop 4) + 189 * num (ws.take 4) := by
    rw [htop', Nat.add_mul, Nat.add_assoc, hsum, Nat.add_left_comm, hscaled, Nat.mul_comm 189]
  rw [hvalue] at hfolded
  unfold mul Field.mul
  rw [hproduct]
  simp only [Option.bind_eq_bind, Option.bind_some, hcorrection, List.tail_cons, hresult, List.headD_cons, hadd, hfold]
  rw [fromLimbs_eq (length_reduce hflen), toU256_reduce hflen, hfolded, hupper, hlower]
  rfl

end Folding

/-! ### Powers -/

section Powers

theorem foldlM_eq_some {σ τ ι : Type} {f : τ → ι → Option τ} {g : σ → ι → σ} (r : σ → τ) {l : List ι}
    (h : ∀ s, ∀ i ∈ l, f (r s) i = some (r (g s i))) (s : σ) : l.foldlM f (r s) = some (r (l.foldl g s)) := by
  induction l generalizing s with
  | nil => rfl
  | cons i l ih =>
      rw [List.foldlM_cons, h s i (List.mem_cons_self ..), List.foldl_cons]
      exact ih (fun s j hj => h s j (List.mem_cons_of_mem i hj)) (g s i)

private theorem getElem?_toLittleEndian {width n k : Nat} (hk : k < width) :
    (toLittleEndian width n)[k]? = some (UInt8.ofNat (n / 256 ^ k)) := by
  induction width generalizing n k with
  | zero => cases hk
  | succ width ih =>
      cases k with
      | zero => simp [toLittleEndian]
      | succ k =>
          rw [toLittleEndian, List.getElem?_cons_succ, ih (Nat.lt_of_succ_lt_succ hk), pow_succ', Nat.div_div_eq_div_mul]

/-- The bytes of the exponent are counted from the last one. -/
theorem getElem?_toBigEndian (e : U256) {k : Nat} (hk : k < 32) :
    (toBigEndian e)[31 - k]? = some (UInt8.ofNat (e.toNat / 256 ^ k)) := by
  have hindex : 32 - 1 - (31 - k) = k := by omega
  rw [toBigEndian, List.getElem?_reverse (by rw [length_toLittleEndian]; omega), length_toLittleEndian, hindex,
    getElem?_toLittleEndian hk]

theorem bit_eq (e : U256) {k bit : Nat} (hbit : bit < 8) :
    (UInt8.ofNat (e.toNat / 256 ^ k)).toNat >>> bit &&& 1 = 1 ↔ e.getLsbD (8 * k + bit) = true := by
  have hpow : 256 ^ k = 2 ^ (8 * k) := by
    rw [pow_mul]
    rfl
  have htest : ∀ n : Nat, n >>> bit &&& 1 = 1 ↔ n.testBit bit = true := fun n => by
    rw [Nat.and_one_is_mod, Nat.shiftRight_eq_div_pow, Nat.testBit_eq_decide_div_mod_eq, decide_eq_true_eq]
  rw [htest, UInt8.toNat_ofNat', hpow, Nat.testBit_mod_two_pow, Nat.testBit_div_two_pow, decide_eq_true hbit, Bool.true_and,
    Nat.add_comm bit]
  rfl

private theorem range_256 : List.range 256 = (List.range 32).flatMap fun k => (List.range 8).map fun bit => 8 * k + bit := by
  decide +kernel

theorem pow_eq (base e : U256) : pow (toBigEndian base) (toBigEndian e) = some (toBigEndian (Field.pow base e)) := by
  let r : U256 × U256 → Bytes × Bytes := fun state => (toBigEndian state.1, toBigEndian state.2)
  let g : U256 × U256 → Nat → U256 × U256 := fun state i =>
    (if e.getLsbD i then Field.mul state.1 state.2 else state.1, Field.mul state.2 state.2)
  have hbits : ∀ (state : U256 × U256) (k : Nat), k < 32 →
      (List.range 8).foldlM (powStep (UInt8.ofNat (e.toNat / 256 ^ k))) (r state) =
        some (r ((List.range 8).foldl (fun s bit => g s (8 * k + bit)) state)) := by
    intro state k _
    refine foldlM_eq_some r (fun s bit hbit => ?_) state
    rw [List.mem_range] at hbit
    by_cases hset : e.getLsbD (8 * k + bit) = true
    · simp only [powStep, r, g, if_pos ((bit_eq e hbit).mpr hset), if_pos hset, mul_eq]
      rfl
    · simp only [powStep, r, g, if_neg (mt (bit_eq e hbit).mp hset), if_neg hset, mul_eq]
      rfl
  have hbytes : (List.range 32).reverse.foldlM (fun state i => do
      let expByte ← (toBigEndian e)[i]?
      (List.range 8).foldlM (powStep expByte) state) (r (Field.fromU32 1, base)) =
        some (r ((List.range 256).foldl g (Field.fromU32 1, base))) := by
    have hreverse : (List.range 32).reverse = (List.range 32).map fun k => 31 - k := by decide
    rw [hreverse, List.foldlM_map, range_256, List.foldl_flatMap]
    simp only [List.foldl_map]
    refine foldlM_eq_some r (fun s k hk => ?_) _
    rw [List.mem_range] at hk
    rw [getElem?_toBigEndian e hk]
    exact hbits s k hk
  rw [pow, fromU32_eq]
  change ((List.range 32).reverse.foldlM _ (r (Field.fromU32 1, base)) >>= _) = _
  rw [hbytes]
  rfl

private theorem inv_eq (a : U256) : inv (toBigEndian a) = some (toBigEndian (Field.inv a)) := by
  have hexp : P.set 31 0x41 = toBigEndian (BitVec.ofNat 256 (2 ^ 256 - 191)) := by decide
  rw [inv, hexp, pow_eq]
  rfl

end Powers

end LimbField

open LimbField in
/-- **The arithmetic on words is the field.** On the bytes of any two numbers no column overflows, and every operation gives the bytes of what the operation on numbers gives. Remainders, products and powers are those modulo the prime, and the inverse is the one of the field; sums and differences are the ones modulo the prime for operands below it. -/
theorem limbField_refines (a b e : U256) :
    (LimbField.add (toBigEndian a) (toBigEndian b) = toBigEndian (Field.add a b) ∧
      LimbField.sub (toBigEndian a) (toBigEndian b) = toBigEndian (Field.sub a b) ∧
      LimbField.reduceBytes (toBigEndian a) = toBigEndian (Field.reduceBytes a) ∧
      LimbField.mul (toBigEndian a) (toBigEndian b) = some (toBigEndian (Field.mul a b)) ∧
      LimbField.pow (toBigEndian a) (toBigEndian e) = some (toBigEndian (Field.pow a e)) ∧
      LimbField.inv (toBigEndian a) = some (toBigEndian (Field.inv a))) ∧
    ((Field.reduceBytes a).toNat = a.toNat % fieldPrime ∧
      (Field.mul a b).toNat = a.toNat * b.toNat % fieldPrime ∧
      (Field.pow a e).toNat = a.toNat ^ e.toNat % fieldPrime ∧
      (Field.inv a).toNat < fieldPrime ∧ toField (Field.inv a) = (toField a)⁻¹) ∧
    (a.toNat < fieldPrime → b.toNat < fieldPrime →
      (Field.add a b).toNat = (a.toNat + b.toNat) % fieldPrime ∧
        (Field.sub a b).toNat = (a.toNat + (fieldPrime - b.toNat)) % fieldPrime) := by
  refine ⟨⟨add_eq a b, sub_eq a b, reduceBytes_eq a, mul_eq a b, pow_eq a e, inv_eq a⟩,
    ⟨Field.toNat_reduce a, Field.toNat_mul a b, Field.toNat_pow a e, ?_, Field.toField_inv a⟩, fun ha hb => ?_⟩
  · exact Field.lt_modulus_iff.mp (Field.pow_lt a _)
  · have ha' := Field.lt_modulus_iff.mpr ha
    have hb' := Field.lt_modulus_iff.mpr hb
    exact ⟨Field.toNat_add ha' hb', Field.toNat_sub ha' hb'⟩

/-- Two and the number below the prime: the sum and the difference go around. -/
theorem limbField_refines_wraps :
    LimbField.add (toBigEndian 2) (toBigEndian (Field.modulus - 1)) = toBigEndian 1 ∧
      LimbField.sub (toBigEndian 2) (toBigEndian (Field.modulus - 1)) = toBigEndian 3 := by
  obtain ⟨⟨hadd, hsub, -⟩, -, hreduced⟩ := limbField_refines 2 (Field.modulus - 1) 0
  obtain ⟨hsum, hdiff⟩ := hreduced (by decide) (by decide)
  have hone : Field.add 2 (Field.modulus - 1) = 1 := BitVec.eq_of_toNat_eq (hsum.trans (by decide))
  have hthree : Field.sub 2 (Field.modulus - 1) = 3 := BitVec.eq_of_toNat_eq (hdiff.trans (by decide))
  rw [hadd, hsub, hone, hthree]
  exact ⟨rfl, rfl⟩

end QuantumVault
