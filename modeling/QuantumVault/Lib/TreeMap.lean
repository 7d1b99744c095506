import Mathlib

/-!
# Sorted maps

The look-up rules of sorted maps whose keys are compared lawfully, stated with plain equality of keys, the batch forms of erasing and inserting, and the sum of a weight over the values of a map. Inserting under a new key adds one weight, erasing a key takes its weight away.
-/

namespace QuantumVault

namespace TreeMap

variable {K V : Type*} [Ord K] [Std.TransOrd K] {m : Std.ExtTreeMap K V} {k a : K} {v : V}

theorem mem_iff : k ∈ m ↔ ∃ v, m[k]? = some v := by
  rw [Std.ExtTreeMap.mem_iff_isSome_getElem?, Option.isSome_iff_exists]

theorem notMem_iff : k ∉ m ↔ m[k]? = none := by
  rw [Std.ExtTreeMap.mem_iff_isSome_getElem?, Bool.not_eq_true, Option.isSome_eq_false_iff, Option.isNone_iff_eq_none]

theorem mem_of_getElem? (h : m[k]? = some v) : k ∈ m := mem_iff.mpr ⟨v, h⟩

variable [Std.LawfulEqOrd K]

theorem getElem?_insert [DecidableEq K] : (m.insert k v)[a]? = if k = a then some v else m[a]? := by
  rw [Std.ExtTreeMap.getElem?_insert]
  simp only [Std.compare_eq_iff_eq]

theorem getElem?_insert_of_ne (h : k ≠ a) : (m.insert k v)[a]? = m[a]? := by
  classical
  rw [getElem?_insert, if_neg h]

theorem getElem?_erase [DecidableEq K] : (m.erase k)[a]? = if k = a then none else m[a]? := by
  rw [Std.ExtTreeMap.getElem?_erase]
  simp only [Std.compare_eq_iff_eq]

theorem getElem?_erase_of_ne (h : k ≠ a) : (m.erase k)[a]? = m[a]? := by
  classical
  rw [getElem?_erase, if_neg h]

theorem mem_insert : a ∈ m.insert k v ↔ k = a ∨ a ∈ m := by
  rw [Std.ExtTreeMap.mem_insert, Std.compare_eq_iff_eq]

theorem mem_erase : a ∈ m.erase k ↔ k ≠ a ∧ a ∈ m := by
  rw [Std.ExtTreeMap.mem_erase]
  simp only [ne_eq, Std.compare_eq_iff_eq]

theorem insert_erase (h : m[k]? = some v) : (m.erase k).insert k v = m := by
  classical
  refine Std.ExtTreeMap.ext_getElem? fun x => ?_
  rw [getElem?_insert, getElem?_erase]
  split
  · rename_i hkx
    rw [← hkx, h]
  · rfl

/-! ### Batches -/

/-- Erase every key of a list. -/
def eraseAll (m : Std.ExtTreeMap K V) (ks : List K) : Std.ExtTreeMap K V :=
  ks.foldl (fun m k => m.erase k) m

/-- Insert every pair of a list in turn, a later pair replacing an earlier one with its key. -/
def insertAll (m : Std.ExtTreeMap K V) (kvs : List (K × V)) : Std.ExtTreeMap K V :=
  kvs.foldl (fun m kv => m.insert kv.1 kv.2) m

section Batches

variable {ks : List K} {kvs : List (K × V)}

omit [Std.LawfulEqOrd K] in
@[simp] theorem eraseAll_nil : eraseAll m [] = m := rfl

omit [Std.LawfulEqOrd K] in
@[simp] theorem eraseAll_cons : eraseAll m (k :: ks) = eraseAll (m.erase k) ks := rfl

omit [Std.LawfulEqOrd K] in
theorem eraseAll_append {ks' : List K} : eraseAll m (ks ++ ks') = eraseAll (eraseAll m ks) ks' :=
  List.foldl_append

omit [Std.LawfulEqOrd K] in
@[simp] theorem insertAll_nil : insertAll m [] = m := rfl

omit [Std.LawfulEqOrd K] in
@[simp] theorem insertAll_cons {kv : K × V} : insertAll m (kv :: kvs) = insertAll (m.insert kv.1 kv.2) kvs := rfl

theorem getElem?_eraseAll [DecidableEq K] : (eraseAll m ks)[a]? = if a ∈ ks then none else m[a]? := by
  induction ks generalizing m with
  | nil => simp
  | cons k ks ih =>
      rw [eraseAll_cons, ih, getElem?_erase]
      by_cases hks : a ∈ ks
      · simp [hks]
      · simp [hks, eq_comm]

theorem mem_eraseAll : a ∈ eraseAll m ks ↔ a ∈ m ∧ a ∉ ks := by
  classical
  rw [mem_iff, mem_iff, getElem?_eraseAll]
  split <;> simp_all

theorem getElem?_insertAll_of_notMem (h : a ∉ kvs.map Prod.fst) : (insertAll m kvs)[a]? = m[a]? := by
  induction kvs generalizing m with
  | nil => rfl
  | cons kv kvs ih =>
      rw [List.map_cons, List.mem_cons, not_or] at h
      rw [insertAll_cons, ih h.2, getElem?_insert_of_ne (Ne.symm h.1)]

theorem getElem?_insertAll_of_mem (hkeys : (kvs.map Prod.fst).Nodup) (h : (a, v) ∈ kvs) :
    (insertAll m kvs)[a]? = some v := by
  induction kvs generalizing m with
  | nil => cases h
  | cons kv kvs ih =>
      rw [List.map_cons, List.nodup_cons] at hkeys
      rw [insertAll_cons]
      rcases List.mem_cons.mp h with rfl | hrest
      · rw [getElem?_insertAll_of_notMem hkeys.1]
        exact Std.ExtTreeMap.getElem?_insert_self
      · exact ih hkeys.2 hrest

theorem mem_or_of_getElem?_insertAll (h : (insertAll m kvs)[a]? = some v) : (a, v) ∈ kvs ∨ m[a]? = some v := by
  classical
  induction kvs generalizing m with
  | nil => exact Or.inr h
  | cons kv kvs ih =>
      rw [insertAll_cons] at h
      rcases ih h with hrest | hfirst
      · exact Or.inl (List.mem_cons_of_mem kv hrest)
      · rw [getElem?_insert] at hfirst
        split at hfirst
        · rename_i hkey
          cases hfirst
          rw [← hkey]
          exact Or.inl List.mem_cons_self
        · exact Or.inr hfirst

theorem getElem?_insertAll_const [DecidableEq K] :
    (insertAll m (ks.map fun k => (k, v)))[a]? = if a ∈ ks then some v else m[a]? := by
  induction ks generalizing m with
  | nil => simp
  | cons k ks ih =>
      rw [List.map_cons, insertAll_cons, ih, getElem?_insert]
      by_cases hks : a ∈ ks
      · simp [hks]
      · simp [hks, eq_comm]

theorem getElem?_insertAll_eq_or : (insertAll m kvs)[a]? = (insertAll ∅ kvs)[a]?.or m[a]? := by
  classical
  induction kvs generalizing m with
  | nil => simp
  | cons kv kvs ih =>
      have hsingle : (insertAll ((∅ : Std.ExtTreeMap K V).insert kv.1 kv.2) kvs)[a]? =
          (insertAll ∅ kvs)[a]?.or ((∅ : Std.ExtTreeMap K V).insert kv.1 kv.2)[a]? := ih
      rw [insertAll_cons, insertAll_cons, ih, hsingle, Option.or_assoc, getElem?_insert, getElem?_insert]
      congr 1
      split <;> simp

theorem mem_insertAll : a ∈ insertAll m kvs ↔ a ∈ m ∨ a ∈ kvs.map Prod.fst := by
  induction kvs generalizing m with
  | nil => simp
  | cons kv kvs ih =>
      rw [insertAll_cons, ih, mem_insert, List.map_cons, List.mem_cons]
      tauto

theorem nodup_keys_toList (m : Std.ExtTreeMap K V) : (m.toList.map Prod.fst).Nodup := by
  rw [Std.ExtTreeMap.map_fst_toList_eq_keys]
  refine Std.ExtTreeMap.distinct_keys.imp ?_
  rintro a b hne rfl
  exact hne Std.ReflCmp.compare_self

theorem getElem?_insertAll_toList {m' : Std.ExtTreeMap K V} : (insertAll m m'.toList)[a]? = (m'[a]?).or m[a]? := by
  cases h : m'[a]? with
  | some v =>
      rw [getElem?_insertAll_of_mem (nodup_keys_toList m') (Std.ExtTreeMap.mem_toList_iff_getElem?_eq_some.mpr h)]
      rfl
  | none =>
      rw [getElem?_insertAll_of_notMem]
      · rfl
      · rw [Std.ExtTreeMap.map_fst_toList_eq_keys, Std.ExtTreeMap.mem_keys, notMem_iff]
        exact h

/-- The order of a batch does not matter when no key comes twice. -/
theorem insertAll_perm {kvs' : List (K × V)} (hkeys : (kvs.map Prod.fst).Nodup) (h : kvs.Perm kvs') :
    insertAll m kvs = insertAll m kvs' := by
  refine Std.ExtTreeMap.ext_getElem? fun a => ?_
  by_cases hmem : a ∈ kvs.map Prod.fst
  · obtain ⟨kv, hkv, rfl⟩ := List.mem_map.mp hmem
    have hkeys' : (kvs'.map Prod.fst).Nodup := (h.map Prod.fst).nodup_iff.mp hkeys
    rw [getElem?_insertAll_of_mem hkeys hkv, getElem?_insertAll_of_mem hkeys' (h.mem_iff.mp hkv)]
  · rw [getElem?_insertAll_of_notMem hmem, getElem?_insertAll_of_notMem]
    rwa [← (h.map Prod.fst).mem_iff]

end Batches

/-! ### The values -/

omit [Std.LawfulEqOrd K] in
theorem values_eq (m : Std.ExtTreeMap K V) : m.values = m.toList.map Prod.snd := by
  obtain ⟨m⟩ := m
  induction m with
  | mk m =>
      change m.inner.values = (Std.DTreeMap.Internal.Impl.Const.toList m.inner).map Prod.snd
      rw [Std.DTreeMap.Internal.Impl.values_eq_map_snd, Std.DTreeMap.Internal.Impl.Const.toList_eq_toListModel_map,
        List.map_map]
      rfl

theorem mem_values : v ∈ m.values ↔ ∃ k : K, m[k]? = some v := by
  simp [values_eq, Std.ExtTreeMap.mem_toList_iff_getElem?_eq_some]

/-! ### Sums over the values -/

theorem nodup_toList (m : Std.ExtTreeMap K V) : m.toList.Nodup := by
  refine Std.ExtTreeMap.distinct_keys_toList.imp ?_
  rintro a b hne rfl
  exact hne Std.ReflCmp.compare_self

theorem toList_insert_perm (h : m[k]? = none) : (m.insert k v).toList.Perm ((k, v) :: m.toList) := by
  classical
  have hnew : (k, v) ∉ m.toList := by
    rw [Std.ExtTreeMap.mem_toList_iff_getElem?_eq_some, h]
    simp
  rw [List.perm_ext_iff_of_nodup (nodup_toList _) (List.nodup_cons.mpr ⟨hnew, nodup_toList m⟩)]
  intro h'
  obtain ⟨a, w⟩ := h'
  rw [List.mem_cons, Std.ExtTreeMap.mem_toList_iff_getElem?_eq_some, Std.ExtTreeMap.mem_toList_iff_getElem?_eq_some,
    getElem?_insert, Prod.mk.injEq]
  split
  · rename_i hka
    subst hka
    rw [h]
    simp [eq_comm]
  · rename_i hka
    simp [Ne.symm hka]

theorem toList_insertAll_perm {kvs : List (K × V)} (hkeys : (kvs.map Prod.fst).Nodup) (hnew : ∀ kv ∈ kvs, m[kv.1]? = none) :
    (insertAll m kvs).toList.Perm (kvs ++ m.toList) := by
  induction kvs generalizing m with
  | nil => exact List.Perm.refl _
  | cons kv kvs ih =>
      rw [List.map_cons, List.nodup_cons] at hkeys
      have hrest : ∀ kv' ∈ kvs, (m.insert kv.1 kv.2)[kv'.1]? = none := by
        intro kv' hkv'
        have hne : kv.1 ≠ kv'.1 := fun heq => hkeys.1 (heq ▸ List.mem_map_of_mem hkv')
        rw [getElem?_insert_of_ne hne]
        exact hnew kv' (List.mem_cons_of_mem kv hkv')
      have hmiddle : (kvs ++ (m.insert kv.1 kv.2).toList).Perm (kvs ++ kv :: m.toList) :=
        (toList_insert_perm (hnew kv List.mem_cons_self)).append_left kvs
      exact (ih hkeys.2 hrest).trans (hmiddle.trans List.perm_middle)

/-- The sum of a weight over the values of a map. -/
def total (weight : V → Nat) (m : Std.ExtTreeMap K V) : Nat :=
  (m.toList.map fun entry => weight entry.2).sum

variable {weight : V → Nat}

theorem total_insert (h : m[k]? = none) : total weight (m.insert k v) = weight v + total weight m := by
  unfold total
  rw [((toList_insert_perm h).map _).sum_eq, List.map_cons, List.sum_cons]

theorem total_erase (h : m[k]? = some v) : total weight m = weight v + total weight (m.erase k) := by
  have hgone : (m.erase k)[k]? = none := Std.ExtTreeMap.getElem?_erase_self
  rw [← total_insert hgone, insert_erase h]

omit [Std.LawfulEqOrd K] in
@[simp] theorem total_empty : total weight (∅ : Std.ExtTreeMap K V) = 0 := by
  have hnil : (∅ : Std.ExtTreeMap K V).toList = [] := by
    rw [← List.isEmpty_iff, Std.ExtTreeMap.isEmpty_toList]
    exact Std.ExtTreeMap.isEmpty_empty
  rw [total, hnil]
  rfl

end TreeMap

end QuantumVault
