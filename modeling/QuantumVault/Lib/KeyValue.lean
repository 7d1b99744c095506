import QuantumVault.Lib.Encoding
import QuantumVault.Lib.TreeMap

/-!
# Tables in a key-value store

Several maps are kept in one ordered store of byte strings. Each map is a table: its keys carry leading bytes of their own, and its values are read off the stored bytes. A write through one table updates its map and leaves every other table alone, as long as the leading bytes of neither begin those of the other, and a scan over the leading bytes lists the map.
-/

namespace QuantumVault

namespace TreeMap

variable {K V : Type*} [Ord K] [Std.TransOrd K] [Std.LawfulEqOrd K] {m : Std.ExtTreeMap K V} {k : K} {v : V}

theorem insertAll_toList (m : Std.ExtTreeMap K V) : insertAll ∅ m.toList = m := by
  refine Std.ExtTreeMap.ext_getElem? fun a => ?_
  rw [getElem?_insertAll_toList]
  simp

theorem insertAll_insertAll_toList (kvs : List (K × V)) : insertAll m (insertAll ∅ kvs).toList = insertAll m kvs := by
  refine Std.ExtTreeMap.ext_getElem? fun a => ?_
  rw [getElem?_insertAll_toList, getElem?_insertAll_eq_or (m := m)]

theorem getElem?_insert_eq_update [DecidableEq K] :
    (fun a => (m.insert k v)[a]?) = Function.update (fun a => m[a]?) k (some v) := by
  funext a
  rw [getElem?_insert, Function.update_apply]
  simp only [eq_comm]

theorem getElem?_erase_eq_update [DecidableEq K] :
    (fun a => (m.erase k)[a]?) = Function.update (fun a => m[a]?) k none := by
  funext a
  rw [getElem?_erase, Function.update_apply]
  simp only [eq_comm]

end TreeMap

namespace KeyValue

/-! ### Keys with common leading bytes -/

section Scan

variable {α : Type*} [Ord α] [Std.TransOrd α] [Std.LawfulEqOrd α] {start k k' : List α}

omit [Std.TransOrd α] [Std.LawfulEqOrd α] in
theorem compare_cons (a b : α) (as bs : List α) :
    compare (a :: as) (b :: bs) = (compare a b).then (compare as bs) := by
  rw [List.compare_eq_compareLex, List.compareLex_cons_cons]

omit [Std.LawfulEqOrd α] in
theorem compare_ne_lt_of_isPrefix (h : start <+: k) : compare k start ≠ .lt := by
  obtain ⟨rest, rfl⟩ := h
  induction start with
  | nil => cases rest <;> simp
  | cons a start ih =>
      have hself : compare a a = .eq := Std.ReflCmp.compare_self
      rwa [List.cons_append, compare_cons, hself]

omit [Std.TransOrd α] in
theorem isPrefix_of_between (hlow : compare k start ≠ .lt) (hhigh : compare k k' = .lt) (h : start <+: k') :
    start <+: k := by
  induction start generalizing k k' with
  | nil => exact List.nil_prefix
  | cons a start ih =>
      obtain ⟨rest, rfl⟩ := h
      cases k with
      | nil => exact absurd List.compareLex_nil_cons hlow
      | cons b k =>
          rw [compare_cons] at hlow
          rw [List.cons_append, compare_cons] at hhigh
          have hab : compare b a = .eq := by
            cases hba : compare b a with
            | lt => simp [hba] at hlow
            | eq => rfl
            | gt => simp [hba] at hhigh
          rw [hab] at hlow hhigh
          cases Std.LawfulEqOrd.eq_of_compare hab
          exact List.cons_prefix_cons.mpr ⟨rfl, ih hlow hhigh (List.prefix_append start rest)⟩

variable [DecidableEq α] {V : Type*} {l : List (List α × V)}

omit [Std.TransOrd α] in
/-- From the first key on that is not below the leading bytes, the keys that carry them come first. -/
theorem takeWhile_isPrefixOf (hsorted : l.Pairwise fun e e' => compare e.1 e'.1 = .lt)
    (hlow : ∀ e ∈ l, compare e.1 start ≠ .lt) :
    (l.takeWhile fun e => start.isPrefixOf e.1) = l.filter fun e => start.isPrefixOf e.1 := by
  induction l with
  | nil => rfl
  | cons e l ih =>
      rw [List.pairwise_cons] at hsorted
      rw [List.forall_mem_cons] at hlow
      by_cases he : start <+: e.1
      · rw [List.takeWhile_cons_of_pos (by simpa using he), List.filter_cons_of_pos (by simpa using he),
          ih hsorted.2 hlow.2]
      · have hrest : ∀ e' ∈ l, ¬ start <+: e'.1 := fun e' he' hled =>
          he (isPrefix_of_between hlow.1 (hsorted.1 e' he') hled)
        rw [List.takeWhile_cons_of_neg (by simpa using he), List.filter_cons_of_neg (by simpa using he), eq_comm,
          List.filter_eq_nil_iff]
        simpa using hrest

/-- **A range scan that stops at the first key without the leading bytes finds every key that carries them.** -/
theorem takeWhile_dropWhile_eq_filter (hsorted : l.Pairwise fun e e' => compare e.1 e'.1 = .lt) :
    ((l.dropWhile fun e => compare e.1 start == .lt).takeWhile fun e => start.isPrefixOf e.1) =
      l.filter fun e => start.isPrefixOf e.1 := by
  induction l with
  | nil => rfl
  | cons e l ih =>
      have hsorted' := hsorted
      rw [List.pairwise_cons] at hsorted'
      by_cases he : compare e.1 start = .lt
      · have hnot : ¬ start <+: e.1 := fun hled => compare_ne_lt_of_isPrefix hled he
        rw [List.dropWhile_cons_of_pos (by simpa using he), List.filter_cons_of_neg (by simpa using hnot), ih hsorted'.2]
      · rw [List.dropWhile_cons_of_neg (by simpa using he)]
        refine takeWhile_isPrefixOf hsorted fun e' he' => ?_
        rcases List.mem_cons.mp he' with rfl | hrest
        · exact he
        · intro hlt
          exact he (Std.TransCmp.lt_trans (hsorted'.1 e' hrest) hlt)

end Scan

/-! ### Lists in step -/

section Forall₂

variable {α β γ : Type*} {R : α → β → Prop} {xs : List α} {ys : List β}

theorem exists_forall₂ (h : ∀ x ∈ xs, ∃ y, R x y) : ∃ ys, List.Forall₂ R xs ys := by
  induction xs with
  | nil => exact ⟨[], List.Forall₂.nil⟩
  | cons x xs ih =>
      rw [List.forall_mem_cons] at h
      obtain ⟨y, hy⟩ := h.1
      obtain ⟨ys, hys⟩ := ih h.2
      exact ⟨y :: ys, List.Forall₂.cons hy hys⟩

theorem exists_right_of_forall₂ (h : List.Forall₂ R xs ys) {x : α} (hx : x ∈ xs) : ∃ y ∈ ys, R x y := by
  induction h with
  | nil => cases hx
  | cons hxy _ ih =>
      rcases List.mem_cons.mp hx with rfl | hrest
      · exact ⟨_, List.mem_cons_self, hxy⟩
      · obtain ⟨y, hy, hR⟩ := ih hrest
        exact ⟨y, List.mem_cons_of_mem _ hy, hR⟩

theorem exists_left_of_forall₂ (h : List.Forall₂ R xs ys) {y : β} (hy : y ∈ ys) : ∃ x ∈ xs, R x y :=
  exists_right_of_forall₂ h.flip hy

theorem map_eq_of_forall₂ {f : α → γ} {g : β → γ} (h : List.Forall₂ (fun x y => f x = g y) xs ys) :
    xs.map f = ys.map g := by
  induction h with
  | nil => rfl
  | cons hxy _ ih => rw [List.map_cons, List.map_cons, hxy, ih]

end Forall₂

/-! ### Tables -/

/-- A map kept in a store: where its keys are, and what its stored bytes mean. -/
structure Table (K V : Type) where
  leading : Bytes
  suffix : K → Bytes
  suffix_inj : Function.Injective suffix
  view : Bytes → Option V

namespace Table

variable {K V K' V' : Type}

def key (T : Table K V) (k : K) : Bytes := T.leading ++ T.suffix k

theorem key_inj (T : Table K V) : Function.Injective T.key :=
  fun _ _ h => T.suffix_inj (List.append_cancel_left h)

theorem leading_isPrefix_key (T : Table K V) (k : K) : T.leading <+: T.key k := List.prefix_append _ _

/-- Neither table's leading bytes begin the other's. -/
def Apart (p q : Bytes) : Prop := ¬ p <+: q ∧ ¬ q <+: p

instance (p q : Bytes) : Decidable (Apart p q) := inferInstanceAs (Decidable (_ ∧ _))

theorem Apart.not_isPrefix_of_isPrefix {p q key : Bytes} (h : Apart p q) (hkey : q <+: key) : ¬ p <+: key :=
  fun hled => (List.prefix_or_prefix_of_prefix hled hkey).elim h.1 h.2

theorem Apart.not_isPrefix_append {p q : Bytes} (h : Apart p q) (rest : Bytes) : ¬ p <+: q ++ rest :=
  h.not_isPrefix_of_isPrefix (List.prefix_append q rest)

/-- The store holds the map: every key reads as the map says, and no other key carries the leading bytes. -/
structure Holds (T : Table K V) (store : Std.ExtTreeMap Bytes Bytes) (f : K → Option V) : Prop where
  reads : ∀ k, (store[T.key k]?).map T.view = (f k).map some
  keys : ∀ key ∈ store, T.leading <+: key → ∃ k, T.key k = key

variable {T : Table K V} {store : Std.ExtTreeMap Bytes Bytes} {f : K → Option V} {k : K}

theorem holds_empty (T : Table K V) : T.Holds ∅ fun _ => none where
  reads k := by simp
  keys key h := by simp at h

namespace Holds

theorem eq_none_iff (h : T.Holds store f) : store[T.key k]? = none ↔ f k = none := by
  have hread := h.reads k
  cases hs : store[T.key k]? <;> cases hf : f k <;> simp_all

theorem exists_of_eq_some (h : T.Holds store f) {v : V} (hf : f k = some v) :
    ∃ bytes, store[T.key k]? = some bytes ∧ T.view bytes = some v := by
  have hread := h.reads k
  rw [hf] at hread
  obtain ⟨bytes, hbytes, hview⟩ := Option.map_eq_some_iff.mp hread
  exact ⟨bytes, hbytes, hview⟩

theorem view_eq (h : T.Holds store f) {bytes : Bytes} (hs : store[T.key k]? = some bytes) : T.view bytes = f k := by
  have hread := h.reads k
  rw [hs] at hread
  cases hf : f k with
  | none => simp [hf] at hread
  | some v => simpa [hf] using hread

variable [DecidableEq K]

theorem put (h : T.Holds store f) {v : V} {bytes : Bytes} (hview : T.view bytes = some v) :
    T.Holds (store.insert (T.key k) bytes) (Function.update f k (some v)) where
  reads a := by
    rw [TreeMap.getElem?_insert]
    by_cases hka : k = a
    · subst hka
      simp [hview]
    · rw [if_neg fun heq => hka (T.key_inj heq), Function.update_of_ne (Ne.symm hka), h.reads]
  keys key hkey hled := by
    rcases TreeMap.mem_insert.mp hkey with heq | hold
    · exact ⟨k, heq⟩
    · exact h.keys key hold hled

theorem delete (h : T.Holds store f) : T.Holds (store.erase (T.key k)) (Function.update f k none) where
  reads a := by
    rw [TreeMap.getElem?_erase]
    by_cases hka : k = a
    · subst hka
      simp
    · rw [if_neg fun heq => hka (T.key_inj heq), Function.update_of_ne (Ne.symm hka), h.reads]
  keys key hkey hled := h.keys key (TreeMap.mem_erase.mp hkey).2 hled

end Holds

/-! ### Writes to other tables -/

namespace Holds

theorem put_other (h : T.Holds store f) {key bytes : Bytes} (hkey : ¬ T.leading <+: key) :
    T.Holds (store.insert key bytes) f where
  reads a := by
    have hne : key ≠ T.key a := by
      rintro rfl
      exact hkey (T.leading_isPrefix_key a)
    rw [TreeMap.getElem?_insert_of_ne hne, h.reads]
  keys key' hmem hled := by
    rcases TreeMap.mem_insert.mp hmem with heq | hold
    · exact absurd (heq ▸ hled) hkey
    · exact h.keys key' hold hled

theorem delete_other (h : T.Holds store f) {key : Bytes} (hkey : ¬ T.leading <+: key) : T.Holds (store.erase key) f where
  reads a := by
    have hne : key ≠ T.key a := by
      rintro rfl
      exact hkey (T.leading_isPrefix_key a)
    rw [TreeMap.getElem?_erase_of_ne hne, h.reads]
  keys key' hmem hled := h.keys key' (TreeMap.mem_erase.mp hmem).2 hled

end Holds

/-! ### Scanning a table -/

/-- The entries under the leading bytes, in the order of their keys. -/
def scan (T : Table K V) (store : Std.ExtTreeMap Bytes Bytes) : List (Bytes × Bytes) :=
  store.toList.filter fun e => T.leading.isPrefixOf e.1

theorem mem_scan {e : Bytes × Bytes} : e ∈ T.scan store ↔ store[e.1]? = some e.2 ∧ T.leading <+: e.1 := by
  obtain ⟨key, bytes⟩ := e
  simp [scan, Std.ExtTreeMap.mem_toList_iff_getElem?_eq_some]

theorem nodup_keys_scan : ((T.scan store).map Prod.fst).Nodup :=
  (TreeMap.nodup_keys_toList store).sublist (List.filter_sublist.map Prod.fst)

/-- A scanned entry belongs to a key of the map and shows its value. -/
def Shows (T : Table K V) (e : Bytes × Bytes) (p : K × V) : Prop := T.key p.1 = e.1 ∧ T.view e.2 = some p.2

/-- **A scan lists the map, each entry once.** -/
theorem Holds.exists_scan (h : T.Holds store f) :
    ∃ l : List (K × V), List.Forall₂ T.Shows (T.scan store) l ∧ (l.map Prod.fst).Nodup ∧
      ∀ k v, (k, v) ∈ l ↔ f k = some v := by
  have hread : ∀ e ∈ T.scan store, ∃ p : K × V, T.Shows e p ∧ f p.1 = some p.2 := by
    intro e he
    obtain ⟨hs, hled⟩ := mem_scan.mp he
    obtain ⟨k, hk⟩ := h.keys e.1 (TreeMap.mem_of_getElem? hs) hled
    have hview := h.view_eq (k := k) (hk ▸ hs)
    have hsome : f k ≠ none := by
      rw [ne_eq, ← h.eq_none_iff, hk, hs]
      exact Option.some_ne_none _
    obtain ⟨v, hv⟩ := Option.ne_none_iff_exists'.mp hsome
    exact ⟨(k, v), ⟨hk, hview.trans hv⟩, hv⟩
  obtain ⟨l, hl⟩ := exists_forall₂ hread
  have hkeys : (T.scan store).map Prod.fst = (l.map Prod.fst).map T.key := by
    rw [List.map_map]
    exact map_eq_of_forall₂ (hl.imp fun _ _ hep => hep.1.1.symm)
  have hnodup : ((T.scan store).map Prod.fst).Nodup := nodup_keys_scan
  rw [hkeys] at hnodup
  refine ⟨l, hl.imp fun _ _ hep => hep.1, hnodup.of_map, fun k v => ?_⟩
  constructor
  · intro hmem
    obtain ⟨e, _, hep⟩ := exists_left_of_forall₂ hl hmem
    exact hep.2
  · intro hv
    obtain ⟨bytes, hs, hview⟩ := h.exists_of_eq_some hv
    have hscan : (T.key k, bytes) ∈ T.scan store := mem_scan.mpr ⟨hs, T.leading_isPrefix_key k⟩
    obtain ⟨⟨k', v'⟩, hmem, hep⟩ := exists_right_of_forall₂ hl hscan
    cases T.key_inj hep.1.1
    cases hview.symm.trans hep.1.2
    exact hmem

end Table

end KeyValue

end QuantumVault
