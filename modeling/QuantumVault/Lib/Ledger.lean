import QuantumVault.Lib.TreeMap

/-!
# Ledgers of unspent items

A ledger maps keys to the items that are still unspent. A move spends some keys and creates items under new ones. `Valid` says when a list of moves can be made one after the other; it also keeps the keys spent so far, because a key may not come back in the list that spends it. A weight on the items turns every move into an exact balance.

Moves are read off the items of a list, transactions for instance, through a function `move`.
-/

namespace QuantumVault

namespace Ledger

open TreeMap

universe u v w

variable {K : Type u} {V : Type v} {ι : Type w}

/-- What one item of a list does to a ledger. -/
structure Move (K : Type u) (V : Type v) where
  spends : List K
  creates : List (K × V)

def Move.created (m : Move K V) : List K := m.creates.map Prod.fst

variable [Ord K] [Std.TransOrd K]

def advance (view : Std.ExtTreeMap K V) (m : Move K V) : Std.ExtTreeMap K V :=
  insertAll (eraseAll view m.spends) m.creates

def advanceAll (move : ι → Move K V) (view : Std.ExtTreeMap K V) (xs : List ι) : Std.ExtTreeMap K V :=
  xs.foldl (fun view x => advance view (move x)) view

/-- Each item of a list with the ledger it meets. -/
def meets (move : ι → Move K V) : Std.ExtTreeMap K V → List ι → List (Std.ExtTreeMap K V × ι)
  | _, [] => []
  | view, x :: xs => (view, x) :: meets move (advance view (move x)) xs

/-- A move that a ledger allows: it spends distinct unspent keys and creates items under distinct keys that are neither unspent nor spent before. -/
structure Admissible (view : Std.ExtTreeMap K V) (gone : List K) (m : Move K V) : Prop where
  spends_nodup : m.spends.Nodup
  spends_mem : ∀ k ∈ m.spends, k ∈ view
  created_nodup : m.created.Nodup
  created_fresh : ∀ k ∈ m.created, k ∉ view ∧ k ∉ gone

/-- Every item of the list makes an admissible move where it stands. -/
def Valid (move : ι → Move K V) : Std.ExtTreeMap K V → List K → List ι → Prop
  | _, _, [] => True
  | view, gone, x :: xs =>
      Admissible view gone (move x) ∧ Valid move (advance view (move x)) (gone ++ (move x).spends) xs

variable {move : ι → Move K V} {view base : Std.ExtTreeMap K V} {gone : List K} {m : Move K V} {x : ι} {xs ys : List ι}
  {k : K} {v : V}

@[simp] theorem advanceAll_nil : advanceAll move view [] = view := rfl

@[simp] theorem advanceAll_cons : advanceAll move view (x :: xs) = advanceAll move (advance view (move x)) xs := rfl

theorem advanceAll_map {κ : Type*} {f : κ → ι} {zs : List κ} :
    advanceAll move view (zs.map f) = advanceAll (fun z => move (f z)) view zs :=
  List.foldl_map

theorem valid_map {κ : Type*} {f : κ → ι} {zs : List κ} :
    Valid move view gone (zs.map f) ↔ Valid (fun z => move (f z)) view gone zs := by
  induction zs generalizing view gone with
  | nil => exact Iff.rfl
  | cons z zs ih => exact and_congr_right fun _ => ih

@[simp] theorem meets_map_snd : (meets move view xs).map Prod.snd = xs := by
  induction xs generalizing view with
  | nil => rfl
  | cons x xs ih => simp only [meets, List.map_cons, ih]

theorem mem_of_mem_meets {p} (h : p ∈ meets move view xs) : p.2 ∈ xs := by
  have hmem := List.mem_map_of_mem (f := Prod.snd) h
  rwa [meets_map_snd] at hmem

variable [Std.LawfulEqOrd K]

/-! ### Looking up -/

theorem mem_advance : k ∈ advance view m ↔ k ∈ m.created ∨ k ∈ view ∧ k ∉ m.spends := by
  rw [advance, mem_insertAll, mem_eraseAll]
  exact or_comm

theorem getElem?_advance_created (hcreated : m.created.Nodup) (h : (k, v) ∈ m.creates) :
    (advance view m)[k]? = some v :=
  getElem?_insertAll_of_mem hcreated h

theorem getElem?_advance_of_notMem (hcreated : k ∉ m.created) (hspends : k ∉ m.spends) :
    (advance view m)[k]? = view[k]? := by
  classical
  rw [advance, getElem?_insertAll_of_notMem hcreated, getElem?_eraseAll, if_neg hspends]

theorem Admissible.getElem?_advance (hadm : Admissible view gone m) (hk : view[k]? = some v) (hspends : k ∉ m.spends) :
    (advance view m)[k]? = some v := by
  rw [getElem?_advance_of_notMem _ hspends, hk]
  intro hcreated
  exact (hadm.created_fresh k hcreated).1 (mem_of_getElem? hk)

theorem Admissible.notMem_advance (hadm : Admissible view gone m) (hspends : k ∈ m.spends) : k ∉ advance view m := by
  rw [mem_advance]
  rintro (hcreated | ⟨-, hnot⟩)
  · exact (hadm.created_fresh k hcreated).1 (hadm.spends_mem k hspends)
  · exact hnot hspends

theorem Admissible.apart_advance (hadm : Admissible view gone m) (hapart : ∀ k ∈ gone, k ∉ view) :
    ∀ k ∈ gone ++ m.spends, k ∉ advance view m := by
  intro k hk
  rcases List.mem_append.mp hk with hold | hnew
  · rw [mem_advance]
    rintro (hcreated | ⟨hview, -⟩)
    · exact (hadm.created_fresh k hcreated).2 hold
    · exact hapart k hold hview
  · exact hadm.notMem_advance hnew

theorem covers_advance (hcovers : ∀ k ∈ base, k ∈ view ∨ k ∈ gone) :
    ∀ k ∈ base, k ∈ advance view m ∨ k ∈ gone ++ m.spends := by
  intro k hk
  rw [mem_advance, List.mem_append]
  rcases hcovers k hk with hview | hgone
  · by_cases hspends : k ∈ m.spends
    · exact Or.inr (Or.inr hspends)
    · exact Or.inl (Or.inr ⟨hview, hspends⟩)
  · exact Or.inr (Or.inl hgone)

theorem mem_or_created (hk : k ∈ advanceAll move view xs) : k ∈ view ∨ k ∈ xs.flatMap fun x => (move x).created := by
  induction xs generalizing view with
  | nil => exact Or.inl hk
  | cons x xs ih =>
      rw [List.flatMap_cons, List.mem_append]
      rcases ih hk with hview | hlater
      · rcases mem_advance.mp hview with hnew | ⟨hold, -⟩
        · exact Or.inr (Or.inl hnew)
        · exact Or.inl hold
      · exact Or.inr (Or.inr hlater)

theorem Valid.getElem?_advanceAll (hvalid : Valid move view gone xs) (hk : view[k]? = some v)
    (hspends : ∀ x ∈ xs, k ∉ (move x).spends) : (advanceAll move view xs)[k]? = some v := by
  induction xs generalizing view gone with
  | nil => exact hk
  | cons x xs ih =>
      obtain ⟨hadm, hrest⟩ := hvalid
      rw [List.forall_mem_cons] at hspends
      exact ih hrest (hadm.getElem?_advance hk hspends.1) hspends.2

theorem Valid.notMem_of_created (hvalid : Valid move view gone xs) (hcovers : ∀ k ∈ base, k ∈ view ∨ k ∈ gone)
    (hk : k ∈ xs.flatMap fun x => (move x).created) : k ∉ base := by
  induction xs generalizing view gone with
  | nil => simp at hk
  | cons x xs ih =>
      obtain ⟨hadm, hrest⟩ := hvalid
      rw [List.flatMap_cons, List.mem_append] at hk
      rcases hk with hnew | hlater
      · intro hbase
        obtain ⟨hview, hgone⟩ := hadm.created_fresh k hnew
        exact (hcovers k hbase).elim hview hgone
      · exact ih hrest (covers_advance hcovers) hlater

theorem Valid.notMem_of_gone (hvalid : Valid move view gone xs) (hgone : k ∈ gone) (hk : k ∉ view) :
    k ∉ advanceAll move view xs := by
  induction xs generalizing view gone with
  | nil => exact hk
  | cons x xs ih =>
      obtain ⟨hadm, hrest⟩ := hvalid
      apply ih hrest (List.mem_append_left _ hgone)
      rw [mem_advance]
      rintro (hcreated | ⟨hview, -⟩)
      · exact (hadm.created_fresh k hcreated).2 hgone
      · exact hk hview

theorem Valid.unspent (hvalid : Valid move view gone xs) (hk : k ∈ view) (hlive : k ∈ advanceAll move view xs) :
    ∀ x ∈ xs, k ∉ (move x).spends := by
  induction xs generalizing view gone with
  | nil => simp
  | cons x xs ih =>
      obtain ⟨hadm, hrest⟩ := hvalid
      have hfirst : k ∉ (move x).spends := by
        intro hspent
        exact hrest.notMem_of_gone (List.mem_append_right _ hspent) (hadm.notMem_advance hspent) hlive
      exact List.forall_mem_cons.mpr ⟨hfirst, ih hrest (mem_advance.mpr (Or.inr ⟨hk, hfirst⟩)) hlive⟩

theorem Valid.mem_of_spends (hvalid : Valid move view gone xs) (hx : x ∈ xs) (hk : k ∈ (move x).spends) :
    k ∈ view ∨ k ∈ xs.flatMap fun x => (move x).created := by
  induction xs generalizing view gone with
  | nil => cases hx
  | cons y ys ih =>
      obtain ⟨hadm, hrest⟩ := hvalid
      rw [List.flatMap_cons, List.mem_append]
      rcases List.mem_cons.mp hx with rfl | hlater
      · exact Or.inl (hadm.spends_mem k hk)
      · rcases ih hrest hlater with hview | hcreated
        · exact (mem_advance.mp hview).elim (fun hnew => Or.inr (Or.inl hnew)) fun hold => Or.inl hold.1
        · exact Or.inr (Or.inr hcreated)

theorem Valid.mem_advanceAll (hvalid : Valid move view gone xs) :
    k ∈ advanceAll move view xs ↔
      (k ∈ view ∨ k ∈ xs.flatMap fun x => (move x).created) ∧ ∀ x ∈ xs, k ∉ (move x).spends := by
  induction xs generalizing view gone with
  | nil => simp
  | cons x xs ih =>
      obtain ⟨hadm, hrest⟩ := hvalid
      rw [advanceAll_cons, ih hrest, mem_advance, List.flatMap_cons, List.mem_append, List.forall_mem_cons]
      constructor
      · intro h
        obtain ⟨hthere, hunspent⟩ := h
        have hfirst : k ∉ (move x).spends := fun hspent =>
          hrest.notMem_of_gone (List.mem_append_right _ hspent) (hadm.notMem_advance hspent)
            ((ih hrest).mpr ⟨hthere.imp_left mem_advance.mpr, hunspent⟩)
        exact ⟨by tauto, hfirst, hunspent⟩
      · intro h
        obtain ⟨hthere, hfirst, hunspent⟩ := h
        exact ⟨by tauto, hunspent⟩

theorem Valid.getElem?_created (hvalid : Valid move view gone xs) (hx : x ∈ xs) (hkv : (k, v) ∈ (move x).creates)
    (hlive : k ∈ advanceAll move view xs) : (advanceAll move view xs)[k]? = some v := by
  induction xs generalizing view gone with
  | nil => cases hx
  | cons y ys ih =>
      obtain ⟨hadm, hrest⟩ := hvalid
      rcases List.mem_cons.mp hx with rfl | hlater
      · have hget : (advance view (move x))[k]? = some v := getElem?_advance_created hadm.created_nodup hkv
        exact hrest.getElem?_advanceAll hget (hrest.unspent (mem_of_getElem? hget) hlive)
      · exact ih hrest hlater hlive

theorem Valid.spends_of_meets (hvalid : Valid move view gone xs) (hapart : ∀ k ∈ gone, k ∉ view) {p}
    (hp : p ∈ meets move view xs) (hk : k ∈ (move p.2).spends) : k ∈ p.1 ∧ k ∉ gone := by
  induction xs generalizing view gone with
  | nil => cases hp
  | cons x xs ih =>
      obtain ⟨hadm, hrest⟩ := hvalid
      rcases List.mem_cons.mp hp with rfl | hlater
      · have hmem := hadm.spends_mem k hk
        exact ⟨hmem, fun hgone => hapart k hgone hmem⟩
      · obtain ⟨hmem, hgone⟩ := ih hrest (hadm.apart_advance hapart) hlater
        exact ⟨hmem, fun hold => hgone (List.mem_append_left _ hold)⟩

theorem Valid.getElem?_meets (hvalid : Valid move view gone xs) (hapart : ∀ k ∈ gone, k ∉ view) {p}
    (hp : p ∈ meets move view xs) (hk : k ∈ (move p.2).spends) (hget : view[k]? = some v) : p.1[k]? = some v := by
  induction xs generalizing view gone with
  | nil => cases hp
  | cons x xs ih =>
      obtain ⟨hadm, hrest⟩ := hvalid
      rcases List.mem_cons.mp hp with rfl | hlater
      · exact hget
      · obtain ⟨-, hgone⟩ := hrest.spends_of_meets (hadm.apart_advance hapart) hlater hk
        have hspends : k ∉ (move x).spends := fun hspent => hgone (List.mem_append_right _ hspent)
        exact ih hrest (hadm.apart_advance hapart) hlater (hadm.getElem?_advance hget hspends)

/-- Whether a list is valid, and which keys it leaves unspent, depends on keys only. -/
theorem Valid.of_keys {W : Type*} {move' : ι → Move K W} {view' : Std.ExtTreeMap K W}
    (hspends : ∀ x ∈ xs, (move' x).spends = (move x).spends) (hcreated : ∀ x ∈ xs, (move' x).created = (move x).created)
    (hkeys : ∀ k, k ∈ view' ↔ k ∈ view) (hvalid : Valid move view gone xs) :
    Valid move' view' gone xs ∧ ∀ k, k ∈ advanceAll move' view' xs ↔ k ∈ advanceAll move view xs := by
  induction xs generalizing view view' gone with
  | nil => exact ⟨trivial, hkeys⟩
  | cons x xs ih =>
      obtain ⟨hadm, hrest⟩ := hvalid
      rw [List.forall_mem_cons] at hspends hcreated
      have hnext : ∀ k, k ∈ advance view' (move' x) ↔ k ∈ advance view (move x) := by
        intro k
        rw [mem_advance, mem_advance, hspends.1, hcreated.1, hkeys]
      have hadm' : Admissible view' gone (move' x) := by
        refine ⟨?_, ?_, ?_, ?_⟩
        · rw [hspends.1]
          exact hadm.spends_nodup
        · intro k hk
          exact (hkeys k).mpr (hadm.spends_mem k (hspends.1 ▸ hk))
        · rw [hcreated.1]
          exact hadm.created_nodup
        · intro k hk
          obtain ⟨hview, hgone⟩ := hadm.created_fresh k (hcreated.1 ▸ hk)
          exact ⟨fun hmem => hview ((hkeys k).mp hmem), hgone⟩
      obtain ⟨hvalid', hsame⟩ := ih hspends.2 hcreated.2 hnext hrest
      refine ⟨⟨hadm', ?_⟩, hsame⟩
      rw [hspends.1]
      exact hvalid'

/-! ### Balance -/

variable (weight : V → Nat)

/-- The weight found under a key, nothing for a missing one. -/
def weightAt (view : Std.ExtTreeMap K V) (k : K) : Nat := (view[k]?).elim 0 weight

/-- The weight a move takes out of a ledger. -/
def inputTotal (view : Std.ExtTreeMap K V) (m : Move K V) : Nat := (m.spends.map (weightAt weight view)).sum

/-- The weight a move puts into a ledger. -/
def outputTotal (m : Move K V) : Nat := (m.creates.map fun kv => weight kv.2).sum

theorem total_eraseAll {ks : List K} (hnodup : ks.Nodup) (hmem : ∀ k ∈ ks, k ∈ view) :
    total weight (eraseAll view ks) + (ks.map (weightAt weight view)).sum = total weight view := by
  induction ks generalizing view with
  | nil => simp
  | cons k ks ih =>
      rw [List.nodup_cons] at hnodup
      obtain ⟨v, hv⟩ := mem_iff.mp (hmem k List.mem_cons_self)
      have hrest : ∀ a ∈ ks, a ∈ view.erase k := by
        intro a ha
        refine mem_erase.mpr ⟨?_, hmem a (List.mem_cons_of_mem k ha)⟩
        rintro rfl
        exact hnodup.1 ha
      have hsame : ks.map (weightAt weight (view.erase k)) = ks.map (weightAt weight view) := by
        refine List.map_congr_left fun a ha => ?_
        have hne : k ≠ a := fun h => hnodup.1 (h ▸ ha)
        rw [weightAt, weightAt, getElem?_erase_of_ne hne]
      have hweight : weightAt weight view k = weight v := by rw [weightAt, hv, Option.elim_some]
      have htotal := ih hnodup.2 hrest
      rw [hsame] at htotal
      rw [eraseAll_cons, List.map_cons, List.sum_cons, hweight, total_erase hv]
      omega

theorem total_insertAll {kvs : List (K × V)} (hnodup : (kvs.map Prod.fst).Nodup)
    (hfresh : ∀ k ∈ kvs.map Prod.fst, k ∉ view) :
    total weight (insertAll view kvs) = total weight view + (kvs.map fun kv => weight kv.2).sum := by
  induction kvs generalizing view with
  | nil => simp
  | cons kv kvs ih =>
      rw [List.map_cons, List.nodup_cons] at hnodup
      have hnew : view[kv.1]? = none := notMem_iff.mp (hfresh kv.1 List.mem_cons_self)
      have hrest : ∀ a ∈ kvs.map Prod.fst, a ∉ view.insert kv.1 kv.2 := by
        intro a ha
        rw [mem_insert, not_or]
        refine ⟨?_, hfresh a (List.mem_cons_of_mem _ ha)⟩
        rintro rfl
        exact hnodup.1 ha
      rw [insertAll_cons, ih hnodup.2 hrest, total_insert hnew, List.map_cons, List.sum_cons]
      omega

/-- **Balance of one move.** -/
theorem Admissible.total_advance (hadm : Admissible view gone m) :
    total weight (advance view m) + inputTotal weight view m = total weight view + outputTotal weight m := by
  have hfresh : ∀ k ∈ m.creates.map Prod.fst, k ∉ eraseAll view m.spends := by
    intro k hk hmem
    exact (hadm.created_fresh k hk).1 (mem_eraseAll.mp hmem).1
  have herase := total_eraseAll weight hadm.spends_nodup hadm.spends_mem
  rw [advance, total_insertAll weight hadm.created_nodup hfresh, outputTotal, inputTotal]
  omega

/-- **Balance of a list of moves.** -/
theorem Valid.total_advanceAll (hvalid : Valid move view gone xs) :
    total weight (advanceAll move view xs) + ((meets move view xs).map fun p => inputTotal weight p.1 (move p.2)).sum =
      total weight view + (xs.map fun x => outputTotal weight (move x)).sum := by
  induction xs generalizing view gone with
  | nil => simp [meets]
  | cons x xs ih =>
      obtain ⟨hadm, hrest⟩ := hvalid
      have hone := hadm.total_advance weight
      have hall := ih hrest
      simp only [advanceAll_cons, meets, List.map_cons, List.sum_cons]
      omega

end Ledger

end QuantumVault
