import Mathlib

/-!
# Binary trees that double an odd last node

Trees built level by level over arbitrary digests: neighbours are joined, and an odd last node is joined with itself. Doubling lets lists of different lengths end in one root, but only lists that repeat a leaf. Two lists without repetitions that end in one root are equal, unless two distinct pairs are joined to one digest or a leaf of one tree is the digest of a pair of the other. Two lists of one length only have to be told apart pair by pair.
-/

namespace QuantumVault

namespace PaddedTree

variable {α : Type*}

def pairs : List α → List (α × α)
  | [] => []
  | [last] => [(last, last)]
  | left :: right :: rest => (left, right) :: pairs rest

theorem length_pairs (xs : List α) : (pairs xs).length = (xs.length + 1) / 2 := by
  fun_induction pairs xs with
  | case1 => simp
  | case2 last => simp
  | case3 left right rest ih =>
      simp only [List.length_cons, ih]
      omega

theorem sublist_map_fst_pairs (xs : List α) : ((pairs xs).map Prod.fst).Sublist xs := by
  fun_induction pairs xs with
  | case1 => exact .slnil
  | case2 last => exact List.Sublist.refl _
  | case3 left right rest ih => exact (ih.cons right).cons_cons left

theorem nodup_pairs {xs : List α} (hxs : xs.Nodup) : (pairs xs).Nodup :=
  (hxs.sublist (sublist_map_fst_pairs xs)).of_map Prod.fst

theorem pairs_inj_of_length_eq {xs ys : List α} (hlen : xs.length = ys.length) (h : pairs xs = pairs ys) : xs = ys := by
  fun_induction pairs xs generalizing ys with
  | case1 => exact (List.length_eq_zero_iff.mp hlen.symm).symm
  | case2 last =>
      obtain ⟨other, rfl⟩ := List.length_eq_one_iff.mp hlen.symm
      rw [pairs, List.singleton_inj, Prod.mk.injEq] at h
      rw [h.1]
  | case3 left right rest ih =>
      match ys, hlen with
      | left' :: right' :: rest', hlen =>
          rw [pairs, List.cons.injEq, Prod.mk.injEq] at h
          obtain ⟨⟨rfl, rfl⟩, hrest⟩ := h
          rw [ih (by simpa using hlen) hrest]

/-- Without repetitions a doubled node is told apart from two nodes, so the pairs determine the level. -/
theorem pairs_inj {xs ys : List α} (hxs : xs.Nodup) (hys : ys.Nodup) (h : pairs xs = pairs ys) : xs = ys := by
  fun_induction pairs xs generalizing ys with
  | case1 =>
      have hlen := congrArg List.length h
      rw [List.length_nil, length_pairs] at hlen
      exact (List.length_eq_zero_iff.mp (by omega)).symm
  | case2 last =>
      match ys, h with
      | [other], h =>
          rw [pairs, List.singleton_inj, Prod.mk.injEq] at h
          rw [h.1]
      | left :: right :: rest, h =>
          rw [pairs, List.cons.injEq, Prod.mk.injEq] at h
          obtain ⟨⟨rfl, rfl⟩, -⟩ := h
          simp at hys
  | case3 left right rest ih =>
      match ys, h with
      | [other], h =>
          rw [pairs, List.cons.injEq, Prod.mk.injEq] at h
          obtain ⟨⟨rfl, rfl⟩, -⟩ := h
          simp at hxs
      | left' :: right' :: rest', h =>
          rw [pairs, List.cons.injEq, Prod.mk.injEq] at h
          obtain ⟨⟨rfl, rfl⟩, hrest⟩ := h
          rw [ih hxs.of_cons.of_cons hys.of_cons.of_cons hrest]

variable (parent : α × α → α)

def level (xs : List α) : List α := (pairs xs).map parent

/-- Levels are built until one node is left. -/
def reduce : (rounds : Nat) → List α → List α
  | 0, xs => xs
  | rounds + 1, xs => if xs.length > 1 then reduce rounds (level parent xs) else xs

/-- The pairs that the tree joins, from the leaves upwards. -/
def joined : (rounds : Nat) → List α → List (α × α)
  | 0, _ => []
  | rounds + 1, xs => if xs.length > 1 then pairs xs ++ joined rounds (level parent xs) else []

/-- Two distinct pairs of a list have one digest. -/
def Collision (ps : List (α × α)) : Prop := ∃ p ∈ ps, ∃ q ∈ ps, p ≠ q ∧ parent p = parent q

/-- A digest of the first list is the digest of a pair of the second. -/
def Meets (xs : List α) (ps : List (α × α)) : Prop := ∃ x ∈ xs, ∃ p ∈ ps, x = parent p

variable {parent} {rounds rounds' : Nat} {xs ys : List α}

theorem length_level (parent : α × α → α) (xs : List α) : (level parent xs).length = (xs.length + 1) / 2 := by
  rw [level, List.length_map, length_pairs]

theorem reduce_succ (h : 1 < xs.length) : reduce parent (rounds + 1) xs = reduce parent rounds (level parent xs) := by
  rw [reduce, if_pos h]

theorem reduce_singleton (x : α) : reduce parent rounds [x] = [x] := by
  cases rounds <;> simp [reduce]

theorem joined_succ (h : 1 < xs.length) :
    joined parent (rounds + 1) xs = pairs xs ++ joined parent rounds (level parent xs) := by
  rw [joined, if_pos h]

/-! ### Where digests come from -/

theorem fst_of_mem_joined {p : α × α} (h : p ∈ joined parent rounds xs) :
    p.1 ∈ xs ∨ ∃ q ∈ joined parent rounds xs, p.1 = parent q := by
  induction rounds generalizing xs with
  | zero => cases h
  | succ rounds ih =>
      by_cases hmany : 1 < xs.length
      · rw [joined_succ hmany] at h ⊢
        obtain hpair | habove := List.mem_append.mp h
        · exact .inl ((sublist_map_fst_pairs xs).subset (List.mem_map_of_mem hpair))
        · obtain hnode | ⟨q, hq, heq⟩ := ih habove
          · obtain ⟨q, hq, heq⟩ := List.mem_map.mp hnode
            exact .inr ⟨q, List.mem_append_left _ hq, heq.symm⟩
          · exact .inr ⟨q, List.mem_append_right _ hq, heq⟩
      · rw [joined, if_neg hmany] at h
        cases h

theorem root_of_many {root : α} (hmany : 1 < xs.length) (hrounds : xs.length ≤ rounds)
    (h : reduce parent rounds xs = [root]) : ∃ p ∈ joined parent rounds xs, root = parent p := by
  induction rounds generalizing xs with
  | zero => omega
  | succ rounds ih =>
      have hlen := length_level parent xs
      rw [reduce_succ hmany] at h
      rw [joined_succ hmany]
      by_cases habove : 1 < (level parent xs).length
      · obtain ⟨p, hp, heq⟩ := ih habove (by omega) h
        exact ⟨p, List.mem_append_right _ hp, heq⟩
      · obtain ⟨node, hnode⟩ := List.length_eq_one_iff.mp (by omega : (level parent xs).length = 1)
        rw [hnode, reduce_singleton, List.singleton_inj] at h
        have hmem : node ∈ level parent xs := by simp [hnode]
        obtain ⟨p, hp, heq⟩ := List.mem_map.mp hmem
        exact ⟨p, List.mem_append_left _ hp, h.symm.trans heq.symm⟩

theorem length_reduce (hpos : 0 < xs.length) (hrounds : xs.length ≤ rounds) : (reduce parent rounds xs).length = 1 := by
  induction rounds generalizing xs with
  | zero => omega
  | succ rounds ih =>
      rw [reduce]
      split
      · have hlen := length_level parent xs
        exact ih (by omega) (by omega)
      · omega

/-! ### Binding -/

theorem eq_of_map_eq {β γ : Type*} {f : β → γ} {ps qs : List β} (hinj : ∀ p ∈ ps, ∀ q ∈ qs, f p = f q → p = q)
    (h : ps.map f = qs.map f) : ps = qs := by
  induction ps generalizing qs with
  | nil => exact (List.map_eq_nil_iff.mp h.symm).symm
  | cons p ps ih =>
      cases qs with
      | nil => cases h
      | cons q qs =>
          rw [List.map_cons, List.map_cons, List.cons.injEq] at h
          have hhead := hinj p List.mem_cons_self q List.mem_cons_self h.1
          have htail : ps = qs := by
            apply ih _ h.2
            intro p' hp q' hq
            exact hinj p' (List.mem_cons_of_mem _ hp) q' (List.mem_cons_of_mem _ hq)
          rw [hhead, htail]

/-- **Binding for lists of one length.** A parent that tells apart the pairs of the two trees lets no two lists of one length end alike. -/
theorem reduce_inj (hlen : xs.length = ys.length)
    (hinj : ∀ p ∈ joined parent rounds xs, ∀ q ∈ joined parent rounds ys, parent p = parent q → p = q)
    (h : reduce parent rounds xs = reduce parent rounds ys) : xs = ys := by
  induction rounds generalizing xs ys with
  | zero => exact h
  | succ rounds ih =>
      by_cases hmany : 1 < xs.length
      · have hmany' : 1 < ys.length := hlen ▸ hmany
        rw [reduce_succ hmany, reduce_succ hmany'] at h
        rw [joined_succ hmany, joined_succ hmany'] at hinj
        have hlevel : level parent xs = level parent ys := by
          apply ih _ _ h
          · rw [length_level, length_level, hlen]
          · intro p hp q hq
            exact hinj p (List.mem_append_right _ hp) q (List.mem_append_right _ hq)
        refine pairs_inj_of_length_eq hlen (eq_of_map_eq (fun p hp q hq => ?_) hlevel)
        exact hinj p (List.mem_append_left _ hp) q (List.mem_append_left _ hq)
      · have hmany' : ¬ 1 < ys.length := hlen ▸ hmany
        rwa [reduce, reduce, if_neg hmany, if_neg hmany'] at h

theorem nodup_level {ps : List (α × α)} (hcollision : ¬ Collision parent ps) (hsub : pairs xs ⊆ ps) (hxs : xs.Nodup) :
    (level parent xs).Nodup := by
  refine (nodup_pairs hxs).map_on ?_
  intro p hp q hq heq
  by_contra hne
  exact hcollision ⟨p, hsub hp, q, hsub hq, hne, heq⟩

theorem pairs_eq_of_level_eq {ps : List (α × α)} (hcollision : ¬ Collision parent ps) (hxs : pairs xs ⊆ ps)
    (hys : pairs ys ⊆ ps) (h : level parent xs = level parent ys) : pairs xs = pairs ys := by
  apply eq_of_map_eq _ h
  intro p hp q hq heq
  by_contra hne
  exact hcollision ⟨p, hxs hp, q, hys hq, hne, heq⟩

/-- Without a collision a leaf meets the other tree as soon as an inner node meets it above. -/
theorem Meets.descend {ps : List (α × α)} (hcollision : ¬ Collision parent ps) (hmany : 1 < ys.length)
    (hxs : pairs xs ⊆ ps) (hys : joined parent (rounds + 1) ys ⊆ ps)
    (h : Meets parent (level parent xs) (joined parent rounds (level parent ys))) :
    Meets parent xs (joined parent (rounds + 1) ys) := by
  rw [joined_succ hmany] at hys ⊢
  obtain ⟨node, hnode, q, hq, heq⟩ := h
  obtain ⟨p, hp, rfl⟩ := List.mem_map.mp hnode
  -- the two pairs are one, so the left leaf of the first is a node of the other tree above its leaves
  have hpq : p = q := by
    by_contra hne
    exact hcollision ⟨p, hxs hp, q, hys (List.mem_append_right _ hq), hne, heq⟩
  have hleaf : p.1 ∈ xs := (sublist_map_fst_pairs xs).subset (List.mem_map_of_mem hp)
  obtain hlevel | ⟨r, hr, hfst⟩ := fst_of_mem_joined hq
  · obtain ⟨r, hr, hfst⟩ := List.mem_map.mp hlevel
    exact ⟨p.1, hleaf, r, List.mem_append_left _ hr, by rw [hpq, hfst]⟩
  · exact ⟨p.1, hleaf, r, List.mem_append_right _ hr, by rw [hpq, hfst]⟩

/-- **Binding.** Lists without repetitions that end in one root are equal, or the trees have joined two distinct pairs to one digest, or a leaf of one tree is the digest of a pair of the other. -/
theorem eq_of_reduce_eq (hxs : xs.Nodup) (hys : ys.Nodup) (hposx : 0 < xs.length) (hposy : 0 < ys.length)
    (hrounds : xs.length ≤ rounds) (hrounds' : ys.length ≤ rounds')
    (h : reduce parent rounds xs = reduce parent rounds' ys) :
    xs = ys ∨ Collision parent (joined parent rounds xs ++ joined parent rounds' ys) ∨
      Meets parent xs (joined parent rounds' ys) ∨ Meets parent ys (joined parent rounds xs) := by
  induction rounds generalizing rounds' xs ys with
  | zero => omega
  | succ rounds ih =>
      obtain ⟨rounds', rfl⟩ : ∃ k, rounds' = k + 1 := ⟨rounds' - 1, by omega⟩
      by_cases hcollision : Collision parent (joined parent (rounds + 1) xs ++ joined parent (rounds' + 1) ys)
      · exact .inr (.inl hcollision)
      by_cases hmanyx : 1 < xs.length
      · by_cases hmanyy : 1 < ys.length
        · have hsubx : joined parent (rounds + 1) xs ⊆
              joined parent (rounds + 1) xs ++ joined parent (rounds' + 1) ys := List.subset_append_left _ _
          have hsuby : joined parent (rounds' + 1) ys ⊆
              joined parent (rounds + 1) xs ++ joined parent (rounds' + 1) ys := List.subset_append_right _ _
          have hpairsx : pairs xs ⊆ joined parent (rounds + 1) xs ++ joined parent (rounds' + 1) ys := by
            rw [joined_succ hmanyx, List.append_assoc]
            exact List.subset_append_left _ _
          have hpairsy : pairs ys ⊆ joined parent (rounds + 1) xs ++ joined parent (rounds' + 1) ys := by
            rw [joined_succ hmanyy]
            exact List.subset_append_of_subset_right _ (List.subset_append_left _ _)
          have hlenx := length_level parent xs
          have hleny := length_level parent ys
          rw [reduce_succ hmanyx, reduce_succ hmanyy] at h
          obtain hlevel | habove | hmeets | hmeets := ih (nodup_level hcollision hpairsx hxs)
            (nodup_level hcollision hpairsy hys) (by omega) (by omega) (by omega) (by omega) h
          · exact .inl (pairs_inj hxs hys (pairs_eq_of_level_eq hcollision hpairsx hpairsy hlevel))
          · obtain ⟨p, hp, q, hq, hne, heq⟩ := habove
            rw [joined_succ hmanyx, joined_succ hmanyy] at hcollision
            refine absurd ⟨p, ?_, q, ?_, hne, heq⟩ hcollision
            · simp only [List.mem_append] at hp ⊢
              tauto
            · simp only [List.mem_append] at hq ⊢
              tauto
          · exact .inr (.inr (.inl (hmeets.descend hcollision hmanyy hpairsx hsuby)))
          · exact .inr (.inr (.inr (hmeets.descend hcollision hmanyx hpairsy hsubx)))
        · obtain ⟨y, rfl⟩ := List.length_eq_one_iff.mp (by omega : ys.length = 1)
          rw [reduce_singleton] at h
          obtain ⟨p, hp, heq⟩ := root_of_many hmanyx hrounds h
          exact .inr (.inr (.inr ⟨y, List.mem_singleton_self y, p, hp, heq⟩))
      · obtain ⟨x, rfl⟩ := List.length_eq_one_iff.mp (by omega : xs.length = 1)
        rw [reduce_singleton] at h
        by_cases hmanyy : 1 < ys.length
        · obtain ⟨p, hp, heq⟩ := root_of_many hmanyy hrounds' h.symm
          exact .inr (.inr (.inl ⟨x, List.mem_singleton_self x, p, hp, heq⟩))
        · obtain ⟨y, rfl⟩ := List.length_eq_one_iff.mp (by omega : ys.length = 1)
          rw [reduce_singleton] at h
          exact .inl h

end PaddedTree

end QuantumVault
