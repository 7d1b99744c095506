import QuantumVault.Lib.Ledger

/-!
# Where unspent items come from

In many ledgers every item carries an identifier, and the keys an item creates name it as their owner. As long as no two items share an identifier, a key that has been spent never comes back: only the same item could create it again, and what that item spends is gone.

The second part is about items that do not depend on each other. They can be made in any order, and each finds what it spends as it was at the start.
-/

namespace QuantumVault

namespace Ledger

open TreeMap

universe u v w

variable {K : Type u} {V : Type v} {ι : Type w} {I : Type*} [Ord K] [Std.TransOrd K]

/-! ### The past of a ledger -/

/-- Every unspent key was created by an item of the past, and nothing an item of the past has spent is unspent. -/
structure History (ident : ι → I) (owner : K → I) (move : ι → Move K V) (past : List ι) (view : Std.ExtTreeMap K V) :
    Prop where
  origin : ∀ k ∈ view, ∃ x ∈ past, ident x = owner k
  spent : ∀ x ∈ past, ∀ k ∈ (move x).spends, k ∉ view
  sources : ∀ x ∈ past, ∀ k ∈ (move x).spends, ∃ y ∈ past, ident y = owner k

variable {ident : ι → I} {owner : K → I} {move : ι → Move K V} {past xs : List ι} {view : Std.ExtTreeMap K V}
  {gone : List K} {x : ι}

theorem History.empty : History ident owner move [] (∅ : Std.ExtTreeMap K V) := by
  refine ⟨?_, ?_, ?_⟩ <;> simp

/-- An item that spends something unspent is not an item of the past. -/
theorem History.fresh (h : History ident owner move past view) (hident : ∀ y ∈ past, ident y = ident x → y = x)
    (hmem : ∀ k ∈ (move x).spends, k ∈ view) (hspends : (move x).spends ≠ []) : ∀ y ∈ past, ident y ≠ ident x := by
  intro y hy heq
  obtain ⟨k, hk⟩ := List.exists_mem_of_ne_nil _ hspends
  have hsame := hident y hy heq
  subst hsame
  exact h.spent y hy k hk (hmem k hk)

variable [Std.LawfulEqOrd K]

/-- **Step lemma.** A new item adds to the past. -/
theorem History.advance (h : History ident owner move past view)
    (howner : ∀ k ∈ (move x).created, owner k = ident x) (hadm : Admissible view gone (move x))
    (hfresh : ∀ y ∈ past, ident y ≠ ident x) : History ident owner move (past ++ [x]) (Ledger.advance view (move x)) := by
  refine ⟨?_, ?_, ?_⟩
  · intro k hk
    rcases mem_advance.mp hk with hcreated | ⟨hold, -⟩
    · exact ⟨x, by simp, (howner k hcreated).symm⟩
    · obtain ⟨y, hy, heq⟩ := h.origin k hold
      exact ⟨y, List.mem_append_left _ hy, heq⟩
  · intro y hy k hk
    rcases List.mem_append.mp hy with hpast | hself
    · intro hmem
      rcases mem_advance.mp hmem with hcreated | ⟨hold, -⟩
      · -- the key would belong both to the new item and to one of the past
        obtain ⟨z, hz, hzk⟩ := h.sources y hpast k hk
        exact hfresh z hz (hzk.trans (howner k hcreated))
      · exact h.spent y hpast k hk hold
    · rw [List.mem_singleton.mp hself] at hk
      exact hadm.notMem_advance hk
  · intro y hy k hk
    have hsource : ∃ z ∈ past, ident z = owner k := by
      rcases List.mem_append.mp hy with hpast | hself
      · exact h.sources y hpast k hk
      · rw [List.mem_singleton.mp hself] at hk
        exact h.origin k (hadm.spends_mem k hk)
    obtain ⟨z, hz, heq⟩ := hsource
    exact ⟨z, List.mem_append_left _ hz, heq⟩

/-- **Run lemma.** A valid list of items that all spend something is new and adds to the past. -/
theorem History.advanceAll (h : History ident owner move past view)
    (howner : ∀ x ∈ xs, ∀ k ∈ (move x).created, owner k = ident x) (hvalid : Valid move view gone xs)
    (hident : ∀ x ∈ past ++ xs, ∀ y ∈ past ++ xs, ident x = ident y → x = y)
    (hspends : ∀ x ∈ xs, (move x).spends ≠ []) :
    History ident owner move (past ++ xs) (Ledger.advanceAll move view xs) ∧
      ∀ x ∈ xs, ∀ y ∈ past, ident y ≠ ident x := by
  induction xs generalizing past view gone with
  | nil =>
      rw [List.append_nil]
      exact ⟨h, by simp⟩
  | cons x xs ih =>
      obtain ⟨hadm, hrest⟩ := hvalid
      rw [List.forall_mem_cons] at howner hspends
      have hfresh := h.fresh
        (fun y hy heq => hident y (List.mem_append_left _ hy) x (by simp) heq) hadm.spends_mem hspends.1
      have hstep := h.advance howner.1 hadm hfresh
      rw [List.append_cons] at hident ⊢
      obtain ⟨hall, hnew⟩ := ih hstep howner.2 hrest hident hspends.2
      refine ⟨hall, List.forall_mem_cons.mpr ⟨hfresh, fun z hz y hy => ?_⟩⟩
      exact hnew z hz y (List.mem_append_left _ hy)

/-! ### Independent items -/

/-- Each item spends keys of the ledger and creates new ones, and no two of them touch the same key. -/
structure Independent (move : ι → Move K V) (view : Std.ExtTreeMap K V) (xs : List ι) : Prop where
  spends_nodup : ∀ x ∈ xs, (move x).spends.Nodup
  spends_mem : ∀ x ∈ xs, ∀ k ∈ (move x).spends, k ∈ view
  created_nodup : ∀ x ∈ xs, (move x).created.Nodup
  created_fresh : ∀ x ∈ xs, ∀ k ∈ (move x).created, k ∉ view
  spends_disjoint : xs.Pairwise fun x y => ∀ k ∈ (move x).spends, k ∉ (move y).spends
  created_disjoint : xs.Pairwise fun x y => ∀ k ∈ (move x).created, k ∉ (move y).created

omit [Std.LawfulEqOrd K] in
theorem Independent.admissible (h : Independent move view (x :: xs)) (hgone : ∀ k ∈ (move x).created, k ∉ gone) :
    Admissible view gone (move x) :=
  ⟨h.spends_nodup x List.mem_cons_self, h.spends_mem x List.mem_cons_self, h.created_nodup x List.mem_cons_self,
    fun k hk => ⟨h.created_fresh x List.mem_cons_self k hk, hgone k hk⟩⟩

theorem Independent.tail (h : Independent move view (x :: xs)) : Independent move (Ledger.advance view (move x)) xs := by
  have hspends := List.pairwise_cons.mp h.spends_disjoint
  have hcreated := List.pairwise_cons.mp h.created_disjoint
  refine ⟨fun y hy => h.spends_nodup y (List.mem_cons_of_mem x hy), ?_,
    fun y hy => h.created_nodup y (List.mem_cons_of_mem x hy), ?_, hspends.2, hcreated.2⟩
  · intro y hy k hk
    exact mem_advance.mpr (Or.inr ⟨h.spends_mem y (List.mem_cons_of_mem x hy) k hk, fun hx => hspends.1 y hy k hx hk⟩)
  · intro y hy k hk hmem
    rcases mem_advance.mp hmem with hx | ⟨hview, -⟩
    · exact hcreated.1 y hy k hx hk
    · exact h.created_fresh y (List.mem_cons_of_mem x hy) k hk hview

theorem Independent.valid (h : Independent move view xs) (hgone : ∀ x ∈ xs, ∀ k ∈ (move x).created, k ∉ gone) :
    Valid move view gone xs := by
  induction xs generalizing view gone with
  | nil => trivial
  | cons x xs ih =>
      rw [List.forall_mem_cons] at hgone
      refine ⟨h.admissible hgone.1, ih h.tail ?_⟩
      intro y hy k hk hmem
      rcases List.mem_append.mp hmem with hold | hspent
      · exact hgone.2 y hy k hk hold
      · exact h.created_fresh y (List.mem_cons_of_mem x hy) k hk (h.spends_mem x List.mem_cons_self k hspent)

theorem Independent.getElem?_meets (h : Independent move view xs) :
    ∀ p ∈ meets move view xs, ∀ k ∈ (move p.2).spends, p.1[k]? = view[k]? := by
  induction xs generalizing view with
  | nil => simp [meets]
  | cons x xs ih =>
      intro p hp k hk
      rcases List.mem_cons.mp hp with rfl | hp
      · rfl
      · have hy := mem_of_mem_meets hp
        rw [ih h.tail p hp k hk]
        refine getElem?_advance_of_notMem (fun hcreated => ?_) fun hspent => ?_
        · exact h.created_fresh x List.mem_cons_self k hcreated (h.spends_mem p.2 (List.mem_cons_of_mem x hy) k hk)
        · exact (List.pairwise_cons.mp h.spends_disjoint).1 p.2 hy k hspent hk

end Ledger

end QuantumVault
