import QuantumVault.Consensus.ChainState
import QuantumVault.Lib.TreeMap

/-!
# Walks along parent links

Both walks of the chain state, the ancestor test and the search for the block to finalize, follow parent links from one block. This module turns them into statements without any bound on the number of rounds, says how they survive the insertion of a new block, and how the two compose.
-/

namespace QuantumVault

namespace ChainState

abbrev Entries := Std.ExtTreeMap BlockHash ChainEntry

variable {E : Entries} {ancestor final current : BlockHash} {t f target : Height} {e : ChainEntry}

def ParentLink (E : Entries) (child parent : BlockHash) : Prop :=
  ∃ e, E[child]? = some e ∧ e.parentHash = parent

/-- The first block is the second or is reached from it by following parent links backwards. -/
def Descends (E : Entries) (descendant ancestor : BlockHash) : Prop :=
  Relation.ReflTransGen (ParentLink E) descendant ancestor

/-- The ancestor walk from a block ends at the ancestor, passing only blocks above a height. -/
inductive Reaches (E : Entries) (ancestor : BlockHash) (t : Height) : BlockHash → Prop where
  | refl : Reaches E ancestor t ancestor
  | tail {current : BlockHash} {e : ChainEntry} (he : E[current]? = some e) (hlt : t < e.height)
      (hself : current ≠ e.parentHash) (hrest : Reaches E ancestor t e.parentHash) : Reaches E ancestor t current

/-- The finality walk from a block ends at a block of the target height. -/
inductive Finds (E : Entries) (target : Height) (found : BlockHash) : BlockHash → Prop where
  | here {e : ChainEntry} (he : E[found]? = some e) (hheight : e.height = target) : Finds E target found found
  | tail {current : BlockHash} {e : ChainEntry} (he : E[current]? = some e) (hlt : target < e.height)
      (hself : current ≠ e.parentHash) (hrest : Finds E target found e.parentHash) : Finds E target found current

/-! ### The rounds granted to a walk are enough -/

theorem ancestorStep_eq_inl {next : BlockHash} :
    ancestorStep E ancestor t current = .inl next ↔
      current ≠ ancestor ∧ ∃ e, E[current]? = some e ∧ t < e.height ∧ current ≠ e.parentHash ∧ e.parentHash = next := by
  unfold ancestorStep
  split
  · simp_all
  · rename_i hne
    split
    · rename_i hnone
      simp [hnone]
    · rename_i e he
      split
      · rename_i hle
        simp [he, UInt64.not_lt.mpr hle]
      · rename_i hlt
        split
        · rename_i hself
          simp only [reduceCtorEq, he, Option.some.injEq, exists_eq_left', false_iff]
          tauto
        · rename_i hself
          simp only [Sum.inl.injEq, he, Option.some.injEq, exists_eq_left']
          have := UInt64.not_le.mp hlt
          tauto

theorem ancestorStep_eq_true : ancestorStep E ancestor t current = .inr true ↔ current = ancestor := by
  unfold ancestorStep
  split
  · simp_all
  · rename_i hne
    split
    · simp [hne]
    · split
      · simp [hne]
      · split <;> simp [hne]

theorem finalityStep_eq_inl {next : BlockHash} :
    finalityStep E target current = .inl next ↔
      ∃ e, E[current]? = some e ∧ target < e.height ∧ current ≠ e.parentHash ∧ e.parentHash = next := by
  unfold finalityStep
  split
  · rename_i hnone
    simp [hnone]
  · rename_i e he
    simp only [he, Option.some.injEq, exists_eq_left']
    split
    · rename_i heq
      simp [heq]
    · rename_i hne
      split
      · rename_i hstop
        simp only [reduceCtorEq, false_iff, not_and]
        intro hlt hself
        rcases hstop with hbelow | hself'
        · exact absurd hbelow (UInt64.not_lt.mpr (UInt64.le_of_lt hlt))
        · exact absurd hself' hself
      · rename_i hgo
        push Not at hgo
        have hlt : target < e.height := UInt64.lt_of_le_of_ne (UInt64.not_lt.mp hgo.1) (Ne.symm hne)
        simp [hlt, hgo.2]

theorem finalityStep_eq_some {found : BlockHash × Height} :
    finalityStep E target current = .inr (some found) ↔
      ∃ e, E[current]? = some e ∧ e.height = target ∧ found = (current, target) := by
  unfold finalityStep
  split
  · rename_i hnone
    simp [hnone]
  · rename_i e he
    simp only [he, Option.some.injEq, exists_eq_left']
    split
    · rename_i heq
      simp only [heq, Sum.inr.injEq, Option.some.injEq, true_and]
      exact eq_comm
    · rename_i hne
      split <;> simp [hne]

private theorem returns_ancestorStep_iff :
    Loop.Returns (ancestorStep E ancestor t) current true ↔ Reaches E ancestor t current := by
  constructor
  · intro h
    generalize hb : true = b at h
    induction h with
    | done hdone =>
        subst hb
        exact ancestorStep_eq_true.mp hdone ▸ .refl
    | next hnext _ ih =>
        obtain ⟨_, e, he, hlt, hself, rfl⟩ := ancestorStep_eq_inl.mp hnext
        exact .tail he hlt hself (ih hb)
  · intro h
    induction h with
    | refl => exact .done (ancestorStep_eq_true.mpr rfl)
    | @tail current e he hlt hself _ ih =>
        by_cases hdone : current = ancestor
        · exact .done (ancestorStep_eq_true.mpr hdone)
        · exact .next (ancestorStep_eq_inl.mpr ⟨hdone, e, he, hlt, hself, rfl⟩) ih

private theorem returns_finalityStep_iff {found : BlockHash × Height} :
    Loop.Returns (finalityStep E target) current (some found) ↔ found.2 = target ∧ Finds E target found.1 current := by
  constructor
  · intro h
    generalize hb : some found = b at h
    induction h with
    | done hdone =>
        subst hb
        obtain ⟨e, he, hheight, rfl⟩ := finalityStep_eq_some.mp hdone
        exact ⟨rfl, .here he hheight⟩
    | next hnext _ ih =>
        obtain ⟨e, he, hlt, hself, rfl⟩ := finalityStep_eq_inl.mp hnext
        exact ⟨(ih hb).1, .tail he hlt hself (ih hb).2⟩
  · obtain ⟨hash, height⟩ := found
    intro h'
    obtain ⟨rfl, h⟩ := h'
    induction h with
    | here he hheight => exact .done (finalityStep_eq_some.mpr ⟨_, he, hheight, rfl⟩)
    | tail he hlt hself _ ih => exact .next (finalityStep_eq_inl.mpr ⟨_, he, hlt, hself, rfl⟩) ih

private theorem mem_keys_of_getElem? {h : BlockHash} (he : E[h]? = some e) : h ∈ E.keys.toFinset := by
  rw [List.mem_toFinset, Std.ExtTreeMap.mem_keys]
  exact TreeMap.mem_of_getElem? he

private theorem card_keys_lt : E.keys.toFinset.card < E.size + 1 := by
  have hle := List.toFinset_card_le E.keys
  rw [Std.ExtTreeMap.length_keys] at hle
  omega

/-- **The ancestor test answers yes exactly when the walk gets there.** -/
theorem isAncestor_eq_true {s : ChainState} {ancestor descendant : BlockHash} :
    s.isAncestor ancestor descendant = some true ↔
      ∃ e, s.entries[ancestor]? = some e ∧ Reaches s.entries ancestor e.height descendant := by
  unfold isAncestor
  split
  · rename_i hnone
    simp [hnone]
  · rename_i e he
    have hstep : ∀ x y, ancestorStep s.entries ancestor e.height x = .inl y → x ∈ s.entries.keys.toFinset := by
      intro x y hxy
      obtain ⟨_, e', he', _⟩ := ancestorStep_eq_inl.mp hxy
      exact mem_keys_of_getElem? he'
    rw [Loop.run_eq_some_iff hstep card_keys_lt, returns_ancestorStep_iff]
    simp [he]

/-- **The search for the block to finalize finds what the walk from the tip finds.** -/
theorem findFinal_eq_some {s : ChainState} {target : Height} {found : BlockHash × Height} :
    s.findFinal target = some (some found) ↔ found.2 = target ∧ Finds s.entries target found.1 s.tipHash := by
  have hstep : ∀ x y, finalityStep s.entries target x = .inl y → x ∈ s.entries.keys.toFinset := by
    intro x y hxy
    obtain ⟨e', he', _⟩ := finalityStep_eq_inl.mp hxy
    exact mem_keys_of_getElem? he'
  rw [← returns_finalityStep_iff]
  exact Loop.run_eq_some_iff hstep card_keys_lt

/-! ### Reading a walk -/

theorem Reaches.eq_or (h : Reaches E ancestor t current) :
    current = ancestor ∨ ∃ e, E[current]? = some e ∧ t < e.height ∧ Reaches E ancestor t e.parentHash := by
  cases h with
  | refl => exact Or.inl rfl
  | tail he hlt _ hrest => exact Or.inr ⟨_, he, hlt, hrest⟩

theorem Finds.eq_or (h : Finds E target final current) :
    (current = final ∧ ∃ e, E[current]? = some e ∧ e.height = target) ∨
      ∃ e, E[current]? = some e ∧ target < e.height ∧ Finds E target final e.parentHash := by
  cases h with
  | here he hheight => exact Or.inl ⟨rfl, _, he, hheight⟩
  | tail he hlt _ hrest => exact Or.inr ⟨_, he, hlt, hrest⟩

theorem Reaches.descends (h : Reaches E ancestor t current) : Descends E current ancestor := by
  induction h with
  | refl => exact .refl
  | tail he _ _ _ ih => exact .head ⟨_, he, rfl⟩ ih

theorem Finds.descends (h : Finds E target final current) : Descends E current final := by
  induction h with
  | here => exact .refl
  | tail he _ _ _ ih => exact .head ⟨_, he, rfl⟩ ih

theorem Finds.reaches (h : Finds E target final current) : Reaches E final target current := by
  induction h with
  | here => exact .refl
  | tail he hlt hself _ ih => exact .tail he hlt hself ih

theorem Finds.getElem? (h : Finds E target final current) : ∃ e, E[final]? = some e ∧ e.height = target := by
  induction h with
  | here he hheight => exact ⟨_, he, hheight⟩
  | tail _ _ _ _ ih => exact ih

theorem Finds.unique {found found' : BlockHash} (h : Finds E target found current)
    (h' : Finds E target found' current) : found = found' := by
  induction h with
  | here he hheight =>
      cases h' with
      | here => rfl
      | tail he' hlt' =>
          rw [he, Option.some.injEq] at he'
          subst he'
          exact absurd hlt' (by simp [hheight])
  | tail he hlt _ _ ih =>
      cases h' with
      | here he' hheight' =>
          rw [he, Option.some.injEq] at he'
          subst he'
          exact absurd hlt (by simp [hheight'])
      | tail he' _ _ hrest' =>
          rw [he, Option.some.injEq] at he'
          subst he'
          exact ih hrest'

/-! ### Inserting a new block -/

theorem getElem?_insert_of_fresh {h : BlockHash} {entry e' : ChainEntry} (hfresh : entry.hash ∉ E)
    (he : E[h]? = some e') : (E.insert entry.hash entry)[h]? = some e' := by
  have hne : entry.hash ≠ h := by
    rintro rfl
    exact hfresh (TreeMap.mem_of_getElem? he)
  rw [TreeMap.getElem?_insert_of_ne hne, he]

section Insert

variable {entry : ChainEntry} (hfresh : entry.hash ∉ E)

include hfresh

theorem Reaches.insert (h : Reaches E ancestor t current) : Reaches (E.insert entry.hash entry) ancestor t current := by
  induction h with
  | refl => exact .refl
  | tail he hlt hself _ ih => exact .tail (getElem?_insert_of_fresh hfresh he) hlt hself ih

theorem Finds.insert (h : Finds E target final current) : Finds (E.insert entry.hash entry) target final current := by
  induction h with
  | here he hheight => exact .here (getElem?_insert_of_fresh hfresh he) hheight
  | tail he hlt hself _ ih => exact .tail (getElem?_insert_of_fresh hfresh he) hlt hself ih

theorem Descends.insert {descendant : BlockHash} (h : Descends E descendant ancestor) :
    Descends (E.insert entry.hash entry) descendant ancestor := by
  refine Relation.ReflTransGen.mono ?_ _ _ h
  rintro child parent ⟨e, he, hparent⟩
  exact ⟨e, getElem?_insert_of_fresh hfresh he, hparent⟩

end Insert

/-! ### Composing walks -/

theorem Reaches.trans (hupper : Reaches E final f current) (hlower : Reaches E ancestor t final) (hle : t ≤ f) :
    Reaches E ancestor t current := by
  induction hupper with
  | refl => exact hlower
  | tail he hlt hself _ ih => exact .tail he (UInt64.lt_of_le_of_lt hle hlt) hself ih

theorem Reaches.of_finds {found : BlockHash} (hfinds : Finds E target found current)
    (hreach : Reaches E final f current) (hfinal : E[final]? = some e) (hheight : e.height = f) (hlt : f < target) :
    Reaches E final f found := by
  induction hfinds with
  | here => exact hreach
  | tail he' habove _ _ ih =>
      cases hreach with
      | refl =>
          rw [hfinal, Option.some.injEq] at he'
          subst he'
          exact absurd (hheight ▸ habove) (UInt64.lt_asymm hlt)
      | tail he'' _ _ hrest =>
          rw [he', Option.some.injEq] at he''
          subst he''
          exact ih hrest

theorem Reaches.unique {a b : BlockHash} {ea eb : ChainEntry} (ha : E[a]? = some ea) (hb : E[b]? = some eb)
    (hheight : ea.height = eb.height) (hreachA : Reaches E a ea.height current)
    (hreachB : Reaches E b eb.height current) : a = b := by
  induction hreachA with
  | refl =>
      cases hreachB with
      | refl => rfl
      | tail he hlt =>
          rw [ha, Option.some.injEq] at he
          subst he
          exact absurd hlt (by simp [hheight])
  | tail he hlt _ _ ih =>
      cases hreachB with
      | refl =>
          rw [hb, Option.some.injEq] at he
          subst he
          exact absurd hlt (by simp [hheight])
      | tail he' _ _ hrest =>
          rw [he, Option.some.injEq] at he'
          subst he'
          exact ih hrest

end ChainState

end QuantumVault
