import QuantumVault.Proof.Chain.Walk

/-!
# What one call of `addBlock` does

One inversion lemma for the whole function: a call is rejected and changes nothing, or it inserts the block, moves the tip if the fork choice prefers the block, and moves the finalized point if the walk from the new tip finds a block to finalize. Every invariant of the chain state is proved from this lemma.
-/

namespace QuantumVault

namespace ChainState

def Prefers (s : ChainState) (entry : ChainEntry) : Prop :=
  s.tip.height < entry.height ∨ (entry.height = s.tip.height ∧ Hash256.lt entry.hash s.tipHash = true)

/-- The finalized point after the tip of `s` moved: at the block the walk finds for a target above the old point, and otherwise where it was. -/
def FinalityMoves (s s' : ChainState) : Prop :=
  (∃ target, Word.checkedSub s.tip.height s.kFinality = some target ∧ s.finalHeight < target ∧
      Finds s.entries target s'.finalHash s.tipHash ∧ s'.finalHeight = target) ∨
    (s'.finalHash = s.finalHash ∧ s'.finalHeight = s.finalHeight ∧
      ∀ target found, Word.checkedSub s.tip.height s.kFinality = some target → s.finalHeight < target →
        ¬ Finds s.entries target found s.tipHash)

/-- The state right after an accepted block became the tip, before finality is looked at. -/
structure TipMoved (s : ChainState) (entry : ChainEntry) (s' : ChainState) : Prop where
  entries_eq : s'.entries = s.entries.insert entry.hash entry
  tip_eq : s'.tipHash = entry.hash
  k_eq : s'.kFinality = s.kFinality
  finalHash_eq : s'.finalHash = s.finalHash
  finalHeight_eq : s'.finalHeight = s.finalHeight

structure Accepted (s : ChainState) (entry : ChainEntry) (s' : ChainState) : Prop where
  fresh : entry.hash ∉ s.entries
  checked : entry.hash ≠ .zero →
    entry.parentHash ∈ s.entries ∧ s.isAncestor s.finalHash entry.parentHash = some true
  entries_eq : s'.entries = s.entries.insert entry.hash entry
  k_eq : s'.kFinality = s.kFinality
  outcome : (¬ s.Prefers entry ∧ s'.tipHash = s.tipHash ∧ s'.finalHash = s.finalHash ∧
      s'.finalHeight = s.finalHeight) ∨
    (s.Prefers entry ∧ s'.tipHash = entry.hash ∧ ∃ mid, TipMoved s entry mid ∧ FinalityMoves mid s')

theorem getElem?_tipHash (s : ChainState) : s.entries[s.tipHash]? = some s.tip :=
  Std.ExtTreeMap.getElem?_eq_some_getElem s.tip_mem

private theorem advanceFinality_spec (s : ChainState) :
    s.advanceFinality.entries = s.entries ∧ s.advanceFinality.tipHash = s.tipHash ∧
      s.advanceFinality.kFinality = s.kFinality ∧ FinalityMoves s s.advanceFinality := by
  unfold advanceFinality
  split
  · rename_i hnone
    refine ⟨rfl, rfl, rfl, Or.inr ⟨rfl, rfl, fun target found htarget => ?_⟩⟩
    exact absurd (hnone.symm.trans htarget) (by simp)
  · rename_i target htarget
    split
    · rename_i hle
      refine ⟨rfl, rfl, rfl, Or.inr ⟨rfl, rfl, fun target' found htarget' hlt => ?_⟩⟩
      cases htarget.symm.trans htarget'
      exact absurd hlt (UInt64.not_lt.mpr hle)
    · rename_i hlt
      split
      · rename_i hash height hfound
        obtain ⟨rfl, hfinds⟩ := findFinal_eq_some.mp hfound
        exact ⟨rfl, rfl, rfl, Or.inl ⟨height, htarget, UInt64.not_le.mp hlt, hfinds, rfl⟩⟩
      · rename_i hnone
        refine ⟨rfl, rfl, rfl, Or.inr ⟨rfl, rfl, fun target' found htarget' _ hfinds => ?_⟩⟩
        cases htarget.symm.trans htarget'
        exact hnone found target (findFinal_eq_some.mpr ⟨rfl, hfinds⟩)

private theorem recordEquivocation_fields (s : ChainState) (slot : Slot) (producer : Hash256) (hash : BlockHash) :
    let s' := s.recordEquivocation slot producer hash
    s'.tipHash = s.tipHash ∧ s'.kFinality = s.kFinality ∧ s'.finalHash = s.finalHash ∧
      s'.finalHeight = s.finalHeight := by
  simp only [recordEquivocation]
  split
  · split <;> exact ⟨rfl, rfl, rfl, rfl⟩
  · exact ⟨rfl, rfl, rfl, rfl⟩

private theorem becomesTip_iff (s : ChainState) (entry : ChainEntry) : s.becomesTip entry = true ↔ s.Prefers entry := by
  unfold becomesTip Prefers tipHeight
  rcases hcmp : compare entry.height s.tip.height with _ | _ | _
  · have hlt := Std.compare_eq_lt.mp hcmp
    have hne : entry.height ≠ s.tip.height := UInt64.ne_of_lt hlt
    simp [hne, UInt64.lt_asymm hlt]
  · have heq := Std.LawfulEqOrd.eq_of_compare hcmp
    simp [heq]
  · have hgt := Std.compare_eq_gt.mp hcmp
    simp [hgt]

private theorem accepted_of_inserted {s s' : ChainState} {entry : ChainEntry} (hfresh : entry.hash ∉ s.entries)
    (hchecked : entry.hash ≠ .zero →
      entry.parentHash ∈ s.entries ∧ s.isAncestor s.finalHash entry.parentHash = some true)
    (hentries : s'.entries = s.entries.insert entry.hash entry) (hmem : entry.hash ∈ s'.entries)
    (htip : s'.tipHash = s.tipHash) (hk : s'.kFinality = s.kFinality) (hhash : s'.finalHash = s.finalHash)
    (hheight : s'.finalHeight = s.finalHeight) :
    ∃ b t, (if s'.becomesTip entry then (.ok true, (s'.withTip entry.hash hmem).advanceFinality)
      else (.ok false, s') : Except ChainError Bool × ChainState) = (.ok b, t) ∧ Accepted s entry t := by
  have htipEntry : s'.tip = s.tip := by
    have hnew := s'.getElem?_tipHash
    rw [htip, hentries] at hnew
    exact Option.some.inj (hnew.symm.trans (getElem?_insert_of_fresh hfresh s.getElem?_tipHash))
  have hprefers : s'.becomesTip entry = true ↔ s.Prefers entry := by
    rw [becomesTip_iff, Prefers, Prefers, htipEntry, htip]
  split
  · rename_i hbetter
    obtain ⟨hadvEntries, hadvTip, hadvK, hmoves⟩ := advanceFinality_spec (s'.withTip entry.hash hmem)
    exact ⟨_, _, rfl, {
      fresh := hfresh
      checked := hchecked
      entries_eq := hadvEntries.trans hentries
      k_eq := hadvK.trans hk
      outcome := Or.inr ⟨hprefers.mp hbetter, hadvTip, s'.withTip entry.hash hmem,
        ⟨hentries, rfl, hk, hhash, hheight⟩, hmoves⟩ }⟩
  · rename_i hnot
    exact ⟨_, _, rfl, {
      fresh := hfresh
      checked := hchecked
      entries_eq := hentries
      k_eq := hk
      outcome := Or.inl ⟨mt hprefers.mpr hnot, htip, hhash, hheight⟩ }⟩

/-- **One call of `addBlock`.** -/
theorem addBlock_cases (s : ChainState) (entry : ChainEntry) :
    (∃ err, s.addBlock entry = (.error err, s)) ∨
      ∃ b s', s.addBlock entry = (.ok b, s') ∧ Accepted s entry s' := by
  unfold addBlock
  split
  · exact Or.inl ⟨_, rfl⟩
  rename_i hparent
  split
  · exact Or.inl ⟨_, rfl⟩
  rename_i hfresh
  split
  · exact Or.inl ⟨_, rfl⟩
  rename_i hfinal
  have hchecked : entry.hash ≠ .zero →
      entry.parentHash ∈ s.entries ∧ s.isAncestor s.finalHash entry.parentHash = some true := by
    intro hne
    exact ⟨by_contra fun hmem => hparent ⟨hmem, hne⟩, by_contra fun hanc => hfinal ⟨hne, hanc⟩⟩
  obtain ⟨htip, hk, hhash, hheight⟩ :=
    recordEquivocation_fields (s.insertEntry entry) entry.slot entry.producerKeyHash entry.hash
  have hentries := recordEquivocation_entries (s.insertEntry entry) entry.slot entry.producerKeyHash entry.hash
  exact Or.inr (accepted_of_inserted hfresh hchecked hentries _ htip hk hhash hheight)

theorem addBlock_isOk {s : ChainState} {entry : ChainEntry} (hparent : entry.parentHash ∈ s.entries)
    (hfresh : entry.hash ∉ s.entries) (hfinal : s.isAncestor s.finalHash entry.parentHash = some true) :
    (s.addBlock entry).1.isOk = true := by
  unfold addBlock
  rw [if_neg fun h => h.1 hparent, if_neg hfresh, if_neg fun h => h.2 hfinal]
  dsimp only
  split <;> rfl

theorem addBlock_error {s : ChainState} {entry : ChainEntry} {err : ChainError}
    (h : (s.addBlock entry).1 = .error err) : (s.addBlock entry).2 = s := by
  rcases s.addBlock_cases entry with ⟨err', heq⟩ | ⟨b, s', heq, _⟩
  · rw [heq]
  · rw [heq] at h
    cases h

theorem Accepted.getElem? {s s' : ChainState} {entry e : ChainEntry} {h : BlockHash} (hacc : Accepted s entry s')
    (he : s.entries[h]? = some e) : s'.entries[h]? = some e := by
  rw [hacc.entries_eq]
  exact getElem?_insert_of_fresh hacc.fresh he

theorem Accepted.getElem?_self {s s' : ChainState} {entry : ChainEntry} (hacc : Accepted s entry s') :
    s'.entries[entry.hash]? = some entry := by
  rw [hacc.entries_eq, Std.ExtTreeMap.getElem?_insert_self]

end ChainState

end QuantumVault
