import QuantumVault.Proof.Chain.Step

/-!
# Finality safety

Over any sequence of `addBlock` calls the finalized point only moves to descendants and the tip stays behind no other branch, whatever the heights the blocks claim. The reason is the check made when a block is accepted: every block between a new tip and the finalized point is higher than the finalized point, so that both walks pass through it. The all-zero hash is exempt from that check, and a block that carries it can take the tip, and finality with it, to a branch that finality had excluded.
-/

namespace QuantumVault

namespace ChainState

/-- The exemption of the all-zero hash is not used: a block with that hash is already known, or its parent passes the check that the code skips for it. -/
def NotExempt (s : ChainState) (entry : ChainEntry) : Prop :=
  entry.hash = .zero → entry.hash ∈ s.entries ∨ s.isAncestor s.finalHash entry.parentHash = some true

/-- One `addBlock` call, accepted or rejected, that meets a condition. -/
def Step (ok : ChainState → ChainEntry → Prop) (s s' : ChainState) : Prop :=
  ∃ entry, ok s entry ∧ s' = (s.addBlock entry).2

def Runs (ok : ChainState → ChainEntry → Prop) : ChainState → ChainState → Prop :=
  Relation.ReflTransGen (Step ok)

structure FinalitySafe (s t : ChainState) : Prop where
  /-- The finalized point only moves to descendants. -/
  final_descends : Descends t.entries t.finalHash s.finalHash
  /-- A final block stays final. -/
  final_sticky : ∀ h, s.isFinal h = some true → t.isFinal h = some true
  /-- The tip descends from the finalized block. -/
  tip_descends : Descends t.entries t.tipHash t.finalHash
  /-- Two distinct blocks of one height are never both final. -/
  final_unique : ∀ a b ea eb, s.isFinal a = some true → t.isFinal b = some true → s.get a = some ea →
    t.get b = some eb → ea.height = eb.height → a = b
  /-- A rejected call changes nothing. -/
  rejected_unchanged : ∀ entry err, (t.addBlock entry).1 = .error err → (t.addBlock entry).2 = t

structure FinalityInv (s : ChainState) : Prop where
  final_known : ∃ e, s.entries[s.finalHash]? = some e ∧ e.height = s.finalHeight
  tip_descends : Descends s.entries s.tipHash s.finalHash

theorem FinalityInv.new (genesis : ChainEntry) (params : ConsensusParams) : FinalityInv (new genesis params) where
  final_known := ⟨genesis, Std.ExtTreeMap.getElem?_insert_self, rfl⟩
  tip_descends := .refl

variable {s s' t : ChainState} {entry : ChainEntry}

theorem Accepted.reaches (hacc : Accepted s entry s') (hinv : FinalityInv s) (hexempt : s.NotExempt entry) :
    Reaches s.entries s.finalHash s.finalHeight entry.parentHash := by
  have hanc : s.isAncestor s.finalHash entry.parentHash = some true := by
    by_cases hzero : entry.hash = .zero
    · exact (hexempt hzero).resolve_left hacc.fresh
    · exact (hacc.checked hzero).2
  obtain ⟨e, he, hreach⟩ := isAncestor_eq_true.mp hanc
  obtain ⟨e', he', hheight⟩ := hinv.final_known
  cases he.symm.trans he'
  rwa [hheight] at hreach

private theorem Accepted.parent_known (hacc : Accepted s entry s') (hinv : FinalityInv s) (hexempt : s.NotExempt entry) :
    ∃ p, s.entries[entry.parentHash]? = some p := by
  rcases (hacc.reaches hinv hexempt).eq_or with hfinal | ⟨p, hp, _⟩
  · obtain ⟨e, he, _⟩ := hinv.final_known
    exact ⟨e, hfinal ▸ he⟩
  · exact ⟨p, hp⟩

theorem Accepted.reaches_final (hacc : Accepted s entry s') (hinv : FinalityInv s) (hexempt : s.NotExempt entry) :
    Reaches s'.entries s.finalHash s.finalHeight s'.finalHash := by
  rcases hacc.outcome with ⟨_, _, hhash, _⟩ | ⟨_, htip, mid, hmid, hmoves⟩
  · exact hhash ▸ .refl
  rcases hmoves with ⟨target, _, hlt, hfinds, _⟩ | ⟨hhash, _⟩
  · obtain ⟨e, he, hheight⟩ := hinv.final_known
    have hparent := (hacc.reaches hinv hexempt).insert hacc.fresh
    rw [← hmid.entries_eq] at hparent
    have hself : entry.hash ≠ entry.parentHash := by
      intro heq
      obtain ⟨p, hp⟩ := hacc.parent_known hinv hexempt
      rw [← heq] at hp
      exact hacc.fresh (TreeMap.mem_of_getElem? hp)
    have hentry : mid.entries[entry.hash]? = some entry := by
      rw [hmid.entries_eq, Std.ExtTreeMap.getElem?_insert_self]
    have hfinal : mid.entries[s.finalHash]? = some e := by
      rw [hmid.entries_eq]
      exact getElem?_insert_of_fresh hacc.fresh he
    rw [hmid.finalHeight_eq] at hlt
    rw [hmid.tip_eq] at hfinds
    have hfound : Reaches mid.entries s.finalHash s.finalHeight s'.finalHash := by
      rcases hfinds.eq_or with ⟨hhere, e', he', hheight'⟩ | ⟨e', he', _, hrest⟩
      · cases hentry.symm.trans he'
        exact hhere ▸ .tail hentry (hheight' ▸ hlt) hself hparent
      · cases hentry.symm.trans he'
        exact .of_finds hrest hparent hfinal hheight hlt
    rwa [hmid.entries_eq, ← hacc.entries_eq] at hfound
  · rw [hhash, hmid.finalHash_eq]
    exact .refl

theorem Accepted.finalityInv (hacc : Accepted s entry s') (hinv : FinalityInv s) (hexempt : s.NotExempt entry) :
    FinalityInv s' := by
  obtain ⟨e, he, hheight⟩ := hinv.final_known
  have hparent : Descends s'.entries entry.hash s.finalHash := by
    have hlink : ParentLink s'.entries entry.hash entry.parentHash := ⟨entry, hacc.getElem?_self, rfl⟩
    have hbehind := (hacc.reaches hinv hexempt).descends.insert hacc.fresh
    rw [← hacc.entries_eq] at hbehind
    exact .head hlink hbehind
  rcases hacc.outcome with ⟨_, htip, hhash, hfheight⟩ | ⟨_, htip, mid, hmid, hmoves⟩
  · refine ⟨⟨e, hhash ▸ hacc.getElem? he, hheight.trans hfheight.symm⟩, ?_⟩
    rw [htip, hhash, hacc.entries_eq]
    exact hinv.tip_descends.insert hacc.fresh
  rcases hmoves with ⟨target, _, _, hfinds, htarget⟩ | ⟨hhash, hfheight, _⟩
  · rw [hmid.entries_eq, ← hacc.entries_eq, hmid.tip_eq] at hfinds
    obtain ⟨e', he', hheight'⟩ := hfinds.getElem?
    exact ⟨⟨e', he', hheight'.trans htarget.symm⟩, htip ▸ hfinds.descends⟩
  · rw [hmid.finalHash_eq] at hhash
    rw [hmid.finalHeight_eq] at hfheight
    exact ⟨⟨e, hhash ▸ hacc.getElem? he, hheight.trans hfheight.symm⟩, by rw [htip, hhash]; exact hparent⟩

theorem Accepted.isFinal (hacc : Accepted s entry s') (hinv : FinalityInv s) (hexempt : s.NotExempt entry)
    {h : BlockHash} (hfinal : s.isFinal h = some true) : s'.isFinal h = some true := by
  obtain ⟨eh, heh, hreach⟩ := isAncestor_eq_true.mp hfinal
  obtain ⟨e, he, hheight⟩ := hinv.final_known
  have hle : eh.height ≤ s.finalHeight := by
    rcases hreach.eq_or with rfl | ⟨e', he', hlt, _⟩
    · cases heh.symm.trans he
      exact hheight ▸ UInt64.le_refl _
    · cases he'.symm.trans he
      exact hheight ▸ UInt64.le_of_lt hlt
  have hreach' := hreach.insert hacc.fresh
  rw [← hacc.entries_eq] at hreach'
  exact isAncestor_eq_true.mpr ⟨eh, hacc.getElem? heh, (hacc.reaches_final hinv hexempt).trans hreach' hle⟩

structure Preserved (s t : ChainState) : Prop where
  known : ∀ (h : BlockHash) (e : ChainEntry), s.entries[h]? = some e → t.entries[h]? = some e
  final_descends : Descends t.entries t.finalHash s.finalHash
  final_sticky : ∀ h, s.isFinal h = some true → t.isFinal h = some true

theorem Preserved.refl (s : ChainState) : Preserved s s := ⟨fun _ _ he => he, .refl, fun _ hh => hh⟩

theorem Preserved.trans {u : ChainState} (hst : Preserved s t) (htu : Preserved t u) : Preserved s u where
  known h e he := htu.known h e (hst.known h e he)
  final_descends := by
    have hlift : Descends u.entries t.finalHash s.finalHash := by
      refine Relation.ReflTransGen.mono ?_ _ _ hst.final_descends
      rintro child parent ⟨e, he, hparent⟩
      exact ⟨e, htu.known _ _ he, hparent⟩
    exact htu.final_descends.trans hlift
  final_sticky h hh := htu.final_sticky h (hst.final_sticky h hh)

/-- **Step lemma.** One call keeps the invariant and everything that was final. -/
theorem Step.preserved (hstep : Step NotExempt s s') (hinv : FinalityInv s) : FinalityInv s' ∧ Preserved s s' := by
  obtain ⟨entry, hexempt, rfl⟩ := hstep
  rcases s.addBlock_cases entry with ⟨err, heq⟩ | ⟨b, s', heq, hacc⟩
  · rw [heq]
    exact ⟨hinv, .refl s⟩
  · rw [heq]
    exact ⟨hacc.finalityInv hinv hexempt,
      fun _ _ => hacc.getElem?, (hacc.reaches_final hinv hexempt).descends, fun _ => hacc.isFinal hinv hexempt⟩

theorem Runs.preserved (hrun : Runs NotExempt s t) (hinv : FinalityInv s) : FinalityInv t ∧ Preserved s t := by
  induction hrun with
  | refl => exact ⟨hinv, .refl s⟩
  | tail _ hstep ih =>
      obtain ⟨hinv', hpres⟩ := hstep.preserved ih.1
      exact ⟨hinv', ih.2.trans hpres⟩

/-- **Finality safety.** Between any two states of a run from a genesis in which the all-zero hash never escapes the finality check, finality is safe. -/
theorem finality_safe {genesis : ChainEntry} {params : ConsensusParams} (hs : Runs NotExempt (new genesis params) s)
    (ht : Runs NotExempt s t) : FinalitySafe s t := by
  have hinvS := (hs.preserved (.new genesis params)).1
  obtain ⟨hinvT, hpres⟩ := ht.preserved hinvS
  refine ⟨hpres.final_descends, hpres.final_sticky, hinvT.tip_descends, ?_, fun _ _ => addBlock_error⟩
  intro a b ea eb ha hb hea heb hheight
  obtain ⟨ea', hea', hreachA⟩ := isAncestor_eq_true.mp (hpres.final_sticky a ha)
  obtain ⟨eb', heb', hreachB⟩ := isAncestor_eq_true.mp hb
  cases (hpres.known a ea hea).symm.trans hea'
  cases heb.symm.trans heb'
  exact hreachA.unique hea' heb' hheight hreachB

/-! ### The all-zero hash -/

def addBlocks (s : ChainState) (entries : List ChainEntry) : ChainState :=
  entries.foldl (fun s entry => (s.addBlock entry).2) s

theorem runs_addBlocks {ok : ChainState → ChainEntry → Prop} {entries : List ChainEntry}
    (hok : ∀ entry ∈ entries, ∀ s, ok s entry) (s : ChainState) : Runs ok s (s.addBlocks entries) := by
  induction entries generalizing s with
  | nil => exact .refl
  | cons entry entries ih =>
      have hstep : Step ok s (s.addBlock entry).2 := ⟨entry, hok entry List.mem_cons_self s, rfl⟩
      exact .head hstep (ih (fun e he => hok e (List.mem_cons_of_mem _ he)) _)

/-- A block for small examples: the byte its hash repeats, the same for its parent, and its height. -/
def sampleEntry (hash parent : UInt8) (height : Height) : ChainEntry :=
  ⟨⟨List.replicate 32 hash, by simp⟩, ⟨List.replicate 32 parent, by simp⟩, height, height, .zero⟩

def sampleParams (k : UInt64) : ConsensusParams := { ConsensusParams.mainnet with kFinality := k }

/-- Two branches over a genesis with a non-zero hash, the first of which finalizes its block of height 1. -/
def forkedState : ChainState :=
  (new (sampleEntry 1 0 0) (sampleParams 2)).addBlocks
    [sampleEntry 2 1 1, sampleEntry 3 1 1, sampleEntry 4 2 2, sampleEntry 5 3 2, sampleEntry 6 4 3]

theorem finality_safe_forkedState :
    FinalitySafe forkedState (forkedState.addBlocks [sampleEntry 7 5 4, sampleEntry 8 6 4]) := by
  have hnonzero {entries : List ChainEntry} (h : ∀ entry ∈ entries, entry.hash ≠ .zero) :
      ∀ entry ∈ entries, ∀ s, NotExempt s entry := fun entry he _ hzero => absurd hzero (h entry he)
  exact finality_safe (runs_addBlocks (hnonzero (by decide)) _) (runs_addBlocks (hnonzero (by decide)) _)

/-- **A block with the all-zero hash reverts finality.** It is taken on the excluded branch at height 4, becomes the tip, and moves the finalized point to that branch: the block finalized before is no longer final. -/
theorem finality_reverted_by_zero_hash :
    ¬ ∀ (genesis : ChainEntry) (params : ConsensusParams) (s t : ChainState),
      Runs (fun _ _ => True) (new genesis params) s → Runs (fun _ _ => True) s t → FinalitySafe s t := by
  intro hclaim
  have hsafe := hclaim _ _ forkedState (forkedState.addBlocks [sampleEntry 0 5 4])
    (runs_addBlocks (fun _ _ _ => trivial) _) (runs_addBlocks (fun _ _ _ => trivial) _)
  have hbefore : forkedState.isFinal (sampleEntry 2 1 1).hash = some true := by decide +kernel
  have hafter : (forkedState.addBlocks [sampleEntry 0 5 4]).isFinal (sampleEntry 2 1 1).hash = some false := by
    decide +kernel
  exact absurd ((hsafe.final_sticky _ hbefore).symm.trans hafter) (by decide)

end ChainState

end QuantumVault
