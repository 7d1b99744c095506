import QuantumVault.Proof.Chain.Finality

/-!
# Order independence of the fork choice

Two nodes that accept the same blocks in different orders agree on the tip: it is the highest block, and the one with the lowest hash among the highest. They agree on the finalized point too when every block is one higher than its parent, because the point is then the block exactly `k` below the tip. `addBlock` does not check heights, and without that condition the target of a finality walk may fall between two blocks, so that an early tip finalizes a block which a later tip walks past.
-/

namespace QuantumVault

namespace ChainState

/-- The block is one higher than its parent, which is known. -/
def Consecutive (s : ChainState) (entry : ChainEntry) : Prop :=
  ∃ p, s.entries[entry.parentHash]? = some p ∧ entry.height.toNat = p.height.toNat + 1

inductive AcceptsAll (ok : ChainState → ChainEntry → Prop) : ChainState → List ChainEntry → ChainState → Prop where
  | nil {s : ChainState} : AcceptsAll ok s [] s
  | cons {s t : ChainState} {entry : ChainEntry} {entries : List ChainEntry} {b : Bool} (hok : ok s entry)
      (haccept : (s.addBlock entry).1 = .ok b) (hrest : AcceptsAll ok (s.addBlock entry).2 entries t) :
      AcceptsAll ok s (entry :: entries) t

def IsBest (s : ChainState) : Prop :=
  ∀ (h : BlockHash) (e : ChainEntry), s.entries[h]? = some e →
    e.height < s.tip.height ∨ (e.height = s.tip.height ∧ Hash256.lt h s.tipHash = false)

variable {genesis : ChainEntry} {s s' t : ChainState} {entry : ChainEntry}

/-! ### The known blocks -/

/-- The known blocks are the genesis and the blocks of a list, each under its own hash. -/
def Knows (s : ChainState) (blocks : List ChainEntry) : Prop :=
  ∀ (h : BlockHash) (e : ChainEntry), s.entries[h]? = some e ↔ e.hash = h ∧ e ∈ blocks

private theorem Accepted.knows {blocks : List ChainEntry} (hacc : Accepted s entry s') (hknows : s.Knows blocks) :
    s'.Knows (entry :: blocks) := by
  intro h e
  rw [hacc.entries_eq, TreeMap.getElem?_insert, List.mem_cons]
  split
  · rename_i heq
    subst heq
    rw [Option.some.injEq]
    constructor
    · rintro rfl
      exact ⟨rfl, Or.inl rfl⟩
    · intro h'
      obtain ⟨hhash, rfl | hmem⟩ := h'
      · rfl
      · have hold := (hknows entry.hash e).mpr ⟨hhash, hmem⟩
        exact absurd (TreeMap.mem_of_getElem? hold) hacc.fresh
  · rename_i hne
    rw [hknows]
    constructor
    · intro h'
      obtain ⟨hhash, hmem⟩ := h'
      exact ⟨hhash, Or.inr hmem⟩
    · intro h'
      obtain ⟨hhash, rfl | hmem⟩ := h'
      · exact absurd hhash hne
      · exact ⟨hhash, hmem⟩

theorem knows_new (genesis : ChainEntry) (params : ConsensusParams) : (new genesis params).Knows [genesis] := by
  intro h e
  rw [new, TreeMap.getElem?_insert, List.mem_singleton, Std.ExtTreeMap.getElem?_empty]
  split
  · rename_i heq
    subst heq
    rw [Option.some.injEq]
    constructor
    · rintro rfl
      exact ⟨rfl, rfl⟩
    · intro h'
      obtain ⟨_, rfl⟩ := h'
      rfl
  · rename_i hne
    simp only [reduceCtorEq, false_iff, not_and]
    rintro hhash rfl
    exact hne hhash

theorem Knows.entries_eq {blocks blocks' : List ChainEntry} (hs : s.Knows blocks) (ht : t.Knows blocks')
    (hperm : ∀ e, e ∈ blocks ↔ e ∈ blocks') : s.entries = t.entries := by
  refine Std.ExtTreeMap.ext_getElem? fun h => Option.ext fun e => ?_
  rw [hs, ht, hperm]

/-! ### The tip -/

theorem Accepted.getElem?_inv (hacc : Accepted s entry s') {h : BlockHash} {e : ChainEntry}
    (he : s'.entries[h]? = some e) : (h = entry.hash ∧ e = entry) ∨ s.entries[h]? = some e := by
  rw [hacc.entries_eq, TreeMap.getElem?_insert] at he
  split at he
  · rename_i heq
    exact Or.inl ⟨heq.symm, (Option.some.inj he).symm⟩
  · exact Or.inr he

theorem tip_eq {e : ChainEntry} (he : s.entries[s.tipHash]? = some e) : s.tip = e :=
  Option.some.inj (s.getElem?_tipHash.symm.trans he)

private theorem Accepted.tip_cases (hacc : Accepted s entry s') :
    (¬ s.Prefers entry ∧ s'.tipHash = s.tipHash ∧ s'.tip = s.tip) ∨
      (s.Prefers entry ∧ s'.tipHash = entry.hash ∧ s'.tip = entry) := by
  rcases hacc.outcome with ⟨hnot, htip, _⟩ | ⟨hprefers, htip, _⟩
  · exact Or.inl ⟨hnot, htip, tip_eq (htip ▸ hacc.getElem? s.getElem?_tipHash)⟩
  · exact Or.inr ⟨hprefers, htip, tip_eq (htip ▸ hacc.getElem?_self)⟩

private theorem Accepted.isBest (hacc : Accepted s entry s') (hbest : s.IsBest) : s'.IsBest := by
  intro h e he
  rcases hacc.tip_cases with ⟨hnot, htip, htipEntry⟩ | ⟨hprefers, htip, htipEntry⟩
  · rw [htipEntry, htip]
    rcases hacc.getElem?_inv he with ⟨rfl, rfl⟩ | hold
    · unfold Prefers at hnot
      push Not at hnot
      rcases UInt64.lt_or_eq_of_le (UInt64.not_lt.mp hnot.1) with hlt | heq
      · exact Or.inl hlt
      · exact Or.inr ⟨heq, by simpa using hnot.2 heq⟩
    · exact hbest h e hold
  · rw [htipEntry, htip]
    rcases hacc.getElem?_inv he with ⟨rfl, rfl⟩ | hold
    · exact Or.inr ⟨rfl, by simp [Hash256.lt]⟩
    rcases hbest h e hold with hlt | ⟨heq, hnotLess⟩
    · rcases hprefers with hlt' | ⟨heq', _⟩
      · exact Or.inl (UInt64.lt_trans hlt hlt')
      · exact Or.inl (heq' ▸ hlt)
    · rcases hprefers with hlt' | ⟨heq', hless⟩
      · exact Or.inl (heq ▸ hlt')
      -- the old block is not below the old tip, and the new tip is
      · refine Or.inr ⟨heq.trans heq'.symm, ?_⟩
        rw [← Bool.not_eq_true, Hash256.lt_iff] at hnotLess ⊢
        intro hless'
        exact hnotLess (Std.TransCmp.lt_trans hless' (Hash256.lt_iff.mp hless))

private theorem IsBest.tipHash_eq (hs : s.IsBest) (ht : t.IsBest) (hentries : s.entries = t.entries) :
    s.tipHash = t.tipHash := by
  have hst := ht s.tipHash s.tip (hentries ▸ s.getElem?_tipHash)
  have hts := hs t.tipHash t.tip (hentries ▸ t.getElem?_tipHash)
  rcases hst with hlt | ⟨heq, hnot⟩
  · rcases hts with hlt' | ⟨heq', _⟩
    · exact absurd hlt (UInt64.lt_asymm hlt')
    · exact absurd heq'.symm (UInt64.ne_of_lt hlt)
  rcases hts with hlt' | ⟨_, hnot'⟩
  · exact absurd heq.symm (UInt64.ne_of_lt hlt')
  rw [← Bool.not_eq_true, Hash256.lt_iff] at hnot hnot'
  rcases hcmp : compare s.tipHash t.tipHash with _ | _ | _
  · exact absurd hcmp hnot
  · exact Std.LawfulEqOrd.eq_of_compare hcmp
  · exact absurd (Std.OrientedCmp.gt_iff_lt.mp hcmp) hnot'

/-! ### The finalized point -/

section Heights

variable {E : Entries} {final current : BlockHash} {f target : Height} {e : ChainEntry}

/-- Every known block but the genesis is one higher than its parent, which is known too. -/
def ConsecutiveHeights (genesis : ChainEntry) (E : Entries) : Prop :=
  ∀ (h : BlockHash) (e : ChainEntry), E[h]? = some e →
    h = genesis.hash ∨ ∃ p, E[e.parentHash]? = some p ∧ e.height.toNat = p.height.toNat + 1

private theorem Reaches.finds (h : Reaches E final f current) (hfinal : E[final]? = some e) (hheight : e.height = f) :
    Finds E f final current := by
  induction h with
  | refl => exact .here hfinal hheight
  | tail he hlt hself _ ih => exact .tail he hlt hself ih

private theorem Reaches.exists_finds (hreach : Reaches E final f current) (hheights : ConsecutiveHeights genesis E)
    (hgenesis : E[genesis.hash]? = some genesis) (hle : genesis.height ≤ f) (hfinal : E[final]? = some e)
    (hheight : e.height = f) (hlt : f < target) {c : ChainEntry} (hcurrent : E[current]? = some c)
    (htarget : target ≤ c.height) : ∃ found, Finds E target found current := by
  induction hreach generalizing c with
  | refl =>
      cases hfinal.symm.trans hcurrent
      exact absurd (UInt64.lt_of_lt_of_le hlt htarget) (by simp [hheight])
  | @tail current e' he' habove hself hrest ih =>
      cases he'.symm.trans hcurrent
      by_cases heq : e'.height = target
      · exact ⟨current, .here hcurrent heq⟩
      have hbelow : target < e'.height := UInt64.lt_of_le_of_ne htarget (Ne.symm heq)
      rcases hheights current e' hcurrent with rfl | ⟨p, hp, hsucc⟩
      · cases hgenesis.symm.trans hcurrent
        exact absurd (UInt64.lt_of_le_of_lt hle habove) (by simp)
      · have hpTarget : target ≤ p.height := by
          rw [UInt64.lt_iff_toNat_lt] at hbelow
          rw [UInt64.le_iff_toNat_le]
          omega
        obtain ⟨found, hfound⟩ := ih hp hpTarget
        exact ⟨found, .tail hcurrent hbelow hself hfound⟩

end Heights

/-- Where the finalized point is: at the block `k` below the tip if that is above the genesis, and else at the genesis. -/
def FinalAt (genesis : ChainEntry) (s : ChainState) : Prop :=
  (∃ target : Height, target.toNat = s.tip.height.toNat - s.kFinality.toNat ∧ genesis.height < target ∧
      Finds s.entries target s.finalHash s.tipHash ∧ s.finalHeight = target) ∨
    (s.tip.height.toNat - s.kFinality.toNat ≤ genesis.height.toNat ∧ s.finalHash = genesis.hash ∧
      s.finalHeight = genesis.height)

structure ForkInv (genesis : ChainEntry) (s : ChainState) : Prop where
  finality : FinalityInv s
  best : s.IsBest
  genesis_known : s.entries[genesis.hash]? = some genesis
  heights : ConsecutiveHeights genesis s.entries
  genesis_le : genesis.height ≤ s.finalHeight
  final_at : FinalAt genesis s

theorem ForkInv.new (genesis : ChainEntry) (params : ConsensusParams) : ForkInv genesis (new genesis params) := by
  have hself : (ChainState.new genesis params).entries[genesis.hash]? = some genesis :=
    Std.ExtTreeMap.getElem?_insert_self
  have htip : (ChainState.new genesis params).tip = genesis := tip_eq hself
  have hknows := knows_new genesis params
  exact {
    finality := .new genesis params
    best := by
      intro h e he
      obtain ⟨rfl, hmem⟩ := (hknows h e).mp he
      rw [List.mem_singleton] at hmem
      subst hmem
      rw [htip]
      exact Or.inr ⟨rfl, by simp [ChainState.new, Hash256.lt, Std.ReflOrd.compare_self]⟩
    genesis_known := hself
    heights := by
      intro h e he
      obtain ⟨rfl, hmem⟩ := (hknows h e).mp he
      rw [List.mem_singleton] at hmem
      exact Or.inl (hmem ▸ rfl)
    genesis_le := UInt64.le_refl _
    final_at := Or.inr ⟨by rw [htip]; omega, rfl, rfl⟩ }

theorem Accepted.reaches_self (hacc : Accepted s entry s') (hinv : FinalityInv s) (hexempt : s.NotExempt entry)
    (hsucc : s.Consecutive entry) : Reaches s'.entries s.finalHash s.finalHeight entry.hash := by
  obtain ⟨p, hp, hheight⟩ := hsucc
  have hreach := hacc.reaches hinv hexempt
  have habove : s.finalHeight < entry.height := by
    rw [UInt64.lt_iff_toNat_lt]
    rcases hreach.eq_or with heq | ⟨p', hp', hlt, _⟩
    · obtain ⟨e, he, hfinal⟩ := hinv.final_known
      rw [heq] at hp
      cases hp.symm.trans he
      rw [← hfinal]
      omega
    · cases hp.symm.trans hp'
      rw [UInt64.lt_iff_toNat_lt] at hlt
      omega
  have hself : entry.hash ≠ entry.parentHash := by
    intro heq
    rw [← heq] at hp
    exact hacc.fresh (TreeMap.mem_of_getElem? hp)
  have hparent := hreach.insert hacc.fresh
  rw [← hacc.entries_eq] at hparent
  exact .tail hacc.getElem?_self habove hself hparent

theorem Accepted.reaches_tip (hacc : Accepted s entry s') (hinv : FinalityInv s) (hexempt : s.NotExempt entry)
    (hsucc : s.Consecutive entry) (hprefers : s.Prefers entry) :
    Reaches s'.entries s'.finalHash s'.finalHeight s'.tipHash := by
  rcases hacc.outcome with ⟨hnot, -⟩ | ⟨-, htip, mid, hmid, hmoves⟩
  · exact absurd hprefers hnot
  rcases hmoves with ⟨target, _, _, hfinds, htarget⟩ | ⟨hhash, hheight, _⟩
  · rw [hmid.entries_eq, ← hacc.entries_eq, hmid.tip_eq] at hfinds
    rw [htip, htarget]
    exact hfinds.reaches
  · rw [htip, hhash, hheight, hmid.finalHash_eq, hmid.finalHeight_eq]
    exact hacc.reaches_self hinv hexempt hsucc

theorem Prefers.le (h : s.Prefers entry) : s.tip.height.toNat ≤ entry.height.toNat := by
  rcases h with hlt | ⟨heq, _⟩
  · exact le_of_lt (UInt64.lt_iff_toNat_lt.mp hlt)
  · rw [heq]

/-- The finalized point of an accepted call is again the one the rule prescribes. -/
theorem Accepted.finalAt (hacc : Accepted s entry s') (hinv : ForkInv genesis s) (hexempt : s.NotExempt entry)
    (hsucc : s.Consecutive entry) (hheights : ConsecutiveHeights genesis s'.entries) : FinalAt genesis s' := by
  obtain ⟨e, he, hheight⟩ := hinv.finality.final_known
  have hself := hacc.reaches_self hinv.finality hexempt hsucc
  rcases hacc.outcome with ⟨hnot, htip, hhash, hfheight⟩ | ⟨hprefers, htip, mid, hmid, hmoves⟩
  · have htipEntry := tip_eq (htip ▸ hacc.getElem? s.getElem?_tipHash)
    rw [FinalAt, htipEntry, htip, hhash, hfheight, hacc.k_eq, hacc.entries_eq]
    rcases hinv.final_at with ⟨target, htarget, hlt, hfinds, heq⟩ | hgenesis
    · exact Or.inl ⟨target, htarget, hlt, hfinds.insert hacc.fresh, heq⟩
    · exact Or.inr hgenesis
  have htipEntry : s'.tip = entry := tip_eq (htip ▸ hacc.getElem?_self)
  have hmidTip : mid.tip = entry := by
    refine tip_eq ?_
    rw [hmid.tip_eq, hmid.entries_eq, Std.ExtTreeMap.getElem?_insert_self]
  have hmidEntries : mid.entries = s'.entries := hmid.entries_eq.trans hacc.entries_eq.symm
  unfold FinalityMoves at hmoves
  rw [hmidTip, hmidEntries, hmid.k_eq, hmid.finalHash_eq, hmid.finalHeight_eq, hmid.tip_eq] at hmoves
  rw [FinalAt, htipEntry, htip, hacc.k_eq]
  have hle := hprefers.le
  rcases hmoves with ⟨target, htarget, hlt, hfinds, heq⟩ | ⟨hhash, hfheight, hnone⟩
  · rw [Word.checkedSub_eq_some] at htarget
    exact Or.inl ⟨target, by omega, UInt64.lt_of_le_of_lt hinv.genesis_le hlt, hfinds, heq⟩
  rw [hhash, hfheight]
  cases hsub : Word.checkedSub entry.height s.kFinality with
  | none =>
      rw [Word.checkedSub_eq_none] at hsub
      rcases hinv.final_at with ⟨target, htarget, hlt, _⟩ | ⟨_, hgenesis⟩
      · rw [UInt64.lt_iff_toNat_lt] at hlt
        omega
      · exact Or.inr ⟨by omega, hgenesis⟩
  | some target =>
      have hbelow : target ≤ s.finalHeight := by
        by_contra hgt
        have hlt := UInt64.not_le.mp hgt
        have hdepth := Word.checkedSub_eq_some.mp hsub
        have htop : target ≤ entry.height := UInt64.le_iff_toNat_le.mpr (by omega)
        obtain ⟨found, hfound⟩ := hself.exists_finds hheights (hacc.getElem? hinv.genesis_known) hinv.genesis_le
          (hacc.getElem? he) hheight hlt hacc.getElem?_self htop
        exact hnone target found hsub hlt hfound
      rw [Word.checkedSub_eq_some] at hsub
      rw [UInt64.le_iff_toNat_le] at hbelow
      rcases hinv.final_at with ⟨target', htarget', hlt, _, heq⟩ | ⟨hdepth, hgenesis, hgheight⟩
      · have htargets : target = s.finalHeight := UInt64.toNat_inj.mp (by rw [heq] at hbelow ⊢; omega)
        subst htargets
        exact Or.inl ⟨_, by omega, heq ▸ hlt, hself.finds (hacc.getElem? he) hheight, rfl⟩
      · rw [hgheight] at hbelow
        exact Or.inr ⟨by omega, hgenesis, hgheight⟩

/-- **Step lemma.** An accepted call with consecutive heights keeps the invariant. -/
theorem Accepted.forkInv (hacc : Accepted s entry s') (hinv : ForkInv genesis s) (hexempt : s.NotExempt entry)
    (hsucc : s.Consecutive entry) : ForkInv genesis s' := by
  have hheights : ConsecutiveHeights genesis s'.entries := by
    intro h e he
    rcases hacc.getElem?_inv he with ⟨rfl, rfl⟩ | hold
    · obtain ⟨p, hp, hheight⟩ := hsucc
      exact Or.inr ⟨p, hacc.getElem? hp, hheight⟩
    · rcases hinv.heights h e hold with hgenesis | ⟨p, hp, hheight⟩
      · exact Or.inl hgenesis
      · exact Or.inr ⟨p, hacc.getElem? hp, hheight⟩
  have hfinalAt := hacc.finalAt hinv hexempt hsucc hheights
  exact {
    finality := hacc.finalityInv hinv.finality hexempt
    best := hacc.isBest hinv.best
    genesis_known := hacc.getElem? hinv.genesis_known
    heights := hheights
    genesis_le := by
      rcases hfinalAt with ⟨target, _, hlt, _, heq⟩ | ⟨_, _, heq⟩
      · exact heq ▸ UInt64.le_of_lt hlt
      · exact heq ▸ UInt64.le_refl _
    final_at := hfinalAt }

/-! ### Runs -/

/-- The condition under which the order does not matter: heights are consecutive and the all-zero hash is not exempt. -/
def OrderSafe (s : ChainState) (entry : ChainEntry) : Prop := s.NotExempt entry ∧ s.Consecutive entry

private theorem accepted_of_ok {b : Bool} (h : (s.addBlock entry).1 = .ok b) : Accepted s entry (s.addBlock entry).2 := by
  rcases s.addBlock_cases entry with ⟨err, heq⟩ | ⟨b', s', heq, hacc⟩
  · rw [heq] at h
    cases h
  · rw [heq]
    exact hacc

/-- **Run lemma.** After a run of accepted calls the invariant holds and exactly the blocks of the run are known. -/
theorem AcceptsAll.forkInv {blocks entries : List ChainEntry} (hrun : AcceptsAll OrderSafe s entries t)
    (hinv : ForkInv genesis s) (hknows : s.Knows blocks) :
    ForkInv genesis t ∧ t.kFinality = s.kFinality ∧ ∃ known, t.Knows known ∧ known.Perm (entries ++ blocks) := by
  induction hrun generalizing blocks with
  | nil => exact ⟨hinv, rfl, blocks, hknows, .refl _⟩
  | @cons s t entry entries b hok haccept hrest ih =>
      have hacc := accepted_of_ok haccept
      obtain ⟨hinv', hk, known, hknows', hperm⟩ := ih (hacc.forkInv hinv hok.1 hok.2) (hacc.knows hknows)
      exact ⟨hinv', hk.trans hacc.k_eq, known, hknows', hperm.trans List.perm_middle⟩

theorem FinalAt.unique (hs : FinalAt genesis s) (ht : FinalAt genesis t) (hentries : s.entries = t.entries)
    (htip : s.tipHash = t.tipHash) (hk : s.kFinality = t.kFinality) :
    s.finalHash = t.finalHash ∧ s.finalHeight = t.finalHeight := by
  have htipEntry : s.tip = t.tip := tip_eq (by rw [hentries, htip]; exact t.getElem?_tipHash)
  unfold FinalAt at hs
  rw [hentries, htip, htipEntry, hk] at hs
  rcases hs with ⟨target, htarget, hlt, hfinds, heq⟩ | ⟨hdepth, hhash, hheight⟩
  · rcases ht with ⟨target', htarget', _, hfinds', heq'⟩ | ⟨hdepth', _⟩
    · have htargets : target = target' := UInt64.toNat_inj.mp (htarget.trans htarget'.symm)
      subst htargets
      exact ⟨hfinds.unique hfinds', heq.trans heq'.symm⟩
    · rw [UInt64.lt_iff_toNat_lt] at hlt
      omega
  · rcases ht with ⟨target', htarget', hlt', _⟩ | ⟨_, hhash', hheight'⟩
    · rw [UInt64.lt_iff_toNat_lt] at hlt'
      omega
    · exact ⟨hhash.trans hhash'.symm, hheight.trans hheight'.symm⟩

/-- **Order independence.** Two nodes with one genesis that accept the same blocks in two orders, every block one higher than its parent, end with the same tip, which is the highest block with the lowest hash, and the same finalized point. -/
theorem forkChoice_order_independent {params : ConsensusParams} {blocks blocks' : List ChainEntry}
    (hperm : blocks.Perm blocks') (hs : AcceptsAll OrderSafe (new genesis params) blocks s)
    (ht : AcceptsAll OrderSafe (new genesis params) blocks' t) :
    s.tipHash = t.tipHash ∧ s.finalHash = t.finalHash ∧ s.finalHeight = t.finalHeight ∧
      s.tip ∈ genesis :: blocks ∧
      ∀ e ∈ genesis :: blocks, e.height < s.tip.height ∨
        (e.height = s.tip.height ∧ Hash256.lt e.hash s.tipHash = false) := by
  obtain ⟨hinvS, hkS, known, hknowsS, hpermS⟩ := hs.forkInv (.new genesis params) (knows_new genesis params)
  obtain ⟨hinvT, hkT, known', hknowsT, hpermT⟩ := ht.forkInv (.new genesis params) (knows_new genesis params)
  have hmemS (e : ChainEntry) : e ∈ known ↔ e ∈ genesis :: blocks := by
    rw [hpermS.mem_iff]
    simp [or_comm]
  have hentries : s.entries = t.entries := by
    refine hknowsS.entries_eq hknowsT fun e => ?_
    rw [hmemS, hpermT.mem_iff, List.mem_cons, hperm.mem_iff]
    simp [or_comm]
  have htip := hinvS.best.tipHash_eq hinvT.best hentries
  obtain ⟨hhash, hheight⟩ := hinvS.final_at.unique hinvT.final_at hentries htip (hkS.trans hkT.symm)
  refine ⟨htip, hhash, hheight, ?_, fun e he => ?_⟩
  · exact (hmemS _).mp ((hknowsS _ _).mp s.getElem?_tipHash).2
  · exact hinvS.best e.hash e ((hknowsS e.hash e).mpr ⟨rfl, (hmemS e).mpr he⟩)

/-! ### A height that is not consecutive -/

def sampleGenesis : ChainEntry := sampleEntry 1 0 0

/-- A step of a small example is safe: its hash is not zero and its parent is the given known block. -/
private theorem orderSafe_sample {s : ChainState} {entry p : ChainEntry} (hzero : entry.hash ≠ .zero)
    (hp : s.entries[entry.parentHash]? = some p) (hheight : entry.height.toNat = p.height.toNat + 1) :
    OrderSafe s entry :=
  ⟨fun h => absurd h hzero, p, hp, hheight⟩

/-- A fork of two blocks, one of them extended, received in two orders. -/
theorem forkChoice_order_independent_fork :
    let start := new sampleGenesis (sampleParams 1)
    let a := sampleEntry 2 1 1
    let b := sampleEntry 3 1 1
    let c := sampleEntry 4 3 2
    (start.addBlocks [a, b, c]).tipHash = (start.addBlocks [b, a, c]).tipHash ∧
      (start.addBlocks [a, b, c]).finalHash = (start.addBlocks [b, a, c]).finalHash := by
  intro start a b c
  have hfirst : AcceptsAll OrderSafe start [a, b, c] (start.addBlocks [a, b, c]) :=
    .cons (orderSafe_sample (p := sampleGenesis) (by decide) (by decide +kernel) (by decide)) (b := true)
      (by decide +kernel) <|
    .cons (orderSafe_sample (p := sampleGenesis) (by decide) (by decide +kernel) (by decide)) (b := false)
      (by decide +kernel) <|
    .cons (orderSafe_sample (p := b) (by decide) (by decide +kernel) (by decide)) (b := true) (by decide +kernel) .nil
  have hsecond : AcceptsAll OrderSafe start [b, a, c] (start.addBlocks [b, a, c]) :=
    .cons (orderSafe_sample (p := sampleGenesis) (by decide) (by decide +kernel) (by decide)) (b := true)
      (by decide +kernel) <|
    .cons (orderSafe_sample (p := sampleGenesis) (by decide) (by decide +kernel) (by decide)) (b := true)
      (by decide +kernel) <|
    .cons (orderSafe_sample (p := b) (by decide) (by decide +kernel) (by decide)) (b := true) (by decide +kernel) .nil
  have h := forkChoice_order_independent (List.Perm.swap b a [c]) hfirst hsecond
  exact ⟨h.1, h.2.1⟩

/-- **Unchecked heights make finality depend on the order.** With `k = 1`, a block of height 10 finalizes its parent of height 9, and a block of height 11 over the same parent finalizes nothing: the order in which the two arrive decides. -/
theorem finality_depends_on_order :
    ¬ ∀ (genesis : ChainEntry) (params : ConsensusParams) (blocks blocks' : List ChainEntry) (s t : ChainState),
      blocks.Perm blocks' → AcceptsAll (fun _ _ => True) (new genesis params) blocks s →
      AcceptsAll (fun _ _ => True) (new genesis params) blocks' t →
      s.tipHash = t.tipHash ∧ s.finalHash = t.finalHash ∧ s.finalHeight = t.finalHeight := by
  intro hclaim
  let m := sampleEntry 2 1 9
  let u := sampleEntry 3 2 10
  let v := sampleEntry 4 2 11
  have hperm : [m, u, v].Perm [m, v, u] := (List.Perm.swap v u []).cons m
  have h := hclaim sampleGenesis (sampleParams 1) [m, u, v] [m, v, u] _ _ hperm
    (.cons trivial (b := true) (by decide +kernel) <| .cons trivial (b := true) (by decide +kernel) <|
      .cons trivial (b := true) (by decide +kernel) .nil)
    (.cons trivial (b := true) (by decide +kernel) <| .cons trivial (b := true) (by decide +kernel) <|
      .cons trivial (b := false) (by decide +kernel) .nil)
  exact absurd h.2.2 (by decide +kernel)

end ChainState

end QuantumVault
