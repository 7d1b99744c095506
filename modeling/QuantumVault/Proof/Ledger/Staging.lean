import QuantumVault.Proof.Ledger.Moves

/-!
# Staging refines the ledger

A block is staged against a fixed store with three accumulators. Read together they are one ledger view, and staging a transaction is one admissible move on that view: staging succeeds exactly when the moves of the block are valid, and it leaves the view the moves lead to.
-/

namespace QuantumVault

open Result TreeMap Ledger

namespace UtxoStore

namespace Staging

variable {entries : UtxoMap} {st st' : Staging} {gone : List OutPoint} {op : OutPoint}

def spentKeys (st : Staging) : List OutPoint := st.spent.map Prod.fst

/-- The ledger the staged effects lead to. -/
def view (entries : UtxoMap) (st : Staging) : UtxoMap :=
  insertAll (eraseAll entries st.spentKeys) st.stagedNew.toList

/-- What staging keeps true of its accumulators. -/
structure Tracks (entries : UtxoMap) (gone : List OutPoint) (st : Staging) : Prop where
  spent_nodup : st.spentKeys.Nodup
  spent_entry : ∀ entry ∈ st.spent, entries[entry.1]? = some entry.2
  consumed_iff : ∀ op, op ∈ st.consumed ↔ op ∈ gone
  spent_consumed : ∀ op ∈ st.spentKeys, op ∈ st.consumed
  consumed_spent : ∀ op ∈ st.consumed, op ∈ entries → op ∈ st.spentKeys
  staged_fresh : ∀ op ∈ st.stagedNew, op ∉ entries ∧ op ∉ st.consumed

theorem Tracks.empty (entries : UtxoMap) : Staging.empty.Tracks entries [] where
  spent_nodup := List.nodup_nil
  spent_entry := by simp [Staging.empty]
  consumed_iff := by simp [Staging.empty]
  spent_consumed := by simp [Staging.empty, spentKeys]
  consumed_spent := by simp [Staging.empty]
  staged_fresh := by simp [Staging.empty]

theorem getElem?_view :
    (st.view entries)[op]? = (st.stagedNew[op]?).or (if op ∈ st.spentKeys then none else entries[op]?) := by
  rw [view, getElem?_insertAll_toList, getElem?_eraseAll]

theorem mem_view : op ∈ st.view entries ↔ op ∈ st.stagedNew ∨ op ∈ entries ∧ op ∉ st.spentKeys := by
  rw [view, mem_insertAll, mem_eraseAll, Std.ExtTreeMap.map_fst_toList_eq_keys, Std.ExtTreeMap.mem_keys]
  exact or_comm

theorem Tracks.notMem_view (h : st.Tracks entries gone) (hop : op ∈ st.consumed) : op ∉ st.view entries := by
  rw [mem_view]
  rintro (hstaged | ⟨hentry, hspent⟩)
  · exact (h.staged_fresh op hstaged).2 hop
  · exact hspent (h.consumed_spent op hop hentry)

theorem Tracks.fresh_iff (h : st.Tracks entries gone) :
    op ∉ st.view entries ∧ op ∉ gone ↔ ¬ (op ∈ st.consumed ∨ op ∈ st.stagedNew) ∧ op ∉ entries := by
  rw [mem_view, ← h.consumed_iff]
  constructor
  · intro h'
    obtain ⟨hview, hconsumed⟩ := h'
    push Not at hview
    exact ⟨by tauto, fun hentry => hconsumed (h.spent_consumed op (hview.2 hentry))⟩
  · intro h'
    obtain ⟨hnot, hentry⟩ := h'
    push Not at hnot
    exact ⟨by tauto, hnot.1⟩

end Staging

open Staging

variable {entries : UtxoMap} {st st' : Staging} {gone : List OutPoint} {op : OutPoint}

/-! ### Consuming inputs -/

theorem consumeInput_eq_ok {input : TxInput} :
    consumeInput entries st input = .ok st' ↔
      input.prevOutput ∉ st.consumed ∧
        (input.prevOutput ∈ st.stagedNew ∧
            st' = { st with
                    consumed := input.prevOutput :: st.consumed
                    stagedNew := st.stagedNew.erase input.prevOutput } ∨
          input.prevOutput ∉ st.stagedNew ∧ ∃ prev, entries[input.prevOutput]? = some prev ∧
            st' = { st with
                    consumed := input.prevOutput :: st.consumed
                    spent := st.spent ++ [(input.prevOutput, prev)] }) := by
  simp only [consumeInput]
  split
  · simp_all
  · rename_i hconsumed
    split
    · simp_all [eq_comm]
    · rename_i hstaged
      cases entries[input.prevOutput]? with
      | none => simp_all
      | some prev =>
          simp only [Except.ok.injEq, Option.some.injEq]
          constructor
          · rintro rfl
            exact ⟨hconsumed, Or.inr ⟨hstaged, prev, rfl, rfl⟩⟩
          · intro h
            obtain ⟨-, ⟨hmem, -⟩ | ⟨-, _, rfl, rfl⟩⟩ := h
            · exact absurd hmem hstaged
            · rfl

private theorem Staging.Tracks.consumeInput_isOk (h : st.Tracks entries gone) {input : TxInput}
    (hmem : input.prevOutput ∈ st.view entries) : ∃ st', consumeInput entries st input = .ok st' := by
  have hconsumed : input.prevOutput ∉ st.consumed := fun hc => h.notMem_view hc hmem
  rcases mem_view.mp hmem with hstaged | ⟨hentry, -⟩
  · exact ⟨_, consumeInput_eq_ok.mpr ⟨hconsumed, Or.inl ⟨hstaged, rfl⟩⟩⟩
  · obtain ⟨prev, hprev⟩ := mem_iff.mp hentry
    have hnot : input.prevOutput ∉ st.stagedNew := fun hs => (h.staged_fresh _ hs).1 hentry
    exact ⟨_, consumeInput_eq_ok.mpr ⟨hconsumed, Or.inr ⟨hnot, prev, hprev, rfl⟩⟩⟩

structure Consumed (entries : UtxoMap) (gone : List OutPoint) (op : OutPoint) (st st' : Staging) : Prop where
  mem_view : op ∈ st.view entries
  tracks : st'.Tracks entries (gone ++ [op])
  view_eq : st'.view entries = (st.view entries).erase op
  coinbaseOutpoints_eq : st'.coinbaseOutpoints = st.coinbaseOutpoints

private theorem consumed_staged {st : Staging} (h : st.Tracks entries gone) (hconsumed : op ∉ st.consumed)
    (hstaged : op ∈ st.stagedNew) :
    Consumed entries gone op st { st with consumed := op :: st.consumed, stagedNew := st.stagedNew.erase op } where
  mem_view := mem_view.mpr (Or.inl hstaged)
  tracks :=
    { spent_nodup := h.spent_nodup
      spent_entry := h.spent_entry
      consumed_iff := by
        intro a
        rw [List.mem_cons, h.consumed_iff, List.mem_append, List.mem_singleton]
        exact or_comm
      spent_consumed := fun a ha => List.mem_cons_of_mem _ (h.spent_consumed a ha)
      consumed_spent := by
        intro a ha hentry
        rcases List.mem_cons.mp ha with rfl | ha
        · exact absurd hentry (h.staged_fresh _ hstaged).1
        · exact h.consumed_spent a ha hentry
      staged_fresh := by
        intro a ha
        obtain ⟨hne, ha⟩ := mem_erase.mp ha
        obtain ⟨hentry, hnot⟩ := h.staged_fresh a ha
        refine ⟨hentry, fun hmem => ?_⟩
        rcases List.mem_cons.mp hmem with heq | hold
        · exact hne heq.symm
        · exact hnot hold }
  view_eq := by
    refine Std.ExtTreeMap.ext_getElem? fun a => ?_
    rw [getElem?_erase, getElem?_view, getElem?_view, getElem?_erase]
    by_cases heq : op = a
    · subst heq
      have hnone : entries[op]? = none := notMem_iff.mp (h.staged_fresh op hstaged).1
      simp [hnone]
    · simp only [if_neg heq]
      rfl
  coinbaseOutpoints_eq := rfl

private theorem consumed_entry {st : Staging} {prev : TxOutput} (h : st.Tracks entries gone)
    (hconsumed : op ∉ st.consumed) (hstaged : op ∉ st.stagedNew) (hprev : entries[op]? = some prev) :
    Consumed entries gone op st { st with consumed := op :: st.consumed, spent := st.spent ++ [(op, prev)] } := by
  have hkeys : ({ st with consumed := op :: st.consumed, spent := st.spent ++ [(op, prev)] } : Staging).spentKeys =
      st.spentKeys ++ [op] := by
    simp [spentKeys]
  have hspent : op ∉ st.spentKeys := fun hs => hconsumed (h.spent_consumed op hs)
  refine ⟨mem_view.mpr (Or.inr ⟨mem_of_getElem? hprev, hspent⟩), ?_, ?_, rfl⟩
  · refine ⟨?_, ?_, ?_, ?_, ?_, ?_⟩
    · rw [hkeys]
      refine List.nodup_append.mpr ⟨h.spent_nodup, List.nodup_singleton op, ?_⟩
      rintro a ha b hb rfl
      exact hspent (List.mem_singleton.mp hb ▸ ha)
    · intro entry hentry
      rcases List.mem_append.mp hentry with hold | hnew
      · exact h.spent_entry entry hold
      · rw [List.mem_singleton.mp hnew]
        exact hprev
    · intro a
      rw [List.mem_cons, h.consumed_iff, List.mem_append, List.mem_singleton]
      exact or_comm
    · intro a ha
      rw [hkeys, List.mem_append, List.mem_singleton] at ha
      rcases ha with hold | rfl
      · exact List.mem_cons_of_mem _ (h.spent_consumed a hold)
      · exact List.mem_cons_self
    · intro a ha hentry
      rw [hkeys, List.mem_append, List.mem_singleton]
      rcases List.mem_cons.mp ha with rfl | ha
      · exact Or.inr rfl
      · exact Or.inl (h.consumed_spent a ha hentry)
    · intro a ha
      obtain ⟨hentry, hnot⟩ := h.staged_fresh a ha
      refine ⟨hentry, fun hmem => ?_⟩
      rcases List.mem_cons.mp hmem with rfl | hold
      · exact hstaged ha
      · exact hnot hold
  · refine Std.ExtTreeMap.ext_getElem? fun a => ?_
    rw [getElem?_erase, getElem?_view, getElem?_view, hkeys]
    by_cases heq : op = a
    · subst heq
      simp [notMem_iff.mp hstaged]
    · simp [heq, Ne.symm heq]

theorem Staging.Tracks.consumeInput (h : st.Tracks entries gone) {input : TxInput}
    (hok : consumeInput entries st input = .ok st') : Consumed entries gone input.prevOutput st st' := by
  obtain ⟨hconsumed, ⟨hstaged, rfl⟩ | ⟨hstaged, prev, hprev, rfl⟩⟩ := consumeInput_eq_ok.mp hok
  · exact consumed_staged h hconsumed hstaged
  · exact consumed_entry h hconsumed hstaged hprev

theorem Staging.Tracks.consumeInputs_isOk {inputs : List TxInput} (h : st.Tracks entries gone) :
    (∃ st', inputs.foldlM (UtxoStore.consumeInput entries) st = .ok st') ↔
      (inputs.map TxInput.prevOutput).Nodup ∧ ∀ op ∈ inputs.map TxInput.prevOutput, op ∈ st.view entries := by
  induction inputs generalizing st gone with
  | nil => simp [pure, Except.pure]
  | cons input inputs ih =>
      simp only [foldlM_cons_eq_ok, List.map_cons, List.nodup_cons, List.forall_mem_cons]
      constructor
      · intro h'
        obtain ⟨st', t, ht, hrest⟩ := h'
        have hstep := h.consumeInput ht
        obtain ⟨hnodup, hmem⟩ := (ih hstep.tracks).mp ⟨st', hrest⟩
        rw [hstep.view_eq] at hmem
        refine ⟨⟨?_, hnodup⟩, hstep.mem_view, fun a ha => (mem_erase.mp (hmem a ha)).2⟩
        intro hagain
        exact (mem_erase.mp (hmem _ hagain)).1 rfl
      · intro h'
        obtain ⟨⟨hnot, hnodup⟩, hmem, hrest⟩ := h'
        obtain ⟨t, ht⟩ := h.consumeInput_isOk hmem
        have hstep := h.consumeInput ht
        have hrest' : ∀ a ∈ inputs.map TxInput.prevOutput, a ∈ t.view entries := by
          intro a ha
          rw [hstep.view_eq]
          exact mem_erase.mpr ⟨fun heq => hnot (heq ▸ ha), hrest a ha⟩
        obtain ⟨st', hst'⟩ := (ih hstep.tracks).mpr ⟨hnodup, hrest'⟩
        exact ⟨st', t, ht, hst'⟩

theorem Staging.Tracks.consumeInputs {inputs : List TxInput} (h : st.Tracks entries gone)
    (hok : inputs.foldlM (UtxoStore.consumeInput entries) st = .ok st') :
    st'.Tracks entries (gone ++ inputs.map TxInput.prevOutput) ∧
      st'.view entries = eraseAll (st.view entries) (inputs.map TxInput.prevOutput) ∧
      st'.coinbaseOutpoints = st.coinbaseOutpoints := by
  induction inputs generalizing st gone with
  | nil =>
      rw [List.foldlM_nil, pure_eq_ok] at hok
      subst hok
      simpa using h
  | cons input inputs ih =>
      obtain ⟨t, ht, hrest⟩ := foldlM_cons_eq_ok.mp hok
      have hstep := h.consumeInput ht
      obtain ⟨htracks, hview, hcoinbase⟩ := ih hstep.tracks hrest
      rw [List.map_cons, eraseAll_cons, ← hstep.view_eq, ← hstep.coinbaseOutpoints_eq]
      exact ⟨by simpa using htracks, hview, hcoinbase⟩

/-! ### Producing outputs -/

variable [Crypto]

theorem produceOutput_eq_ok {tx : Transaction} {output : TxOutput × Nat} :
    produceOutput entries tx.id st output = .ok st' ↔
      output.2 < 2 ^ 32 ∧
        (¬ (tx.outPointAt output.2 ∈ st.consumed ∨ tx.outPointAt output.2 ∈ st.stagedNew) ∧
          tx.outPointAt output.2 ∉ entries) ∧
        st' = { st with stagedNew := st.stagedNew.insert (tx.outPointAt output.2) output.1 } := by
  unfold produceOutput
  rw [okOr_bind_eq_ok]
  simp only [Transaction.ofPosition_eq_some, require_bind_eq_ok, pure_eq_ok]
  constructor
  · intro h
    obtain ⟨_, ⟨hlt, rfl⟩, hnot, hentry, rfl⟩ := h
    exact ⟨hlt, ⟨hnot, hentry⟩, rfl⟩
  · intro h
    obtain ⟨hlt, ⟨hnot, hentry⟩, rfl⟩ := h
    exact ⟨_, ⟨hlt, rfl⟩, hnot, hentry, rfl⟩

theorem Staging.Tracks.produceOutput (h : st.Tracks entries gone) {tx : Transaction} {output : TxOutput × Nat}
    (hok : produceOutput entries tx.id st output = .ok st') :
    st'.Tracks entries gone ∧ st'.view entries = (st.view entries).insert (tx.outPointAt output.2) output.1 ∧
      st'.coinbaseOutpoints = st.coinbaseOutpoints := by
  obtain ⟨-, ⟨hnot, hentry⟩, rfl⟩ := produceOutput_eq_ok.mp hok
  push Not at hnot
  refine ⟨⟨h.spent_nodup, h.spent_entry, h.consumed_iff, h.spent_consumed, h.consumed_spent, ?_⟩, ?_, rfl⟩
  · intro a ha
    rcases mem_insert.mp ha with rfl | hold
    · exact ⟨hentry, hnot.1⟩
    · exact h.staged_fresh a hold
  · refine Std.ExtTreeMap.ext_getElem? fun a => ?_
    rw [getElem?_insert, getElem?_view, getElem?_view, getElem?_insert]
    split
    · rfl
    · rfl

theorem Staging.Tracks.produceOutputs_isOk {tx : Transaction} {outputs : List (TxOutput × Nat)}
    (h : st.Tracks entries gone) :
    (∃ st', outputs.foldlM (UtxoStore.produceOutput entries tx.id) st = .ok st') ↔
      (∀ output ∈ outputs, output.2 < 2 ^ 32) ∧ (outputs.map fun output => tx.outPointAt output.2).Nodup ∧
        ∀ op ∈ outputs.map fun output => tx.outPointAt output.2, op ∉ st.view entries ∧ op ∉ gone := by
  induction outputs generalizing st with
  | nil => simp [pure, Except.pure]
  | cons output outputs ih =>
      simp only [foldlM_cons_eq_ok, List.map_cons, List.nodup_cons, List.forall_mem_cons]
      constructor
      · intro h'
        obtain ⟨st', t, ht, hrest⟩ := h'
        obtain ⟨hlt, hcheck, -⟩ := produceOutput_eq_ok.mp ht
        obtain ⟨htracks, hview, -⟩ := h.produceOutput ht
        obtain ⟨hlts, hnodup, hfresh⟩ := (ih htracks).mp ⟨st', hrest⟩
        rw [hview] at hfresh
        refine ⟨⟨hlt, hlts⟩, ⟨?_, hnodup⟩, h.fresh_iff.mpr hcheck, ?_⟩
        · intro hagain
          exact (hfresh _ hagain).1 (mem_insert.mpr (Or.inl rfl))
        · intro a ha
          exact ⟨fun hmem => (hfresh a ha).1 (mem_insert.mpr (Or.inr hmem)), (hfresh a ha).2⟩
      · intro h'
        obtain ⟨⟨hlt, hlts⟩, ⟨hnot, hnodup⟩, hnew, hfresh⟩ := h'
        obtain ⟨t, ht⟩ : ∃ t, UtxoStore.produceOutput entries tx.id st output = .ok t :=
          ⟨_, produceOutput_eq_ok.mpr ⟨hlt, h.fresh_iff.mp hnew, rfl⟩⟩
        obtain ⟨htracks, hview, -⟩ := h.produceOutput ht
        have hfresh' : ∀ a ∈ outputs.map fun output => tx.outPointAt output.2,
            a ∉ t.view entries ∧ a ∉ gone := by
          intro a ha
          rw [hview, mem_insert, not_or]
          exact ⟨⟨fun heq => hnot (heq ▸ ha), (hfresh a ha).1⟩, (hfresh a ha).2⟩
        obtain ⟨st', hst'⟩ := (ih htracks).mpr ⟨hlts, hnodup, hfresh'⟩
        exact ⟨st', t, ht, hst'⟩

private theorem Staging.Tracks.produceOutputs {tx : Transaction} {outputs : List (TxOutput × Nat)}
    (h : st.Tracks entries gone) (hok : outputs.foldlM (UtxoStore.produceOutput entries tx.id) st = .ok st') :
    st'.Tracks entries gone ∧
      st'.view entries = insertAll (st.view entries) (outputs.map fun output => (tx.outPointAt output.2, output.1)) ∧
      st'.coinbaseOutpoints = st.coinbaseOutpoints := by
  induction outputs generalizing st with
  | nil =>
      rw [List.foldlM_nil, pure_eq_ok] at hok
      subst hok
      exact ⟨h, rfl, rfl⟩
  | cons output outputs ih =>
      obtain ⟨t, ht, hrest⟩ := foldlM_cons_eq_ok.mp hok
      obtain ⟨htracks, hview, hcoinbase⟩ := h.produceOutput ht
      obtain ⟨htracks', hview', hcoinbase'⟩ := ih htracks hrest
      rw [List.map_cons, insertAll_cons, ← hview, ← hcoinbase]
      exact ⟨htracks', hview', hcoinbase'⟩

/-! ### Whole transactions and blocks -/

/-- The outpoints that get a creation height when the transaction at a position is the coinbase. -/
def coinbaseOutpointsAt (height : Height) (tx : Transaction × Nat) : List OutPoint :=
  if isCoinbaseAt height tx.1 tx.2 then tx.1.move.created else []

private theorem mapM_ofPosition {tx : Transaction} {outputs : List (TxOutput × Nat)} {e : StorageError}
    (hfits : ∀ output ∈ outputs, output.2 < 2 ^ 32) :
    (outputs.mapM fun output => okOr (OutPoint.ofPosition tx.id output.2) e) =
      .ok (outputs.map fun output => tx.outPointAt output.2) := by
  induction outputs with
  | nil => rfl
  | cons output outputs ih =>
      rw [List.forall_mem_cons] at hfits
      rw [List.mapM_cons, Transaction.ofPosition_of_lt hfits.1, ih hfits.2]
      rfl

theorem stageTransaction_eq {height : Height} {tx : Transaction × Nat} (hfits : tx.1.IndexFits) :
    stageTransaction entries height st tx = (do
      let st ← tx.1.inputs.foldlM (consumeInput entries) st
      let st ← tx.1.outputs.zipIdx.foldlM (produceOutput entries tx.1.id) st
      return { st with coinbaseOutpoints := st.coinbaseOutpoints ++ coinbaseOutpointsAt height tx }) := by
  unfold stageTransaction coinbaseOutpointsAt
  rw [mapM_ofPosition (Transaction.indexFits_iff.mp hfits), Transaction.created_keys]
  split
  · rfl
  · simp only [List.append_nil]

structure Staged (entries : UtxoMap) (gone : List OutPoint) (height : Height) (tx : Transaction × Nat)
    (st st' : Staging) : Prop where
  fits : tx.1.IndexFits
  admissible : Admissible (st.view entries) gone tx.1.move
  tracks : st'.Tracks entries (gone ++ tx.1.spends)
  view_eq : st'.view entries = advance (st.view entries) tx.1.move
  coinbaseOutpoints_eq : st'.coinbaseOutpoints = st.coinbaseOutpoints ++ coinbaseOutpointsAt height tx

variable {height : Height} {tx : Transaction × Nat}

theorem Staging.Tracks.stageTransaction (h : st.Tracks entries gone)
    (hok : UtxoStore.stageTransaction entries height st tx = .ok st') : Staged entries gone height tx st st' := by
  have hfits : tx.1.IndexFits := by
    unfold UtxoStore.stageTransaction at hok
    obtain ⟨t, hconsume, hok⟩ := bind_eq_ok.mp hok
    obtain ⟨u, hproduce, -⟩ := bind_eq_ok.mp hok
    have htracks := (h.consumeInputs hconsume).1
    exact Transaction.indexFits_iff.mpr (htracks.produceOutputs_isOk.mp ⟨u, hproduce⟩).1
  rw [stageTransaction_eq hfits] at hok
  obtain ⟨t, hconsume, hok⟩ := bind_eq_ok.mp hok
  obtain ⟨u, hproduce, hok⟩ := bind_eq_ok.mp hok
  rw [pure_eq_ok] at hok
  subst hok
  obtain ⟨hspends, hmem⟩ := h.consumeInputs_isOk.mp ⟨t, hconsume⟩
  obtain ⟨htracks, hview, hcoinbase⟩ := h.consumeInputs hconsume
  obtain ⟨-, -, hfresh⟩ := htracks.produceOutputs_isOk.mp ⟨u, hproduce⟩
  obtain ⟨htracks', hview', hcoinbase'⟩ := htracks.produceOutputs hproduce
  refine ⟨hfits, ⟨hspends, hmem, Transaction.created_nodup hfits, ?_⟩, ?_, ?_, ?_⟩
  · intro k hk
    rw [Transaction.created_keys] at hk
    obtain ⟨hnot, hgone⟩ := hfresh k hk
    rw [hview, mem_eraseAll] at hnot
    rw [List.mem_append, not_or] at hgone
    exact ⟨fun hin => hnot ⟨hin, hgone.2⟩, hgone.1⟩
  · exact ⟨htracks'.spent_nodup, htracks'.spent_entry, htracks'.consumed_iff, htracks'.spent_consumed,
      htracks'.consumed_spent, htracks'.staged_fresh⟩
  · change u.view entries = _
    rw [hview', hview]
    rfl
  · rw [← hcoinbase, ← hcoinbase']

private theorem Staging.Tracks.stageTransaction_isOk (h : st.Tracks entries gone) (hfits : tx.1.IndexFits)
    (hadm : Admissible (st.view entries) gone tx.1.move) :
    ∃ st', UtxoStore.stageTransaction entries height st tx = .ok st' := by
  obtain ⟨t, hconsume⟩ := h.consumeInputs_isOk.mpr ⟨hadm.spends_nodup, hadm.spends_mem⟩
  obtain ⟨htracks, hview, -⟩ := h.consumeInputs hconsume
  have hfresh : ∀ op ∈ tx.1.outputs.zipIdx.map (fun output => tx.1.outPointAt output.2),
      op ∉ t.view entries ∧ op ∉ gone ++ tx.1.spends := by
    intro op hop
    rw [← Transaction.created_keys] at hop
    obtain ⟨hnot, hgone⟩ := hadm.created_fresh op hop
    rw [hview, mem_eraseAll, List.mem_append, not_or]
    exact ⟨fun hin => hnot hin.1, hgone, fun hspent => hnot (hadm.spends_mem op hspent)⟩
  have hnodup := Transaction.created_nodup hfits
  rw [Transaction.created_keys] at hnodup
  obtain ⟨u, hproduce⟩ := htracks.produceOutputs_isOk.mpr ⟨Transaction.indexFits_iff.mp hfits, hnodup, hfresh⟩
  rw [stageTransaction_eq hfits, hconsume, ok_bind, hproduce]
  exact ⟨_, rfl⟩

theorem Staging.Tracks.stageTransactions_isOk {txs : List (Transaction × Nat)} (h : st.Tracks entries gone) :
    (∃ st', txs.foldlM (UtxoStore.stageTransaction entries height) st = .ok st') ↔
      Valid (fun tx : Transaction × Nat => tx.1.move) (st.view entries) gone txs ∧ ∀ tx ∈ txs, tx.1.IndexFits := by
  induction txs generalizing st gone with
  | nil => simp [pure, Except.pure, Valid]
  | cons tx txs ih =>
      simp only [foldlM_cons_eq_ok, Valid, List.forall_mem_cons]
      constructor
      · intro h'
        obtain ⟨st', t, ht, hrest⟩ := h'
        have hstep := h.stageTransaction ht
        obtain ⟨hvalid, hfits⟩ := (ih hstep.tracks).mp ⟨st', hrest⟩
        rw [hstep.view_eq] at hvalid
        exact ⟨⟨hstep.admissible, hvalid⟩, hstep.fits, hfits⟩
      · intro h'
        obtain ⟨⟨hadm, hvalid⟩, hfit, hfits⟩ := h'
        obtain ⟨t, ht⟩ : ∃ t, UtxoStore.stageTransaction entries height st tx = .ok t :=
          h.stageTransaction_isOk hfit hadm
        have hstep := h.stageTransaction ht
        have hvalid' : Valid (fun tx : Transaction × Nat => tx.1.move) (t.view entries) (gone ++ tx.1.spends) txs := by
          rw [hstep.view_eq]
          exact hvalid
        obtain ⟨st', hst'⟩ := (ih hstep.tracks).mpr ⟨hvalid', hfits⟩
        exact ⟨st', t, ht, hst'⟩

theorem Staging.Tracks.stageTransactions {txs : List (Transaction × Nat)} (h : st.Tracks entries gone)
    (hok : txs.foldlM (UtxoStore.stageTransaction entries height) st = .ok st') :
    (∃ gone', st'.Tracks entries gone') ∧
      st'.view entries = advanceAll (fun tx : Transaction × Nat => tx.1.move) (st.view entries) txs ∧
      st'.coinbaseOutpoints = st.coinbaseOutpoints ++ txs.flatMap (coinbaseOutpointsAt height) := by
  induction txs generalizing st gone with
  | nil =>
      rw [List.foldlM_nil, pure_eq_ok] at hok
      subst hok
      exact ⟨⟨gone, h⟩, rfl, by simp⟩
  | cons tx txs ih =>
      obtain ⟨t, ht, hrest⟩ := foldlM_cons_eq_ok.mp hok
      have hstep := h.stageTransaction ht
      obtain ⟨htracks, hview, hcoinbase⟩ := ih hstep.tracks hrest
      rw [hstep.view_eq] at hview
      rw [hstep.coinbaseOutpoints_eq, List.append_assoc, ← List.flatMap_cons] at hcoinbase
      exact ⟨htracks, hview, hcoinbase⟩

end UtxoStore

end QuantumVault
