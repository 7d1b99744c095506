import QuantumVault.Proof.Ledger.Rewards
import QuantumVault.Proof.Ledger.Undo

/-!
# Coinbase maturity

Replaying the applied blocks tells of every live output at which height it was created and whether a coinbase created it. The store's table of creation heights is the coinbase part of that replay, in every state that accepted blocks and reverts lead to, so the maturity rule judges every spend by its true creation height.
-/

namespace QuantumVault

open Result TreeMap Ledger

variable [Crypto]

omit [Crypto] in
theorem checkMature_eq_ok {store : UtxoStore} {height : Height} {maturity : UInt64} {op : OutPoint} :
    checkMature store height maturity op = .ok () ↔
      ∀ created, store.coinbaseHeights[op]? = some created → Word.saturatingAdd created maturity ≤ height := by
  unfold checkMature UtxoStore.coinbaseHeight
  cases hget : store.coinbaseHeights[op]? with
  | none => simp
  | some created => simp [require_eq_ok]

omit [Crypto] in
theorem checkMature_mono {store store' : UtxoStore} {height height' : Height} {maturity : UInt64} {op : OutPoint}
    (h : checkMature store height maturity op = .ok ()) (hsame : store'.coinbaseHeights[op]? = store.coinbaseHeights[op]?)
    (hle : height ≤ height') : checkMature store' height' maturity op = .ok () := by
  rw [checkMature_eq_ok] at h ⊢
  intro created hcreated
  rw [hsame] at hcreated
  exact UInt64.le_trans (h created hcreated) hle

theorem UtxoStore.Applied.coinbaseOutpoint_fresh {store store' : UtxoStore} {block : Block}
    (h : UtxoStore.Applied store block store') {op : OutPoint} (hmem : op ∈ store.entries) :
    op ∉ block.coinbaseOutpoints := by
  intro hcoinbase
  exact h.valid.notMem_of_created (fun _ hk => Or.inl hk) (UtxoStore.mem_created_of_coinbase hcoinbase) hmem

theorem UtxoStore.Applied.coinbaseHeight_of_live {store store' : UtxoStore} {block : Block}
    (h : UtxoStore.Applied store block store') {op : OutPoint} (hmem : op ∈ store.entries) (hmem' : op ∈ store'.entries) :
    store'.coinbaseHeights[op]? = store.coinbaseHeights[op]? := by
  rw [h.coinbaseHeight_eq, if_neg fun hboth => h.coinbaseOutpoint_fresh hmem hboth.1,
    if_neg fun hboth => hboth.2 hmem']

/-! ### Where live outputs come from -/

/-- For every live output the height of the block that created it, and whether its coinbase did. -/
abbrev Origins := Std.ExtTreeMap OutPoint (Height × Bool)

/-- What the transaction at a position of a block does to the origins. -/
def originMove (height : Height) (tx : Transaction × Nat) : Move OutPoint (Height × Bool) :=
  ⟨tx.1.spends, tx.1.created.map fun kv => (kv.1, (height, UtxoStore.isCoinbaseAt height tx.1 tx.2))⟩

@[simp] theorem originMove_spends (height : Height) (tx : Transaction × Nat) :
    (originMove height tx).spends = tx.1.spends := rfl

theorem originMove_created (height : Height) (tx : Transaction × Nat) :
    (originMove height tx).created = tx.1.move.created := by
  rw [Move.created, Move.created, originMove, List.map_map]
  rfl

def Block.origins (block : Block) (origins : Origins) : Origins :=
  advanceAll (originMove block.header.height) origins block.transactions.zipIdx

def originsOf : List Block → Origins
  | [] => ∅
  | block :: below => block.origins (originsOf below)

namespace UtxoStore

variable {s s' t : UtxoStore} {block : Block} {origins : Origins} {op : OutPoint}

/-- The store's entries are the replayed ones, and its creation heights are those of coinbase outputs. -/
structure Tracks (s : UtxoStore) (origins : Origins) : Prop where
  live : ∀ op, op ∈ origins ↔ op ∈ s.entries
  height : ∀ (op : OutPoint) (c : Height), s.coinbaseHeights[op]? = some c ↔ origins[op]? = some (c, true)

omit [Crypto] in
theorem Tracks.notMem (h : s.Tracks origins) (hdead : op ∉ s.entries) : s.coinbaseHeights[op]? = none := by
  cases hget : s.coinbaseHeights[op]? with
  | none => rfl
  | some c => exact absurd ((h.live op).mp (mem_of_getElem? ((h.height op c).mp hget))) hdead

theorem Tracks.valid (h : s.Tracks origins) (hvalid : Valid Transaction.move s.entries [] block.transactions) :
    Valid (originMove block.header.height) origins [] block.transactions.zipIdx ∧
      ∀ op, op ∈ block.origins origins ↔ op ∈ block.advance s.entries := by
  have hpairs : Valid (fun tx : Transaction × Nat => tx.1.move) s.entries [] block.transactions.zipIdx := by
    rw [← List.zipIdx_map_fst 0 block.transactions] at hvalid
    exact valid_map.mp hvalid
  obtain ⟨hvalid', hkeys⟩ := hpairs.of_keys (fun tx _ => originMove_spends block.header.height tx)
    (fun tx _ => originMove_created block.header.height tx) h.live
  refine ⟨hvalid', fun op => (hkeys op).trans ?_⟩
  rw [Block.advance, ← advanceAll_map, List.zipIdx_map_fst]

theorem mem_coinbaseOutpoints :
    op ∈ block.coinbaseOutpoints ↔
      ∃ tx ∈ block.transactions.zipIdx, isCoinbaseAt block.header.height tx.1 tx.2 = true ∧ op ∈ tx.1.move.created := by
  rw [Block.coinbaseOutpoints, List.mem_flatMap]
  refine exists_congr fun tx => and_congr_right fun _ => ?_
  unfold coinbaseOutpointsAt
  cases isCoinbaseAt block.header.height tx.1 tx.2 <;> simp

/-- **Step lemma.** An applied block keeps the creation heights in step with the origins. -/
theorem Tracks.applied (h : s.Tracks origins) (happlied : Applied s block s') : s'.Tracks (block.origins origins) := by
  obtain ⟨hvalid, hlive⟩ := h.valid happlied.valid
  have hlive' : ∀ op, op ∈ block.origins origins ↔ op ∈ s'.entries := by
    rw [happlied.entries_eq]
    exact hlive
  refine ⟨hlive', fun op c => ?_⟩
  by_cases hmem : op ∈ s'.entries
  · by_cases hcreated : op ∈ block.created
    · -- a new output: its kind decides
      have hfresh : op ∉ s.entries := happlied.valid.notMem_of_created (fun _ hk => Or.inl hk) hcreated
      have horigin {tx : Transaction × Nat} (htx : tx ∈ block.transactions.zipIdx) (hop : op ∈ tx.1.move.created) :
          (block.origins origins)[op]? =
            some (block.header.height, isCoinbaseAt block.header.height tx.1 tx.2) := by
        obtain ⟨kv, hkv, rfl⟩ := List.mem_map.mp hop
        exact hvalid.getElem?_created htx (List.mem_map.mpr ⟨kv, hkv, rfl⟩) ((hlive' kv.1).mpr hmem)
      rw [happlied.coinbaseHeight_eq]
      by_cases hcoinbase : op ∈ block.coinbaseOutpoints
      · obtain ⟨tx, htx, hflag, hop⟩ := mem_coinbaseOutpoints.mp hcoinbase
        rw [if_pos ⟨hcoinbase, hmem⟩, horigin htx hop, hflag]
        simp
      · rw [← created_zipIdx, List.mem_flatMap] at hcreated
        obtain ⟨tx, htx, hop⟩ := hcreated
        have hflag : isCoinbaseAt block.header.height tx.1 tx.2 = false := by
          by_contra htrue
          exact hcoinbase (mem_coinbaseOutpoints.mpr ⟨tx, htx, by simpa using htrue, hop⟩)
        rw [if_neg fun hboth => hcoinbase hboth.1, if_neg fun hboth => hfresh hboth.1, h.notMem hfresh,
          horigin htx hop, hflag]
        simp
    · -- an old output that the block left alone
      have hold : op ∈ s.entries := by
        rw [happlied.entries_eq] at hmem
        exact (mem_or_created hmem).resolve_right hcreated
      rw [happlied.coinbaseHeight_of_live hold hmem, h.height]
      obtain ⟨origin, horigin⟩ := mem_iff.mp ((h.live op).mpr hold)
      have hunspent := hvalid.unspent ((h.live op).mpr hold) ((hlive' op).mpr hmem)
      rw [Block.origins, hvalid.getElem?_advanceAll horigin hunspent, horigin]
  · have hnone : (block.origins origins)[op]? = none := notMem_iff.mp fun hop => hmem ((hlive' op).mp hop)
    rw [hnone, happlied.coinbaseHeight_eq, if_neg fun hboth => hmem hboth.2]
    split
    · simp
    · rename_i hkept
      rw [h.notMem fun hold => hkept ⟨hold, hmem⟩]
      simp

end UtxoStore

/-! ### The block rule -/

section BlockRule

variable {store : UtxoStore} {origins view : Origins} {inBlock inBlock' : Std.ExtTreeMap OutPoint (Amount × Bool)}
  {height : Height} {maturity : UInt64} {op : OutPoint} {created : Height} {gone : List OutPoint}

/-- The overlay together with the origins before the block knows every unspent coinbase output. -/
def Marks (origins view : Origins) (inBlock : Std.ExtTreeMap OutPoint (Amount × Bool)) : Prop :=
  ∀ (op : OutPoint) (created : Height), view[op]? = some (created, true) →
    (inBlock[op]? = none ∧ origins[op]? = some (created, true)) ∨ ∃ value, inBlock[op]? = some (value, true)

omit [Crypto] in
theorem Marks.start (origins : Origins) : Marks origins origins ∅ := by
  intro op created hop
  exact Or.inl ⟨Std.ExtTreeMap.getElem?_empty, hop⟩

omit [Crypto] in
private theorem claimsReward_eq {tx : Transaction × Nat} (hheight : height ≠ 0) :
    claimsReward tx = UtxoStore.isCoinbaseAt height tx.1 tx.2 := by
  have hpos : height > 0 := UInt64.pos_iff_ne_zero.mpr hheight
  rw [claimsReward, UtxoStore.isCoinbaseAt, decide_eq_true hpos, Bool.and_true]

theorem Marks.advance {tx : Transaction × Nat} (hmarks : Marks origins view inBlock) (hfits : tx.1.IndexFits)
    (hheight : height ≠ 0) :
    Marks origins (Ledger.advance view (originMove height tx)) (insertAll inBlock
      (tx.1.outputs.zipIdx.map fun output => (tx.1.outPointAt output.2, (output.1.value, claimsReward tx)))) := by
  have hkeys : (tx.1.outputs.zipIdx.map fun output =>
      (tx.1.outPointAt output.2, (output.1.value, claimsReward tx))).map Prod.fst = tx.1.move.created := by
    rw [Transaction.created_keys, List.map_map]
    rfl
  have hnodup := Transaction.created_nodup hfits
  intro op created hop
  by_cases hcreated : op ∈ tx.1.move.created
  · rw [Transaction.created_keys, List.mem_map] at hcreated
    obtain ⟨o, ho, rfl⟩ := hcreated
    have hmem : (tx.1.outPointAt o.2, (height, claimsReward tx)) ∈ (originMove height tx).creates := by
      rw [claimsReward_eq hheight]
      exact List.mem_map.mpr ⟨_, List.mem_map.mpr ⟨o, ho, rfl⟩, rfl⟩
    rw [getElem?_advance_created (originMove_created height tx ▸ hnodup) hmem, Option.some.injEq] at hop
    refine Or.inr ⟨o.1.value, ?_⟩
    rw [← (Prod.mk.inj hop).2]
    exact getElem?_insertAll_of_mem (hkeys.symm ▸ hnodup) (List.mem_map.mpr ⟨o, ho, rfl⟩)
  · have hnew : op ∉ (originMove height tx).created := originMove_created height tx ▸ hcreated
    have hold : op ∈ view ∧ op ∉ (originMove height tx).spends :=
      (mem_advance.mp (mem_of_getElem? hop)).resolve_left hnew
    rw [getElem?_advance_of_notMem hnew hold.2] at hop
    rw [getElem?_insertAll_of_notMem (hkeys ▸ hcreated)]
    exact hmarks op created hop

omit [Crypto] in
private theorem addInputValues_resolve {inputs : List TxInput} {a c : Amount}
    (hok : inputs.foldlM (addInputValue store height maturity inBlock) a = .ok c) :
    ∀ input ∈ inputs, ∃ value, resolveValue store height maturity inBlock input.prevOutput = .ok value := by
  induction inputs generalizing a with
  | nil => simp
  | cons input inputs ih =>
      obtain ⟨b, hb, hrest⟩ := foldlM_cons_eq_ok.mp hok
      obtain ⟨value, hvalue, -⟩ := bind_eq_ok.mp hb
      exact List.forall_mem_cons.mpr ⟨⟨value, hvalue⟩, ih hrest⟩

omit [Crypto] in
theorem Marks.mature {value : Amount} (hmarks : Marks origins view inBlock) (htracks : store.Tracks origins)
    (hok : resolveValue store height maturity inBlock op = .ok value) (hop : view[op]? = some (created, true)) :
    Word.saturatingAdd created maturity ≤ height := by
  unfold resolveValue at hok
  rcases hmarks op created hop with ⟨hnone, horigin⟩ | ⟨value, hsome⟩
  · rw [hnone] at hok
    obtain ⟨resolved, -, hok⟩ := okOr_bind_eq_ok.mp hok
    obtain ⟨u, hmature, -⟩ := bind_eq_ok.mp hok
    exact checkMature_eq_ok.mp hmature created ((htracks.height op created).mpr horigin)
  · rw [hsome] at hok
    exact absurd (require_bind_eq_ok.mp hok).1 (by decide)

/-- Every coinbase output that a transaction spends where it stands has the depth that a block at this height needs. -/
def SpendsMature (height : Height) (maturity : UInt64) (p : Origins × (Transaction × Nat)) : Prop :=
  ∀ op ∈ p.2.1.spends, ∀ created, p.1[op]? = some (created, true) → Word.saturatingAdd created maturity ≤ height

/-- **Step lemma.** A transaction that passes the reward check spends mature coinbases only. -/
theorem Marks.rewardTransaction {tx : Transaction × Nat} {st st' : RewardState} (hmarks : Marks origins view st.inBlock)
    (htracks : store.Tracks origins) (hheight : height ≠ 0)
    (hok : rewardTransaction store height maturity st tx = .ok st') :
    SpendsMature height maturity (view, tx) ∧ Marks origins (Ledger.advance view (originMove height tx)) st'.inBlock := by
  obtain ⟨hfits, hinBlock, hcases⟩ := rewardTransaction_cases hok
  refine ⟨?_, hinBlock ▸ hmarks.advance hfits hheight⟩
  obtain ⟨hclaims, -⟩ | ⟨-, -, inputSum, hinputs, -⟩ := hcases
  · have hnil : tx.1.inputs = [] := List.isEmpty_iff.mp (Bool.and_eq_true_iff.mp hclaims).2
    intro op hop
    simp [Transaction.spends, hnil] at hop
  · intro op hop created hget
    obtain ⟨input, hinput, rfl⟩ := List.mem_map.mp hop
    obtain ⟨value, hvalue⟩ := addInputValues_resolve hinputs input hinput
    exact hmarks.mature htracks hvalue hget

/-- **Run lemma.** -/
theorem Marks.rewardTransactions {txs : List (Transaction × Nat)} {st st' : RewardState}
    (hmarks : Marks origins view st.inBlock) (htracks : store.Tracks origins) (hheight : height ≠ 0)
    (hok : txs.foldlM (QuantumVault.rewardTransaction store height maturity) st = .ok st') :
    ∀ p ∈ meets (originMove height) view txs, SpendsMature height maturity p := by
  induction txs generalizing view st with
  | nil => simp [meets]
  | cons tx txs ih =>
      obtain ⟨mid, hmid, hrest⟩ := foldlM_cons_eq_ok.mp hok
      obtain ⟨hfirst, hmarks'⟩ := hmarks.rewardTransaction htracks hheight hmid
      exact List.forall_mem_cons.mpr ⟨hfirst, ih hmarks' hrest⟩

end BlockRule

/-! ### Runs with reverts -/

namespace UtxoStore

variable {s s' t t' : UtxoStore} {block : Block} {blocks : List Block} {monetary : MonetaryParams} {maturity : UInt64}

/-- Two stores with the same entries and creation heights. -/
def SameLedger (s t : UtxoStore) : Prop := s.entries = t.entries ∧ s.coinbaseHeights = t.coinbaseHeights

omit [Crypto] in
private theorem SameLedger.spentHeights_eq (h : SameLedger s t) (st : Staging) : s.spentHeights st = t.spentHeights st := by
  unfold spentHeights coinbaseHeight
  rw [h.2]

theorem SameLedger.applyBlock (h : SameLedger s t) (hok : s.applyBlock block = .ok s') :
    ∃ t', t.applyBlock block = .ok t' ∧ SameLedger s' t' ∧ s'.undo[block.hash]? = t'.undo[block.hash]? := by
  obtain ⟨hstructure, st, hst, rfl⟩ := applyBlock_eq_ok.mp hok
  have hheights := h.spentHeights_eq st
  refine ⟨t.writeBlock block st, applyBlock_eq_ok.mpr ⟨hstructure, st, h.1 ▸ hst, rfl⟩, ⟨?_, ?_⟩, ?_⟩
  · show insertAll (eraseAll s.entries _) _ = insertAll (eraseAll t.entries _) _
    rw [h.1]
  · show insertAll (eraseAll s.coinbaseHeights ((s.spentHeights st).map Prod.fst)) _ =
      insertAll (eraseAll t.coinbaseHeights ((t.spentHeights st).map Prod.fst)) _
    rw [hheights, h.2]
  · show (s.undo.insert block.hash ⟨st.spent, s.spentHeights st⟩)[block.hash]? =
      (t.undo.insert block.hash ⟨st.spent, t.spentHeights st⟩)[block.hash]?
    rw [Std.ExtTreeMap.getElem?_insert_self, Std.ExtTreeMap.getElem?_insert_self, hheights]

theorem SameLedger.revertBlock (h : SameLedger s t) (hundo : s.undo[block.hash]? = t.undo[block.hash]?)
    (hfits : ∀ tx ∈ block.transactions, tx.IndexFits) (hok : s.revertBlock block = .ok s') :
    ∃ t', t.revertBlock block = .ok t' ∧ SameLedger s' t' ∧ s'.undo = s.undo.erase block.hash := by
  have hpairs : ∀ tx ∈ block.transactions.zipIdx, tx.1.IndexFits :=
    fun tx htx => hfits tx.1 (List.fst_mem_of_mem_zipIdx htx)
  obtain ⟨log, hlog, hok⟩ := okOr_bind_eq_ok.mp hok
  rw [deleteOutputs_fold hpairs, ok_bind, pure_eq_ok] at hok
  subst hok
  rw [UtxoStore.revertBlock, ← hundo, hlog, okOr_some, ok_bind, deleteOutputs_fold hpairs, ok_bind]
  refine ⟨_, rfl, ⟨?_, ?_⟩, rfl⟩
  · rw [h.1]
  · rw [h.2]

/-- The store that blocks lead to from an empty one, the last block first. -/
def replay : List Block → Except StorageError UtxoStore
  | [] => .ok new
  | block :: below => do
      let s ← replay below
      s.applyBlock block

omit [Crypto] in
theorem Tracks.new : new.Tracks ∅ := by
  constructor <;> simp [UtxoStore.new]

theorem tracks_of_replay (hok : replay blocks = .ok t) : t.Tracks (originsOf blocks) := by
  induction blocks generalizing t with
  | nil =>
      cases hok
      exact .new
  | cons block below ih =>
      obtain ⟨s, hs, happly⟩ := bind_eq_ok.mp hok
      exact (ih hs).applied (.of_ok happly)

/-- Every undo record that reverting the blocks one by one will read is the one that the block has written. -/
def UndoKept (undo : Std.ExtTreeMap BlockHash UndoLog) : List Block → Prop
  | [] => True
  | block :: below =>
      (∀ log, undo[block.hash]? = some log → ∃ t, replay (block :: below) = .ok t ∧ t.undo[block.hash]? = some log) ∧
        UndoKept (undo.erase block.hash) below

theorem UndoKept.mono {undo undo' : Std.ExtTreeMap BlockHash UndoLog} (h : UndoKept undo blocks)
    (hle : ∀ (hash : BlockHash) (log : UndoLog), undo'[hash]? = some log → undo[hash]? = some log) : UndoKept undo' blocks := by
  induction blocks generalizing undo undo' with
  | nil => trivial
  | cons block below ih =>
      refine ⟨fun log hlog => h.1 log (hle _ log hlog), ih h.2 ?_⟩
      intro hash log hlog
      rw [getElem?_erase] at hlog ⊢
      split at hlog
      · cases hlog
      · rename_i hne
        rw [if_neg hne]
        exact hle hash log hlog

/-- A store that differs from the replayed one in undo records at most, and only by missing ones. -/
structure Replays (s : UtxoStore) (blocks : List Block) (t : UtxoStore) : Prop where
  replay_eq : replay blocks = .ok t
  same : SameLedger s t
  undo : UndoKept s.undo blocks

theorem Replays.accept (h : Replays s blocks t) (hok : s.applyBlock block = .ok s') :
    ∃ t', Replays s' (block :: blocks) t' := by
  obtain ⟨t', ht', hsame, hrecord⟩ := h.same.applyBlock hok
  have hreplay : replay (block :: blocks) = .ok t' := bind_eq_ok.mpr ⟨t, h.replay_eq, ht'⟩
  obtain ⟨log, hlog⟩ := (Applied.of_ok hok).undo_eq
  refine ⟨t', hreplay, hsame, fun log hget => ⟨t', hreplay, hrecord ▸ hget⟩, h.undo.mono ?_⟩
  intro hash log hget
  rw [hlog, getElem?_erase] at hget
  split at hget
  · cases hget
  · rename_i hne
    rwa [getElem?_insert_of_ne hne] at hget

theorem Replays.revert (h : Replays s (block :: blocks) t) (hok : s.revertBlock block = .ok s') :
    ∃ t', Replays s' blocks t' := by
  obtain ⟨below, hbelow, happly⟩ := bind_eq_ok.mp h.replay_eq
  have happlied := Applied.of_ok happly
  obtain ⟨log, hlog, -⟩ := okOr_bind_eq_ok.mp hok
  have hrecord : t.undo[block.hash]? = some log := by
    obtain ⟨t₀, ht₀, hlog₀⟩ := h.undo.1 log hlog
    rw [h.replay_eq, Except.ok.injEq] at ht₀
    rwa [ht₀]
  obtain ⟨t', ht', hsame, hundo⟩ := h.same.revertBlock (hlog.trans hrecord.symm) happlied.fits hok
  obtain ⟨t₁, ht₁, hback⟩ := revert_applied happly
  rw [ht', Except.ok.injEq] at ht₁
  subst ht₁
  refine ⟨below, hbelow, ⟨hsame.1.trans hback.entries_eq, hsame.2.trans ?_⟩, ?_⟩
  · refine Std.ExtTreeMap.ext_getElem? fun op => ?_
    rw [hback.coinbaseHeight_eq]
    split
    · rename_i hcoinbase
      symm
      apply (tracks_of_replay hbelow).notMem
      intro hlive
      exact happlied.coinbaseOutpoint_fresh hlive hcoinbase
    · rfl
  · rw [hundo]
    exact h.undo.2

def nextHeight : List Block → Option Height
  | [] => some 0
  | block :: _ => Word.checkedAdd block.header.height 1

/-- A block that the value rules and the store accept on top of the others. -/
structure Accepts (monetary : MonetaryParams) (maturity : UInt64) (blocks : List Block) (s : UtxoStore) (block : Block)
    (s' : UtxoStore) : Prop where
  height : nextHeight blocks = some block.header.height
  rewards : ∃ fees, validateBlockRewards block s monetary maturity = .ok fees
  apply : s.applyBlock block = .ok s'

/-- The stores that accepted blocks and reverts of the last block lead to, with the blocks that are still applied. -/
inductive Reached (monetary : MonetaryParams) (maturity : UInt64) : List Block → UtxoStore → Prop
  | start : Reached monetary maturity [] new
  | accept {blocks : List Block} {s : UtxoStore} {block : Block} {s' : UtxoStore} : Reached monetary maturity blocks s → Accepts monetary maturity blocks s block s' →
      Reached monetary maturity (block :: blocks) s'
  | revert {blocks : List Block} {s : UtxoStore} {block : Block} {s' : UtxoStore} : Reached monetary maturity (block :: blocks) s → s.revertBlock block = .ok s' →
      Reached monetary maturity blocks s'

private theorem Reached.replays (h : Reached monetary maturity blocks s) : ∃ t, Replays s blocks t := by
  induction h with
  | start => exact ⟨new, rfl, ⟨rfl, rfl⟩, trivial⟩
  | accept _ haccept ih =>
      obtain ⟨t, ht⟩ := ih
      exact ht.accept haccept.apply
  | revert _ hrevert ih =>
      obtain ⟨t, ht⟩ := ih
      exact ht.revert hrevert

/-- **The table of creation heights.** In every reached store it is the coinbase part of the origins. -/
theorem Reached.tracks (h : Reached monetary maturity blocks s) : s.Tracks (originsOf blocks) := by
  obtain ⟨t, ht⟩ := h.replays
  have htracks := tracks_of_replay ht.replay_eq
  refine ⟨fun op => ?_, fun op c => ?_⟩
  · rw [ht.same.1]
    exact htracks.live op
  · rw [ht.same.2]
    exact htracks.height op c

private theorem noCoinbase_genesis {view : Origins} {gone : List OutPoint} {txs : List (Transaction × Nat)}
    (hview : ∀ (op : OutPoint) (created : Height), view[op]? ≠ some (created, true))
    (hvalid : Valid (originMove 0) view gone txs) :
    ∀ p ∈ meets (originMove 0) view txs, ∀ (op : OutPoint) (created : Height), p.1[op]? ≠ some (created, true) := by
  induction txs generalizing view gone with
  | nil => simp [meets]
  | cons tx txs ih =>
      obtain ⟨hadm, hrest⟩ := hvalid
      refine List.forall_mem_cons.mpr ⟨hview, ih ?_ hrest⟩
      intro op created hop
      by_cases hcreated : op ∈ (originMove 0 tx).created
      · obtain ⟨kv, hkv, rfl⟩ := List.mem_map.mp hcreated
        rw [getElem?_advance_created hadm.created_nodup hkv, Option.some.injEq] at hop
        obtain ⟨output, -, rfl⟩ := List.mem_map.mp hkv
        have hflag : isCoinbaseAt 0 tx.1 tx.2 = true := (Prod.mk.inj hop).2
        simp [isCoinbaseAt] at hflag
      · have hold := (mem_advance.mp (mem_of_getElem? hop)).resolve_left hcreated
        rw [getElem?_advance_of_notMem hcreated hold.2] at hop
        exact hview op created hop

omit [Crypto] in
private theorem eq_nil_of_nextHeight (h : nextHeight blocks = some 0) : blocks = [] := by
  cases blocks with
  | nil => rfl
  | cons block below =>
      have hsum := Word.checkedAdd_eq_some.mp h
      rw [UInt64.toNat_zero, UInt64.toNat_one] at hsum
      omega

private theorem Reached.spendsMature (h : Reached monetary maturity blocks s)
    (haccept : Accepts monetary maturity blocks s block s') :
    ∀ p ∈ meets (originMove block.header.height) (originsOf blocks) block.transactions.zipIdx,
      SpendsMature block.header.height maturity p := by
  by_cases hheight : block.header.height = 0
  · have hnil := eq_nil_of_nextHeight (hheight ▸ haccept.height)
    subst hnil
    have hvalid := (h.tracks.valid (Applied.of_ok haccept.apply).valid).1
    rw [hheight] at hvalid ⊢
    intro p hp op _ created hop
    have hempty : ∀ (op : OutPoint) (created : Height), (originsOf [])[op]? ≠ some (created, true) := by
      simp [originsOf]
    exact absurd hop (noCoinbase_genesis hempty hvalid p hp op created)
  · obtain ⟨fees, hrewards⟩ := haccept.rewards
    unfold validateBlockRewards at hrewards
    rw [if_neg hheight] at hrewards
    obtain ⟨st, hst, -⟩ := bind_eq_ok.mp hrewards
    exact (Marks.start (originsOf blocks)).rewardTransactions h.tracks hheight hst

omit [Crypto] in
/-- The block rule refuses a live output as immature exactly when the store's rule does. -/
theorem resolveValue_eq_immature {inBlock : Std.ExtTreeMap OutPoint (Amount × Bool)} {height : Height} {op : OutPoint}
    {created : UInt64} (houtside : op ∉ inBlock) :
    resolveValue s height maturity inBlock op = .error (.immatureCoinbase op created height maturity) ↔
      op ∈ s.entries ∧ s.coinbaseHeights[op]? = some created ∧ height < Word.saturatingAdd created maturity := by
  unfold resolveValue checkMature coinbaseHeight UtxoStore.get
  rw [notMem_iff.mp houtside, mem_iff]
  cases hentry : s.entries[op]? with
  | none => simp [okOr]
  | some output =>
      cases hget : s.coinbaseHeights[op]? with
      | none => simp [pure, Except.pure]
      | some c =>
          by_cases hlt : height < Word.saturatingAdd c maturity
          · have hrefused : require (¬ height < Word.saturatingAdd c maturity)
                (TxValidationError.immatureCoinbase op c height maturity) = .error (.immatureCoinbase op c height maturity) :=
              require_eq_error.mpr ⟨not_not.mpr hlt, rfl⟩
            simp only [okOr_some, ok_bind, hrefused, error_bind]
            constructor
            · intro heq
              cases heq
              exact ⟨⟨output, rfl⟩, rfl, hlt⟩
            · intro hboth
              cases hboth.2.1
              rfl
          · have hpassed : require (¬ height < Word.saturatingAdd c maturity)
                (TxValidationError.immatureCoinbase op c height maturity) = .ok () := require_eq_ok.mpr hlt
            simp only [okOr_some, ok_bind, hpassed]
            constructor
            · intro heq
              cases heq
            · intro hboth
              cases hboth.2.1
              exact absurd hboth.2.2 hlt

/-- **Coinbase maturity over runs.** In every store that accepted blocks and reverts lead to, the creation heights are those of the live coinbase outputs. No block that is accepted next spends a coinbase output before its creation height plus the maturity, the sum taken in 64 bits and cut off at their end, and the mempool's gate refuses what the block rule refuses. -/
theorem coinbase_maturity (h : Reached monetary maturity blocks s) :
    (∀ (op : OutPoint) (c : Height), s.coinbaseHeight op = some c ↔ (originsOf blocks)[op]? = some (c, true)) ∧
    (∀ op, op ∈ s.entries ↔ op ∈ originsOf blocks) ∧
    (∀ block s', Accepts monetary maturity blocks s block s' →
      ∀ p ∈ meets (originMove block.header.height) (originsOf blocks) block.transactions.zipIdx,
        ∀ op ∈ p.2.1.spends, ∀ c, p.1[op]? = some (c, true) →
          min (c.toNat + maturity.toNat) (2 ^ 64 - 1) ≤ block.header.height.toNat) ∧
    ∀ (tx : Transaction) (height : Height) (inBlock : Std.ExtTreeMap OutPoint (Amount × Bool)),
      (∀ op ∈ tx.spends, op ∉ inBlock) →
        (checkCoinbaseMaturity tx s height maturity = .ok () ↔
          ∀ op ∈ tx.spends, ∀ created, resolveValue s height maturity inBlock op ≠
            .error (.immatureCoinbase op created height maturity)) := by
  have htracks := h.tracks
  refine ⟨htracks.height, fun op => (htracks.live op).symm, ?_, ?_⟩
  · intro block s' haccept p hp op hop c hget
    have hle := h.spendsMature haccept p hp op hop c hget
    rw [UInt64.le_iff_toNat_le, Word.toNat_saturatingAdd] at hle
    exact hle
  · intro tx height inBlock houtside
    unfold checkCoinbaseMaturity
    rw [forM_eq_ok]
    constructor
    · intro hgate op hop created himmature
      obtain ⟨input, hinput, rfl⟩ := List.mem_map.mp hop
      obtain ⟨-, hheight, hlt⟩ := (resolveValue_eq_immature (houtside _ hop)).mp himmature
      exact absurd (checkMature_eq_ok.mp (hgate input hinput) created hheight) (UInt64.not_le.mpr hlt)
    · intro hrule input hinput
      have hop : input.prevOutput ∈ tx.spends := List.mem_map_of_mem hinput
      apply checkMature_eq_ok.mpr
      intro created hheight
      by_contra hlt
      have hlive := (htracks.live _).mp (mem_of_getElem? ((htracks.height _ created).mp hheight))
      exact hrule _ hop created
        ((resolveValue_eq_immature (houtside _ hop)).mpr ⟨hlive, hheight, UInt64.not_le.mp hlt⟩)

def originBlock : Block := @plainBlock sampleCrypto 0 []

omit [Crypto] in
/-- A reward at height 1 and a look at its maturity. -/
theorem coinbase_maturity_rewardBlock :
    ∃ s, @Reached sampleCrypto .mainnet 50 [rewardBlock, originBlock] s ∧
      (∀ (op : OutPoint) (c : Height), s.coinbaseHeight op = some c ↔
        (@originsOf sampleCrypto [rewardBlock, originBlock])[op]? = some (c, true)) ∧
      ∃ op, s.coinbaseHeight op = some 1 := by
  obtain ⟨s₁, h₁⟩ := isOk_iff.mp (show (@applyBlock sampleCrypto new originBlock).isOk = true by decide +kernel)
  have hboth : ((@applyBlock sampleCrypto new originBlock) >>= fun s =>
      (@applyBlock sampleCrypto s rewardBlock)).isOk = true := by decide +kernel
  have hrewards : ((@applyBlock sampleCrypto new originBlock).map fun s =>
      (@validateBlockRewards sampleCrypto rewardBlock s .mainnet 50).isOk) = .ok true := by decide +kernel
  obtain ⟨outpoint, hcreated⟩ : ∃ op, ((@applyBlock sampleCrypto new originBlock) >>= fun s =>
      (@applyBlock sampleCrypto s rewardBlock)).map (fun s => s.coinbaseHeight op) = .ok (some 1) :=
    ⟨⟨@Transaction.id sampleCrypto (.newCoinbase 1 [.new 10 []]), 0⟩, by decide +kernel⟩
  rw [h₁, ok_bind] at hboth hcreated
  rw [h₁] at hrewards
  obtain ⟨s₂, h₂⟩ := isOk_iff.mp hboth
  have hfirst : @Reached sampleCrypto .mainnet 50 [originBlock] s₁ :=
    @Reached.accept sampleCrypto _ _ _ _ _ _ (@Reached.start sampleCrypto _ _)
      (@Accepts.mk sampleCrypto _ _ _ _ _ _ rfl ⟨0, rfl⟩ h₁)
  have hsecond : @Reached sampleCrypto .mainnet 50 [rewardBlock, originBlock] s₂ :=
    @Reached.accept sampleCrypto _ _ _ _ _ _ hfirst
      (@Accepts.mk sampleCrypto _ _ _ _ _ _ rfl (isOk_iff.mp (Except.ok.inj hrewards)) h₂)
  refine ⟨s₂, hsecond, (@coinbase_maturity sampleCrypto _ _ _ _ hsecond).1, outpoint, ?_⟩
  rw [h₂] at hcreated
  exact Except.ok.inj hcreated

/-! ### The last height -/

theorem SameLedger.validateBlockRewards_eq (h : SameLedger s t) :
    validateBlockRewards block s monetary maturity = validateBlockRewards block t monetary maturity := by
  have hresolve : ∀ height, resolveValue s height maturity = resolveValue t height maturity := by
    intro height
    funext inBlock op
    unfold resolveValue checkMature coinbaseHeight UtxoStore.get
    rw [h.1, h.2]
  have hcharge : ∀ height, rewardTransaction s height maturity = rewardTransaction t height maturity := by
    intro height
    funext st tx
    unfold rewardTransaction chargeTransaction addInputValue
    rw [hresolve]
  unfold validateBlockRewards
  dsimp only
  rw [hcharge]

theorem Reached.accept_empty {height : Height} (h : Reached monetary maturity blocks s)
    (hnext : nextHeight blocks = some height) :
    ∃ s', Reached monetary maturity (plainBlock height [] :: blocks) s' ∧ SameLedger s s' := by
  have hstructure : (plainBlock height []).validateStructure = .ok () :=
    Block.validateStructure_eq_ok.mpr ⟨by simp [plainBlock], List.nodup_nil, rfl⟩
  have happly : s.applyBlock (plainBlock height []) = .ok (s.writeBlock (plainBlock height []) .empty) :=
    applyBlock_eq_ok.mpr ⟨hstructure, .empty, rfl, rfl⟩
  have hrewards : validateBlockRewards (plainBlock height []) s monetary maturity = .ok 0 := by
    unfold validateBlockRewards
    dsimp only
    split <;> rfl
  refine ⟨_, h.accept ⟨hnext, ⟨0, hrewards⟩, happly⟩, ?_, rfl⟩
  have hnone : (∅ : UtxoMap).toList = [] := by simp
  show s.entries = insertAll s.entries (∅ : UtxoMap).toList
  rw [hnone, insertAll_nil]

private theorem exists_reached_empty (height : Height) :
    ∃ blocks s, Reached monetary maturity blocks s ∧ nextHeight blocks = Word.checkedAdd height 1 ∧
      SameLedger new s := by
  obtain ⟨n, hn⟩ : ∃ n, height.toNat = n := ⟨_, rfl⟩
  induction n generalizing height with
  | zero =>
      have hstart : Reached monetary maturity [] new := .start
      obtain ⟨s, hs, hsame⟩ := hstart.accept_empty rfl
      have hzero : height = 0 := UInt64.toNat_inj.mp hn
      exact ⟨_, s, hs, hzero ▸ rfl, hsame⟩
  | succ n ih =>
      obtain ⟨below, hbelow⟩ : ∃ w : UInt64, w.toNat = n := Word.exists_toNat_eq (by have := height.toNat_lt; omega)
      obtain ⟨blocks, s, hs, hnext, hsame⟩ := ih below hbelow
      have hheight : Word.checkedAdd below 1 = some height := by
        rw [Word.checkedAdd_eq_some, UInt64.toNat_one]
        omega
      obtain ⟨s', hs', hsame'⟩ := hs.accept_empty (hnext.trans hheight)
      exact ⟨_, s', hs', rfl, hsame.1.trans hsame'.1, hsame.2.trans hsame'.2⟩

/-- A coinbase at the last height but one, and a spend of it at the last height. -/
def lastReward : Transaction := .newCoinbase (2 ^ 64 - 2) [.new 0 []]

def lastRewardBlock : Block := @plainBlock sampleCrypto (2 ^ 64 - 2) [lastReward]

def lastSpend : Transaction := .new [⟨⟨@Transaction.id sampleCrypto lastReward, 0⟩, []⟩] [.new 0 []]

def lastBlock : Block := @plainBlock sampleCrypto (2 ^ 64 - 1) [lastSpend]

omit [Crypto] in
/-- **The sum is cut off at the last height.** There a coinbase of the block before is spent, whatever the maturity. -/
theorem maturity_cut_off :
    ¬ ∀ (_ : Crypto) (monetary : MonetaryParams) (maturity : UInt64) (blocks : List Block) (s : UtxoStore)
      (block : Block) (s' : UtxoStore), Reached monetary maturity blocks s → Accepts monetary maturity blocks s block s' →
        ∀ p ∈ meets (originMove block.header.height) (originsOf blocks) block.transactions.zipIdx,
          ∀ op ∈ p.2.1.spends, ∀ c, p.1[op]? = some (c, true) →
            ¬ block.header.height.toNat < c.toNat + maturity.toNat := by
  intro hclaim
  obtain ⟨blocks, s, hs, hnext, hsame⟩ :=
    @exists_reached_empty sampleCrypto .mainnet 50 (2 ^ 64 - 3)
  obtain ⟨t₁, ht₁⟩ := isOk_iff.mp (show (@applyBlock sampleCrypto new lastRewardBlock).isOk = true by decide +kernel)
  have hrewards₁ : (@validateBlockRewards sampleCrypto lastRewardBlock new .mainnet 50).isOk = true := by decide +kernel
  have hboth : ((@applyBlock sampleCrypto new lastRewardBlock) >>= fun t =>
      (@applyBlock sampleCrypto t lastBlock)).isOk = true := by decide +kernel
  have hrewards₂ : ((@applyBlock sampleCrypto new lastRewardBlock).map fun t =>
      (@validateBlockRewards sampleCrypto lastBlock t .mainnet 50).isOk) = .ok true := by decide +kernel
  have hheight : ((@applyBlock sampleCrypto new lastRewardBlock).map fun t =>
      t.coinbaseHeight ⟨@Transaction.id sampleCrypto lastReward, 0⟩) = .ok (some (2 ^ 64 - 2)) := by decide +kernel
  rw [ht₁, ok_bind] at hboth
  rw [ht₁] at hrewards₂ hheight
  replace hrewards₂ : (@validateBlockRewards sampleCrypto lastBlock t₁ .mainnet 50).isOk = true := Except.ok.inj hrewards₂
  replace hheight : t₁.coinbaseHeights[(⟨@Transaction.id sampleCrypto lastReward, 0⟩ : OutPoint)]? =
      some (2 ^ 64 - 2) := Except.ok.inj hheight
  obtain ⟨t₂, ht₂⟩ := isOk_iff.mp hboth
  obtain ⟨s₁, hs₁, hsame₁, -⟩ := @SameLedger.applyBlock sampleCrypto _ _ _ _ hsame ht₁
  obtain ⟨s₂, hs₂, -⟩ := @SameLedger.applyBlock sampleCrypto _ _ _ _ hsame₁ ht₂
  rw [@SameLedger.validateBlockRewards_eq sampleCrypto _ _ _ _ _ hsame] at hrewards₁
  rw [@SameLedger.validateBlockRewards_eq sampleCrypto _ _ _ _ _ hsame₁] at hrewards₂
  have hreached : @Reached sampleCrypto .mainnet 50 (lastRewardBlock :: blocks) s₁ :=
    @Reached.accept sampleCrypto _ _ _ _ _ _ hs
      (@Accepts.mk sampleCrypto _ _ _ _ _ _ (hnext.trans (by decide +kernel)) (isOk_iff.mp hrewards₁) hs₁)
  have haccepts : @Accepts sampleCrypto .mainnet 50 (lastRewardBlock :: blocks) s₁ lastBlock s₂ :=
    @Accepts.mk sampleCrypto _ _ _ _ _ _
      (show Word.checkedAdd lastRewardBlock.header.height 1 = some lastBlock.header.height by decide +kernel)
      (isOk_iff.mp hrewards₂) hs₂
  have horigin := ((@Reached.tracks sampleCrypto _ _ _ _ hreached).height
    ⟨@Transaction.id sampleCrypto lastReward, 0⟩ (2 ^ 64 - 2)).mp (by rw [← hsame₁.2]; exact hheight)
  have hspends : (⟨@Transaction.id sampleCrypto lastReward, 0⟩ : OutPoint) ∈ lastSpend.spends := List.mem_cons_self
  exact hclaim sampleCrypto _ _ _ _ _ _ hreached haccepts (_, (lastSpend, 0)) List.mem_cons_self _ hspends _ horigin
    (by decide +kernel)

end UtxoStore

end QuantumVault
