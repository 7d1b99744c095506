import QuantumVault.Proof.Node.Mempool

/-!
# Validity intervals and lock times

A transaction names the slots in which a block may include it. No path into the ledger or into the pool looks at them: a block gets the verdict it would get with other times on its transactions, as far as they keep their ids. The node is therefore never early or late exactly when the transactions it is handed name no times that could be missed.
-/

namespace QuantumVault

open Result TreeMap Ledger

variable [Crypto]

/-- A block in this slot may include the transaction. -/
def Transaction.MayEnter (tx : Transaction) (slot : Slot) : Prop :=
  tx.validityInterval.contains slot = true ∧ tx.lockTime ≤ slot

instance (tx : Transaction) (slot : Slot) : Decidable (tx.MayEnter slot) := inferInstanceAs (Decidable (_ ∧ _))

/-- Every transaction of the block, the coinbase apart, may be included in the slot of its header. -/
def Block.Timely (block : Block) : Prop :=
  ∀ tx ∈ block.transactions, tx.isCoinbase = false → tx.MayEnter block.header.slot

/-- The slots in which a block may include a transaction, and the slot up to which it is locked. -/
abbrev Times : Type := ValidityInterval × Slot

def Transaction.times (tx : Transaction) : Times := (tx.validityInterval, tx.lockTime)

def Transaction.withTimes (tx : Transaction) (times : Times) : Transaction :=
  { tx with validityInterval := times.1, lockTime := times.2 }

/-- Times that no slot misses: no first slot but the first of all, no last slot but the last of all, and a lock that is over when the first block comes. -/
structure Times.Open (times : Times) : Prop where
  notBefore : times.1.notBefore = none ∨ times.1.notBefore = some 0
  notAfter : times.1.notAfter = none ∨ times.1.notAfter = some Word.max
  lockTime : times.2 ≤ 1

omit [Crypto] in
theorem Times.Open.contains {times : Times} (h : times.Open) (slot : Slot) : times.1.contains slot = true := by
  have hmax : slot ≤ Word.max := UInt64.le_iff_toNat_le.mpr (Nat.le_of_lt_succ slot.toNat_lt)
  unfold ValidityInterval.contains
  rcases h.notBefore with hlow | hlow <;> rcases h.notAfter with hhigh | hhigh <;> simp [hlow, hhigh, hmax]

/-! ### What the block path reads of a transaction -/

/-- The transaction does the same to the ledger as another one, under the same id, and claims a reward for the same height. -/
structure Transaction.StandsFor (tx' tx : Transaction) : Prop where
  inputs_eq : tx'.inputs = tx.inputs
  outputs_eq : tx'.outputs = tx.outputs
  id_eq : tx'.id = tx.id
  lockTime_eq : tx.isCoinbase = true → tx'.lockTime = tx.lockTime

def Block.replace (f : Transaction → Transaction) (block : Block) : Block :=
  { block with transactions := block.transactions.map f }

section Replaced

variable {f : Transaction → Transaction} {block : Block} {tx' tx : Transaction}

omit [Crypto] in
private theorem zipIdx_replace :
    (block.replace f).transactions.zipIdx = block.transactions.zipIdx.map fun tx => (f tx.1, tx.2) :=
  List.zipIdx_map ..

theorem Transaction.StandsFor.validateTransactionAt (h : tx'.StandsFor tx) (height : Height) (index : Nat) :
    Block.validateTransactionAt height index tx' = Block.validateTransactionAt height index tx := by
  unfold Block.validateTransactionAt
  rw [h.inputs_eq]
  split
  · rename_i hinputs
    unfold Transaction.validateCoinbaseStructure Transaction.outputValues
    rw [h.inputs_eq, h.outputs_eq, h.lockTime_eq hinputs]
  · unfold Transaction.validateStructure Transaction.outputValues Transaction.spends
    rw [h.inputs_eq, h.outputs_eq]

private theorem rewardTransaction_standsFor (h : tx'.StandsFor tx) (store : UtxoStore) (height : Height) (maturity : UInt64)
    (st : RewardState) (index : Nat) :
    rewardTransaction store height maturity st (tx', index) = rewardTransaction store height maturity st (tx, index) := by
  unfold rewardTransaction chargeTransaction Transaction.outputValues
  simp only [h.inputs_eq, h.outputs_eq, h.id_eq]

private theorem stageTransaction_standsFor (h : tx'.StandsFor tx) (entries : UtxoMap) (height : Height)
    (st : UtxoStore.Staging) (index : Nat) :
    UtxoStore.stageTransaction entries height st (tx', index) = UtxoStore.stageTransaction entries height st (tx, index) := by
  unfold UtxoStore.stageTransaction UtxoStore.isCoinbaseAt
  simp only [h.inputs_eq, h.outputs_eq, h.id_eq]

variable (h : ∀ tx ∈ block.transactions, (f tx).StandsFor tx)

include h

private theorem standsFor_of_mem_zipIdx : ∀ tx ∈ block.transactions.zipIdx, (f tx.1).StandsFor tx.1 :=
  fun tx htx => h tx.1 (List.fst_mem_of_mem_zipIdx htx)

theorem validateStructure_replace : (block.replace f).validateStructure = block.validateStructure := by
  have hids : (block.replace f).txIds = block.txIds := by
    rw [Block.txIds, Block.replace, List.map_map]
    exact List.map_congr_left fun tx htx => (h tx htx).id_eq
  have hchecks : ((block.replace f).transactions.zipIdx.forM fun tx =>
      (Block.validateTransactionAt block.header.height tx.2 tx.1).mapError (BlockError.invalidTransaction tx.2)) =
      block.transactions.zipIdx.forM fun tx =>
        (Block.validateTransactionAt block.header.height tx.2 tx.1).mapError (BlockError.invalidTransaction tx.2) := by
    rw [zipIdx_replace, forM_map]
    exact forM_congr fun tx htx => by rw [(standsFor_of_mem_zipIdx h tx htx).validateTransactionAt]
  unfold Block.validateStructure
  rw [hids]
  exact congrArg (· >>= _) hchecks

private theorem validateBlockRewards_replace (store : UtxoStore) (monetary : MonetaryParams) (maturity : UInt64) :
    validateBlockRewards (block.replace f) store monetary maturity = validateBlockRewards block store monetary maturity := by
  have hpass : (block.replace f).transactions.zipIdx.foldlM (rewardTransaction store block.header.height maturity)
      ⟨∅, 0, none⟩ = block.transactions.zipIdx.foldlM (rewardTransaction store block.header.height maturity) ⟨∅, 0, none⟩ := by
    rw [zipIdx_replace, List.foldlM_map]
    exact foldlM_congr (fun tx htx st => rewardTransaction_standsFor (standsFor_of_mem_zipIdx h tx htx) store _ _ st tx.2) _
  unfold validateBlockRewards
  dsimp only
  rw [show (block.replace f).header = block.header from rfl, hpass]

private theorem applyBlock_replace (store : UtxoStore) : store.applyBlock (block.replace f) = store.applyBlock block := by
  unfold UtxoStore.applyBlock UtxoStore.stageBlock
  rw [validateStructure_replace h, zipIdx_replace, List.foldlM_map, foldlM_congr fun tx htx st =>
    stageTransaction_standsFor (standsFor_of_mem_zipIdx h tx htx) store.entries _ st tx.2]
  rfl

end Replaced

namespace NodeState

variable {f : Transaction → Transaction} {s s' : NodeState} {block : Block}

private theorem persistBlock_replace (s : NodeState) (h : ∀ tx ∈ block.transactions, (f tx).StandsFor tx) :
    (s.persistBlock (block.replace f)).1 = (s.persistBlock block).1 := by
  have hhash : (block.replace f).hash = block.hash := rfl
  have hheader : (block.replace f).header = block.header := rfl
  unfold persistBlock BlockStore.putBlock
  rw [validateStructure_replace h, hhash, hheader]
  cases block.validateStructure with
  | error e => rfl
  | ok u =>
      by_cases hnew : s.blockStore.getBlock block.hash = none
      · simp only [mapError_ok, ok_bind, require, if_pos hnew]
        cases s.blockStore.getHashByHeight block.header.height with
        | none => rfl
        | some existing => by_cases hsame : existing = block.hash <;> simp [hsame]
      · simp [require, hnew]

/-- **The verdict on a block does not depend on the times its transactions name.** -/
theorem handleBlock_replace (s : NodeState) (h : ∀ tx ∈ block.transactions, (f tx).StandsFor tx) :
    (s.handleBlock (block.replace f)).1 = (s.handleBlock block).1 := by
  have hlinkage : s.validateChainLinkage (block.replace f) = s.validateChainLinkage block := rfl
  have hmatches (t : NodeState) : t.commitmentMatches (block.replace f) = t.commitmentMatches block := rfl
  have hpre : s.precheck (block.replace f) = s.precheck block := by
    unfold precheck
    rw [validateStructure_replace h, validateBlockRewards_replace h, hlinkage]
  unfold handleBlock
  rw [hpre, applyBlock_replace h]
  cases s.precheck block with
  | error e => rfl
  | ok u =>
      cases s.utxoStore.applyBlock block with
      | error e => rfl
      | ok utxo =>
          dsimp only
          rw [hmatches]
          split
          · unfold commitBlock
            rw [show (block.replace f).chainEntry = block.chainEntry from rfl]
            split
            · rfl
            · exact persistBlock_replace _ h
          · rfl

/-! ### What an event brings -/

theorem holds_handleBlock {entry : MempoolEntry} (hcoherent : s.clearPool.Coherent)
    (hentry : (s.handleBlock block).2.clearPool.Holds entry) : s.clearPool.Holds entry := by
  have hout := s.handleBlock_outcome block
  generalize hresult : s.handleBlock block = result at hout hentry
  cases hout with
  | refused => exact hentry
  | reverted => exact hentry
  | unstored => exact hentry
  | accepted =>
      have hacc := Accepted.of_ok (show (s.handleBlock block).1 = .ok () from congrArg Prod.fst hresult)
      rw [hresult] at hacc
      rw [hacc.clearPool_eq] at hentry
      exact (holds_evictConfirmed hcoherent hentry).1

theorem coherent_handleBlock (hcoherent : s.clearPool.Coherent) : (s.handleBlock block).2.clearPool.Coherent := by
  have hout := s.handleBlock_outcome block
  generalize s.handleBlock block = result at hout
  cases hout with
  | refused => exact hcoherent
  | reverted => exact hcoherent
  | unstored => exact hcoherent
  | accepted => exact coherent_evictConfirmed (s := { s with utxoStore := _, chainState := _, blockStore := _ }) hcoherent

private theorem coherent_handleEvent {event : NodeEvent} (hcoherent : s.clearPool.Coherent)
    (hevent : s.handleEvent event = some s') : s'.clearPool.Coherent := by
  cases event with
  | blockReceived block =>
      cases hevent
      exact coherent_handleBlock hcoherent
  | txReceived now tx =>
      have hadmits := admits_of_txReceived hcoherent hevent
      exact hadmits.coherent
  | sendTransaction now tx =>
      have hadmits := admits_of_sendTransaction hcoherent hevent
      exact hadmits.coherent

private theorem coherent_run {ok : NodeState → NodeEvent → Prop} {events : List NodeEvent} (hcoherent : s.clearPool.Coherent)
    (hrun : Run ok s events s') : s'.clearPool.Coherent := by
  induction hrun with
  | nil => exact hcoherent
  | cons _ hevent _ ih => exact ih (coherent_handleEvent hcoherent hevent)

/-- What an event brings into the pool is a transaction of the event, and no coinbase. -/
theorem tx_mem_of_new {event : NodeEvent} {entry : MempoolEntry} (hcoherent : s.clearPool.Coherent)
    (hevent : s.handleEvent event = some s') (hentry : s'.clearPool.Holds entry) (hnew : ¬ s.clearPool.Holds entry) :
    entry.tx ∈ event.transactions ∧ entry.tx.isCoinbase = false := by
  cases event with
  | blockReceived block =>
      cases hevent
      exact absurd (holds_handleBlock hcoherent hentry) hnew
  | txReceived now tx =>
      have hadmits := admits_of_txReceived hcoherent hevent
      have hgossiped := (hadmits.holds entry hentry).resolve_left hnew
      exact ⟨hgossiped.tx_eq ▸ List.mem_singleton_self _, hgossiped.backed.not_coinbase⟩
  | sendTransaction now tx =>
      have hadmits := admits_of_sendTransaction hcoherent hevent
      obtain ⟨heq, -, hstructure⟩ := (hadmits.holds entry hentry).resolve_left hnew
      have hinputs := (Transaction.validateStructure_eq_ok.mp hstructure).1
      rw [heq]
      exact ⟨List.mem_singleton_self _, by simpa [Transaction.isCoinbase] using hinputs⟩

/-! ### Times -/

variable {times : Times}

/-- The transactions that an event brings name times of these. -/
def TimedEvent (allowed : Set Times) (_ : NodeState) (event : NodeEvent) : Prop :=
  ∀ tx ∈ event.transactions, tx.isCoinbase = false → tx.times ∈ allowed

/-- An event that respects the times: an accepted block includes nothing out of time, and nothing comes into the pool outside its interval at the slot of the tip. -/
def InTime (s : NodeState) (event : NodeEvent) (s' : NodeState) : Prop :=
  (∀ block, event = .blockReceived block → (s.handleBlock block).1 = .ok () → block.Timely) ∧
    ∀ entry, s'.clearPool.Holds entry → ¬ s.clearPool.Holds entry →
      entry.tx.validityInterval.contains s.chainState.tip.slot = true

private theorem inTime_of_open {event : NodeEvent} (hcoherent : s.clearPool.Coherent)
    (hopen : s.TimedEvent { times | times.Open } event) (hevent : s.handleEvent event = some s') : s.InTime event s' := by
  refine ⟨?_, fun entry hentry hnew => ?_⟩
  · rintro block rfl hok tx htx hcoinbase
    have htimes : tx.times.Open := hopen tx htx hcoinbase
    have hslot := UInt64.lt_iff_toNat_lt.mp (Accepted.of_ok hok).passed.linked.slot_lt
    have hone : (1 : UInt64) ≤ block.header.slot := UInt64.le_iff_toNat_le.mpr (by rw [UInt64.toNat_one]; omega)
    exact ⟨htimes.contains block.header.slot, UInt64.le_trans htimes.lockTime hone⟩
  · obtain ⟨hmem, hcoinbase⟩ := tx_mem_of_new hcoherent hevent hentry hnew
    have htimes : entry.tx.times.Open := hopen entry.tx hmem hcoinbase
    exact htimes.contains _

/-! ### Times that can be missed -/

/-- A hash that reads the first 44 bytes: the ids of transactions that differ in their times alone are one. -/
@[reducible] def prefixCrypto : Crypto :=
  ⟨fun bytes => sampleDigest (bytes.take 44), fun bytes => sampleDigest (bytes.take 44), fun _ _ _ _ => false⟩

def prefixNode : NodeState := @startPreset prefixCrypto ⟨.mainnet, 1, true⟩ sampleKeys

omit [Crypto] in
private theorem prefixNode_eq :
    prefixNode = @start prefixCrypto ⟨.mainnet, 1, true⟩ (.preset .mainnet) (ProtocolParams.validate_preset .mainnet) sampleKeys :=
  rfl

/-- A spend of the foundation's genesis output. -/
def prefixSpend : Transaction :=
  .new [⟨⟨@Transaction.id prefixCrypto (@genesisTransaction prefixCrypto .mainnet sampleKeys), 0⟩, []⟩]
    [.new 2099999999999993 [1]]

/-- A block of that spend in any slot. -/
def prefixBlock (slot : Slot) : Block :=
  @childBlock prefixCrypto prefixNode slot
    (@commitmentRoot prefixCrypto
      (advanceAll (@Transaction.move prefixCrypto) prefixNode.utxoStore.entries [prefixSpend])) [prefixSpend]

omit [Crypto] in
theorem prefixBlock_accepted :
    (@handleBlock prefixCrypto prefixNode (prefixBlock 1)).1 = .ok () ∧
      (@handleBlock prefixCrypto prefixNode (prefixBlock Word.max)).1 = .ok () := by
  decide +kernel

omit [Crypto] in
private theorem prefixSpend_standsFor (times : Times) :
    @Transaction.StandsFor prefixCrypto (prefixSpend.withTimes times) prefixSpend := by
  refine @Transaction.StandsFor.mk prefixCrypto _ _ rfl rfl ?_ (fun hcoinbase => absurd hcoinbase (by decide))
  have hfront : (Encode.u32 prefixSpend.version ++ Encode.seq TxInput.encode prefixSpend.inputs).length ≥ 44 := by decide +kernel
  have htake (tx : Transaction) (hversion : tx.version = prefixSpend.version) (hinputs : tx.inputs = prefixSpend.inputs) :
      tx.canonicalBytes.take 44 =
        (Encode.u32 prefixSpend.version ++ Encode.seq TxInput.encode prefixSpend.inputs).take 44 := by
    unfold Transaction.canonicalBytes
    rw [hversion, hinputs, List.append_assoc, List.append_assoc, List.append_assoc, List.take_append_of_le_length hfront]
  exact congrArg sampleDigest ((htake (prefixSpend.withTimes times) rfl rfl).trans (htake prefixSpend rfl rfl).symm)

omit [Crypto] in
private theorem notAfter_of_contains {interval : ValidityInterval} (h : interval.contains Word.max = true) :
    interval.notAfter = none ∨ interval.notAfter = some Word.max := by
  unfold ValidityInterval.contains at h
  cases hlast : interval.notAfter with
  | none => exact .inl rfl
  | some last =>
      have hle : Word.max ≤ last := by simpa [hlast] using (Bool.and_eq_true_iff.mp h).2
      exact .inr (congrArg some (UInt64.le_antisymm (UInt64.le_iff_toNat_le.mpr (Nat.le_of_lt_succ last.toNat_lt)) hle))

omit [Crypto] in
private theorem eq_zero_or_one {w : UInt64} (h : w ≤ 1) : w = 0 ∨ w = 1 := by
  have hle : w.toNat ≤ 1 := UInt64.le_iff_toNat_le.mp h
  exact (Nat.le_one_iff_eq_zero_or_eq_one.mp hle).imp UInt64.toNat_inj.mp UInt64.toNat_inj.mp

omit [Crypto] in
private theorem notBefore_of_contains {interval : ValidityInterval} (h : interval.contains 1 = true) :
    (interval.notBefore = none ∨ interval.notBefore = some 0) ∨ interval.notBefore = some 1 := by
  unfold ValidityInterval.contains at h
  cases hfirst : interval.notBefore with
  | none => exact .inl (.inl rfl)
  | some first =>
      have hle : first ≤ 1 := by simpa [hfirst] using (Bool.and_eq_true_iff.mp h).1
      exact (eq_zero_or_one hle).imp (fun hzero => .inr (congrArg some hzero)) (congrArg some)

/-- The times that only the slot of the first block tells from open ones. -/
def firstMissed : List Times :=
  [(⟨some 1, none⟩, 0), (⟨some 1, none⟩, 1), (⟨some 1, some Word.max⟩, 0), (⟨some 1, some Word.max⟩, 1)]

omit [Crypto] in
/-- Times that neither the first slot after genesis nor the last of all slots misses. -/
theorem open_or_firstMissed (hfirst : times.1.contains 1 = true) (hlast : times.1.contains Word.max = true)
    (hlock : times.2 ≤ 1) : times.Open ∨ times ∈ firstMissed := by
  have hnotAfter := notAfter_of_contains hlast
  refine (notBefore_of_contains hfirst).imp (fun hbefore => ⟨hbefore, hnotAfter, hlock⟩) fun hone => ?_
  obtain ⟨⟨notBefore, notAfter⟩, lockTime⟩ := times
  simp only at hone hnotAfter
  rcases hnotAfter with rfl | rfl <;> rcases eq_zero_or_one hlock with hzero | hlocked <;> simp_all [firstMissed]

def Pooled (tx : Transaction) : Prop :=
  ((sampleNode .mainnet).handleEvent (.sendTransaction 0 tx)).bind
    (fun s => s.clearPool.byId[tx.id]?.map MempoolEntry.tx) = some tx

instance (tx : Transaction) : Decidable (Pooled tx) := inferInstanceAs (Decidable (_ = _))

omit [Crypto] in
theorem Pooled.holds {tx : Transaction} (h : @Pooled sampleCrypto tx) :
    ∃ s entry, @handleEvent sampleCrypto (sampleNode .mainnet) (.sendTransaction 0 tx) = some s ∧
      s.clearPool.Holds entry ∧ ¬ (sampleNode .mainnet).clearPool.Holds entry ∧ entry.tx = tx := by
  unfold Pooled at h
  have hempty (entry : MempoolEntry) : ¬ (sampleNode .mainnet).clearPool.Holds entry := by
    rw [sampleNode_eq]
    exact @Fresh.not_holds sampleCrypto _ _ _ _ (@fresh_start sampleCrypto _ _ _ _) entry
  obtain ⟨s, hs, hget⟩ := Option.bind_eq_some_iff.mp h
  obtain ⟨entry, hentry, htx⟩ := Option.map_eq_some_iff.mp hget
  exact ⟨s, entry, hs, ⟨_, hentry⟩, hempty entry, htx⟩

omit [Crypto] in
private theorem pooled_of_firstMissed : ∀ times ∈ firstMissed, @Pooled sampleCrypto (sampleSpend.withTimes times) := by
  decide +kernel

omit [Crypto] in
private theorem contains_of_firstMissed : ∀ times ∈ firstMissed, times.1.contains 0 = false := by decide

omit [Crypto] in
/-- **Times are respected exactly when none can be missed.** With the transactions handed to a node restricted to some times, every event of every run from genesis is in time if and only if all of these times are open. -/
theorem validity_respected_iff (allowed : Set Times) :
    (∀ (_ : Crypto) (config : NodeConfig) (params : ProtocolParams) (hparams : params.validate = .ok ())
      (keys : GenesisKeys) (events : List NodeEvent) (s s' : NodeState) (event : NodeEvent),
      Run (TimedEvent allowed) (start config params hparams keys) events s → s.TimedEvent allowed event →
        s.handleEvent event = some s' → s.InTime event s') ↔ ∀ times ∈ allowed, times.Open := by
  refine ⟨fun hclaim times htimes => ?_, ?_⟩
  · have htimed (s : NodeState) (event : NodeEvent) (tx : Transaction) (hevent : event.transactions = [tx.withTimes times]) :
        s.TimedEvent allowed event := by
      intro tx' htx' _
      rw [hevent, List.mem_singleton] at htx'
      rw [htx']
      exact htimes
    have hblock (slot : Slot) (hok : (@handleBlock prefixCrypto prefixNode (prefixBlock slot)).1 = .ok ()) :
        (prefixSpend.withTimes times).MayEnter slot := by
      have hsame := @handleBlock_replace prefixCrypto (fun tx => tx.withTimes times) (prefixBlock slot) prefixNode
        (fun tx htx => by
          obtain rfl := List.mem_singleton.mp htx
          exact prefixSpend_standsFor times)
      have hruns := fun s' => hclaim prefixCrypto ⟨.mainnet, 1, true⟩ (.preset .mainnet)
        (ProtocolParams.validate_preset .mainnet) sampleKeys [] prefixNode s'
      rw [← prefixNode_eq] at hruns
      have hin := hruns _ (.blockReceived ((prefixBlock slot).replace fun tx => tx.withTimes times))
        (@Run.nil prefixCrypto _ _) (htimed _ _ prefixSpend rfl) rfl
      exact hin.1 _ rfl (hsame.trans hok) _ List.mem_cons_self rfl
    obtain ⟨hfirst, hlock⟩ := hblock 1 prefixBlock_accepted.1
    obtain ⟨hlast, -⟩ := hblock Word.max prefixBlock_accepted.2
    refine (open_or_firstMissed hfirst hlast hlock).resolve_right fun hmissed => ?_
    obtain ⟨s', entry, hevent, hentry, hnew, htx⟩ := (pooled_of_firstMissed times hmissed).holds
    rw [sampleNode_eq] at hevent hnew
    have hin := hclaim sampleCrypto ⟨.mainnet, 1, true⟩ (.preset .mainnet) (ProtocolParams.validate_preset .mainnet)
      sampleKeys [] _ s' _ (@Run.nil sampleCrypto _ _) (htimed _ _ sampleSpend rfl) hevent
    have hcontains := hin.2 entry hentry hnew
    rw [htx, @Fresh.chainState_eq sampleCrypto _ _ _ _ (@fresh_start sampleCrypto _ _ _ _)] at hcontains
    exact absurd hcontains (Bool.eq_false_iff.mp (contains_of_firstMissed times hmissed))
  · intro hopen crypto config params hparams keys events s s' event hrun htimed hevent
    have hcoherent : (start config params hparams keys).clearPool.Coherent := by
      rw [(fresh_start config params hparams keys).clearPool_eq]
      exact ClearPool.Coherent.new _
    exact inTime_of_open (coherent_run hcoherent hrun) (fun tx htx hcoinbase => hopen _ (htimed tx htx hcoinbase)) hevent

/-- Spends that no block after slot 0 may include, and none before slot 5. -/
def expiredSpend : Transaction := { sampleSpend with validityInterval := ⟨none, some 0⟩ }

def lockedSpend : Transaction := { sampleSpend with lockTime := 5 }

def earlySpend : Transaction := { sampleSpend with validityInterval := ⟨some 5, none⟩ }

omit [Crypto] in
/-- **Transactions out of time are included and pooled.** A block in slot 1 includes a transaction that expired in slot 0, another one includes a transaction that is locked until slot 5, and a transaction that may not be included before slot 5 is pooled in slot 0. -/
theorem untimely_accepted :
    (¬ ∀ (_ : Crypto) (config : NodeConfig) (keys : GenesisKeys) (events : List NodeEvent) (s : NodeState) (block : Block),
      Run (fun _ _ => True) (startPreset config keys) events s → (s.handleBlock block).1 = .ok () →
        ∀ tx ∈ block.transactions, tx.isCoinbase = false → tx.validityInterval.contains block.header.slot = true) ∧
    (¬ ∀ (_ : Crypto) (config : NodeConfig) (keys : GenesisKeys) (events : List NodeEvent) (s : NodeState) (block : Block),
      Run (fun _ _ => True) (startPreset config keys) events s → (s.handleBlock block).1 = .ok () →
        ∀ tx ∈ block.transactions, tx.isCoinbase = false → tx.lockTime ≤ block.header.slot) ∧
    ¬ ∀ (_ : Crypto) (config : NodeConfig) (keys : GenesisKeys) (events : List NodeEvent) (s s' : NodeState)
      (event : NodeEvent), Run (fun _ _ => True) (startPreset config keys) events s → s.handleEvent event = some s' →
        ∀ entry, s'.clearPool.Holds entry → ¬ s.clearPool.Holds entry →
          entry.tx.validityInterval.contains s.chainState.tip.slot = true := by
  refine ⟨?_, ?_, ?_⟩
  · intro hclaim
    have hok : (@handleBlock sampleCrypto (sampleNode .mainnet) (sampleFirstBlock [expiredSpend])).1 = .ok () := by
      decide +kernel
    have hin := hclaim sampleCrypto ⟨.mainnet, 1, true⟩ sampleKeys [] _ _ (@Run.nil sampleCrypto _ _) hok expiredSpend
      List.mem_cons_self rfl
    exact absurd hin (by decide +kernel)
  · intro hclaim
    have hok : (@handleBlock sampleCrypto (sampleNode .mainnet) (sampleFirstBlock [lockedSpend])).1 = .ok () := by
      decide +kernel
    have hin := hclaim sampleCrypto ⟨.mainnet, 1, true⟩ sampleKeys [] _ _ (@Run.nil sampleCrypto _ _) hok lockedSpend
      List.mem_cons_self rfl
    exact absurd hin (by decide +kernel)
  · intro hclaim
    have hpooled : @Pooled sampleCrypto earlySpend := by decide +kernel
    obtain ⟨s, entry, hs, hentry, hnew, htx⟩ := hpooled.holds
    have hin := hclaim sampleCrypto ⟨.mainnet, 1, true⟩ sampleKeys [] _ s _ (@Run.nil sampleCrypto _ _) hs entry hentry hnew
    rw [htx] at hin
    exact absurd hin (by decide +kernel)

end NodeState

end QuantumVault
