import QuantumVault.Proof.Node.Atomicity
import QuantumVault.Proof.Node.Production
import QuantumVault.Proof.Script.Slots

/-!
# Spend authorization on the block path

No step of the block path runs a script, so a block can spend what it has no authority over. The one place where a node runs scripts is the admission of a transaction from the network. A block of pooled transactions spends with authority: the ledger has kept what the pool rests on, and scripts that do not read the slot give in the slot of the block the verdict they gave on admission. The blocks of the node's own producer are of this kind.
-/

namespace QuantumVault

open Result TreeMap Ledger

variable [Crypto]

/-- No script that a spend of the transaction runs reads the slot. -/
def Transaction.SlotFree (tx : Transaction) (view : UtxoMap) : Prop :=
  ∀ input ∈ tx.inputs, ∀ output ∈ view[input.prevOutput]?, QuantumVault.SlotFree (input.witness ++ output.lockingScript)

instance (tx : Transaction) (view : UtxoMap) : Decidable (tx.SlotFree view) :=
  inferInstanceAs (Decidable (∀ _ ∈ _, ∀ _ ∈ _, _))

variable {tx : Transaction} {view view' : UtxoMap} {slot : Slot}

theorem ScriptsPass.spends_mem (h : ScriptsPass view tx slot) : ∀ op ∈ tx.spends, op ∈ view := by
  obtain ⟨resolved, hres, -⟩ := h
  exact exists_resolved_iff.mp ⟨resolved, hres⟩

theorem ScriptsPass.congr (h : ScriptsPass view tx slot) (hsame : ∀ op ∈ tx.spends, view'[op]? = view[op]?) :
    ScriptsPass view' tx slot := by
  obtain ⟨resolved, hres, hruns⟩ := h
  exact ⟨resolved, (List.map_congr_left hsame).trans hres, hruns⟩

omit [Crypto] in
private theorem getElem?_of_mem_zip {inputs : List TxInput} {resolved : List TxOutput}
    (hres : (inputs.map fun input => view[input.prevOutput]?) = resolved.map some) :
    ∀ pair ∈ inputs.zip resolved, view[pair.1.prevOutput]? = some pair.2 := by
  induction inputs generalizing resolved with
  | nil => simp
  | cons input inputs ih =>
      cases resolved with
      | nil => simp
      | cons output resolved =>
          rw [List.map_cons, List.map_cons, List.cons.injEq] at hres
          rw [List.zip_cons_cons, List.forall_mem_cons]
          exact ⟨hres.1, ih hres.2⟩

theorem ScriptsPass.atSlot (h : ScriptsPass view tx slot) (hfree : tx.SlotFree view) (slot' : Slot) :
    ScriptsPass view tx slot' := by
  obtain ⟨resolved, hres, hruns⟩ := h
  refine ⟨resolved, hres, fun pair hpair => ?_⟩
  rw [Transaction.spends, List.map_map] at hres
  have hget := getElem?_of_mem_zip hres pair hpair
  have hscripts := hfree pair.1 (List.of_mem_zip hpair).1 pair.2 hget
  rw [validateScript_slot hscripts tx resolved slot slot']
  exact hruns pair hpair

namespace NodeState

variable {s s' : NodeState} {block genesis : Block} {path known : List Block}

/-- The transactions that a block brings are pooled already, the transactions from the network do not read the slot, and nothing comes over RPC. -/
def PooledEvent (s : NodeState) : NodeEvent → Prop
  | .blockReceived block =>
      ∀ tx ∈ block.transactions, tx.isCoinbase = false → ∃ entry, s.clearPool.Holds entry ∧ entry.tx = tx
  | .txReceived _ tx => tx.SlotFree s.utxoStore.entries
  | .sendTransaction _ _ => False

/-- The spends of every pooled transaction are authorized in every slot. -/
def Vetted (s : NodeState) : Prop :=
  ∀ entry, s.clearPool.Holds entry → ∀ slot, ScriptsPass s.utxoStore.entries entry.tx slot

/-- What an accepted block leaves in the pool rests on what it was admitted with. -/
theorem Vetted.accepted (h : s.Vetted) (hcoherent : s.clearPool.Coherent) (hacc : Accepted s block s') : s'.Vetted := by
  intro entry hentry slot
  rw [hacc.clearPool_eq] at hentry
  obtain ⟨hold, hunspent⟩ := holds_evictConfirmed hcoherent hentry
  refine (h entry hold slot).congr fun op hop => ?_
  exact hacc.getElem?_entries ((h entry hold slot).spends_mem op hop) (hunspent op hop)

/-- **Step lemma.** -/
theorem Vetted.handleEvent {event : NodeEvent} (h : s.Vetted) (hsettled : Settled known genesis path s)
    (hfree : CollisionFree known) (hgenesis : genesis.header.height = 0) (hknown : event.blocks ⊆ known)
    (hok : s.PooledEvent event) (hevent : s.handleEvent event = some s') : s'.Vetted := by
  cases event with
  | blockReceived block =>
      cases hevent
      rcases hsettled.handleBlock hfree hgenesis (hknown (List.mem_singleton_self block)) with hsame | ⟨haccepted, -⟩
      · exact hsame.symm ▸ h
      · exact h.accepted hsettled.coherent (.of_ok haccepted)
  | txReceived now tx =>
      have hadmits := admits_of_txReceived hsettled.coherent hevent
      intro entry hentry slot
      rw [hadmits.utxoStore_eq]
      rcases hadmits.holds entry hentry with hold | hnew
      · exact h entry hold slot
      · rw [hnew.tx_eq]
        exact hnew.scripts.atSlot hok slot
  | sendTransaction now tx => exact absurd hok id

theorem Vetted.run {events : List NodeEvent} (h : s.Vetted) (hsettled : Settled known genesis path s)
    (hfree : CollisionFree known) (hgenesis : genesis.header.height = 0)
    (hknown : events.flatMap NodeEvent.blocks ⊆ known) (hrun : Run PooledEvent s events s') : s'.Vetted := by
  induction hrun generalizing path with
  | nil => exact h
  | cons hok hevent _ ih =>
      rw [List.flatMap_cons, List.append_subset] at hknown
      obtain ⟨path', hmid⟩ := hsettled.handleEvent hfree hgenesis hknown.1 hevent
      exact ih (h.handleEvent hsettled hfree hgenesis hknown.1 hok hevent) hmid hknown.2

theorem Accepted.getElem?_meets (hacc : Accepted s block s') {p : UtxoMap × Transaction}
    (hp : p ∈ block.meets s.utxoStore.entries) (hmem : ∀ op ∈ p.2.spends, op ∈ s.utxoStore.entries) :
    ∀ op ∈ p.2.spends, p.1[op]? = s.utxoStore.entries[op]? := by
  intro op hop
  obtain ⟨output, hget⟩ := mem_iff.mp (hmem op hop)
  rw [hget]
  exact hacc.applied.valid.getElem?_meets (by simp) hp hop hget

end NodeState

end QuantumVault
