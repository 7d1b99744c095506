import QuantumVault.Lib.Ledger
import QuantumVault.Storage.UtxoStore

/-!
# Transactions as moves

A transaction spends the outpoints of its inputs and creates its outputs under its own id. The ledger of the general theory is instantiated with outpoints, outputs and their values as exact natural numbers.
-/

namespace QuantumVault

open Result TreeMap

namespace Transaction

def outputTotal (tx : Transaction) : Nat := (tx.outputValues.map UInt64.toNat).sum

def IndexFits (tx : Transaction) : Prop := tx.outputs.length ≤ 2 ^ 32

instance (tx : Transaction) : Decidable tx.IndexFits := inferInstanceAs (Decidable (_ ≤ _))

theorem indexFits_iff {tx : Transaction} : tx.IndexFits ↔ ∀ output ∈ tx.outputs.zipIdx, output.2 < 2 ^ 32 := by
  unfold IndexFits
  constructor
  · intro hlen output houtput
    have := (List.mem_zipIdx' houtput).1
    omega
  · intro hall
    by_contra hlong
    push Not at hlong
    have hpos : 2 ^ 32 < tx.outputs.length := hlong
    have hmem : (tx.outputs.get ⟨2 ^ 32, hpos⟩, 2 ^ 32) ∈ tx.outputs.zipIdx := by
      rw [List.mem_zipIdx_iff_getElem?]
      exact List.getElem?_eq_getElem hpos
    exact absurd (hall _ hmem) (lt_irrefl _)

end Transaction

def TxOutput.worth (output : TxOutput) : Nat := output.value.toNat

def utxoTotal (entries : UtxoMap) : Nat := total TxOutput.worth entries

variable [Crypto]

namespace Transaction

/-- The outpoint of the output at a position, wrapped into the index word. -/
def outPointAt (tx : Transaction) (position : Nat) : OutPoint := ⟨tx.id, UInt32.ofNat position⟩

def created (tx : Transaction) : List (OutPoint × TxOutput) :=
  tx.outputs.zipIdx.map fun output => (tx.outPointAt output.2, output.1)

/-- What a transaction does to the ledger. -/
def move (tx : Transaction) : Ledger.Move OutPoint TxOutput := ⟨tx.spends, tx.created⟩

@[simp] theorem move_spends (tx : Transaction) : tx.move.spends = tx.spends := rfl

@[simp] theorem move_creates (tx : Transaction) : tx.move.creates = tx.created := rfl

theorem ofPosition_eq_some {tx : Transaction} {position : Nat} {outpoint : OutPoint} :
    OutPoint.ofPosition tx.id position = some outpoint ↔ position < 2 ^ 32 ∧ tx.outPointAt position = outpoint := by
  unfold OutPoint.ofPosition outPointAt
  split <;> simp_all

theorem ofPosition_of_lt {tx : Transaction} {position : Nat} (h : position < 2 ^ 32) :
    OutPoint.ofPosition tx.id position = some (tx.outPointAt position) :=
  ofPosition_eq_some.mpr ⟨h, rfl⟩

theorem created_keys (tx : Transaction) :
    tx.move.created = tx.outputs.zipIdx.map fun output => tx.outPointAt output.2 := by
  rw [Ledger.Move.created, move_creates, created, List.map_map]
  rfl

theorem txId_of_mem_created {tx : Transaction} {outpoint : OutPoint} (h : outpoint ∈ tx.move.created) :
    outpoint.txId = tx.id := by
  rw [created_keys, List.mem_map] at h
  obtain ⟨output, -, rfl⟩ := h
  rfl

theorem created_nodup {tx : Transaction} (hfits : tx.IndexFits) : tx.move.created.Nodup := by
  rw [created_keys]
  refine List.Nodup.map_on ?_ (List.Nodup.of_map Prod.snd ?_)
  · rintro ⟨x, i⟩ hx ⟨y, j⟩ hy heq
    have hi := indexFits_iff.mp hfits _ hx
    have hj := indexFits_iff.mp hfits _ hy
    have hindex : UInt32.ofNat i = UInt32.ofNat j := congrArg OutPoint.index heq
    have hij : i = j := by
      have := congrArg UInt32.toNat hindex
      rwa [UInt32.toNat_ofNat', UInt32.toNat_ofNat', Nat.mod_eq_of_lt hi, Nat.mod_eq_of_lt hj] at this
    subst hij
    rw [List.mem_zipIdx_iff_getElem?] at hx hy
    simp_all
  · rw [List.zipIdx_map_snd]
    exact List.nodup_range'

def inputTotal (view : UtxoMap) (tx : Transaction) : Nat := Ledger.inputTotal TxOutput.worth view tx.move

theorem outputTotal_move (tx : Transaction) : Ledger.outputTotal TxOutput.worth tx.move = tx.outputTotal := by
  rw [Ledger.outputTotal, outputTotal, move_creates, created, outputValues, List.map_map, List.map_map]
  have hvalues : tx.outputs.map (UInt64.toNat ∘ TxOutput.value) =
      tx.outputs.zipIdx.map fun output => output.1.worth := by
    conv_lhs => rw [← List.zipIdx_map_fst 0 tx.outputs, List.map_map]
    rfl
  rw [hvalues]
  rfl

end Transaction

end QuantumVault
