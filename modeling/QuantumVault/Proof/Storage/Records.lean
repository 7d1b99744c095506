import QuantumVault.Lib.KeyValue
import QuantumVault.Proof.Wallet.Sighash
import QuantumVault.Storage.StateStore
import QuantumVault.Storage.KvUtxoStore

/-!
# Records survive the store

Every record that the stores write can be read back, and an output that was read back can be written again.
-/

namespace QuantumVault

open TreeMap

/-! ### Outputs that were read -/

section Closed

theorem Decode.length_lt_of_bytes {input bs rest : Bytes} (h : Decode.bytes input = some (bs, rest)) :
    bs.length < 2 ^ 64 := by
  obtain ⟨⟨length, mid⟩, _, hfixed⟩ := Option.bind_eq_some_iff.mp h
  rw [(Decode.length_fixed hfixed).1]
  exact length.toNat_lt

theorem Decode.option_eq_some {α : Type} {item : Bytes → Option (α × Bytes)} {input rest : Bytes} {x : α}
    (h : Decode.option item input = some (some x, rest)) : ∃ input' rest', item input' = some (x, rest') := by
  cases input with
  | nil => simp [Decode.option] at h
  | cons tag input =>
      simp only [Decode.option] at h
      split at h
      · simp at h
      · split at h
        · obtain ⟨⟨y, rest'⟩, hitem, heq⟩ := Option.map_eq_some_iff.mp h
          cases heq
          exact ⟨input, _, hitem⟩
        · cases h

private theorem Decode.mem_of_items {α : Type} {item : Bytes → Option (α × Bytes)} {count : Nat} {input rest : Bytes}
    {xs : List α}
    (h : Decode.items item count input = some (xs, rest)) : ∀ x ∈ xs, ∃ input' rest', item input' = some (x, rest') := by
  induction count generalizing input xs with
  | zero =>
      cases h
      simp
  | succ count ih =>
      obtain ⟨⟨y, mid⟩, hy, h⟩ := Option.bind_eq_some_iff.mp h
      obtain ⟨⟨ys, mid'⟩, hys, h⟩ := Option.bind_eq_some_iff.mp h
      cases h
      rw [List.forall_mem_cons]
      exact ⟨⟨input, mid, hy⟩, ih hys⟩

private theorem Decode.mem_of_seq {α : Type} {item : Bytes → Option (α × Bytes)} {input rest : Bytes} {xs : List α}
    (h : Decode.seq item input = some (xs, rest)) : ∀ x ∈ xs, ∃ input' rest', item input' = some (x, rest') := by
  obtain ⟨⟨count, mid⟩, _, hitems⟩ := Option.bind_eq_some_iff.mp h
  exact Decode.mem_of_items hitems

private theorem StealthInfo.length_lt_of_decode {input rest : Bytes} {info : StealthInfo}
    (h : StealthInfo.decode input = some (info, rest)) : info.ephemeralPubkey.length < 2 ^ 64 := by
  obtain ⟨⟨key, mid⟩, hkey, h⟩ := Option.bind_eq_some_iff.mp h
  obtain ⟨⟨level, mid'⟩, _, h⟩ := Option.bind_eq_some_iff.mp h
  obtain ⟨⟨tag, mid''⟩, _, h⟩ := Option.bind_eq_some_iff.mp h
  cases h
  exact Decode.length_lt_of_bytes hkey

theorem TxOutput.Fits.of_decode {input rest : Bytes} {output : TxOutput}
    (h : TxOutput.decode input = some (output, rest)) : output.Fits := by
  obtain ⟨⟨value, mid⟩, _, h⟩ := Option.bind_eq_some_iff.mp h
  obtain ⟨⟨script, mid'⟩, hscript, h⟩ := Option.bind_eq_some_iff.mp h
  obtain ⟨⟨datum, mid''⟩, hdatum, h⟩ := Option.bind_eq_some_iff.mp h
  obtain ⟨⟨stealth, mid'''⟩, hstealth, h⟩ := Option.bind_eq_some_iff.mp h
  cases h
  refine ⟨Decode.length_lt_of_bytes hscript, fun bs hbs => ?_, fun info hinfo => ?_⟩
  · cases hbs
    obtain ⟨_, _, hitem⟩ := Decode.option_eq_some hdatum
    exact Decode.length_lt_of_bytes hitem
  · cases hinfo
    obtain ⟨_, _, hitem⟩ := Decode.option_eq_some hstealth
    exact StealthInfo.length_lt_of_decode hitem

theorem UndoLog.fits_of_decodeEntries {input rest : Bytes} {entries : List (OutPoint × TxOutput)}
    (h : Decode.seq UndoLog.decodeEntry input = some (entries, rest)) : ∀ entry ∈ entries, entry.2.Fits := by
  intro entry hmem
  obtain ⟨input', rest', hentry⟩ := Decode.mem_of_seq h entry hmem
  obtain ⟨⟨outpoint, mid⟩, _, hentry⟩ := Option.bind_eq_some_iff.mp hentry
  obtain ⟨⟨output, mid'⟩, houtput, hentry⟩ := Option.bind_eq_some_iff.mp hentry
  cases hentry
  exact TxOutput.Fits.of_decode houtput

theorem UndoLog.fits_of_decode {input rest : Bytes} {undo : UndoLog} (h : UndoLog.decode input = some (undo, rest)) :
    ∀ entry ∈ undo.spent, entry.2.Fits := by
  obtain ⟨⟨spent, mid⟩, hspent, h⟩ := Option.bind_eq_some_iff.mp h
  obtain ⟨⟨heights, mid'⟩, _, h⟩ := Option.bind_eq_some_iff.mp h
  cases h
  exact fits_of_decodeEntries hspent

end Closed

/-! ### Blocks -/

section Blocks

/-- The lists and byte strings of a block have lengths that can be written down, and so has the list of all its inputs. -/
structure Block.Fits (block : Block) : Prop where
  vrfProof : block.header.vrfProof.length < 2 ^ 64
  kesSig : block.header.kesSig.length < 2 ^ 64
  transactions : block.transactions.length < 2 ^ 64
  transaction : ∀ tx ∈ block.transactions, tx.Fits
  inputs : (block.transactions.flatMap Transaction.inputs).length < 2 ^ 64

theorem Transaction.read_canonicalBytes {tx : Transaction} (hfits : tx.Fits) (rest : Bytes) :
    Transaction.read (tx.canonicalBytes ++ rest) = some (tx, rest) := by
  have hinputs := Decode.seq_encode (fun input hmem => TxInput.decode_encode (hfits.witness input hmem)) hfits.inputs
  have houtputs := Decode.seq_encode (fun output hmem => TxOutput.decode_encode (hfits.output output hmem)) hfits.outputs
  simp [Transaction.read, Transaction.canonicalBytes, Decode.u32_encode, hinputs, houtputs,
    ValidityInterval.decode_encode, Decode.u64_encode]

theorem Block.decode_encode {block : Block} (hfits : block.Fits) (rest : Bytes) :
    Block.decode (block.encode ++ rest) = some (block, rest) := by
  have htxs := Decode.seq_encode (fun tx hmem => Transaction.read_canonicalBytes (hfits.transaction tx hmem))
    hfits.transactions
  simp [Block.decode, Block.encode, BlockHeader.decode, BlockHeader.canonicalBytes, Decode.u32_encode,
    Hash256.decode_bytes, Decode.u64_encode, Decode.bytes_encode hfits.vrfProof, Decode.bytes_encode hfits.kesSig, htxs]

end Blocks

/-! ### Undo logs and snapshots -/

section UndoLogs

private theorem UndoLog.decodeEntry_encodeEntry {entry : OutPoint × TxOutput} (hfits : entry.2.Fits) (rest : Bytes) :
    UndoLog.decodeEntry (UndoLog.encodeEntry entry ++ rest) = some (entry, rest) := by
  simp [UndoLog.decodeEntry, UndoLog.encodeEntry, OutPoint.decode_encode, TxOutput.decode_encode hfits]

theorem UndoLog.decodeEntries_encode {entries : List (OutPoint × TxOutput)} (hfits : ∀ entry ∈ entries, entry.2.Fits)
    (hlen : entries.length < 2 ^ 64) (rest : Bytes) :
    Decode.seq UndoLog.decodeEntry (Encode.seq UndoLog.encodeEntry entries ++ rest) = some (entries, rest) :=
  Decode.seq_encode (fun entry hmem => decodeEntry_encodeEntry (hfits entry hmem)) hlen rest

theorem UndoLog.decode_encode {undo : UndoLog} (hfits : ∀ entry ∈ undo.spent, entry.2.Fits)
    (hspent : undo.spent.length < 2 ^ 64) (hheights : undo.spentCoinbaseHeights.length < 2 ^ 64) (rest : Bytes) :
    UndoLog.decode (undo.encode ++ rest) = some (undo, rest) := by
  have hheight : ∀ entry ∈ undo.spentCoinbaseHeights, ∀ rest,
      UndoLog.decodeHeight (UndoLog.encodeHeight entry ++ rest) = some (entry, rest) := by
    intro entry _ rest
    simp [UndoLog.decodeHeight, UndoLog.encodeHeight, OutPoint.decode_encode, Decode.u64_encode]
  simp [UndoLog.decode, UndoLog.encode, UndoLog.decodeEntries_encode hfits hspent, Decode.seq_encode hheight hheights]

end UndoLogs

/-! ### Consensus records -/

section State

structure StakePool.Fits (pool : StakePool) : Prop where
  vrfKey : pool.vrfKey.length < 2 ^ 64
  kesKey : pool.kesKey.length < 2 ^ 64

structure LedgerState.Fits (state : LedgerState) : Prop where
  pools : state.pools.length < 2 ^ 64
  pool : ∀ pool ∈ state.pools, pool.Fits
  delegations : state.delegations.length < 2 ^ 64
  rewardBalances : state.rewardBalances.size < 2 ^ 64

def EpochSnapshot.Fits (snapshot : EpochSnapshot) : Prop := snapshot.stakeDistribution.poolStakes.size < 2 ^ 64

private theorem Decode.bool_encode (b : Bool) (rest : Bytes) : Decode.bool (Encode.bool b ++ rest) = some (b, rest) := by
  cases b <;> simp [Decode.bool, Encode.bool]

theorem Decode.balances_encode {m : Std.ExtTreeMap Hash256 UInt64} (hsize : m.size < 2 ^ 64) (rest : Bytes) :
    Decode.balances (Encode.balances m ++ rest) = some (m, rest) := by
  have hitem : ∀ pair ∈ m.toList, ∀ rest,
      Decode.balance ((pair.1.bytes ++ Encode.u64 pair.2) ++ rest) = some (pair, rest) := by
    intro pair _ rest
    simp [Decode.balance, Hash256.decode_bytes, Decode.u64_encode]
  have hlen : m.toList.length < 2 ^ 64 := by rwa [Std.ExtTreeMap.length_toList]
  simp [Decode.balances, Encode.balances, Decode.seq_encode hitem hlen, insertAll_toList]

theorem ChainEntry.decode_encode (entry : ChainEntry) (rest : Bytes) :
    ChainEntry.decode (entry.encode ++ rest) = some (entry, rest) := by
  simp [ChainEntry.decode, ChainEntry.encode, Hash256.decode_bytes, Decode.u64_encode]

theorem StakePool.decode_encode {pool : StakePool} (hfits : pool.Fits) (rest : Bytes) :
    StakePool.decode (pool.encode ++ rest) = some (pool, rest) := by
  simp [StakePool.decode, StakePool.encode, Hash256.decode_bytes, Decode.bytes_encode hfits.vrfKey,
    Decode.bytes_encode hfits.kesKey, Decode.u64_encode, Decode.u32_encode, Decode.bool_encode]

theorem Delegation.decode_encode (delegation : Delegation) (rest : Bytes) :
    Delegation.decode (delegation.encode ++ rest) = some (delegation, rest) := by
  simp [Delegation.decode, Delegation.encode, Hash256.decode_bytes, Decode.u64_encode]

theorem LedgerState.decode_encode {state : LedgerState} (hfits : state.Fits) (rest : Bytes) :
    LedgerState.decode (state.encode ++ rest) = some (state, rest) := by
  have hpools := Decode.seq_encode (fun pool hmem => StakePool.decode_encode (hfits.pool pool hmem)) hfits.pools
  have hdelegations := Decode.seq_encode (fun delegation _ => Delegation.decode_encode delegation) hfits.delegations
  simp [LedgerState.decode, LedgerState.encode, hpools, hdelegations, Decode.balances_encode hfits.rewardBalances]

theorem EpochSnapshot.decode_encode {snapshot : EpochSnapshot} (hfits : snapshot.Fits) (rest : Bytes) :
    EpochSnapshot.decode (snapshot.encode ++ rest) = some (snapshot, rest) := by
  simp [EpochSnapshot.decode, EpochSnapshot.encode, Decode.u64_encode, Decode.balances_encode hfits, Hash256.decode_bytes]

end State

end QuantumVault
