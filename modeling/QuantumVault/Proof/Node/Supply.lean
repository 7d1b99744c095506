import QuantumVault.Proof.Ledger.Rewards
import QuantumVault.Proof.Node.Genesis

/-!
# Value and supply

An accepted block changes the total of the ledger by its coinbase less its fees, in exact numbers. Over a whole run this gives the total in terms of the genesis allocation, the claims and the fees, and with it the exact condition for the supply cap.
-/

namespace QuantumVault

open Result TreeMap Ledger

variable [Crypto]

namespace NodeState

variable {s s' : NodeState} {block : Block}

theorem Accepted.rewardsExact (h : Accepted s block s') :
    ∃ fees, RewardsExact s.utxoStore.entries block s.params.monetary fees := by
  obtain ⟨fees, hfees⟩ := h.passed.rewards
  exact ⟨fees, .of_ok h.height_ne_zero h.passed.valid_structure h.applied.valid hfees⟩

theorem Accepted.balance (h : Accepted s block s') :
    utxoTotal s'.utxoStore.entries + block.fees s.utxoStore.entries =
      utxoTotal s.utxoStore.entries + block.coinbaseTotal := by
  obtain ⟨fees, hexact⟩ := h.rewardsExact
  rw [h.applied.entries_eq]
  exact hexact.balance h.applied.valid

private theorem Accepted.coinbaseTotal_le (h : Accepted s block s') :
    block.coinbaseTotal ≤
      block.fees s.utxoStore.entries + (cappedSubsidy block.header.height s.params.monetary).toNat := by
  obtain ⟨fees, hexact⟩ := h.rewardsExact
  have hclaim := hexact.claim_le
  have hreward := Word.toNat_saturatingAdd (cappedSubsidy block.header.height s.params.monetary) fees
  have hfees := hexact.fees_eq
  rw [totalBlockReward] at hclaim
  omega

/-- **Value is conserved by every accepted block.** The new total is the old one less the fees plus the coinbase, every transaction but the coinbase spends at least what it creates, and the coinbase takes at most the fees and the capped subsidy. -/
theorem handleBlock_conserves_value (hok : (s.handleBlock block).1 = .ok ()) :
    (utxoTotal (s.handleBlock block).2.utxoStore.entries : Int) =
        utxoTotal s.utxoStore.entries - block.fees s.utxoStore.entries + block.coinbaseTotal ∧
      (∀ p ∈ block.meets s.utxoStore.entries, p.2.isCoinbase = false → p.2.outputTotal ≤ p.2.inputTotal p.1) ∧
      block.coinbaseTotal ≤
        block.fees s.utxoStore.entries + (cappedSubsidy block.header.height s.params.monetary).toNat ∧
      utxoTotal (s.handleBlock block).2.utxoStore.entries ≤
        utxoTotal s.utxoStore.entries + (cappedSubsidy block.header.height s.params.monetary).toNat := by
  have hacc := Accepted.of_ok hok
  obtain ⟨fees, hexact⟩ := hacc.rewardsExact
  have hbalance := hacc.balance
  have hclaim := hacc.coinbaseTotal_le
  exact ⟨by omega, fun p hp hcoinbase => (hexact.covered p hp hcoinbase).1, hclaim, by omega⟩

omit [Crypto] in
/-- The block with a full claim and two chained spends: the ledger gains exactly the subsidy. -/
theorem handleBlock_conserves_value_sampleBlock :
    utxoTotal (@handleBlock sampleCrypto (sampleNode .mainnet) sampleBlock).2.utxoStore.entries ≤
      utxoTotal (sampleNode .mainnet).utxoStore.entries + 5000000000 := by
  have h := (@handleBlock_conserves_value sampleCrypto (sampleNode .mainnet) sampleBlock sampleBlock_accepted).2.2.2
  have hsubsidy : (cappedSubsidy sampleBlock.header.height (sampleNode .mainnet).params.monetary).toNat = 5000000000 := by
    decide +kernel
  rwa [hsubsidy] at h

/-! ### Whole runs -/

/-- The node after a sequence of blocks, whatever became of them. -/
def handleBlocks (s : NodeState) (blocks : List Block) : NodeState :=
  blocks.foldl (fun s block => (s.handleBlock block).2) s

def AcceptsAll (s : NodeState) : List Block → Prop
  | [] => True
  | block :: blocks => (s.handleBlock block).1 = .ok () ∧ (s.handleBlock block).2.AcceptsAll blocks

def feesPaid (s : NodeState) : List Block → Nat
  | [] => 0
  | block :: blocks => block.fees s.utxoStore.entries + (s.handleBlock block).2.feesPaid blocks

/-- What the coinbases of a sequence of blocks create. -/
def coinbasesClaimed (blocks : List Block) : Nat := (blocks.map Block.coinbaseTotal).sum

/-- **Balance of a run.** -/
theorem AcceptsAll.balance {blocks : List Block} (h : s.AcceptsAll blocks) :
    utxoTotal (s.handleBlocks blocks).utxoStore.entries + s.feesPaid blocks =
      utxoTotal s.utxoStore.entries + coinbasesClaimed blocks := by
  induction blocks generalizing s with
  | nil => simp [handleBlocks, feesPaid, coinbasesClaimed]
  | cons block blocks ih =>
      obtain ⟨hok, hrest⟩ := h
      have hone := (Accepted.of_ok hok).balance
      have hmany := ih hrest
      simp only [handleBlocks, List.foldl_cons, feesPaid, coinbasesClaimed, List.map_cons, List.sum_cons] at hmany ⊢
      omega

theorem AcceptsAll.of_prefix {blocks more : List Block} (h : s.AcceptsAll (blocks ++ more)) : s.AcceptsAll blocks := by
  induction blocks generalizing s with
  | nil => trivial
  | cons block blocks ih => exact ⟨h.1, ih h.2⟩

end NodeState

/-! ### The supply cap -/

def genesisTotal : NetworkId → Nat
  | .mainnet => 2100000000000000
  | .testnet => 2100000000000000
  | .devnet => 10000000000
  | .ephemeral => 10000000000

private theorem outputTotal_genesisTransaction (network : NetworkId) (keys : GenesisKeys) :
    (genesisTransaction network keys).outputTotal = genesisTotal network := by
  have hsum : (genesisTransaction network keys).outputTotal =
      ((genesisAllocations network keys).map fun allocation => allocation.2.toNat).sum := by
    simp only [Transaction.outputTotal, Transaction.outputValues, genesisTransaction, Transaction.genesis, List.map_map]
    rfl
  rw [hsum]
  cases network <;> simp [genesisAllocations, genesisTotal, devnetAccounts, devnetTokensPerAccount, Function.comp_def]

private theorem utxoTotal_genesis (network : NetworkId) (keys : GenesisKeys) :
    utxoTotal ((genesisBlock network keys).advance ∅) = genesisTotal network := by
  have hvalid : Valid Transaction.move ∅ [] (genesisBlock network keys).transactions := genesis_valid
  have hbalance := hvalid.total_advanceAll TxOutput.worth
  have hinputs : (genesisTransaction network keys).move.spends = [] := rfl
  rw [genesisBlock_transactions] at hbalance
  simp only [Ledger.meets, List.map_cons, List.map_nil, List.sum_cons, List.sum_nil, Ledger.inputTotal, hinputs,
    Transaction.outputTotal_move, total_empty] at hbalance
  rw [utxoTotal, Block.advance, genesisBlock_transactions]
  have hout := outputTotal_genesisTransaction network keys
  omega

namespace NodeState

variable {config : NodeConfig} {keys : GenesisKeys}

theorem utxoTotal_startPreset (config : NodeConfig) (keys : GenesisKeys) :
    utxoTotal (startPreset config keys).utxoStore.entries = genesisTotal config.network := by
  have hfresh := fresh_start config (.preset config.network) (ProtocolParams.validate_preset config.network) keys
  rw [startPreset, (UtxoStore.Applied.of_ok hfresh.applied).entries_eq]
  exact utxoTotal_genesis config.network keys

/-- **The supply cap, exactly.** The total stays within the supply throughout a run exactly on the networks that allocate no more than the supply at genesis, and as long as the coinbases have claimed no more than the fees paid: the genesis allocation is already the whole supply, so any subsidy is too much. -/
theorem supply_capped_iff {blocks : List Block} (h : (startPreset config keys).AcceptsAll blocks) :
    (∀ done, done <+: blocks →
        utxoTotal ((startPreset config keys).handleBlocks done).utxoStore.entries ≤
          (ProtocolParams.preset config.network).monetary.totalSupply.toNat) ↔
      (config.network = .mainnet ∨ config.network = .testnet) ∧
        ∀ done, done <+: blocks → coinbasesClaimed done ≤ (startPreset config keys).feesPaid done := by
  have hbalance : ∀ done, done <+: blocks →
      utxoTotal ((startPreset config keys).handleBlocks done).utxoStore.entries +
        (startPreset config keys).feesPaid done = genesisTotal config.network + coinbasesClaimed done := by
    rintro done ⟨more, rfl⟩
    rw [← utxoTotal_startPreset config keys]
    exact h.of_prefix.balance
  have hcapped (hsupply : (ProtocolParams.preset config.network).monetary.totalSupply.toNat = genesisTotal config.network)
      (hnetwork : config.network = .mainnet ∨ config.network = .testnet) :
      (∀ done, done <+: blocks →
          utxoTotal ((startPreset config keys).handleBlocks done).utxoStore.entries ≤
            (ProtocolParams.preset config.network).monetary.totalSupply.toNat) ↔
        (config.network = .mainnet ∨ config.network = .testnet) ∧
          ∀ done, done <+: blocks → coinbasesClaimed done ≤ (startPreset config keys).feesPaid done := by
    rw [hsupply, and_iff_right hnetwork]
    refine forall_congr' fun done => forall_congr' fun hdone => ?_
    have := hbalance done hdone
    omega
  have hexceeded (hsupply : (ProtocolParams.preset config.network).monetary.totalSupply.toNat < genesisTotal config.network) :
      ¬ ∀ done, done <+: blocks →
        utxoTotal ((startPreset config keys).handleBlocks done).utxoStore.entries ≤
          (ProtocolParams.preset config.network).monetary.totalSupply.toNat := by
    intro hall
    have hnil := hall [] List.nil_prefix
    have hstart := utxoTotal_startPreset config keys
    rw [handleBlocks, List.foldl_nil] at hnil
    omega
  cases hnetwork : config.network with
  | mainnet => exact hnetwork ▸ hcapped (by rw [hnetwork]; rfl) (Or.inl hnetwork)
  | testnet => exact hnetwork ▸ hcapped (by rw [hnetwork]; rfl) (Or.inr hnetwork)
  | devnet => exact iff_of_false (hnetwork ▸ hexceeded (by rw [hnetwork]; decide)) (by simp)
  | ephemeral => exact iff_of_false (hnetwork ▸ hexceeded (by rw [hnetwork]; decide)) (by simp)

omit [Crypto] in
/-- A run whose only block pays a fee and claims nothing. -/
theorem supply_capped_feeBlock :
    (@handleBlock sampleCrypto (sampleNode .mainnet) feeBlock).1 = .ok () ∧
      ∀ done, done <+: [feeBlock] →
        utxoTotal (@handleBlocks sampleCrypto (sampleNode .mainnet) done).utxoStore.entries ≤ 2100000000000000 := by
  refine ⟨feeBlock_accepted, (@supply_capped_iff sampleCrypto ⟨.mainnet, 1, true⟩ sampleKeys [feeBlock]
    ⟨feeBlock_accepted, trivial⟩).mpr ⟨Or.inl rfl, fun done hdone => ?_⟩⟩
  have hclaimed : coinbasesClaimed done ≤ coinbasesClaimed [feeBlock] := by
    obtain ⟨more, hmore⟩ := hdone
    simp only [← hmore, coinbasesClaimed, List.map_append, List.sum_append]
    omega
  have hzero : coinbasesClaimed [feeBlock] = 0 := by decide
  omega

omit [Crypto] in
/-- **The first claimed subsidy exceeds the supply.** -/
theorem supply_exceeded_by_first_block :
    ¬ ∀ (_ : Crypto) (config : NodeConfig) (keys : GenesisKeys) (blocks : List Block),
      (startPreset config keys).AcceptsAll blocks →
      utxoTotal ((startPreset config keys).handleBlocks blocks).utxoStore.entries ≤
        (ProtocolParams.preset config.network).monetary.totalSupply.toNat := by
  intro hclaim
  have hle := hclaim sampleCrypto ⟨.mainnet, 1, true⟩ sampleKeys [sampleBlock] ⟨sampleBlock_accepted, trivial⟩
  exact absurd hle (by decide +kernel)

end NodeState

end QuantumVault
