import QuantumVault.Proof.Script.Codec
import QuantumVault.Proof.Script.Failure
import QuantumVault.Proof.Script.Multisig

/-!
# When a script stops the process

The stack is bounded and every index is checked, but the multi-signature check reserves room for as many signatures as the stack asks for before it looks for them: a count of -1 is read as an unsigned number and aborts the process. The number of keys is paid for first, which bounds it by the budget, but not by what the stack can hold.
-/

namespace QuantumVault

open Result

variable [Crypto] {ctx : Context} {script : Bytes} {limit : UInt64} {m : Machine} {instr : Instruction}

/-- The script runs to a value or an error, on a stack that stays within its bound, and reserves room for no more values than a stack can hold. -/
def Safe (script : Bytes) (ctx : Context) (limit : UInt64) : Prop :=
  (∀ reason, execute script ctx (.new limit) ≠ .error (.abort reason)) ∧
    ∀ instrs rest m, decodeScript script = .ok instrs → Passes (Machine.step ctx) instrs (.init (.new limit)) rest m →
      m.stack.length ≤ OpCode.maxStackDepth ∧
        ∀ instr after, rest = instr :: after → ∀ count ∈ m.reserved instr, count ≤ OpCode.maxStackDepth

/-- The operands of a concatenation are together no longer than a vector can be, and the counts of a multi-signature check, read as unsigned numbers, are at most the depth of a stack: the number of keys if the budget covers it, and the number of signatures below the keys. -/
structure Machine.OperandsFit (m : Machine) (instr : Instruction) : Prop where
  cat : instr.op = .cat → ∀ a b rest, m.stack = b :: a :: rest →
    a.toCanonicalBytes.length + b.toCanonicalBytes.length ≤ maxVecBytes
  keys : instr.op = .checkMultiSigPqc → ∀ n rest, m.stack = .int n :: rest →
    2000 + 500 * n.toUInt64.toNat ≤ m.gas.remaining.toNat → n.toUInt64.toNat ≤ OpCode.maxStackDepth
  signatures : instr.op = .checkMultiSigPqc → ∀ n rest, m.stack = .int n :: rest →
    2000 + 500 * n.toUInt64.toNat ≤ m.gas.remaining.toNat → ∀ k, rest[n.toUInt64.toNat]? = some (.int k) →
      k.toUInt64.toNat ≤ OpCode.maxStackDepth

omit [Crypto] in
private theorem mem_reservedCounts {stack : Stack} {gas : GasMeter} {count : Nat} (hspent : gas.remaining.toNat < 2 ^ 64 - 1) :
    count ∈ reservedCounts stack gas ↔ ∃ n rest, stack = .int n :: rest ∧
      500 * n.toUInt64.toNat ≤ gas.remaining.toNat ∧
        (count = n.toUInt64.toNat ∨ ∃ k, rest[n.toUInt64.toNat]? = some (.int k) ∧ count = k.toUInt64.toNat) := by
  have hprice : multisigPerKeyCost.toNat = 500 := rfl
  have hpaid : ∀ n : Int64, (∃ gas', gas.consume (Word.saturatingMul multisigPerKeyCost n.toUInt64) = some gas') ↔
      500 * n.toUInt64.toNat ≤ gas.remaining.toNat := by
    intro n
    constructor
    · intro h
      obtain ⟨gas', h⟩ := h
      have hleft := GasMeter.remaining_of_consume h
      rw [Word.toNat_saturatingMul, hprice] at hleft
      omega
    · intro h
      apply GasMeter.consume_isSome
      rw [Word.toNat_saturatingMul, hprice]
      omega
  unfold reservedCounts
  constructor
  · intro h
    split at h
    · cases h
    · rename_i nKeys rest hkeys
      obtain ⟨n, rfl, rfl⟩ := popIndex_eq_ok.mp hkeys
      rw [UInt64.ofNat_toNat] at h
      split at h
      · cases h
      · rename_i gas' hgas
        refine ⟨n, rest, rfl, (hpaid n).mp ⟨gas', hgas⟩, ?_⟩
        rcases List.mem_cons.mp h with hfirst | hsecond
        · exact Or.inl hfirst
        · split at hsecond
          · cases hsecond
          · rename_i pks rest' hpop
            obtain ⟨vals, hlen, rfl, -⟩ := popManyBytes_eq_ok.mp hpop
            split at hsecond
            · cases hsecond
            · rename_i mSigs rest'' hcount
              obtain ⟨k, rfl, rfl⟩ := popIndex_eq_ok.mp hcount
              refine Or.inr ⟨k, ?_, List.mem_singleton.mp hsecond⟩
              rw [← hlen, List.getElem?_append_right le_rfl, Nat.sub_self, List.getElem?_cons_zero]
  · intro h
    obtain ⟨n, rest, rfl, hle, hcount⟩ := h
    obtain ⟨gas', hgas⟩ := (hpaid n).mpr hle
    have hkeys : popIndex (.int n :: rest) = .ok (n.toUInt64.toNat, rest) := popIndex_eq_ok.mpr ⟨n, rfl, rfl⟩
    rw [hkeys]
    dsimp only
    rw [UInt64.ofNat_toNat, hgas]
    dsimp only
    rcases hcount with rfl | ⟨k, hk, rfl⟩
    · exact List.mem_cons_self
    · apply List.mem_cons_of_mem
      have hlt : n.toUInt64.toNat < rest.length := (List.getElem?_eq_some_iff.mp hk).1
      have hbelow : rest.drop n.toUInt64.toNat = .int k :: rest.drop (n.toUInt64.toNat + 1) := by
        rw [List.drop_eq_getElem_cons hlt, (List.getElem?_eq_some_iff.mp hk).2]
      have hpop : popManyBytes n.toUInt64.toNat rest =
          .ok ((rest.take n.toUInt64.toNat).map Value.toCanonicalBytes, rest.drop n.toUInt64.toNat) := by
        refine popManyBytes_eq_ok.mpr ⟨rest.take n.toUInt64.toNat, ?_, (List.take_append_drop _ rest).symm, rfl⟩
        rw [List.length_take]
        omega
      rw [hpop, hbelow]
      exact List.mem_singleton_self _

omit [Crypto] in
theorem reserved_le_iff (hexec : m.executing = true) (hpaid : m.Affords instr) (hop : instr.op = .checkMultiSigPqc) :
    (∀ count ∈ m.reserved instr, count ≤ OpCode.maxStackDepth) ↔ m.OperandsFit instr := by
  obtain ⟨gas, hcharge⟩ := GasMeter.charge_isSome_iff.mpr hpaid
  have hleft := GasMeter.remaining_of_consume hcharge
  have hbase : (gasCost instr.op).toNat = 2000 := by rw [hop]; rfl
  have hlimit := m.gas.remaining.toNat_lt
  have hreserved : m.reserved instr = reservedCounts m.stack gas := by
    rw [Machine.reserved, if_pos ⟨hop, hexec⟩, hcharge]
  have hcovered : ∀ n : Int64, 2000 + 500 * n.toUInt64.toNat ≤ m.gas.remaining.toNat ↔
      500 * n.toUInt64.toNat ≤ gas.remaining.toNat := by
    intro n
    omega
  rw [hreserved]
  simp only [mem_reservedCounts (show gas.remaining.toNat < 2 ^ 64 - 1 by omega)]
  constructor
  · intro h
    refine ⟨fun hcat => ?_, fun _ n rest hstack hle => ?_, fun _ n rest hstack hle k hk => ?_⟩
    · cases hop.symm.trans hcat
    · exact h _ ⟨n, rest, hstack, (hcovered n).mp hle, Or.inl rfl⟩
    · exact h _ ⟨n, rest, hstack, (hcovered n).mp hle, Or.inr ⟨k, hk, rfl⟩⟩
  · intro h count hcount
    obtain ⟨n, rest, hstack, hle, hcount⟩ := hcount
    rcases hcount with rfl | ⟨k, hk, rfl⟩
    · exact h.keys hop n rest hstack ((hcovered n).mpr hle)
    · exact h.signatures hop n rest hstack ((hcovered n).mpr hle) k hk

omit [Crypto] in
theorem reserved_le_of_fits (hfits : m.executing = true → m.Affords instr → m.OperandsFit instr) :
    ∀ count ∈ m.reserved instr, count ≤ OpCode.maxStackDepth := by
  intro count hmem
  have hsome := hmem
  unfold Machine.reserved at hsome
  split at hsome
  · rename_i hmulti
    split at hsome
    · rename_i gas hcharge
      have hpaid : m.Affords instr := GasMeter.charge_isSome_iff.mp ⟨gas, hcharge⟩
      exact (reserved_le_iff hmulti.2 hpaid hmulti.1).mpr (hfits hmulti.2 hpaid) count hmem
    · cases hsome
  · cases hsome

theorem execute_eq_abort {reason : String} : execute script ctx (.new limit) = .error (.abort reason) ↔
    ∃ instrs instr after m, decodeScript script = .ok instrs ∧
      Passes (Machine.step ctx) instrs (.init (.new limit)) (instr :: after) m ∧
      Machine.step ctx m instr = .error (.abort reason) := by
  unfold execute executeInstructions
  rw [bind_eq_error]
  constructor
  · intro h
    rcases h with h | ⟨instrs, hdecode, h⟩
    · cases hdecode : decodeScript script with
      | ok instrs =>
          rw [hdecode] at h
          cases h
      | error e =>
          rw [hdecode] at h
          cases h
    · rcases bind_eq_error.mp h with h | ⟨m, -, h⟩
      · obtain ⟨instr, after, m, hpass, hstep⟩ := foldlM_eq_error.mp h
        exact ⟨instrs, instr, after, m, mapError_eq_ok.mp hdecode, hpass, hstep⟩
      · rcases bind_eq_error.mp h with h | ⟨_, -, h⟩
        · cases (require_eq_error.mp h).2
        · cases h
  · intro h
    obtain ⟨instrs, instr, after, m, hdecode, hpass, hstep⟩ := h
    refine Or.inr ⟨instrs, mapError_eq_ok.mpr hdecode, bind_eq_error.mpr (Or.inl ?_)⟩
    exact foldlM_eq_error.mpr ⟨instr, after, m, hpass, hstep⟩

/-- **When a script cannot stop the process.** -/
theorem safe_iff : Safe script ctx limit ↔ ∀ instrs instr after m, decodeScript script = .ok instrs →
    Passes (Machine.step ctx) instrs (.init (.new limit)) (instr :: after) m → m.executing = true → m.Affords instr →
      m.OperandsFit instr := by
  constructor
  · intro h instrs instr after m hdecode hpass hexec hpaid
    by_cases hmulti : instr.op = .checkMultiSigPqc
    · refine (reserved_le_iff hexec hpaid hmulti).mp ?_
      exact (h.2 instrs _ m hdecode hpass).2 instr after rfl
    · refine ⟨fun hcat a b rest hstack => ?_, fun hop => absurd hop hmulti, fun hop => absurd hop hmulti⟩
      by_contra hlong
      have haborts : instr.Aborts m.stack := by
        rw [Instruction.Aborts, hcat]
        exact ⟨a, b, rest, hstack, Nat.not_le.mp hlong⟩
      obtain ⟨reason, heval⟩ : ∃ reason, evalOp ctx instr m.stack = .error (.abort reason) := evalOp_aborts haborts
      have hplain : instr.IsPlain := by
        refine ⟨?_, ?_, ?_, ?_⟩ <;> rw [hcat] <;> decide
      refine h.1 reason (execute_eq_abort.mpr ⟨instrs, instr, after, m, hdecode, hpass, ?_⟩)
      exact step_of_plain_error hplain hexec hpaid heval
  · intro h
    refine ⟨fun reason hrun => ?_, fun instrs rest m hdecode hpass => ⟨length_stack_le_of_passes hpass, ?_⟩⟩
    · obtain ⟨instrs, instr, after, m, hdecode, hpass, hstep⟩ := execute_eq_abort.mp hrun
      have hfits := h instrs instr after m hdecode hpass
      have hwell : instr.WellFormed := by
        obtain ⟨before, rfl, -⟩ := hpass
        exact (decodeScript_inv hdecode).1 instr (List.mem_append_right _ List.mem_cons_self)
      cases (step_outcome (length_stack_le_of_passes hpass)).failure hstep with
      | ordinary hordinary => exact hordinary
      | operands hpaid hexec haborts =>
          obtain ⟨hcat, a, b, rest, hstack, hlong⟩ := hwell.aborts_iff.mp haborts
          have hshort := (hfits hexec hpaid).cat hcat a b rest hstack
          omega
      | reserve hcount =>
          obtain ⟨count, hmem, hlarge⟩ := hcount
          have hle := reserved_le_of_fits hfits count hmem
          have hcapacity : OpCode.maxStackDepth ≤ maxVecCapacity := by decide
          omega
    · intro instr after hrest count hmem
      subst hrest
      exact reserved_le_of_fits (h instrs instr after m hdecode hpass) count hmem

/-- A push of -1, a count of no keys, and the check. -/
def negativeCountScript : Bytes := [0x05, 0xFF, 0xFF, 0xFF, 0xFF, 0xFF, 0xFF, 0xFF, 0xFF, 0x00, 0x51]

omit [Crypto] in
/-- **Eleven bytes stop the process.** The number of signatures is -1, which no vector can hold. -/
theorem negativeCountScript_aborts :
    ¬ ∀ (_ : Crypto) (script : Bytes) (ctx : Context) (limit : UInt64), Safe script ctx limit := by
  intro hclaim
  have habort : @execute sampleCrypto negativeCountScript (@Context.new sampleCrypto (.new [] []) [] 0 negativeCountScript)
      (.new defaultGasLimit) = .error (.abort "capacity overflow") := by decide +kernel
  exact (hclaim sampleCrypto negativeCountScript _ defaultGasLimit).1 _ habort

end QuantumVault
