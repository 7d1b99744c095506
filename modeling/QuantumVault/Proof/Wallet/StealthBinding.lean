import QuantumVault.Proof.Script.Multisig
import QuantumVault.Proof.Wallet.Spend

/-!
# Who can spend a stealth output

The commitment of a stealth output is the hash of a secret joined to a key, and the witness supplies both. The lock judges the three topmost values of the witness and leaves the others alone. It joins the values as they are: a witness may name a shorter key, one of another parameter set, and a secret that takes in the bytes left over. With a secret of 32 bytes, or a committed key of the shortest parameter set, there is one way to split the joined bytes.
-/

namespace QuantumVault

open Result

/-! ### What the lock finds -/

private theorem Instruction.length_pushed_lt {instr : Instruction} (hconst : instr.op.isConstant = true)
    (hwell : instr.WellFormed) : instr.pushed.toCanonicalBytes.length < 2 ^ 32 := by
  obtain ⟨op, data⟩ := instr
  cases op <;> cases hconst
  case op0 | op1 | pushInt =>
    rw [Instruction.pushed, Value.toCanonicalBytes, length_toLittleEndian]
    decide
  case push1 | push2 | push4 =>
    refine hwell.2.trans_le ?_
    decide

private theorem length_lt_of_mem_witnessStack {witness : Bytes} {val : Value} (honly : PushOnly witness)
    (hval : val ∈ witnessStack witness) : val.toCanonicalBytes.length < 2 ^ 32 := by
  obtain ⟨ws, hdecode, hconst⟩ := honly
  rw [witnessStack_eq hdecode, List.mem_reverse] at hval
  obtain ⟨instr, hinstr, rfl⟩ := List.mem_map.mp hval
  exact instr.length_pushed_lt (hconst instr hinstr) ((decodeScript_inv hdecode).1 instr hinstr)

section

variable [Crypto] {h : Hash256} {witness : Bytes} {tx : Transaction} {resolved : List TxOutput} {slot : Slot}

/-- The three topmost values are a secret and a key that open the commitment, and a signature of the transaction under that key. -/
def OpensStealth (h : Hash256) (tx : Transaction) (stack : Stack) : Prop :=
  ∃ ss pk sig rest, stack = ss :: pk :: sig :: rest ∧
    sha3_256 (Templates.stealthKdfTag ++ ss.toCanonicalBytes ++ pk.toCanonicalBytes) = h ∧
    checksigPqc pk.toCanonicalBytes sig.toCanonicalBytes tx.sighash.bytes = true

private theorem exists_of_stealthP2pkh {ctx : Context} {stack final : Stack}
    (hrun : evalAll ctx (stealthP2pkhInstructions h) stack = .ok final) :
    ∃ ss pk sig rest, stack = ss :: pk :: sig :: rest := by
  obtain _ | ⟨ss, _ | ⟨pk, _ | ⟨sig, rest⟩⟩⟩ := stack
  · cases hrun
  · cases hrun
  · -- the commitment can be checked, but there is no signature to rotate up
    simp only [stealthP2pkhInstructions, evalAll_over, evalAll_cat, evalAll_swap, evalAll_hashSha3, evalAll_pushBytes,
      evalAll_eq, evalAll_verify_ofBool, evalAll_sigHash] at hrun
    obtain ⟨-, -, -, -, -, -, -, -, -, -, -, -, hrun⟩ := hrun
    cases hrun
  · exact ⟨ss, pk, sig, rest, rfl⟩

/-- **What a witness of constants must supply.** The lock accepts it exactly if the script is not too long, one cell of the stack is free, and the three topmost values open the commitment and sign. -/
theorem accepted_stealthP2pkh_pushOnly_iff (honly : PushOnly witness) :
    Accepted (stealthP2pkh h) witness tx resolved slot ↔ witness.length + 70 ≤ OpCode.maxScriptSize ∧
      (witnessStack witness).length < 1024 ∧ OpensStealth h tx (witnessStack witness) := by
  have hshort {val : Value} (hval : val ∈ witnessStack witness) := length_lt_of_mem_witnessStack honly hval
  obtain ⟨ws, hdecode, hconst⟩ := honly
  have hwell := (decodeScript_inv hdecode).1
  have hcount : (witnessStack witness).length = ws.length := by
    rw [witnessStack_eq hdecode, List.length_reverse, List.length_map]
  have hplain : ∀ instr ∈ ws ++ stealthP2pkhInstructions h, instr.IsPlain := by
    rw [List.forall_mem_append]
    exact ⟨fun instr hinstr => isPlain_of_isConstant (hconst instr hinstr), isPlain_stealthP2pkhInstructions h⟩
  have hsize {ss pk : Value} {below : Stack} (hstack : witnessStack witness = ss :: pk :: below) :
      23 + (ss.toCanonicalBytes.length + pk.toCanonicalBytes.length) ≤ maxVecBytes := by
    rw [hstack] at hshort
    have hss := hshort (List.mem_cons_self ..)
    have hpk := hshort (List.mem_cons_of_mem ss (List.mem_cons_self ..))
    rw [maxVecBytes]
    omega
  rw [accepted_iff hdecode (decodeScript_stealthP2pkh h) hplain, List.length_append, length_stealthP2pkh]
  refine and_congr_right fun _ => ?_
  simp only [evalAll_witness hdecode hconst hwell, and_assoc, exists_and_left]
  refine ⟨fun haccepts => ?_, fun hopens => ?_⟩
  · obtain ⟨-, -, final, hrun, hsuccess⟩ := haccepts
    obtain ⟨ss, pk, sig, rest, hstack⟩ := exists_of_stealthP2pkh hrun
    rw [hstack] at hrun
    obtain ⟨hroom, hhash, hcheck⟩ := (evalAll_stealthP2pkhInstructions_iff (hsize hstack)).mp ⟨final, hrun, hsuccess⟩
    rw [hstack]
    exact ⟨hroom, ss, pk, sig, rest, rfl, hhash, hcheck⟩
  · obtain ⟨hroom, ss, pk, sig, rest, hstack, hhash, hcheck⟩ := hopens
    refine ⟨?_, by omega, ?_⟩
    · have hpushes := gasTotal_le fun instr hinstr => gasCost_le_of_isConstant (hconst instr hinstr)
      have hlock := gasTotal_le (gasCost_stealthP2pkhInstructions h)
      have hlength : (stealthP2pkhInstructions h).length = 13 := rfl
      rw [gasTotal_append]
      omega
    · rw [hstack] at hroom ⊢
      exact (evalAll_stealthP2pkhInstructions_iff (hsize hstack)).mpr ⟨hroom, hhash, hcheck⟩

/-! ### Where the secret ends -/

omit [Crypto] in
/-- Two keys of known parameter sets at the end of the same bytes, one of them after 32 bytes: they are one key if the other also stands after 32 bytes, or if the committed key is of the shortest kind. -/
theorem eq_of_joined_eq {ss ss₀ pk pk₀ : Bytes} {level level₀ : DilithiumLevel}
    (hjoined : ss ++ pk = ss₀ ++ pk₀) (hss₀ : ss₀.length = 32) (hpk : pk.length = level.publicKeyBytes)
    (hpk₀ : pk₀.length = level₀.publicKeyBytes) (hends : level₀ = .level2 ∨ ss.length = 32) :
    ss = ss₀ ∧ pk = pk₀ := by
  refine List.append_inj hjoined ?_
  have hlength := congrArg List.length hjoined
  rw [List.length_append, List.length_append, hss₀, hpk, hpk₀] at hlength
  rw [hss₀]
  rcases hends with rfl | hss
  · -- a longer key would leave the secret a negative length
    cases level <;> simp only [DilithiumLevel.publicKeyBytes] at hlength <;> omega
  · exact hss

/-- **A stealth output and its spends.** A witness of constants is accepted exactly if the script has at most 16384 bytes, one of the 1024 cells is free, and the three topmost values open the commitment and sign. If the commitment is that of a secret and a key and nothing else hashes to it, then an accepted witness supplies the same joined bytes, and it supplies this secret and this key if its secret has 32 bytes or the committed key is of the shortest kind. -/
theorem stealthP2pkh_binds (honly : PushOnly witness) :
    (Accepted (stealthP2pkh h) witness tx resolved slot ↔ witness.length + 70 ≤ OpCode.maxScriptSize ∧
      (witnessStack witness).length < 1024 ∧ OpensStealth h tx (witnessStack witness)) ∧
    ∀ (ss₀ : Hash256) (pk₀ : Bytes) (level₀ : DilithiumLevel), pk₀.length = level₀.publicKeyBytes →
      h = Stealth.computeOnetimePkHash ss₀ pk₀ →
      (∀ input, sha3_256 input = h → input = Stealth.stealthKdfTag ++ ss₀.bytes ++ pk₀) →
      Accepted (stealthP2pkh h) witness tx resolved slot →
      ∃ ss pk sig rest, witnessStack witness = ss :: pk :: sig :: rest ∧
        ss.toCanonicalBytes ++ pk.toCanonicalBytes = ss₀.bytes ++ pk₀ ∧
        (level₀ = .level2 ∨ ss.toCanonicalBytes.length = 32 →
          ss.toCanonicalBytes = ss₀.bytes ∧ pk.toCanonicalBytes = pk₀) := by
  refine ⟨accepted_stealthP2pkh_pushOnly_iff honly, ?_⟩
  intro ss₀ pk₀ level₀ hpk₀ _ hcollision haccepted
  obtain ⟨-, -, ss, pk, sig, rest, hstack, hhash, hcheck⟩ := (accepted_stealthP2pkh_pushOnly_iff honly).mp haccepted
  have hinput := hcollision _ hhash
  rw [List.append_assoc, List.append_assoc] at hinput
  have hjoined := List.append_cancel_left hinput
  obtain ⟨level, hpk, -⟩ := exists_level_of_checksigPqc hcheck
  exact ⟨ss, pk, sig, rest, hstack, hjoined, eq_of_joined_eq hjoined ss₀.length_eq hpk hpk₀⟩

end

/-! ### Another split of the same bytes -/

/-- Primitives under which one input alone hashes to zero, and every signature of the right length verifies. -/
@[reducible] def openingCrypto (input : Bytes) : Crypto :=
  ⟨fun bytes => if bytes = input then .zero else sampleDigest bytes, sampleDigest, fun _ _ _ _ => true⟩

theorem eq_of_openingCrypto {input bytes : Bytes} (h : @sha3_256 (openingCrypto input) bytes = .zero) : bytes = input :=
  eq_of_sampleDigest_zero h

def zeros (count : Nat) : Bytes := List.replicate count 0

theorem length_zeros (count : Nat) : (zeros count).length = count := List.length_replicate

theorem zeros_ne_nil {count : Nat} (h : 0 < count) : zeros count ≠ [] :=
  List.ne_nil_of_length_pos ((length_zeros count).symm ▸ h)

/-- A secret and a key of the middle parameter set are committed to by the zero digest, and by no other. -/
@[reducible] def stealthCrypto : Crypto := openingCrypto (Stealth.stealthKdfTag ++ Hash256.zero.bytes ++ zeros 1952)

theorem computeOnetimePkHash_stealthCrypto : .zero = @Stealth.computeOnetimePkHash stealthCrypto .zero (zeros 1952) := by
  unfold Stealth.computeOnetimePkHash
  exact (if_pos rfl).symm

def recipientWitness : Bytes := pushScript [zeros 3309, zeros 1952, Hash256.zero.bytes]

/-- The same over a value that nobody asks for and that leaves no room for the lock. -/
def longWitness : Bytes := pushScript [zeros 11064, zeros 3309, zeros 1952, Hash256.zero.bytes]

/-- The last 1312 bytes of the key are taken for a key of the smallest parameter set, the 640 before them for a part of the secret. -/
def splitWitness : Bytes := pushScript [zeros 2420, zeros 1312, zeros 672]

/-- **The lock accepts a key that was not committed to**, and it refuses what opens the commitment if the script gets too long. -/
theorem stealthP2pkh_not_bound :
    (¬ ∀ (_ : Crypto) (h : Hash256) (witness : Bytes) (tx : Transaction) (resolved : List TxOutput) (slot : Slot),
      PushOnly witness →
      (Accepted (stealthP2pkh h) witness tx resolved slot ↔ OpensStealth h tx (witnessStack witness))) ∧
    ¬ ∀ (_ : Crypto) (h : Hash256) (witness : Bytes) (tx : Transaction) (resolved : List TxOutput) (slot : Slot)
      (ss₀ : Hash256) (pk₀ : Bytes) (level₀ : DilithiumLevel), PushOnly witness → pk₀.length = level₀.publicKeyBytes →
      h = Stealth.computeOnetimePkHash ss₀ pk₀ →
      (∀ input, sha3_256 input = h → input = Stealth.stealthKdfTag ++ ss₀.bytes ++ pk₀) →
      Accepted (stealthP2pkh h) witness tx resolved slot →
      ∃ ss pk sig rest, witnessStack witness = ss :: pk :: sig :: rest ∧ ss.toCanonicalBytes = ss₀.bytes ∧
        pk.toCanonicalBytes = pk₀ := by
  refine ⟨fun hclaim => ?_, fun hclaim => ?_⟩
  · have hne : ∀ item ∈ [zeros 11064, zeros 3309, zeros 1952, Hash256.zero.bytes], item ≠ [] := by
      simp [zeros_ne_nil, Hash256.bytes_ne_nil]
    have hsize : ([zeros 11064, zeros 3309, zeros 1952, Hash256.zero.bytes].map List.length).sum +
        5 * [zeros 11064, zeros 3309, zeros 1952, Hash256.zero.bytes].length ≤ OpCode.maxScriptSize := by
      simp [length_zeros, Hash256.length_eq, OpCode.maxScriptSize]
    have honly : PushOnly longWitness := pushOnly_pushScript hne hsize
    have hopens : @OpensStealth stealthCrypto .zero (.new [] []) (witnessStack longWitness) := by
      rw [longWitness, witnessStack_pushScript hne hsize]
      exact ⟨_, _, _, _, rfl, if_pos rfl, by decide +kernel⟩
    have haccepted := (hclaim stealthCrypto .zero longWitness (.new [] []) [] 1 honly).mpr hopens
    obtain ⟨hroom, -⟩ := (@accepted_stealthP2pkh_pushOnly_iff stealthCrypto _ _ _ _ _ honly).mp haccepted
    have hlong := sum_length_le_pushScript [zeros 11064, zeros 3309, zeros 1952, Hash256.zero.bytes]
    simp only [List.map_cons, List.map_nil, List.sum_cons, List.sum_nil, length_zeros, Hash256.length_eq] at hlong
    rw [longWitness, OpCode.maxScriptSize] at hroom
    omega
  · have hne : ∀ item ∈ [zeros 2420, zeros 1312, zeros 672], item ≠ [] := by simp [zeros_ne_nil]
    have hsize : ([zeros 2420, zeros 1312, zeros 672].map List.length).sum +
        5 * [zeros 2420, zeros 1312, zeros 672].length ≤ OpCode.maxScriptSize := by
      simp [length_zeros, OpCode.maxScriptSize]
    have honly : PushOnly splitWitness := pushOnly_pushScript hne hsize
    have hstack : witnessStack splitWitness = [.bytes (zeros 672), .bytes (zeros 1312), .bytes (zeros 2420)] :=
      witnessStack_pushScript hne hsize
    have haccepted : @Accepted stealthCrypto (stealthP2pkh .zero) splitWitness (.new [] []) [] 1 := by
      refine (@accepted_stealthP2pkh_iff stealthCrypto _ _ _ _ _ _ _ ?_ ?_ ?_ ?_).mpr ⟨if_pos ?_, ?_⟩
      · exact zeros_ne_nil (by decide)
      · exact zeros_ne_nil (by decide)
      · exact zeros_ne_nil (by decide)
      · simp only [length_zeros]
        decide
      · decide +kernel
      · decide +kernel
    obtain ⟨ss, pk, sig, rest, hcells, hss, -⟩ := hclaim stealthCrypto .zero splitWitness (.new [] []) [] 1 .zero
      (zeros 1952) .level3 honly (length_zeros 1952) computeOnetimePkHash_stealthCrypto
      (fun _ => eq_of_openingCrypto) haccepted
    cases hstack.symm.trans hcells
    have hlength := congrArg List.length hss
    rw [Value.toCanonicalBytes_bytes, length_zeros, Hash256.length_eq] at hlength
    cases hlength

theorem stealthP2pkh_binds_recipient :
    @Accepted stealthCrypto (stealthP2pkh .zero) recipientWitness (.new [] []) [] 1 ∧
      ∃ ss pk sig rest, witnessStack recipientWitness = ss :: pk :: sig :: rest ∧
        ss.toCanonicalBytes = Hash256.zero.bytes ∧ pk.toCanonicalBytes = zeros 1952 := by
  have hne : ∀ item ∈ [zeros 3309, zeros 1952, Hash256.zero.bytes], item ≠ [] := by
    simp [zeros_ne_nil, Hash256.bytes_ne_nil]
  have hsize : ([zeros 3309, zeros 1952, Hash256.zero.bytes].map List.length).sum +
      5 * [zeros 3309, zeros 1952, Hash256.zero.bytes].length + 70 ≤ OpCode.maxScriptSize := by
    simp [length_zeros, Hash256.length_eq, OpCode.maxScriptSize]
  have hfits := (Nat.le_add_right _ 70).trans hsize
  have honly : PushOnly recipientWitness := pushOnly_pushScript hne hfits
  have hstack : witnessStack recipientWitness =
      [.bytes Hash256.zero.bytes, .bytes (zeros 1952), .bytes (zeros 3309)] := witnessStack_pushScript hne hfits
  have hroom : recipientWitness.length + 70 ≤ OpCode.maxScriptSize :=
    (Nat.add_le_add_right (length_pushScript_le _) 70).trans hsize
  obtain ⟨hiff, hbinds⟩ := @stealthP2pkh_binds stealthCrypto .zero recipientWitness (.new [] []) [] 1 honly
  have haccepted := hiff.mpr ⟨hroom, hstack ▸ by decide, _, _, _, _, hstack, if_pos rfl, by decide +kernel⟩
  obtain ⟨ss, pk, sig, rest, hcells, -, hends⟩ :=
    hbinds .zero (zeros 1952) .level3 (length_zeros 1952) computeOnetimePkHash_stealthCrypto
      (fun _ => eq_of_openingCrypto) haccepted
  have hss : ss.toCanonicalBytes.length = 32 := by
    cases hstack.symm.trans hcells
    exact Hash256.length_eq _
  exact ⟨haccepted, ss, pk, sig, rest, hcells, hends (.inr hss)⟩

end QuantumVault
