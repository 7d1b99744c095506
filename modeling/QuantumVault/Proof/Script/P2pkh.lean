import QuantumVault.Proof.Script.Machine

/-!
# Who can spend a pay-to-public-key-hash output

The lock checks the hash of a public key and a signature over the transaction. A witness that is a script of its own cannot get around these checks: it contains no instruction that could end the run early or change the instructions after it, so the lock finds whatever the witness left on the stack and judges it. A witness whose last push runs past its own end is not such a script: the push swallows instructions of the lock.
-/

namespace QuantumVault

open Result

theorem isPlain_p2pkhInstructions (h : Hash256) : ∀ instr ∈ p2pkhInstructions h, instr.IsPlain := by
  have hlen : h.bytes.length ≤ 255 := by
    rw [h.length_eq]
    decide
  simp [p2pkhInstructions, Instruction.IsPlain, Instruction.simple, Instruction.pushBytes, hlen]

section

variable [Crypto]

/-- What a witness supplies to a lock: taken as a script of its own, it leaves the key on top of the signature with every conditional closed. -/
def Supplies (ctx : Context) (witness pk sig : Bytes) : Prop :=
  ∃ instrs m pkVal sigVal rest, decodeScript witness = .ok instrs ∧
    instrs.foldlM (Machine.step ctx) (.init (.new defaultGasLimit)) = .ok m ∧ m.execStack = [] ∧
    m.stack = pkVal :: sigVal :: rest ∧ pkVal.toCanonicalBytes = pk ∧ sigVal.toCanonicalBytes = sig

/-- **What the lock finds.** If the lock runs through on a stack and leaves a true value, the stack held a public key with the right hash over a signature of the transaction. -/
theorem eval_p2pkhInstructions {ctx : Context} {h : Hash256} {stack final : Stack}
    (hrun : (p2pkhInstructions h).foldlM (fun stack instr => evalOp ctx instr stack) stack = .ok final)
    (htrue : final.head?.any Value.isTruthy = true) :
    ∃ pk sig rest, stack = pk :: sig :: rest ∧ sha3_256 pk.toCanonicalBytes = h ∧
      checksigPqc pk.toCanonicalBytes sig.toCanonicalBytes ctx.sighash.bytes = true := by
  unfold p2pkhInstructions at hrun
  obtain ⟨s₁, hdup, hrun⟩ := foldlM_cons_eq_ok.mp hrun
  obtain ⟨s₂, hhash, hrun⟩ := foldlM_cons_eq_ok.mp hrun
  obtain ⟨s₃, hpush, hrun⟩ := foldlM_cons_eq_ok.mp hrun
  obtain ⟨s₄, heq, hrun⟩ := foldlM_cons_eq_ok.mp hrun
  obtain ⟨s₅, hverify, hrun⟩ := foldlM_cons_eq_ok.mp hrun
  obtain ⟨s₆, hsigHash, hrun⟩ := foldlM_cons_eq_ok.mp hrun
  obtain ⟨s₇, hrot, hrun⟩ := foldlM_cons_eq_ok.mp hrun
  obtain ⟨s₈, hrot', hrun⟩ := foldlM_cons_eq_ok.mp hrun
  obtain ⟨s₉, hcheck, hrun⟩ := foldlM_cons_eq_ok.mp hrun
  cases pure_eq_ok.mp hrun
  obtain ⟨pk, below, rfl, rfl⟩ := evalOp_dup hdup
  obtain ⟨pk', _, hpk', rfl⟩ := evalOp_hashSha3 hhash
  cases hpk'
  obtain rfl := evalOp_pushBytes hpush
  obtain ⟨_, _, _, hoperands, rfl⟩ := evalOp_eq heq
  cases hoperands
  obtain ⟨flag, hflag, hflagTrue⟩ := evalOp_verify hverify
  cases hflag
  obtain rfl := evalOp_sigHash hsigHash
  obtain ⟨_, _, sig, rest, hthree, rfl⟩ := evalOp_rot hrot
  cases hthree
  obtain ⟨_, _, _, _, hthree', rfl⟩ := evalOp_rot hrot'
  cases hthree'
  obtain ⟨_, _, _, _, hargs, rfl⟩ := evalOp_checkSigPqc hcheck
  cases hargs
  refine ⟨pk, sig, rest, rfl, ?_, by simpa [Value.toCanonicalBytes] using htrue⟩
  rw [Value.isTruthy_ofBool, decide_eq_true_iff, Value.bytes.injEq] at hflagTrue
  exact Hash256.ext hflagTrue

/-- **Spend authorization of the pay-to-public-key-hash lock.** When validation succeeds, the witness supplied a public key with the committed hash and a signature of the transaction under it exactly when the witness decodes on its own. -/
theorem p2pkhPqc_authorized_iff {h : Hash256} {witness : Bytes} {tx : Transaction} {resolved : List TxOutput}
    {slot : Slot} {result : ExecResult}
    (hvalid : validateScript (p2pkhPqc h) witness tx resolved slot = .ok result) (hsuccess : result.success = true) :
    (∃ pk sig, sha3_256 pk = h ∧ Supplies (.new tx resolved slot (p2pkhPqc h)) witness pk sig ∧
      checksigPqc pk sig tx.sighash.bytes = true) ↔ (decodeScript witness).isOk = true := by
  constructor
  · intro h'
    obtain ⟨pk, sig, _, ⟨instrs, _, _, _, _, hdecode, _⟩, _⟩ := h'
    exact isOk_iff.mpr ⟨instrs, hdecode⟩
  · intro hok
    obtain ⟨ws, hwitness⟩ := isOk_iff.mp hok
    obtain ⟨-, mid, m, hwitnessRun, hlockRun, hclosed, rfl⟩ :=
      (validateScript_eq_ok hwitness (decodeScript_p2pkhPqc h)).mp hvalid
    obtain ⟨hmid, heval⟩ := run_plain (isPlain_p2pkhInstructions h) hlockRun hclosed
    obtain ⟨pk, sig, rest, hstack, hhash, hcheck⟩ := eval_p2pkhInstructions heval hsuccess
    exact ⟨pk.toCanonicalBytes, sig.toCanonicalBytes, hhash,
      ⟨ws, mid, pk, sig, rest, hwitness, hwitnessRun, hmid, hstack, rfl, rfl⟩, hcheck⟩

end

/-! ### An honest spend -/

/-- Primitives for small examples: constant hashes, and every signature of the right length verifies. -/
@[reducible] def acceptingCrypto : Crypto := ⟨fun _ => .zero, fun _ => .zero, fun _ _ _ _ => true⟩

/-- A signature and a public key of the smallest parameter set, pushed in that order. -/
def honestWitness : Bytes :=
  encodeInstructions [.pushBytes (List.replicate 2420 0), .pushBytes (List.replicate 1312 0)]

theorem p2pkhPqc_authorized_honest :
    ∃ pk sig, @sha3_256 acceptingCrypto pk = .zero ∧
      @Supplies acceptingCrypto (@Context.new acceptingCrypto (.new [] []) [] 1 (p2pkhPqc .zero)) honestWitness pk sig ∧
      @checksigPqc acceptingCrypto pk sig (@Transaction.sighash acceptingCrypto (.new [] [])).bytes = true := by
  have hvalid : @validateScript acceptingCrypto (p2pkhPqc .zero) honestWitness (.new [] []) [] 1 =
      .ok ⟨true, 600, [.int 1]⟩ := by decide +kernel
  exact (@p2pkhPqc_authorized_iff acceptingCrypto _ _ _ _ _ _ hvalid rfl).mpr (by decide +kernel)

/-! ### A witness that swallows the lock -/

/-- Primitives for small examples: constant hashes, and no signature verifies. -/
@[reducible] def rejectingCrypto : Crypto := ⟨fun _ => .zero, fun _ => .zero, fun _ _ _ _ => false⟩

private theorem checksigPqc_rejectingCrypto (pk sig msg : Bytes) : @checksigPqc rejectingCrypto pk sig msg = false := by
  have hverify (level : DilithiumLevel) (pk sig : Bytes) :
      (@verifyPqc rejectingCrypto level pk msg sig == some true) = false := by
    unfold verifyPqc
    split
    · rfl
    · split <;> rfl
  unfold checksigPqc
  rw [List.any_eq_false]
  intro level _
  split
  · simp [hverify]
  · simp

/-- A one-byte push of 42 bytes, with the bytes left to come. -/
def swallowingWitness : Bytes := [0x02, 42]

/-- The lock is 42 bytes long, so the push takes all of it as data and the script ends with a true value: no key and no signature are involved. -/
theorem p2pkhPqc_spendable_without_signature :
    ¬ ∀ (_ : Crypto) (h : Hash256) (witness : Bytes) (tx : Transaction) (resolved : List TxOutput) (slot : Slot)
      (result : ExecResult), validateScript (p2pkhPqc h) witness tx resolved slot = .ok result →
        result.success = true →
        ∃ pk sig, sha3_256 pk = h ∧ checksigPqc pk sig tx.sighash.bytes = true := by
  intro hclaim
  let tx : Transaction := .new [⟨⟨.zero, 0⟩, swallowingWitness⟩] [.new 1 []]
  have hrun : @validateScript rejectingCrypto (p2pkhPqc .zero) swallowingWitness tx [] 1 =
      .ok ⟨true, 10, [.bytes (p2pkhPqc .zero)]⟩ := by decide +kernel
  obtain ⟨pk, sig, _, hcheck⟩ := hclaim rejectingCrypto .zero swallowingWitness tx [] 1 _ hrun rfl
  rw [checksigPqc_rejectingCrypto] at hcheck
  cases hcheck

end QuantumVault
