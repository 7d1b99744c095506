import QuantumVault.Lib.Outcome
import QuantumVault.Proof.Script.Multisig

/-!
# Gas accounting

The meter splits the limit into what is consumed and what remains, at every step of a run. A successful run has consumed the price of every instruction, executed or not, and a surcharge for each key of every multi-signature check that was executed. Nothing else in the machine depends on the meter, so a run that does not stop for want of gas is the same under every higher limit.
-/

namespace QuantumVault

open Result

/-! ### The meter -/

namespace GasMeter

variable {gas gas' more : GasMeter} {amount : UInt64}

def Splits (limit : UInt64) (gas : GasMeter) : Prop := gas.consumed.toNat + gas.remaining.toNat = limit.toNat

theorem splits_new (limit : UInt64) : (new limit).Splits limit := Nat.zero_add _

theorem Splits.consume {limit : UInt64} (hsplit : gas.Splits limit) (h : gas.consume amount = some gas') :
    gas'.Splits limit ∧ gas'.consumed.toNat = gas.consumed.toNat + amount.toNat := by
  have hleft := remaining_of_consume h
  have hconsumed : gas'.consumed = gas.consumed + amount := by
    unfold GasMeter.consume at h
    split at h
    · cases h
      rfl
    · cases h
  have hlimit := limit.toNat_lt
  unfold Splits at hsplit ⊢
  rw [hconsumed, UInt64.toNat_add, Nat.mod_eq_of_lt (by omega)]
  omega

def More (extra : Nat) (gas more : GasMeter) : Prop :=
  more.consumed = gas.consumed ∧ more.remaining.toNat = gas.remaining.toNat + extra

theorem More.consume {extra : Nat} (hmore : gas.More extra more) (h : gas.consume amount = some gas') :
    ∃ more', more.consume amount = some more' ∧ gas'.More extra more' := by
  unfold GasMeter.consume at h
  split at h
  · rename_i hle
    cases h
    have hnat := UInt64.le_iff_toNat_le.mp hle
    have hle' : amount ≤ more.remaining := UInt64.le_iff_toNat_le.mpr (by rw [hmore.2]; omega)
    refine ⟨⟨more.remaining - amount, more.consumed + amount⟩, if_pos hle', congrArg (· + amount) hmore.1, ?_⟩
    show (more.remaining - amount).toNat = (gas.remaining - amount).toNat + extra
    rw [UInt64.toNat_sub_of_le _ _ hle, UInt64.toNat_sub_of_le _ _ hle', hmore.2]
    omega
  · cases h

end GasMeter

/-! ### The surcharge -/

/-- What a multi-signature check costs on top of its base price: 500 for each key that the top of the stack asks for. -/
def Machine.surcharge (m : Machine) (instr : Instruction) : Nat :=
  if instr.op = .checkMultiSigPqc ∧ m.executing then
    match m.stack with
    | .int n :: _ => 500 * n.toUInt64.toNat
    | _ => 0
  else 0

variable [Crypto] {ctx : Context} {m m' : Machine} {instr : Instruction} {limit : UInt64}

def surcharges (ctx : Context) : List Instruction → Machine → Nat
  | [], _ => 0
  | instr :: instrs, m => m.surcharge instr +
      match Machine.step ctx m instr with
      | .ok m' => surcharges ctx instrs m'
      | .error _ => 0

/-- After the base price no budget is left that could pay a surcharge which does not fit a word. -/
theorem evalCheckMultiSig_gas {stack stack' : Stack} {gas gas' : GasMeter} (hsplit : gas.Splits limit)
    (hspent : 0 < gas.consumed.toNat) (h : evalCheckMultiSig stack gas = .ok (stack', gas')) :
    gas'.Splits limit ∧ ∃ n rest, stack = .int n :: rest ∧
      gas'.consumed.toNat = gas.consumed.toNat + 500 * n.toUInt64.toNat := by
  obtain ⟨n, pks, k, sigs, msg, rest, rfl, -, -, hpaid, -⟩ := (Checked.of_ok h).operands
  obtain ⟨hsplit', hconsumed⟩ := hsplit.consume hpaid
  refine ⟨hsplit', n, _, rfl, ?_⟩
  have hlimit := limit.toNat_lt
  have hprice : multisigPerKeyCost.toNat = 500 := rfl
  have hleft := GasMeter.remaining_of_consume hpaid
  unfold GasMeter.Splits at hsplit
  rw [hconsumed]
  rw [Word.toNat_saturatingMul, hprice] at hleft ⊢
  omega

/-! ### One step -/

/-- **What a step does to the meter.** -/
theorem step_gas (hsplit : m.gas.Splits limit) (h : Machine.step ctx m instr = .ok m') :
    m'.gas.Splits limit ∧
      m'.gas.consumed.toNat = m.gas.consumed.toNat + (gasCost instr.op).toNat + m.surcharge instr := by
  unfold Machine.step at h
  obtain ⟨gas, hcharge, h⟩ := okOr_bind_eq_ok.mp h
  obtain ⟨hsplit', hconsumed⟩ := hsplit.consume hcharge
  have hnone : ∀ {stack flags}, instr.op ≠ .checkMultiSigPqc → m' = ⟨stack, flags, gas⟩ →
      m'.gas.Splits limit ∧
        m'.gas.consumed.toNat = m.gas.consumed.toNat + (gasCost instr.op).toNat + m.surcharge instr := by
    intro stack flags hop hm'
    subst hm'
    rw [Machine.surcharge, if_neg fun h => hop h.1]
    exact ⟨hsplit', hconsumed⟩
  dsimp only at h
  split at h
  · rename_i hop
    have hother : instr.op ≠ .checkMultiSigPqc := by rw [hop]; decide
    split at h
    · obtain ⟨⟨cond, rest⟩, -, h⟩ := bind_eq_ok.mp h
      exact hnone hother (pure_eq_ok.mp h).symm
    · exact hnone hother (pure_eq_ok.mp h).symm
  · rename_i hop
    have hother : instr.op ≠ .checkMultiSigPqc := by rw [hop]; decide
    split at h
    · cases h
    · exact hnone hother (pure_eq_ok.mp h).symm
  · rename_i hop
    have hother : instr.op ≠ .checkMultiSigPqc := by rw [hop]; decide
    split at h
    · cases h
    · exact hnone hother (pure_eq_ok.mp h).symm
  · rename_i hop
    split at h
    · rename_i hexec
      obtain ⟨⟨stack', gas'⟩, hcheck, h⟩ := bind_eq_ok.mp h
      cases pure_eq_ok.mp h
      have hpositive := one_le_gasCost instr.op
      obtain ⟨hfinal, n, rest, hstack, hkeys⟩ := evalCheckMultiSig_gas hsplit' (by omega) hcheck
      have hexec' : m.executing = true := hexec
      have htop : m.stack = .int n :: rest := hstack
      rw [Machine.surcharge, if_pos ⟨hop, hexec'⟩, htop]
      exact ⟨hfinal, hkeys.trans (by rw [hconsumed])⟩
    · rename_i hskip
      cases pure_eq_ok.mp h
      rw [Machine.surcharge, if_neg fun h => hskip h.2]
      exact ⟨hsplit', hconsumed⟩
  · rename_i hmulti
    split at h
    · obtain ⟨stack', -, h⟩ := bind_eq_ok.mp h
      exact hnone hmulti (pure_eq_ok.mp h).symm
    · exact hnone hmulti (pure_eq_ok.mp h).symm

/-- **The meter over a run.** -/
theorem run_gas {instrs : List Instruction} (hsplit : m.gas.Splits limit)
    (hrun : instrs.foldlM (Machine.step ctx) m = .ok m') :
    m'.gas.consumed.toNat = m.gas.consumed.toNat + gasTotal instrs + surcharges ctx instrs m := by
  induction instrs generalizing m with
  | nil =>
      cases pure_eq_ok.mp hrun
      rfl
  | cons instr instrs ih =>
      obtain ⟨mid, hstep, hrest⟩ := foldlM_cons_eq_ok.mp hrun
      obtain ⟨hsplit', hconsumed⟩ := step_gas hsplit hstep
      rw [ih hsplit' hrest, hconsumed, gasTotal_cons, surcharges, hstep]
      dsimp only
      omega

/-! ### A higher limit -/

def Machine.More (extra : Nat) (m more : Machine) : Prop :=
  more.stack = m.stack ∧ more.execStack = m.execStack ∧ m.gas.More extra more.gas

variable {extra : Nat} {more : Machine}

private theorem evalCheckMultiSig_extends {stack : Stack} {gas gas' : GasMeter} (hgas : gas.More extra gas') :
    Extends .outOfGas (fun r r' => r'.1 = r.1 ∧ r.2.More extra r'.2) (evalCheckMultiSig stack gas)
      (evalCheckMultiSig stack gas') := by
  unfold evalCheckMultiSig
  apply (extends_refl _).bind
  rintro ⟨nKeys, rest⟩ _ rfl
  apply (extends_okOr fun paid hpaid => hgas.consume hpaid).bind
  intro paid paid' hpaid
  apply (extends_refl _).bind
  rintro _ _ rfl
  apply (extends_refl _).bind
  rintro ⟨pks, rest₁⟩ _ rfl
  apply (extends_refl _).bind
  rintro ⟨mSigs, rest₂⟩ _ rfl
  apply (extends_refl _).bind
  rintro _ _ rfl
  apply (extends_refl _).bind
  rintro ⟨sigs, rest₃⟩ _ rfl
  apply (extends_refl _).bind
  rintro ⟨msg, rest₄⟩ _ rfl
  apply (extends_refl _).bind
  rintro stack' _ rfl
  exact extends_pure ⟨rfl, hpaid⟩

/-- **One step under a higher limit.** -/
theorem step_extends (hmore : m.More extra more) (instr : Instruction) :
    Extends .outOfGas (Machine.More extra) (Machine.step ctx m instr) (Machine.step ctx more instr) := by
  obtain ⟨_, _, gas⟩ := m
  obtain ⟨stack, flags, moreGas⟩ := more
  obtain ⟨rfl, rfl, hgas⟩ := hmore
  unfold Machine.step
  apply (extends_okOr fun paid hpaid => hgas.consume hpaid).bind
  intro paid paid' hpaid
  dsimp only
  have hflags : (Machine.mk stack flags paid').executing = (Machine.mk stack flags paid).executing := rfl
  rw [hflags]
  split
  · split
    · apply (extends_refl _).bind
      rintro ⟨cond, rest⟩ _ rfl
      exact extends_pure ⟨rfl, rfl, hpaid⟩
    · exact extends_pure ⟨rfl, rfl, hpaid⟩
  · split
    · exact extends_error _
    · exact extends_pure ⟨rfl, rfl, hpaid⟩
  · split
    · exact extends_error _
    · exact extends_pure ⟨rfl, rfl, hpaid⟩
  · split
    · apply (evalCheckMultiSig_extends hpaid).bind
      rintro ⟨stack', gas'⟩ ⟨_, more'⟩ ⟨rfl, hmore'⟩
      exact extends_pure ⟨rfl, rfl, hmore'⟩
    · exact extends_pure ⟨rfl, rfl, hpaid⟩
  · split
    · apply (extends_refl _).bind
      rintro stack' _ rfl
      exact extends_pure ⟨rfl, rfl, hpaid⟩
    · exact extends_pure ⟨rfl, rfl, hpaid⟩

private theorem execute_extends {script : Bytes} {limit' : UInt64} (hle : limit ≤ limit') :
    Extends .outOfGas Eq (execute script ctx (.new limit)) (execute script ctx (.new limit')) := by
  have hinit : (Machine.init (.new limit)).More (limit'.toNat - limit.toNat) (.init (.new limit')) := by
    refine ⟨rfl, rfl, rfl, ?_⟩
    have hnat := UInt64.le_iff_toNat_le.mp hle
    show limit'.toNat = limit.toNat + _
    omega
  unfold execute executeInstructions
  apply (extends_refl _).bind
  rintro instrs _ rfl
  apply (extends_foldlM (fun m more instr hmore => step_extends hmore instr) hinit instrs).bind
  rintro ⟨stack, flags, gas⟩ ⟨_, _, gas'⟩ ⟨rfl, rfl, hgas⟩
  apply (extends_refl _).bind
  rintro _ _ rfl
  exact extends_pure (by rw [hgas.1])

/-! ### Scripts -/

/-- **Gas accounting is exact and monotone.** -/
theorem execute_gas {script : Bytes} {instrs : List Instruction} (hdecode : decodeScript script = .ok instrs) :
    (∀ rest m, Passes (Machine.step ctx) instrs (.init (.new limit)) rest m →
        m.gas.consumed.toNat + m.gas.remaining.toNat = limit.toNat) ∧
      (∀ result, execute script ctx (.new limit) = .ok result →
        result.gasUsed.toNat = gasTotal instrs + surcharges ctx instrs (.init (.new limit))) ∧
      ∀ limit', limit ≤ limit' → execute script ctx (.new limit) ≠ .error .outOfGas →
        execute script ctx (.new limit') = execute script ctx (.new limit) := by
  refine ⟨?_, ?_, ?_⟩
  · intro rest m hpass
    exact hpass.invariant (fun m => m.gas.Splits limit) (fun s i s' _ hs hstep => (step_gas hs hstep).1)
      (GasMeter.splits_new limit)
  · intro result hresult
    obtain ⟨instrs', hdecode', hexec⟩ := execute_eq_ok.mp hresult
    cases hdecode.symm.trans hdecode'
    obtain ⟨m, hrun, -, rfl⟩ := executeInstructions_eq_ok.mp hexec
    have htotal := run_gas (GasMeter.splits_new limit) hrun
    rwa [show (Machine.init (.new limit)).gas.consumed.toNat = 0 from rfl, Nat.zero_add] at htotal
  · intro limit' hle hne
    exact (execute_extends hle).eq hne

/-- A check of one key, and a hash that is skipped. -/
def meteredScript : Bytes := [0x00, 0x00, 0x00, 0x01, 0x51, 0x00, 0x40, 0x52, 0x42]

def meteredContext : Context := @Context.new sampleCrypto (.new [] []) [] 0 meteredScript

omit [Crypto] in
theorem execute_gas_meteredScript : ∃ result instrs, @execute sampleCrypto meteredScript meteredContext (.new 3000) = .ok result ∧
    decodeScript meteredScript = .ok instrs ∧ gasTotal instrs = 2059 ∧ result.gasUsed.toNat = 2059 + 500 ∧
    @execute sampleCrypto meteredScript meteredContext (.new 9000) = .ok result := by
  let instrs : List Instruction := [.simple .op0, .simple .op0, .simple .op0, .simple .op1, .simple .checkMultiSigPqc,
    .simple .op0, .simple .opIf, .simple .hashSha3, .simple .endIf]
  have hdecode : decodeScript meteredScript = .ok instrs := by decide +kernel
  have hrun : @execute sampleCrypto meteredScript meteredContext (.new 3000) = .ok ⟨true, 2559, [.int 1]⟩ := by decide +kernel
  obtain ⟨-, hused, hmore⟩ := @execute_gas sampleCrypto meteredContext 3000 meteredScript instrs hdecode
  have htotal : gasTotal instrs = 2059 := by decide
  have hsurcharge : @surcharges sampleCrypto meteredContext instrs (.init (.new 3000)) = 500 := by decide +kernel
  refine ⟨_, instrs, hrun, hdecode, htotal, ?_, ?_⟩
  · rw [hused _ hrun, htotal, hsurcharge]
  · rw [hmore 9000 (by decide) (by rw [hrun]; intro h; cases h), hrun]

end QuantumVault
