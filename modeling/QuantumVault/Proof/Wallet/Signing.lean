import QuantumVault.Proof.Consensus.HeaderSignature
import QuantumVault.Proof.Privacy.Stealth
import QuantumVault.Proof.Wallet.Spend
import QuantumVault.Wallet.TxBuilder

/-!
# Transactions signed by the wallet

Signing an input changes its witness and nothing else, and the message of every signature is the transaction without its witnesses. All inputs are therefore signed over the same message, in whatever order and however often, and what an input ends up with is the witness of some owner of the output it spends.
-/

namespace QuantumVault

open Result HybridKem

/-- Correctness of the signature library: its keys and signatures have the lengths of their level, and it verifies what it signed. -/
structure SigningCorrect [Crypto] [Signing] : Prop where
  length_publicKey : ∀ level seed, (mlDsaKeyGen level seed).1.length = level.publicKeyBytes
  length_secretKey : ∀ level seed, (mlDsaKeyGen level seed).2.length = level.secretKeyBytes
  length_signature : ∀ level secretKey message, (mlDsaSign level secretKey message).length = level.signatureBytes
  verify : ∀ level seed message, mlDsaVerify level (mlDsaKeyGen level seed).1 message
    (mlDsaSign level (mlDsaKeyGen level seed).2 message) = true

/-! ### Keys for an output -/

inductive SpendKey where
  | plain (level : DilithiumLevel) (kp : PqcKeyPair)
  | stealth (level : DilithiumLevel) (spendKp : PqcKeyPair) (sharedSecret : Hash256)

namespace SpendKey

def level : SpendKey → DilithiumLevel
  | plain level _ => level
  | stealth level _ _ => level

def kp : SpendKey → PqcKeyPair
  | plain _ kp => kp
  | stealth _ spendKp _ => spendKp

/-- What the witness pushes, given the signature. -/
def items (key : SpendKey) (signature : Bytes) : List Bytes :=
  match key with
  | plain _ kp => [signature, kp.publicKey]
  | stealth _ spendKp sharedSecret => [signature, spendKp.publicKey, sharedSecret.bytes]

/-- The witness for a message. -/
def witness [Signing] (key : SpendKey) (message : Hash256) : Bytes :=
  pushScript (key.items (mlDsaSign key.level key.kp.secretKey message.bytes))

end SpendKey

variable [Crypto] [Signing]

def TxBuilder.sign (builder : TxBuilder) (inputIdx : Nat) : SpendKey → Except WalletError TxBuilder
  | .plain level kp => builder.signPlainInput inputIdx level kp.secretKey kp.publicKey
  | .stealth level spendKp sharedSecret =>
      builder.signStealthInput inputIdx level spendKp.secretKey spendKp.publicKey sharedSecret

def TxBuilder.signAll (builder : TxBuilder) (calls : List (Nat × SpendKey)) : Except WalletError TxBuilder :=
  calls.foldlM (fun builder call => builder.sign call.1 call.2) builder

/-- An output and the key of its owner: a generated key pair for an output locked to the hash of the key, and for an output that was added for a stealth address, the spend keys behind the address with the secret that a scan of the output recovers. -/
inductive SpendKey.Owns [HybridKem] : SpendKey → TxOutput → Prop
  | plain {level : DilithiumLevel} {seed : Hash256} {kp : PqcKeyPair} {output : TxOutput}
      (generated : fromSeedPqc level seed = some kp)
      (locked : output.lockingScript = p2pkhPqc (sha3_256 kp.publicKey)) : Owns (.plain level kp) output
  | stealth {kyberLevel : KyberLevel} {dilithiumLevel : DilithiumLevel} {viewEntropy entropy : KemEntropy}
      {spendSeed shown ss : Hash256} {keys : StealthKeys} {funding funded : TxBuilder} {value : Amount}
      {output : TxOutput} {info : StealthInfo} {found : ScanResult}
      (generated : StealthKeys.generate kyberLevel dilithiumLevel viewEntropy spendSeed = some keys)
      (added : funding.addStealthOutput value keys.address entropy = .ok (funded, ss))
      (last : funded.outputs = funding.outputs ++ [output]) (carries : output.stealthInfo = some info)
      (scanned : Stealth.scanOutput keys ⟨info.ephemeralPubkey, info.kyberLevel, info.viewTag, shown⟩ = .ok (some found)) :
      Owns (.stealth keys.spendLevel keys.spendKp found.sharedSecret) output

/-! ### Honest signatures -/

variable {level : DilithiumLevel} {seed : Hash256} {kp : PqcKeyPair}

omit [Crypto] in
theorem fromSeedPqc_eq_some (h : fromSeedPqc level seed = some kp) :
    kp.publicKey = (mlDsaKeyGen level seed).1 ∧ kp.secretKey = (mlDsaKeyGen level seed).2 := by
  unfold fromSeedPqc at h
  simp only [Option.bind_eq_bind, Option.bind_eq_some_iff] at h
  obtain ⟨publicKey, hpk, secretKey, hsk, hresult⟩ := h
  cases hresult
  refine ⟨(PqcPublicKey.fromBytes_eq_some hpk).2, ?_⟩
  unfold PqcSecretKey.fromBytes at hsk
  split at hsk
  · cases hsk
  · exact (Option.some.inj hsk).symm

theorem exists_fromSeedPqc (hsigning : SigningCorrect) (level : DilithiumLevel) (seed : Hash256) :
    ∃ kp, fromSeedPqc level seed = some kp :=
  ⟨_, Option.bind_eq_some_iff.mpr ⟨_, if_neg (not_not.mpr (hsigning.length_publicKey level seed)),
    Option.bind_eq_some_iff.mpr ⟨_, if_neg (not_not.mpr (hsigning.length_secretKey level seed)), rfl⟩⟩⟩

theorem fromBytes_signature (hsigning : SigningCorrect) (level : DilithiumLevel) (secretKey message : Bytes) :
    PqcSignature.fromBytes level (mlDsaSign level secretKey message) = some (mlDsaSign level secretKey message) := by
  have hlen := hsigning.length_signature level secretKey message
  apply if_neg
  rw [List.isEmpty_iff_length_eq_zero, hlen]
  cases level <;> decide

private theorem signPqcChecked_of_generated (hsigning : SigningCorrect) (hkp : fromSeedPqc level seed = some kp)
    (message : Bytes) :
    signPqcChecked level kp.secretKey message = .ok (mlDsaSign level kp.secretKey message) := by
  have hlen : kp.secretKey.length = level.secretKeyBytes := by
    rw [(fromSeedPqc_eq_some hkp).2]
    exact hsigning.length_secretKey level seed
  refine require_bind_eq_ok.mpr ⟨hlen, ?_⟩
  rw [signPqc, if_neg (not_not.mpr hlen), fromBytes_signature hsigning]
  rfl

theorem verifyPqc_sign (hsigning : SigningCorrect) (level : DilithiumLevel) (seed : Hash256) (message : Bytes) :
    verifyPqc level (mlDsaKeyGen level seed).1 message (mlDsaSign level (mlDsaKeyGen level seed).2 message) = some true := by
  rw [verifyPqc, if_neg (not_not.mpr (hsigning.length_publicKey level seed)),
    if_neg (not_not.mpr (hsigning.length_signature level _ message)), hsigning.verify]

/-- The check of the script machine tries every level, and at the level of the key it finds the signature valid. -/
theorem checksigPqc_of_generated (hsigning : SigningCorrect) (hkp : fromSeedPqc level seed = some kp) (message : Bytes) :
    checksigPqc kp.publicKey (mlDsaSign level kp.secretKey message) message = true := by
  obtain ⟨hpk, hsk⟩ := fromSeedPqc_eq_some hkp
  have hpkLen : kp.publicKey.length = level.publicKeyBytes := hpk ▸ hsigning.length_publicKey level seed
  have hlevel : level ∈ [DilithiumLevel.level3, .level2, .level5] := by cases level <;> decide
  refine List.any_eq_true.mpr ⟨level, hlevel, ?_⟩
  have hverified : verifyPqc level kp.publicKey message (mlDsaSign level kp.secretKey message) = some true := by
    rw [hpk, hsk]
    exact verifyPqc_sign hsigning level seed message
  rw [PqcPublicKey.fromBytes, if_neg (not_not.mpr hpkLen), fromBytes_signature hsigning]
  exact beq_iff_eq.mpr hverified

/-! ### Outputs for a stealth address -/

section Stealth

variable [HybridKem] {kyberLevel : KyberLevel} {viewEntropy entropy : KemEntropy} {spendSeed ss : Hash256}
  {keys : StealthKeys} {value : Amount}

omit [Signing] in
theorem TxBuilder.addStealthOutput_eq_ok {funding funded : TxBuilder} {recipient : StealthAddress} :
    funding.addStealthOutput value recipient entropy = .ok (funded, ss) ↔
      ∃ made, Stealth.createStealthOutput recipient entropy = .ok (made, ss) ∧
        funded = funding.addOutput ((TxOutput.new value (stealthP2pkh made.onetimePkHash)).withStealth
          ⟨made.kemCiphertext, made.kyberLevel, made.viewTag⟩) := by
  unfold addStealthOutput
  simp only [bind_eq_ok, mapError_eq_ok, Prod.exists, pure_eq_ok, Prod.mk.injEq]
  constructor
  · intro h
    obtain ⟨made, ss', hmade, rfl, rfl⟩ := h
    exact ⟨made, hmade, rfl⟩
  · intro h
    obtain ⟨made, hmade, rfl⟩ := h
    exact ⟨made, ss, hmade, rfl, rfl⟩

/-- The output that pays a recipient is found by the recipient: the scan reports the sender's secret and the commitment that the lock embeds. -/
theorem TxBuilder.addStealthOutput_found (hkem : KemCorrect)
    (hkeys : StealthKeys.generate kyberLevel level viewEntropy spendSeed = some keys) (funding : TxBuilder)
    (value : Amount) (entropy : KemEntropy) :
    ∃ funded ss output info, funding.addStealthOutput value keys.address entropy = .ok (funded, ss) ∧
      funded.outputs = funding.outputs ++ [output] ∧ output.value = value ∧ output.stealthInfo = some info ∧
      output.lockingScript = stealthP2pkh (Stealth.computeOnetimePkHash ss keys.spendKp.publicKey) ∧
      ∀ shown, Stealth.scanOutput keys ⟨info.ephemeralPubkey, info.kyberLevel, info.viewTag, shown⟩ =
        .ok (some ⟨ss, Stealth.computeOnetimePkHash ss keys.spendKp.publicKey⟩) := by
  obtain ⟨made, ss, hmade, hcommit, hscan⟩ := Stealth.scanOutput_createStealthOutput hkem hkeys entropy
  refine ⟨_, ss, _, _, addStealthOutput_eq_ok.mpr ⟨made, hmade, rfl⟩, rfl, rfl, rfl, congrArg stealthP2pkh hcommit, ?_⟩
  rw [← hcommit]
  exact hscan

end Stealth

/-! ### The witness of an owner -/

variable [HybridKem] {key : SpendKey} {output : TxOutput}

theorem SpendKey.Owns.generated (h : key.Owns output) : ∃ seed, fromSeedPqc key.level seed = some key.kp := by
  cases h with
  | plain generated => exact ⟨_, generated⟩
  | stealth generated => exact ⟨_, (StealthKeys.generate_eq_some generated).2⟩

/-- **The owner's witness opens the lock**, at every slot and whatever the other inputs are. -/
theorem SpendKey.Owns.accepted (hsigning : SigningCorrect) (hkem : KemCorrect) (h : key.Owns output) (tx : Transaction)
    (resolved : List TxOutput) (slot : Slot) :
    Accepted output.lockingScript (key.witness tx.sighash) tx resolved slot := by
  obtain ⟨seed, hkp⟩ := h.generated
  have hcheck := checksigPqc_of_generated hsigning hkp tx.sighash.bytes
  have hsigLen := hsigning.length_signature key.level key.kp.secretKey tx.sighash.bytes
  have hpkLen : key.kp.publicKey.length = key.level.publicKeyBytes := by
    rw [(fromSeedPqc_eq_some hkp).1]
    exact hsigning.length_publicKey key.level seed
  have hsig : mlDsaSign key.level key.kp.secretKey tx.sighash.bytes ≠ [] := by
    apply List.ne_nil_of_length_pos
    rw [hsigLen]
    cases key.level <;> decide
  have hpk : key.kp.publicKey ≠ [] := by
    apply List.ne_nil_of_length_pos
    rw [hpkLen]
    cases key.level <;> decide
  have hsize : (mlDsaSign key.level key.kp.secretKey tx.sighash.bytes).length + key.kp.publicKey.length ≤ 16000 := by
    rw [hsigLen, hpkLen]
    cases key.level <;> decide
  cases h with
  | plain generated locked =>
      rw [locked]
      exact (accepted_p2pkhPqc_iff hsig hpk hsize).mpr ⟨rfl, hcheck⟩
  | @stealth _ _ _ entropy _ shown _ _ funding _ value _ _ _ generated added last carries scanned =>
      obtain ⟨funded, ss, made, info, hadded, hlast, -, hcarries, hlock, hfound⟩ :=
        TxBuilder.addStealthOutput_found hkem generated funding value entropy
      cases hadded.symm.trans added
      obtain rfl : made = output := List.singleton_inj.mp (List.append_cancel_left (hlast.symm.trans last))
      cases hcarries.symm.trans carries
      cases (hfound shown).symm.trans scanned
      rw [hlock]
      refine (accepted_stealthP2pkh_iff hsig hpk (Hash256.bytes_ne_nil _) ?_).mpr ⟨rfl, hcheck⟩
      rw [Hash256.length_eq]
      omega

/-! ### Signing one input -/

namespace TxBuilder

variable {builder builder' signed : TxBuilder} {tx : Transaction} {spent : List TxOutput} {message : Hash256}

/-- The two builders differ at most in the witnesses of the inputs. -/
structure SameBody (builder builder' : TxBuilder) : Prop where
  prevOutputs : builder'.inputs.map TxInput.prevOutput = builder.inputs.map TxInput.prevOutput
  outputs : builder'.outputs = builder.outputs
  validity : builder'.validity = builder.validity

/-- An input carries the witness of an owner of the output it spends. -/
def Signed (spent : List TxOutput) (message : Hash256) (builder : TxBuilder) (i : Nat) : Prop :=
  ∃ input output key, builder.inputs[i]? = some input ∧ spent[i]? = some output ∧ SpendKey.Owns key output ∧
    input.witness = key.witness message

omit [Crypto] [Signing] [HybridKem] in
theorem buildUnsigned_eq_ok : builder.buildUnsigned = .ok tx ↔ (builder.inputs ≠ [] ∧ builder.outputs ≠ []) ∧
    { Transaction.new builder.inputs builder.outputs with validityInterval := builder.validity } = tx :=
  require_bind_eq_ok.trans (and_congr_right fun _ => pure_eq_ok)

omit [Crypto] [Signing] [HybridKem] in
theorem SameBody.refl (builder : TxBuilder) : SameBody builder builder := ⟨rfl, rfl, rfl⟩

omit [Crypto] [Signing] [HybridKem] in
theorem SameBody.trans (h : SameBody builder builder') (h' : SameBody builder' signed) : SameBody builder signed :=
  ⟨h'.prevOutputs.trans h.prevOutputs, h'.outputs.trans h.outputs, h'.validity.trans h.validity⟩

omit [Crypto] [Signing] [HybridKem] in
theorem SameBody.length_eq (h : SameBody builder builder') : builder'.inputs.length = builder.inputs.length := by
  rw [← List.length_map TxInput.prevOutput, h.prevOutputs, List.length_map]

omit [Crypto] [Signing] [HybridKem] in
theorem SameBody.buildUnsigned (h : SameBody builder builder') (hbuild : builder.buildUnsigned = .ok tx) :
    ∃ tx', builder'.buildUnsigned = .ok tx' ∧ tx'.spends = tx.spends ∧ tx'.bare = tx.bare := by
  obtain ⟨⟨hinputs, houtputs⟩, rfl⟩ := buildUnsigned_eq_ok.mp hbuild
  have hinputs' : builder'.inputs ≠ [] := by
    rw [← List.length_pos_iff, h.length_eq]
    exact List.length_pos_iff.mpr hinputs
  refine ⟨_, buildUnsigned_eq_ok.mpr ⟨⟨hinputs', h.outputs ▸ houtputs⟩, rfl⟩, h.prevOutputs, ?_⟩
  have hcleared : ∀ inputs : List TxInput, (inputs.map fun input => { input with witness := [] }) =
      (inputs.map TxInput.prevOutput).map fun prevOutput => ⟨prevOutput, []⟩ := by
    intro inputs
    rw [List.map_map]
    rfl
  simp only [Transaction.bare, Transaction.new, hcleared, h.prevOutputs, h.outputs, h.validity]

omit [HybridKem] in
private theorem sign_eq_signInput (builder : TxBuilder) (inputIdx : Nat) (key : SpendKey) : ∃ kind,
    builder.sign inputIdx key =
      signInput kind (fun signature => (key.items signature).map ScriptBuilder.Call.pushBytes) builder inputIdx key.level
        key.kp.secretKey := by
  cases key with
  | plain level kp => exact ⟨"plain", rfl⟩
  | stealth level spendKp sharedSecret => exact ⟨"stealth", rfl⟩

omit [HybridKem] in
theorem sign_of_generated (hsigning : SigningCorrect) (hkp : fromSeedPqc key.level seed = some key.kp)
    (hbuild : builder.buildUnsigned = .ok tx) {inputIdx : Nat} {input : TxInput}
    (hinput : builder.inputs[inputIdx]? = some input) :
    builder.sign inputIdx key =
      .ok { builder with inputs := builder.inputs.set inputIdx (input.withWitness (key.witness tx.sighash)) } := by
  obtain ⟨kind, hsign⟩ := sign_eq_signInput builder inputIdx key
  rw [hsign]
  refine okOr_bind_eq_ok.mpr ⟨input, hinput, bind_eq_ok.mpr ⟨tx, hbuild, ?_⟩⟩
  refine bind_eq_ok.mpr ⟨_, mapError_eq_ok.mpr (signPqcChecked_of_generated hsigning hkp tx.sighash.bytes), ?_⟩
  exact okOr_bind_eq_ok.mpr ⟨input, hinput, rfl⟩

omit [Crypto] [Signing] [HybridKem] in
theorem sameBody_set {inputIdx : Nat} {input : TxInput} (hinput : builder.inputs[inputIdx]? = some input)
    (witness : Bytes) :
    SameBody builder { builder with inputs := builder.inputs.set inputIdx (input.withWitness witness) } := by
  obtain ⟨hlt, rfl⟩ := List.getElem?_eq_some_iff.mp hinput
  refine ⟨?_, rfl, rfl⟩
  show (builder.inputs.set inputIdx (builder.inputs[inputIdx].withWitness witness)).map TxInput.prevOutput = _
  have hlt' : inputIdx < (builder.inputs.map TxInput.prevOutput).length := by rwa [List.length_map]
  have hkept : (builder.inputs[inputIdx].withWitness witness).prevOutput =
      (builder.inputs.map TxInput.prevOutput)[inputIdx] := by
    rw [List.getElem_map]
    rfl
  rw [List.map_set, hkept, List.set_getElem_self]

omit [HybridKem] in
theorem sign_total (key : SpendKey) (hsigning : SigningCorrect) (hkp : fromSeedPqc key.level seed = some key.kp)
    (hbuild : builder.buildUnsigned = .ok tx) (hbody : SameBody builder builder') {inputIdx : Nat}
    (hlt : inputIdx < builder.inputs.length) : ∃ signed, builder'.sign inputIdx key = .ok signed ∧ SameBody builder signed := by
  obtain ⟨tx', hbuild', -, -⟩ := hbody.buildUnsigned hbuild
  have hinput := List.getElem?_eq_getElem (hbody.length_eq ▸ hlt)
  exact ⟨_, sign_of_generated hsigning hkp hbuild' hinput, hbody.trans (sameBody_set hinput _)⟩

/-- **One signature.** The owner's key signs the input, which then carries an owner's witness, and so does every input that did before. -/
theorem sign_step (hsigning : SigningCorrect) (hbuild : builder.buildUnsigned = .ok tx) {inputIdx : Nat}
    (hlt : inputIdx < builder.inputs.length) (hspent : spent[inputIdx]? = some output) (howns : key.Owns output) :
    ∃ builder', builder.sign inputIdx key = .ok builder' ∧ SameBody builder builder' ∧
      Signed spent tx.sighash builder' inputIdx ∧
      ∀ i, Signed spent tx.sighash builder i → Signed spent tx.sighash builder' i := by
  obtain ⟨seed, hkp⟩ := howns.generated
  have hinput := List.getElem?_eq_getElem hlt
  let input := builder.inputs[inputIdx]
  have hsigned : Signed spent tx.sighash
      { builder with inputs := builder.inputs.set inputIdx (input.withWitness (key.witness tx.sighash)) } inputIdx :=
    ⟨_, output, key, List.getElem?_set_self hlt, hspent, howns, rfl⟩
  refine ⟨_, sign_of_generated hsigning hkp hbuild hinput, sameBody_set hinput _, hsigned, ?_⟩
  intro i hi
  by_cases heq : inputIdx = i
  · exact heq ▸ hsigned
  · obtain ⟨other, otherOutput, otherKey, hget, hothers⟩ := hi
    exact ⟨other, otherOutput, otherKey, (List.getElem?_set_ne heq).trans hget, hothers⟩

/-- **A run of signatures**, each by an owner of the output that the input spends. -/
theorem signAll_run (hsigning : SigningCorrect) {calls : List (Nat × SpendKey)} (hbuild : builder.buildUnsigned = .ok tx)
    (hspent : spent.length = builder.inputs.length)
    (howned : ∀ call ∈ calls, ∃ output, spent[call.1]? = some output ∧ call.2.Owns output) :
    ∃ signed, builder.signAll calls = .ok signed ∧ SameBody builder signed ∧
      (∀ call ∈ calls, Signed spent tx.sighash signed call.1) ∧
      ∀ i, Signed spent tx.sighash builder i → Signed spent tx.sighash signed i := by
  induction calls generalizing builder tx with
  | nil => exact ⟨builder, rfl, .refl builder, List.forall_mem_nil _, fun _ h => h⟩
  | cons call calls ih =>
      rw [List.forall_mem_cons] at howned
      obtain ⟨⟨output, houtput, howns⟩, hrest⟩ := howned
      have hlt : call.1 < builder.inputs.length := hspent ▸ (List.getElem?_eq_some_iff.mp houtput).1
      obtain ⟨mid, hsign, hbody, hcall, hkept⟩ := sign_step hsigning hbuild hlt houtput howns
      obtain ⟨tx', hbuild', -, hbare⟩ := hbody.buildUnsigned hbuild
      have hsighash : tx'.sighash = tx.sighash := by rw [Transaction.sighash, hbare, Transaction.sighash]
      obtain ⟨signed, hrun, hbody', hcalls, hkept'⟩ := ih hbuild' (hspent.trans hbody.length_eq.symm) hrest
      rw [hsighash] at hcalls hkept'
      exact ⟨signed, foldlM_cons_eq_ok.mpr ⟨mid, hsign, hrun⟩, hbody.trans hbody',
        List.forall_mem_cons.mpr ⟨hkept' _ hcall, hcalls⟩, fun i hi => hkept' i (hkept i hi)⟩

end TxBuilder

/-! ### Signed transactions -/

/-- **Transactions signed by the wallet validate, and recipients find what was sent to them.** When every input has been signed by an owner of the output it spends, in any order and any number of times, the transaction can be built, spends what it was to spend, and every input passes the check of its lock. An output added for a stealth address is found by the recipient behind the address, with the commitment that the lock embeds. -/
theorem walletSigned_validates (hsigning : SigningCorrect) (hkem : KemCorrect) :
    (∀ (builder : TxBuilder) (tx : Transaction) (spent : List TxOutput) (calls : List (Nat × SpendKey)),
      builder.buildUnsigned = .ok tx → spent.length = builder.inputs.length →
      (∀ call ∈ calls, ∃ output, spent[call.1]? = some output ∧ call.2.Owns output) →
      (∀ i, i < builder.inputs.length → ∃ key, (i, key) ∈ calls) →
      ∃ signed tx', builder.signAll calls = .ok signed ∧ signed.buildUnsigned = .ok tx' ∧ tx'.spends = tx.spends ∧
        tx'.bare = tx.bare ∧
        ∀ (i : Nat) (input : TxInput) (output : TxOutput), tx'.inputs[i]? = some input → spent[i]? = some output →
          ∀ resolved slot, Accepted output.lockingScript input.witness tx' resolved slot) ∧
    ∀ (kyberLevel : KyberLevel) (level : DilithiumLevel) (viewEntropy entropy : KemEntropy) (spendSeed : Hash256)
      (keys : StealthKeys) (builder : TxBuilder) (value : Amount),
      StealthKeys.generate kyberLevel level viewEntropy spendSeed = some keys →
      ∃ builder' ss output info h, builder.addStealthOutput value keys.address entropy = .ok (builder', ss) ∧
        builder'.outputs = builder.outputs ++ [output] ∧ output.value = value ∧ output.stealthInfo = some info ∧
        output.lockingScript = stealthP2pkh h ∧
        ∀ shown, Stealth.scanOutput keys ⟨info.ephemeralPubkey, info.kyberLevel, info.viewTag, shown⟩ =
          .ok (some ⟨ss, h⟩) := by
  constructor
  · intro builder tx spent calls hbuild hspent howned hall
    obtain ⟨signed, hrun, hbody, hcalls, -⟩ := TxBuilder.signAll_run hsigning hbuild hspent howned
    obtain ⟨tx', hbuild', hspends, hbare⟩ := hbody.buildUnsigned hbuild
    have hsighash : tx'.sighash = tx.sighash := by rw [Transaction.sighash, hbare, Transaction.sighash]
    refine ⟨signed, tx', hrun, hbuild', hspends, hbare, ?_⟩
    intro i input output hinput houtput resolved slot
    have hinputs : tx'.inputs = signed.inputs := by
      rw [← (TxBuilder.buildUnsigned_eq_ok.mp hbuild').2]
      rfl
    rw [hinputs] at hinput
    have hlt : i < builder.inputs.length := hbody.length_eq ▸ (List.getElem?_eq_some_iff.mp hinput).1
    obtain ⟨key, hkey⟩ := hall i hlt
    obtain ⟨input', output', key', hinput', houtput', howns, hwitness⟩ := hcalls _ hkey
    cases hinput.symm.trans hinput'
    cases houtput.symm.trans houtput'
    rw [hwitness, ← hsighash]
    exact howns.accepted hsigning hkem tx' resolved slot
  · intro kyberLevel level viewEntropy entropy spendSeed keys builder value hkeys
    obtain ⟨funded, ss, output, info, hadded, hlast, hvalue, hcarries, hlock, hfound⟩ :=
      TxBuilder.addStealthOutput_found hkem hkeys builder value entropy
    exact ⟨funded, ss, output, info, _, hadded, hlast, hvalue, hcarries, hlock, hfound⟩

/-! ### A transaction with a plain and a stealth input -/

omit [Crypto] [Signing] [HybridKem]

theorem signingCorrect_sample : @SigningCorrect signingCrypto sampleSigning := by
  apply @SigningCorrect.mk signingCrypto sampleSigning
  · intro level seed
    exact length_padded seed (by cases level <;> decide)
  · intro level seed
    exact List.length_replicate
  · intro level secretKey message
    exact length_padded (sampleDigest message) (by cases level <;> decide)
  · intro level seed message
    exact beq_self_eq_true _

/-- A key encapsulation for small examples: the keys are a padded digest of the entropy, and the secret is a digest of the key and the ciphertext. -/
@[reducible] def sampleKem : HybridKem where
  x25519PublicKey secret := secret
  x25519DiffieHellman secret peer :=
    ⟨List.zipWith (· + ·) secret.bytes peer.bytes, by rw [List.length_zipWith, secret.length_eq, peer.length_eq]; rfl⟩
  kyberKeyPair level entropy :=
    ((sampleDigest entropy).bytes ++ List.replicate (level.kyberPublicKeyBytes - 32) 0,
      (sampleDigest entropy).bytes ++ List.replicate (level.kyberSecretKeyBytes - 32) 0)
  kyberEncapsulate level publicKey entropy :=
    let ciphertext := (sampleDigest entropy).bytes ++ List.replicate (level.kyberCiphertextBytes - 32) 0
    ((sampleDigest (publicKey.take 32 ++ ciphertext)).bytes, ciphertext)
  kyberDecapsulate _ ciphertext secretKey := (sampleDigest (secretKey.take 32 ++ ciphertext)).bytes

theorem kemCorrect_sample : @KemCorrect sampleKem := by
  apply @KemCorrect.mk sampleKem
  · intro a b
    exact Hash256.ext (List.zipWith_comm_of_comm UInt8.add_comm)
  · intro level entropy
    exact length_padded (sampleDigest entropy) (by cases level <;> decide)
  · intro level entropy
    exact length_padded (sampleDigest entropy) (by cases level <;> decide)
  · intro level publicKey entropy
    exact length_padded (sampleDigest entropy) (by cases level <;> decide)
  · intro level keyEntropy entropy
    show (sampleDigest (List.take 32 ((sampleDigest keyEntropy).bytes ++ _) ++ _)).bytes =
      (sampleDigest (List.take 32 ((sampleDigest keyEntropy).bytes ++ _) ++ _)).bytes
    rw [List.take_left' (sampleDigest keyEntropy).length_eq, List.take_left' (sampleDigest keyEntropy).length_eq]
    rfl

/-- Two inputs, one of either kind, signed in the order second, first, second. -/
theorem walletSigned_validates_mixed : ∃ (_ : Crypto) (_ : Signing) (_ : HybridKem) (builder signed : TxBuilder)
    (tx : Transaction) (plain stealth : TxOutput) (plainKey stealthKey : SpendKey),
    builder.signAll [(1, stealthKey), (0, plainKey), (1, stealthKey)] = .ok signed ∧ signed.buildUnsigned = .ok tx ∧
      tx.inputs.length = 2 ∧ plain.stealthInfo = none ∧ stealth.stealthInfo ≠ none ∧
      ∀ (i : Nat) (input : TxInput) (output : TxOutput), tx.inputs[i]? = some input →
        [plain, stealth][i]? = some output → ∀ slot, Accepted output.lockingScript input.witness tx [plain, stealth] slot := by
  let crypto := signingCrypto
  let signing := sampleSigning
  let kem := sampleKem
  obtain ⟨plainKp, hplainKp⟩ := exists_fromSeedPqc signingCorrect_sample .level3 .zero
  obtain ⟨spendKp, hspendKp⟩ := exists_fromSeedPqc signingCorrect_sample .level2 .zero
  let entropy : KemEntropy := ⟨.zero, []⟩
  let keys : StealthKeys := ⟨generateKeypair .level1 entropy, .level2, spendKp⟩
  have hkeys : StealthKeys.generate .level1 .level2 entropy .zero = some keys := by
    rw [StealthKeys.generate, hspendKp]
    rfl
  obtain ⟨hmain, hscan⟩ := @walletSigned_validates signingCrypto sampleSigning sampleKem signingCorrect_sample kemCorrect_sample
  obtain ⟨funded, ss, stealth, info, h, hadded, hlast, -, hcarries, -, hfound⟩ :=
    hscan .level1 .level2 entropy entropy .zero keys (.new .unbounded) 7 hkeys
  let plain : TxOutput := .new 5 (p2pkhPqc (sha3_256 plainKp.publicKey))
  let builder : TxBuilder := ⟨[⟨⟨.zero, 0⟩, []⟩, ⟨⟨.zero, 1⟩, []⟩], [.new 12 []], .unbounded⟩
  have hplain : SpendKey.Owns (.plain .level3 plainKp) plain := .plain hplainKp rfl
  have hstealth : SpendKey.Owns (.stealth .level2 spendKp ss) stealth :=
    .stealth hkeys hadded hlast hcarries (hfound .zero)
  obtain ⟨signed, tx, hrun, hbuild, hspends, -, hvalid⟩ :=
    hmain builder _ [plain, stealth] [(1, .stealth .level2 spendKp ss), (0, .plain .level3 plainKp),
      (1, .stealth .level2 spendKp ss)] (TxBuilder.buildUnsigned_eq_ok.mpr ⟨⟨by decide, by decide⟩, rfl⟩) rfl
      (by
        simp only [List.forall_mem_cons]
        exact ⟨⟨stealth, rfl, hstealth⟩, ⟨plain, rfl, hplain⟩, ⟨stealth, rfl, hstealth⟩, List.forall_mem_nil _⟩)
      (by
        intro i hi
        match i, hi with
        | 0, _ => exact ⟨_, List.mem_cons_of_mem _ (List.mem_cons_self ..)⟩
        | 1, _ => exact ⟨_, List.mem_cons_self ..⟩)
  refine ⟨crypto, signing, kem, builder, signed, tx, plain, stealth, _, _, hrun, hbuild, ?_, rfl, ?_, ?_⟩
  · have hcount := congrArg List.length hspends
    rw [Transaction.spends, List.length_map] at hcount
    exact hcount
  · rw [hcarries]
    exact Option.some_ne_none info
  · intro i input output hinput houtput slot
    exact hvalid i input output hinput houtput [plain, stealth] slot

end QuantumVault
