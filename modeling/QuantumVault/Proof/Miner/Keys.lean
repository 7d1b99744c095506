import QuantumVault.Miner.Keys
import QuantumVault.Proof.Consensus.KesRun

/-!
# What an operator can still sign

The signing key overwrites the seed of every period it leaves, and a reload brings back the bundle as it was saved. But the bundle and the keystore keep the seed of all seeds, from which the key of the first period is derived again at any time.
-/

namespace QuantumVault

open Result

/-! ### The keystore -/

namespace Keystore

variable [AtRest] {plaintext opened : OperatorKeystorePlaintext} {password password' : Bytes} {entropy : Entropy}
  {file : OperatorKeystoreEnvelope}

omit [AtRest] in
theorem decode_encode (plaintext : OperatorKeystorePlaintext) :
    OperatorKeystorePlaintext.decode plaintext.encode = some plaintext := by
  have hperiod := Decode.u32_encode plaintext.kesPeriod []
  rw [List.append_nil] at hperiod
  unfold OperatorKeystorePlaintext.decode OperatorKeystorePlaintext.encode
  rw [List.append_assoc]
  simp only [Option.bind_eq_bind, Decode.u32_encode, Option.bind_some, Hash256.decode_bytes, hperiod]
  rfl

private theorem exists_save (plaintext : OperatorKeystorePlaintext) (password : Bytes) (entropy : Entropy) :
    ∃ file, save plaintext password entropy = .ok file := by
  obtain ⟨key, hkey⟩ := AtRest.argon2id_salt password entropy.salt entropy.length_salt
  rw [save, deriveKey, hkey]
  exact ⟨_, rfl⟩

theorem load_of_save (hsave : save plaintext password entropy = .ok file) : ∃ key, deriveKey password entropy.salt = .ok key ∧
    ∀ tried, load file tried = (deriveKey tried entropy.salt >>= fun other =>
      okOr (AtRest.decrypt other entropy.iv (AtRest.encrypt key entropy.iv plaintext.encode))
        (.keystore "wrong password or corrupted keystore") >>= fun bytes =>
          okOr (OperatorKeystorePlaintext.decode bytes) (.keystore "bincode decode: ")) := by
  obtain ⟨key, hkey, hfile⟩ := bind_eq_ok.mp hsave
  cases pure_eq_ok.mp hfile
  refine ⟨key, hkey, fun tried => ?_⟩
  simp only [load, Hex.decode_encode, Except.mapError, require, entropy.length_iv, if_true, ok_bind]

/-- **What is saved under a password opens with it**, and with any other one to nothing else. -/
theorem load_save (hsave : save plaintext password entropy = .ok file) : load file password = .ok plaintext := by
  obtain ⟨key, hkey, hload⟩ := load_of_save hsave
  rw [hload, hkey, ok_bind, AtRest.decrypt_encrypt, okOr_some, ok_bind, decode_encode, okOr_some]

private theorem eq_of_load (hsave : save plaintext password entropy = .ok file) (hload : load file password' = .ok opened) :
    opened = plaintext := by
  obtain ⟨key, -, hopen⟩ := load_of_save hsave
  rw [hopen] at hload
  obtain ⟨other, -, hload⟩ := bind_eq_ok.mp hload
  obtain ⟨bytes, hbytes, hdecode⟩ := okOr_bind_eq_ok.mp hload
  cases AtRest.authentic _ _ _ _ _ hbytes
  rw [okOr_eq_ok, decode_encode, Option.some_inj] at hdecode
  exact hdecode.symm

end Keystore

/-! ### Advancing -/

section Evolution

variable {kes kes' : KesKeyPair} {times : Nat}

theorem KesKeyPair.period_of_evolve (h : kes.evolveToNextPeriod = .ok kes') :
    kes'.period.toNat = kes.period.toNat + 1 := by
  obtain ⟨sk, hsk, heq⟩ := okOr_bind_eq_ok.mp h
  cases pure_eq_ok.mp heq
  rw [Kes.evolve] at hsk
  split at hsk
  · cases hsk
  · next hopen =>
      cases hsk
      have hlt : kes.sk.period < Kes.totalPeriods := by
        rw [KesSecretKey.isExhausted, decide_eq_true_iff] at hopen
        exact UInt32.not_le.mp hopen
      have hbound : kes.sk.period.toNat < 2048 := UInt32.lt_iff_toNat_lt.mp hlt
      show (kes.sk.period + 1).toNat = kes.sk.period.toNat + 1
      rw [UInt32.toNat_add]
      show (kes.sk.period.toNat + 1) % 2 ^ 32 = _
      omega

theorem KesKeyPair.evolveTimes_succ (times : Nat) (kes : KesKeyPair) :
    kes.evolveTimes (times + 1) = kes.evolveTimes times >>= evolveToNextPeriod := by
  induction times generalizing kes with
  | zero =>
      rw [evolveTimes, evolveTimes, ok_bind]
      exact bind_pure _
  | succ times ih =>
      rw [evolveTimes, evolveTimes]
      cases kes.evolveToNextPeriod with
      | error e => rfl
      | ok next => exact ih next

private theorem KesKeyPair.period_of_evolveTimes (h : kes.evolveTimes times = .ok kes') :
    kes'.period.toNat = kes.period.toNat + times := by
  induction times generalizing kes' with
  | zero =>
      cases h
      rfl
  | succ times ih =>
      rw [evolveTimes_succ] at h
      obtain ⟨before, hbefore, hlast⟩ := bind_eq_ok.mp h
      rw [period_of_evolve hlast, ih hbefore, Nat.add_assoc]

end Evolution

section Fresh

variable [Crypto] [Signing] {masterSeed root : Hash256} {fresh : KesSecretKey}

private theorem Kes.period_of_generate (h : Kes.generate masterSeed = some (root, fresh)) : fresh.period = 0 := by
  unfold Kes.generate at h
  rw [Option.bind_eq_bind, Option.bind_eq_some_iff] at h
  obtain ⟨leaves, -, hleaves⟩ := h
  rw [Option.pure_def, Option.some_inj, Prod.mk.injEq] at hleaves
  rw [← hleaves.2]

private theorem Kes.sign_of_generate (hleaf : Kes.LeafSigning) (h : Kes.generate masterSeed = some (root, fresh))
    (msg : Bytes) :
    ∃ sig, Kes.sign fresh msg = some sig ∧ sig.period.toNat = 0 := by
  choose keyPair hkeyPair using hleaf.keyPair
  have hfresh := (generate_eq hkeyPair masterSeed).symm.trans h
  rw [Option.some_inj, Prod.mk.injEq] at hfresh
  obtain ⟨-, hkey⟩ := hfresh
  have hstart : KeyAt keyPair masterSeed 0 fresh := hkey ▸ KeyAt.fresh
  have hopen : 0 < 2048 := by decide
  obtain ⟨sig, hsig⟩ := hstart.sign_isSome hleaf hopen msg
  exact ⟨sig, hsig, (hstart.verify_sign hleaf hkeyPair hsig).1⟩

end Fresh

/-! ### Bundles -/

namespace OperatorKeys

variable [Crypto] [Signing] [VrfKeys] {master : Hash256} {keys keys' fresh : OperatorKeys}

theorem period_of_fromSeed (h : fromSeed master = .ok fresh) : fresh.masterSeed = master ∧ fresh.kes.period = 0 ∧
    Kes.generate (derive master "kes") = some (fresh.kes.pk, fresh.kes.sk) := by
  obtain ⟨kes, hkes, h⟩ := bind_eq_ok.mp h
  obtain ⟨cold, -, h⟩ := okOr_bind_eq_ok.mp h
  cases pure_eq_ok.mp h
  obtain ⟨⟨pk, sk⟩, hgenerate, hkes⟩ := okOr_bind_eq_ok.mp hkes
  cases pure_eq_ok.mp hkes
  exact ⟨rfl, Kes.period_of_generate hgenerate, hgenerate⟩

theorem exists_fromSeed (hleaf : Kes.LeafSigning) (master : Hash256) : ∃ fresh, fromSeed master = .ok fresh := by
  obtain ⟨root, sk, hgenerate, -⟩ := Kes.generate_isSome hleaf (derive master "kes")
  obtain ⟨cold, hcold⟩ := hleaf.keyPair (derive master "cold")
  have hkes : KesKeyPair.fromSeed (derive master "kes") = .ok ⟨root, sk⟩ := by
    rw [KesKeyPair.fromSeed, hgenerate, okOr_some, ok_bind]
    exact rfl
  refine ⟨⟨master, VrfKeys.fromSeed (derive master "vrf"), ⟨root, sk⟩, cold⟩, ?_⟩
  unfold fromSeed
  rw [hkes, ok_bind, ← Kes.leafLevel, hcold, okOr_some, ok_bind]
  exact rfl

/-- The bundle is what its seed gives, with the signing key advanced to its period. -/
def IsEvolved (keys : OperatorKeys) : Prop :=
  ∃ fresh, fromSeed keys.masterSeed = .ok fresh ∧ fresh.kes.evolveTimes keys.kes.period.toNat = .ok keys.kes ∧
    keys = { fresh with kes := keys.kes }

theorem IsEvolved.of_fromSeed (h : fromSeed master = .ok fresh) : fresh.IsEvolved := by
  obtain ⟨hmaster, hperiod, -⟩ := period_of_fromSeed h
  refine ⟨fresh, hmaster.symm ▸ h, ?_, rfl⟩
  rw [hperiod]
  rfl

theorem IsEvolved.rotateKes (h : keys.IsEvolved) (hrotate : keys.rotateKes = .ok keys') :
    keys'.IsEvolved ∧ keys'.kes.period.toNat = keys.kes.period.toNat + 1 := by
  obtain ⟨fresh, hfresh, htimes, heq⟩ := h
  obtain ⟨kes, hkes, hkeys⟩ := bind_eq_ok.mp hrotate
  cases pure_eq_ok.mp hkeys
  have hperiod := KesKeyPair.period_of_evolve hkes
  refine ⟨⟨fresh, hfresh, ?_, ?_⟩, hperiod⟩
  · show fresh.kes.evolveTimes kes.period.toNat = .ok kes
    rw [hperiod, KesKeyPair.evolveTimes_succ, htimes]
    exact hkes
  · rw [heq]

private theorem rotateKes_isOk (h : fromSeed master = .ok fresh) : fresh.rotateKes.isOk = true := by
  have hzero : fresh.kes.sk.period = 0 := (period_of_fromSeed h).2.1
  have hopen : ¬ fresh.kes.sk.isExhausted = true := by
    rw [KesSecretKey.isExhausted, decide_eq_true_iff, hzero]
    decide
  rw [OperatorKeys.rotateKes, KesKeyPair.evolveToNextPeriod, Kes.evolve, if_neg hopen]
  rfl

variable [AtRest] {file : OperatorKeystoreEnvelope} {password : Bytes} {plaintext : OperatorKeystorePlaintext}

private theorem IsEvolved.of_load (hload : loadEncrypted file password = .ok keys)
    (hopen : Keystore.load file password = .ok plaintext) :
    keys.IsEvolved ∧ keys.kes.period.toNat = plaintext.kesPeriod.toNat := by
  unfold loadEncrypted at hload
  rw [hopen, ok_bind] at hload
  obtain ⟨fresh, hfresh, hload⟩ := bind_eq_ok.mp hload
  obtain ⟨kes, hkes, hload⟩ := bind_eq_ok.mp hload
  cases pure_eq_ok.mp hload
  obtain ⟨hmaster, hzero, -⟩ := period_of_fromSeed hfresh
  have hperiod : kes.period.toNat = plaintext.kesPeriod.toNat := by
    rw [KesKeyPair.period_of_evolveTimes hkes, hzero]
    exact Nat.zero_add _
  refine ⟨⟨fresh, ?_, ?_, rfl⟩, hperiod⟩
  · show fromSeed fresh.masterSeed = .ok fresh
    rw [hmaster]
    exact hfresh
  · show fresh.kes.evolveTimes kes.period.toNat = .ok kes
    rw [hperiod]
    exact hkes

/-- **A reload restores the bundle.** -/
theorem IsEvolved.reload (h : keys.IsEvolved) (password : Bytes) (entropy : Keystore.Entropy) :
    ∃ file, keys.saveEncrypted password entropy = .ok file ∧ loadEncrypted file password = .ok keys := by
  obtain ⟨fresh, hfresh, htimes, heq⟩ := h
  obtain ⟨file, hsave⟩ := Keystore.exists_save ⟨1, keys.masterSeed, keys.kes.period⟩ password entropy
  refine ⟨file, hsave, ?_⟩
  unfold loadEncrypted
  rw [Keystore.load_save hsave, ok_bind, hfresh, ok_bind, htimes, ok_bind, ← heq]
  rfl

end OperatorKeys

/-! ### An operator at work -/

/-- What the operator holds: the keys in memory, and the keystore if there is one. -/
structure Operator where
  keys : OperatorKeys
  file : Option OperatorKeystoreEnvelope

inductive OperatorCall where
  | sign (message : Bytes)
  | rotateKes
  | saveEncrypted (password : Bytes) (entropy : Keystore.Entropy)
  | loadEncrypted (password : Bytes)
  | fromSeed

namespace Operator

variable [Crypto] [Signing] [VrfKeys] [AtRest] {op : Operator} {rotated : Nat}

def withKeys (op : Operator) : Except KeyError OperatorKeys → Operator
  | .ok keys => { op with keys := keys }
  | .error _ => op

def afterCall (op : Operator) : OperatorCall → Operator
  | .sign _ => op
  | .rotateKes => op.withKeys op.keys.rotateKes
  | .saveEncrypted password entropy =>
      match op.keys.saveEncrypted password entropy with
      | .ok file => { op with file := some file }
      | .error _ => op
  | .loadEncrypted password =>
      match op.file with
      | some file => op.withKeys (OperatorKeys.loadEncrypted file password)
      | none => op
  | .fromSeed => op.withKeys (OperatorKeys.fromSeed op.keys.masterSeed)

def afterCalls (op : Operator) (calls : List OperatorCall) : Operator := calls.foldl afterCall op

/-- Whether a call advances the signing key, as a number. -/
def advances (op : Operator) : OperatorCall → Nat
  | .rotateKes => if op.keys.rotateKes.isOk then 1 else 0
  | _ => 0

/-- How often the signing key is advanced in a sequence of calls. -/
def rotations : Operator → List OperatorCall → Nat
  | _, [] => 0
  | op, call :: calls => op.advances call + rotations (op.afterCall call) calls

/-- What is held stems from a seed, and neither the keys nor the keystore are ahead of the advances. -/
structure Sound (op : Operator) (rotated : Nat) : Prop where
  evolved : op.keys.IsEvolved
  period_le : op.keys.kes.period.toNat ≤ rotated
  saved : ∀ file, op.file = some file → ∃ plaintext password entropy,
    Keystore.save plaintext password entropy = .ok file ∧ plaintext.kesPeriod.toNat ≤ rotated

theorem Sound.of_fromSeed {master : Hash256} {keys : OperatorKeys} (h : OperatorKeys.fromSeed master = .ok keys) :
    (Operator.mk keys none).Sound 0 := by
  refine ⟨.of_fromSeed h, ?_, fun file hfile => by cases hfile⟩
  rw [(OperatorKeys.period_of_fromSeed h).2.1]
  exact le_rfl

theorem Sound.withKeys (h : op.Sound rotated) {result : Except KeyError OperatorKeys}
    (hkeys : ∀ keys, result = .ok keys → keys.IsEvolved ∧ keys.kes.period.toNat ≤ rotated) : (op.withKeys result).Sound rotated := by
  cases result with
  | error e => exact h
  | ok keys => exact ⟨(hkeys keys rfl).1, (hkeys keys rfl).2, h.saved⟩

theorem Sound.mono (h : op.Sound rotated) {more : Nat} (hle : rotated ≤ more) : op.Sound more := by
  refine ⟨h.evolved, h.period_le.trans hle, fun file hfile => ?_⟩
  obtain ⟨plaintext, password, entropy, hsave, hperiod⟩ := h.saved file hfile
  exact ⟨plaintext, password, entropy, hsave, hperiod.trans hle⟩

/-- **One call.** -/
theorem Sound.afterCall (h : op.Sound rotated) (call : OperatorCall) :
    (op.afterCall call).Sound (rotated + op.advances call) := by
  cases call with
  | sign message => exact h
  | rotateKes =>
      refine (h.mono (Nat.le_add_right _ _)).withKeys fun keys hkeys => ?_
      obtain ⟨hevolved, hperiod⟩ := h.evolved.rotateKes hkeys
      have hle := h.period_le
      rw [advances, hkeys]
      exact ⟨hevolved, hperiod.trans_le (Nat.succ_le_succ hle)⟩
  | saveEncrypted password entropy =>
      obtain ⟨file, hfile, -⟩ := h.evolved.reload password entropy
      rw [Operator.afterCall, hfile]
      refine ⟨h.evolved, h.period_le, fun saved hsaved => ?_⟩
      cases hsaved
      exact ⟨_, password, entropy, hfile, h.period_le⟩
  | loadEncrypted password =>
      rw [Operator.afterCall]
      split
      · next file hfile =>
          refine h.withKeys fun keys hkeys => ?_
          obtain ⟨plaintext, password', entropy, hsave, hperiod⟩ := h.saved file hfile
          have hload := hkeys
          unfold OperatorKeys.loadEncrypted at hload
          obtain ⟨opened, hopen, -⟩ := bind_eq_ok.mp hload
          obtain ⟨hevolved, hopened⟩ := OperatorKeys.IsEvolved.of_load hkeys hopen
          rw [Keystore.eq_of_load hsave hopen] at hopened
          exact ⟨hevolved, hopened.trans_le hperiod⟩
      · exact h
  | fromSeed =>
      rw [Operator.afterCall]
      refine h.withKeys fun keys hkeys => ⟨.of_fromSeed hkeys, ?_⟩
      rw [(OperatorKeys.period_of_fromSeed hkeys).2.1]
      exact Nat.zero_le _

theorem Sound.afterCalls (h : op.Sound rotated) (calls : List OperatorCall) :
    (op.afterCalls calls).Sound (rotated + op.rotations calls) := by
  induction calls generalizing op rotated with
  | nil => exact h
  | cons call calls ih =>
      have hrest := ih (h.afterCall call)
      rw [Nat.add_assoc] at hrest
      exact hrest

/-! ### Forward security -/

/-- Saving the keys in memory and loading them again leads to that period. -/
def Restores (op : Operator) (period : Nat) : Prop :=
  ∀ password entropy, ∃ file keys, op.keys.saveEncrypted password entropy = .ok file ∧
    OperatorKeys.loadEncrypted file password = .ok keys ∧ keys.kes.period.toNat = period

/-- Whatever is called from now on, nothing is signed for a period below that one. -/
def ForwardSecure (op : Operator) (period : Nat) : Prop :=
  ∀ calls message sig, (op.afterCalls calls).keys.kes.sign message = .ok sig → period ≤ sig.period.toNat

/-- The seed that is kept signs for the first period. -/
theorem not_forwardSecure (hleaf : Kes.LeafSigning) (h : op.Sound rotated) {period : Nat} (hperiod : 0 < period) :
    ¬ op.ForwardSecure period := by
  intro hsecure
  obtain ⟨fresh, hfresh, -, -⟩ := h.evolved
  obtain ⟨-, -, hgenerate⟩ := OperatorKeys.period_of_fromSeed hfresh
  obtain ⟨sig, hsig, hzero⟩ := Kes.sign_of_generate hleaf hgenerate []
  have hagain : (op.afterCalls [.fromSeed]).keys = fresh := by
    rw [afterCalls, List.foldl_cons, List.foldl_nil, afterCall, hfresh, withKeys]
  have hsign : fresh.kes.sign [] = .ok sig := okOr_eq_ok.mpr hsig
  have hle := hsecure [.fromSeed] [] sig (hagain ▸ hsign)
  rw [hzero] at hle
  exact absurd hperiod (Nat.not_lt_of_le hle)

end Operator

/-- **When an operator is forward secure.** For every master seed and every sequence of calls, a reload restores the number of advances as the period and nothing that is held signs for an earlier one, if and only if the key was never advanced. A reload always restores the very bundle in memory. -/
theorem operator_forwardSecure_iff [Crypto] [Signing] [VrfKeys] [AtRest] (hleaf : Kes.LeafSigning) {master : Hash256}
    {keys : OperatorKeys} (hkeys : OperatorKeys.fromSeed master = .ok keys) (calls : List OperatorCall) :
    ((((Operator.mk keys none).afterCalls calls).Restores ((Operator.mk keys none).rotations calls) ∧
        ((Operator.mk keys none).afterCalls calls).ForwardSecure ((Operator.mk keys none).rotations calls)) ↔
      (Operator.mk keys none).rotations calls = 0) ∧
    ∀ password entropy, ∃ file,
      ((Operator.mk keys none).afterCalls calls).keys.saveEncrypted password entropy = .ok file ∧
      OperatorKeys.loadEncrypted file password = .ok ((Operator.mk keys none).afterCalls calls).keys := by
  have hnow := (Operator.Sound.of_fromSeed hkeys).afterCalls calls
  rw [Nat.zero_add] at hnow
  refine ⟨⟨fun h => ?_, fun hzero => ⟨fun password entropy => ?_, fun later message sig _ => ?_⟩⟩, hnow.evolved.reload⟩
  · by_contra hne
    exact Operator.not_forwardSecure hleaf hnow (Nat.pos_of_ne_zero hne) h.2
  · obtain ⟨file, hsave, hload⟩ := hnow.evolved.reload password entropy
    exact ⟨file, _, hsave, hload, by have := hnow.period_le; omega⟩
  · rw [hzero]
    exact Nat.zero_le _

/-! ### A small example -/

@[reducible] def sampleVrfKeys : VrfKeys := ⟨fun seed => ⟨seed.bytes, seed.bytes⟩⟩

/-- A sealed text starts with a digest of its key. -/
@[reducible] def sampleAtRest : AtRest where
  argon2id password salt := .ok (password ++ salt)
  encrypt key _ plaintext := (sampleDigest key).bytes ++ plaintext
  decrypt key _ ciphertext := if ciphertext.take 32 = (sampleDigest key).bytes then some (ciphertext.drop 32) else none
  argon2id_salt password salt _ := ⟨password ++ salt, rfl⟩
  decrypt_encrypt key nonce plaintext := by
    rw [List.take_left' (sampleDigest key).length_eq, if_pos rfl, List.drop_left' (sampleDigest key).length_eq]
  authentic key key' nonce plaintext opened h := by
    rw [Option.ite_none_right_eq_some, List.drop_left' (sampleDigest key).length_eq] at h
    exact (Option.some_inj.mp h.2).symm

def sampleDraw : Keystore.Entropy := ⟨List.replicate 16 1, List.replicate 12 2, rfl, rfl⟩

theorem operator_forwardSecure_iff_sample :
    let _ : Crypto := signingCrypto
    let _ : Signing := sampleSigning
    let _ : VrfKeys := sampleVrfKeys
    let _ : AtRest := sampleAtRest
    ∃ keys, OperatorKeys.fromSeed .zero = .ok keys ∧
      ((Operator.mk keys none).afterCalls [.saveEncrypted [7] sampleDraw, .loadEncrypted [7]]).Restores 0 := by
  intro crypto signing vrf atRest
  obtain ⟨keys, hkeys⟩ := OperatorKeys.exists_fromSeed leafSigning_sample .zero
  refine ⟨keys, hkeys, ?_⟩
  obtain ⟨⟨-, hsecure⟩, -⟩ := operator_forwardSecure_iff leafSigning_sample hkeys
    [.saveEncrypted [7] sampleDraw, .loadEncrypted [7]]
  exact (hsecure rfl).1

/-- **The seed in the bundle signs for a period that was left.** After one advance the keys are derived again from the seed that is kept, and sign for the first period. -/
theorem operator_not_forwardSecure :
    let _ : Crypto := signingCrypto
    let _ : Signing := sampleSigning
    let _ : VrfKeys := sampleVrfKeys
    let _ : AtRest := sampleAtRest
    ∃ keys, OperatorKeys.fromSeed .zero = .ok keys ∧ (Operator.mk keys none).rotations [.rotateKes] = 1 ∧
      ¬ ((Operator.mk keys none).afterCalls [.rotateKes]).ForwardSecure 1 := by
  intro crypto signing vrf atRest
  obtain ⟨keys, hkeys⟩ := OperatorKeys.exists_fromSeed leafSigning_sample .zero
  refine ⟨keys, hkeys, ?_, ?_⟩
  · rw [Operator.rotations, Operator.rotations, Operator.advances, OperatorKeys.rotateKes_isOk hkeys, if_pos rfl]
  · exact Operator.not_forwardSecure leafSigning_sample ((Operator.Sound.of_fromSeed hkeys).afterCalls [.rotateKes])
      Nat.one_pos

end QuantumVault
