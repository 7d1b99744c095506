import QuantumVault.Core.Kes

/-!
# Key-evolving signatures: what a signature is and what its check has seen

A signature is the leaf key's signature of the message bound to the period. It is read back from its encoding as it was, and a check that accepts it has had the leaf key verify the same bound message.
-/

namespace QuantumVault

/-! ### Wire format -/

theorem Hash256.decode_bytes (h : Hash256) (rest : Bytes) : Hash256.decode (h.bytes ++ rest) = some (h, rest) := by
  have hle : 32 ≤ (h.bytes ++ rest).length := by
    rw [List.length_append, h.length_eq]
    omega
  rw [Hash256.decode, dif_pos hle, Option.some.injEq, Prod.mk.injEq]
  exact ⟨Hash256.ext (List.take_left' h.length_eq), List.drop_left' h.length_eq⟩

theorem KesSignature.decode_encode {sig : KesSignature} (hpk : sig.leafPk.length < 2 ^ 64)
    (hsig : sig.leafSignature.length < 2 ^ 64) (hpath : sig.merklePath.length < 2 ^ 64) :
    KesSignature.decode sig.encode = some sig := by
  have hseq := Decode.seq_encode (fun h _ => Hash256.decode_bytes h) hpath []
  rw [List.append_nil] at hseq
  simp only [KesSignature.decode, KesSignature.encode, List.append_assoc, Decode.u32_encode, Decode.bytes_encode hpk,
    Decode.bytes_encode hsig, hseq, Option.bind_eq_bind, Option.bind_some]
  rfl

theorem KesSignature.encode_ne_nil (sig : KesSignature) : sig.encode ≠ [] := by
  intro hnil
  have hlen := congrArg List.length hnil
  simp [KesSignature.encode, Encode.u32] at hlen

/-! ### Keys of the right length -/

theorem PqcPublicKey.fromBytes_eq_some {level : DilithiumLevel} {bytes publicKey : Bytes}
    (h : PqcPublicKey.fromBytes level bytes = some publicKey) :
    bytes.length = level.publicKeyBytes ∧ publicKey = bytes := by
  unfold PqcPublicKey.fromBytes at h
  split at h
  · cases h
  · rename_i hlen
    exact ⟨not_not.mp hlen, (Option.some.inj h).symm⟩

theorem PqcSignature.fromBytes_eq_some {level : DilithiumLevel} {bytes signature : Bytes}
    (h : PqcSignature.fromBytes level bytes = some signature) :
    bytes.length ≤ level.signatureBytes ∧ signature = bytes := by
  unfold PqcSignature.fromBytes at h
  split at h
  · cases h
  · rename_i hlen
    exact ⟨not_lt.mp (not_or.mp hlen).2, (Option.some.inj h).symm⟩

private theorem verifyPqc_eq_some [Crypto] {level : DilithiumLevel} {publicKey message signature : Bytes} {valid : Bool}
    (h : verifyPqc level publicKey message signature = some valid) :
    mlDsaVerify level publicKey message signature = valid := by
  unfold verifyPqc at h
  split at h
  · cases h
  · split at h
    · cases h
    · exact Option.some.inj h

/-! ### Signatures -/

namespace Kes

variable [Crypto] [Signing] {sk : KesSecretKey} {msg : Bytes} {sig : KesSignature}

/-- What a signature is made of: the leaf key of the current period, and its signature of the bound message. -/
structure SignedBy (sk : KesSecretKey) (msg : Bytes) (kp : PqcKeyPair) (sig : KesSignature) : Prop where
  period_eq : sig.period = sk.period
  keyPair : ∃ seed, sk.leafSeeds[sk.period.toNat]? = some seed ∧ fromSeedPqc leafLevel seed = some kp
  leafPk_eq : sig.leafPk = kp.publicKey
  leafSignature_eq : signPqc leafLevel kp.secretKey (periodBoundMessage sk.period msg) = some sig.leafSignature
  merklePath_eq : sig.merklePath = merklePathFor treeDepth sk.leafPkHashes sk.period.toNat

omit [Signing] in
private theorem length_merklePathFor (depth : Nat) (layer : List Hash256) (index : Nat) :
    (merklePathFor depth layer index).length = depth := by
  induction depth generalizing layer index with
  | zero => rfl
  | succ depth ih => rw [merklePathFor, List.length_cons, ih]

theorem SignedBy.of_sign (h : sign sk msg = some sig) : ∃ kp, SignedBy sk msg kp sig := by
  unfold sign at h
  split at h
  · cases h
  · simp only [Option.bind_eq_bind, Option.bind_eq_some_iff] at h
    obtain ⟨seed, hseed, kp, hkp, leafSignature, hsig, hresult⟩ := h
    cases hresult
    exact ⟨kp, rfl, ⟨seed, hseed, hkp⟩, rfl, hsig, rfl⟩

theorem SignedBy.length_path {kp : PqcKeyPair} (h : SignedBy sk msg kp sig) : sig.merklePath.length = treeDepth := by
  rw [h.merklePath_eq, length_merklePathFor]

omit [Crypto] in
theorem length_fromSeedPqc {level : DilithiumLevel} {seed : Hash256} {kp : PqcKeyPair}
    (h : fromSeedPqc level seed = some kp) : kp.publicKey.length = level.publicKeyBytes := by
  unfold fromSeedPqc at h
  simp only [Option.bind_eq_bind, Option.bind_eq_some_iff] at h
  obtain ⟨publicKey, hpk, secretKey, -, hresult⟩ := h
  cases hresult
  obtain ⟨hlen, heq⟩ := PqcPublicKey.fromBytes_eq_some hpk
  rw [heq, hlen]

omit [Crypto] in
theorem signPqc_eq_some {level : DilithiumLevel} {secretKey message signature : Bytes}
    (h : signPqc level secretKey message = some signature) :
    signature = mlDsaSign level secretKey message ∧ signature.length ≤ level.signatureBytes := by
  unfold signPqc at h
  split at h
  · cases h
  · obtain ⟨hlen, heq⟩ := PqcSignature.fromBytes_eq_some h
    exact ⟨heq, heq ▸ hlen⟩

theorem SignedBy.decode_encode {kp : PqcKeyPair} (h : SignedBy sk msg kp sig) :
    KesSignature.decode sig.encode = some sig := by
  obtain ⟨seed, -, hkp⟩ := h.keyPair
  have hpk : sig.leafPk.length = 1952 := h.leafPk_eq ▸ length_fromSeedPqc hkp
  have hsig : sig.leafSignature.length ≤ 3309 := (signPqc_eq_some h.leafSignature_eq).2
  have hpath : sig.merklePath.length = 11 := h.length_path
  exact KesSignature.decode_encode (by omega) (by omega) (by omega)

/-- **What an accepted signature has passed:** the leaf key's own verification of the bound message, and the path to the root. -/
structure Accepted (pk : Hash256) (sig : KesSignature) (msg : Bytes) : Prop where
  period_lt : sig.period < totalPeriods
  length_path : sig.merklePath.length = treeDepth
  leaf : mlDsaVerify leafLevel sig.leafPk (periodBoundMessage sig.period msg) sig.leafSignature = true
  root : merkleRootFromPath (leafPkHash sig.leafPk) sig.period.toNat sig.merklePath = pk

omit [Signing] in
theorem Accepted.of_verify {pk : Hash256} (h : verify pk sig msg = some true) : Accepted pk sig msg := by
  unfold verify at h
  split at h
  · cases h
  · rename_i hperiod
    split at h
    · cases h
    · rename_i hpath
      simp only [Option.bind_eq_bind, Option.bind_eq_some_iff] at h
      obtain ⟨leafPk, hpk, leafSig, hsig, valid, hvalid, h⟩ := h
      obtain ⟨-, rfl⟩ := PqcPublicKey.fromBytes_eq_some hpk
      obtain ⟨-, rfl⟩ := PqcSignature.fromBytes_eq_some hsig
      have hleaf := verifyPqc_eq_some hvalid
      cases valid with
      | false => cases h
      | true =>
          rw [if_pos rfl] at h
          have hroot := of_decide_eq_true (Option.some.inj h)
          exact ⟨UInt32.not_le.mp hperiod, not_not.mp hpath, hleaf, hroot⟩

omit [Signing] in
theorem verify_eq_some_true {pk : Hash256} (hperiod : sig.period < totalPeriods)
    (hpath : sig.merklePath.length = treeDepth) (hpk : PqcPublicKey.fromBytes leafLevel sig.leafPk = some sig.leafPk)
    (hsig : PqcSignature.fromBytes leafLevel sig.leafSignature = some sig.leafSignature)
    (hvalid : verifyPqc leafLevel sig.leafPk (periodBoundMessage sig.period msg) sig.leafSignature = some true)
    (hroot : merkleRootFromPath (leafPkHash sig.leafPk) sig.period.toNat sig.merklePath = pk) :
    verify pk sig msg = some true := by
  rw [verify, if_neg (UInt32.not_le.mpr hperiod), if_neg (not_not.mpr hpath)]
  simp only [Option.bind_eq_bind, hpk, hsig, hvalid, hroot, Option.bind_some, if_true, decide_true]
  rfl

/-! ### Keys in use -/

/-- The signature library makes keys and signatures of the right lengths, and its signatures verify. -/
structure LeafSigning : Prop where
  keyPair : ∀ seed, ∃ kp, fromSeedPqc leafLevel seed = some kp
  signature : ∀ seed kp message, fromSeedPqc leafLevel seed = some kp →
    ∃ sig, signPqc leafLevel kp.secretKey message = some sig ∧ verifyPqc leafLevel kp.publicKey message sig = some true

/-- It is enough that its keys and signatures have the lengths of the level and that it verifies its own signatures. -/
theorem LeafSigning.of_lengths (hpk : ∀ seed, (mlDsaKeyGen leafLevel seed).1.length = leafLevel.publicKeyBytes)
    (hsk : ∀ seed, (mlDsaKeyGen leafLevel seed).2.length = leafLevel.secretKeyBytes)
    (hsig : ∀ secretKey message, (mlDsaSign leafLevel secretKey message).length = leafLevel.signatureBytes)
    (hverify : ∀ seed message, mlDsaVerify leafLevel (mlDsaKeyGen leafLevel seed).1 message
      (mlDsaSign leafLevel (mlDsaKeyGen leafLevel seed).2 message) = true) : LeafSigning := by
  have hkey (seed : Hash256) : fromSeedPqc leafLevel seed =
      some ⟨(mlDsaKeyGen leafLevel seed).1, (mlDsaKeyGen leafLevel seed).2⟩ := by
    rw [fromSeedPqc, PqcPublicKey.fromBytes, if_neg (not_not.mpr (hpk seed))]
    show (PqcSecretKey.fromBytes leafLevel (mlDsaKeyGen leafLevel seed).2 >>= _) = _
    rw [PqcSecretKey.fromBytes, if_neg (not_not.mpr (hsk seed))]
    rfl
  refine ⟨fun seed => ⟨_, hkey seed⟩, ?_⟩
  intro seed kp message hkp
  cases (hkey seed).symm.trans hkp
  have hlen := hsig (mlDsaKeyGen leafLevel seed).2 message
  refine ⟨mlDsaSign leafLevel (mlDsaKeyGen leafLevel seed).2 message, ?_, ?_⟩
  · have hfits : ¬ ((mlDsaSign leafLevel (mlDsaKeyGen leafLevel seed).2 message).isEmpty = true ∨
        (mlDsaSign leafLevel (mlDsaKeyGen leafLevel seed).2 message).length > leafLevel.signatureBytes) := by
      rw [List.isEmpty_iff_length_eq_zero, hlen]
      decide
    dsimp only
    rw [signPqc, if_neg (not_not.mpr (hsk seed)), PqcSignature.fromBytes, if_neg hfits]
  · dsimp only
    rw [verifyPqc, if_neg (not_not.mpr (hpk seed)), if_neg (not_not.mpr hlen), hverify]

def freshSeeds (masterSeed : Hash256) : List Hash256 :=
  (List.range totalPeriods.toNat).map fun period => deriveLeafSeed masterSeed (UInt32.ofNat period)

def freshHashes (keyPair : Hash256 → PqcKeyPair) (masterSeed : Hash256) : List Hash256 :=
  (freshSeeds masterSeed).map fun seed => leafPkHash (keyPair seed).publicKey

theorem generate_eq {keyPair : Hash256 → PqcKeyPair} (h : ∀ seed, fromSeedPqc leafLevel seed = some (keyPair seed))
    (masterSeed : Hash256) : generate masterSeed =
      some (merkleRootFromLeaves (freshHashes keyPair masterSeed), ⟨0, freshSeeds masterSeed, freshHashes keyPair masterSeed⟩) := by
  let leaf (period : Nat) : Hash256 × Hash256 :=
    (deriveLeafSeed masterSeed (UInt32.ofNat period),
      leafPkHash (keyPair (deriveLeafSeed masterSeed (UInt32.ofNat period))).publicKey)
  have hleaf : generateLeaf masterSeed = fun period => pure (leaf period) := by
    funext period
    rw [generateLeaf, h]
    rfl
  have hleaves : (List.range totalPeriods.toNat).mapM (generateLeaf masterSeed) =
      some ((List.range totalPeriods.toNat).map leaf) := by
    rw [hleaf]
    exact List.mapM_pure
  have hseeds (periods : List Nat) : (periods.map leaf).map Prod.fst =
      periods.map fun period => deriveLeafSeed masterSeed (UInt32.ofNat period) := by
    rw [List.map_map]
    rfl
  have hhashes (periods : List Nat) : (periods.map leaf).map Prod.snd =
      (periods.map fun period => deriveLeafSeed masterSeed (UInt32.ofNat period)).map
        fun seed => leafPkHash (keyPair seed).publicKey := by
    rw [List.map_map, List.map_map]
    rfl
  rw [generate, hleaves, freshHashes, freshSeeds, ← hhashes, ← hseeds]
  rfl

omit [Signing] in
theorem length_freshSeeds (masterSeed : Hash256) : (freshSeeds masterSeed).length = totalPeriods.toNat := by
  rw [freshSeeds, List.length_map, List.length_range]

theorem generate_isSome (h : LeafSigning) (masterSeed : Hash256) :
    ∃ root fresh, generate masterSeed = some (root, fresh) ∧ fresh.period = 0 ∧
      fresh.leafSeeds.length = totalPeriods.toNat := by
  choose keyPair hkeyPair using h.keyPair
  refine ⟨_, _, generate_eq hkeyPair masterSeed, rfl, ?_⟩
  rw [length_freshSeeds]

theorem sign_isSome (h : LeafSigning) (hperiod : sk.period < totalPeriods)
    (hseeds : sk.period.toNat < sk.leafSeeds.length) (msg : Bytes) : ∃ sig, sign sk msg = some sig := by
  have hopen : ¬ sk.isExhausted = true := by
    rw [KesSecretKey.isExhausted, decide_eq_true_iff]
    exact UInt32.not_le.mpr hperiod
  obtain ⟨kp, hkp⟩ := h.keyPair (sk.leafSeeds[sk.period.toNat])
  obtain ⟨leafSignature, hsig, -⟩ := h.signature _ kp (periodBoundMessage sk.period msg) hkp
  refine ⟨⟨sk.period, kp.publicKey, leafSignature, merklePathFor treeDepth sk.leafPkHashes sk.period.toNat⟩, ?_⟩
  rw [sign, if_neg hopen, List.getElem?_eq_getElem hseeds]
  show (fromSeedPqc leafLevel sk.leafSeeds[sk.period.toNat] >>= _) = _
  rw [hkp]
  show (signPqc leafLevel kp.secretKey (periodBoundMessage sk.period msg) >>= _) = _
  rw [hsig]
  rfl

def evolveBy : (periods : Nat) → KesSecretKey → Option KesSecretKey
  | 0, sk => some sk
  | periods + 1, sk => evolve sk >>= evolveBy periods

end Kes

end QuantumVault
