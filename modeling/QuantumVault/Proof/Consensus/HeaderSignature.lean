import QuantumVault.Consensus.BlockValidator
import QuantumVault.Node.SlotTicker
import QuantumVault.Proof.Consensus.Kes
import QuantumVault.Proof.Node.Genesis

/-!
# Produced headers and the header validator

The producer signs the header before the signature is attached, and the validator checks the signature against the header as it is, signature included. The two byte strings never have the same length. The producer names itself by the hash of its pool id, and the validator looks for a hash of a VRF key.
-/

namespace QuantumVault

open Result

/-! ### What is signed -/

def BlockHeader.unsigned (header : BlockHeader) : BlockHeader := { header with kesSig := [] }

private theorem BlockHeader.length_canonicalBytes (header : BlockHeader) :
    header.canonicalBytes.length = header.unsigned.canonicalBytes.length + header.kesSig.length := by
  simp only [canonicalBytes, unsigned, List.length_append, Encode.length_bytes, List.length_nil]
  omega

/-- **A signature changes the bytes of its header.** -/
theorem BlockHeader.canonicalBytes_ne_unsigned {header : BlockHeader} (hsigned : header.kesSig ≠ []) :
    header.canonicalBytes ≠ header.unsigned.canonicalBytes := by
  intro heq
  have hlen := header.length_canonicalBytes
  have hpos := List.length_pos_iff.mpr hsigned
  rw [heq] at hlen
  omega

namespace SlotTicker

variable [Crypto] {ticker : SlotTicker} {s : NodeState} {slot : Slot} {vrfProof : Bytes} {now : Timestamp} {block : Block}

def withoutSigning (ticker : SlotTicker) : SlotTicker := { ticker with kesSk := none }

omit [Crypto] in
private theorem signHeader_signed {sign : Bytes → Option Bytes} (hkey : ticker.kesSk = some sign)
    {header header' : BlockHeader} :
    ticker.signHeader header = .ok header' ↔
      ∃ kesSig, sign header.canonicalBytes = some kesSig ∧ header' = { header with kesSig := kesSig } := by
  rw [signHeader, hkey]
  show (okOr (sign header.canonicalBytes) _ >>= _) = _ ↔ _
  rw [okOr_bind_eq_ok]
  simp only [pure_eq_ok, @eq_comm _ header']

/-- **A signed block is an unsigned one with a signature of its header.** -/
theorem produceBlock_signed {sign : Bytes → Option Bytes} (hkey : ticker.kesSk = some sign) :
    ticker.produceBlock s slot vrfProof now = .ok block ↔
      ∃ base kesSig, ticker.withoutSigning.produceBlock s slot vrfProof now = .ok base ∧
        sign base.header.canonicalBytes = some kesSig ∧
        block = ⟨{ base.header with kesSig := kesSig }, base.transactions⟩ := by
  have hprepend (height : Height) (txs : List Transaction) :
      ticker.withoutSigning.prependCoinbase s.utxoStore height txs = ticker.prependCoinbase s.utxoStore height txs := rfl
  have hunsigned (header header' : BlockHeader) :
      ticker.withoutSigning.signHeader header = .ok header' ↔ header = header' := by
    show Except.ok header = Except.ok header' ↔ _
    rw [Except.ok.injEq]
  unfold produceBlock
  simp only [bind_eq_ok, okOr_eq_ok, mapError_eq_ok, pure_eq_ok, hprepend, hunsigned, signHeader_signed hkey]
  constructor
  · intro h
    obtain ⟨height, hheight, txs, htxs, commitment, hcommitment, _, ⟨kesSig, hsign, rfl⟩, u, hvalid, rfl⟩ := h
    exact ⟨_, kesSig, ⟨height, hheight, txs, htxs, commitment, hcommitment, _, rfl, u, hvalid, rfl⟩, hsign, rfl⟩
  · intro h
    obtain ⟨_, kesSig, ⟨height, hheight, txs, htxs, commitment, hcommitment, _, rfl, u, hvalid, rfl⟩, hsign, rfl⟩ := h
    exact ⟨height, hheight, txs, htxs, commitment, hcommitment, _, ⟨kesSig, hsign, rfl⟩, u, hvalid, rfl⟩

private theorem produceBlock_unsigned (hok : ticker.withoutSigning.produceBlock s slot vrfProof now = .ok block) :
    block.header.kesSig = [] ∧ block.header.slot = slot ∧ block.header.producerKeyHash = sha3_256 ticker.poolId.bytes := by
  unfold produceBlock at hok
  simp only [bind_eq_ok, okOr_eq_ok, mapError_eq_ok, pure_eq_ok] at hok
  obtain ⟨height, -, txs, -, commitment, -, header, hsigned, -, -, rfl⟩ := hok
  cases hsigned
  exact ⟨rfl, rfl, rfl⟩

end SlotTicker

/-! ### What is verified -/

variable [Crypto] {pools : List StakePool} {pool : StakePool} {clock : SlotClock} {header : BlockHeader}

theorem findProducer_eq_ok {keyHash : Hash256} (hdistinct : (pools.map StakePool.id).Nodup)
    (h : findProducer pools keyHash = .ok pool) : pool ∈ pools ∧ sha3_256 pool.vrfKey = keyHash := by
  obtain ⟨id, hid, h⟩ := okOr_bind_eq_ok.mp h
  rw [okOr_eq_ok] at h
  obtain ⟨found, hfound, rfl⟩ := Option.map_eq_some_iff.mp hid
  have hsame : pool.id = found.id := by simpa using List.find?_some h
  have hpool : pool = found :=
    List.inj_on_of_nodup_map hdistinct (List.mem_of_find?_eq_some h) (List.mem_of_find?_eq_some hfound) hsame
  refine ⟨List.mem_of_find?_eq_some h, ?_⟩
  rw [hpool]
  simpa using List.find?_some hfound

private theorem dilithiumSumKesVerifier_eq_ok {kesPk message signature : Bytes} {expectedKesPeriod : UInt32}
    {sig : KesSignature}
    (hdecode : KesSignature.decode signature = some sig)
    (h : dilithiumSumKesVerifier kesPk expectedKesPeriod message signature = .ok ()) :
    sig.period = expectedKesPeriod ∧ ∃ pk, Kes.Accepted pk sig message := by
  obtain ⟨pk, -, h⟩ := okOr_bind_eq_ok.mp h
  obtain ⟨sig', hsig', h⟩ := okOr_bind_eq_ok.mp h
  cases hdecode.symm.trans hsig'
  obtain ⟨hperiod, h⟩ := require_bind_eq_ok.mp h
  obtain ⟨valid, hvalid, h⟩ := okOr_bind_eq_ok.mp h
  cases require_eq_ok.mp h
  exact ⟨hperiod, pk, .of_verify hvalid⟩

private theorem validateBlockHeader_eq_ok {ctx : BlockValidationContext} {vrf : VrfEvaluator} {kes : KesVerifier}
    (h : validateBlockHeader header ctx vrf kes = .ok ()) :
    ∃ pool, findProducer ctx.pools header.producerKeyHash = .ok pool ∧
      checkKesSignature ctx.clock kes pool header = .ok () := by
  obtain ⟨-, h⟩ := require_bind_eq_ok.mp h
  obtain ⟨-, h⟩ := require_bind_eq_ok.mp h
  obtain ⟨-, h⟩ := require_bind_eq_ok.mp h
  obtain ⟨-, h⟩ := require_bind_eq_ok.mp h
  obtain ⟨_, -, h⟩ := bind_eq_ok.mp h
  obtain ⟨pool, hpool, h⟩ := bind_eq_ok.mp h
  obtain ⟨isLeader, -, h⟩ := bind_eq_ok.mp h
  obtain ⟨-, hcheck⟩ := require_bind_eq_ok.mp h
  exact ⟨pool, hpool, hcheck⟩

variable [Signing]

/-- The signature library accepts the signature it has made for one message for another one. -/
def MistakesMessage (level : DilithiumLevel) (kp : PqcKeyPair) (signed verified : Bytes) : Prop :=
  signed ≠ verified ∧ mlDsaVerify level kp.publicKey verified (mlDsaSign level kp.secretKey signed) = true

/-- A header that carries a signature of its unsigned form. -/
structure SignedHeader (sk : KesSecretKey) (kp : PqcKeyPair) (header : BlockHeader) : Prop where
  signature : ∃ sig, Kes.SignedBy sk header.unsigned.canonicalBytes kp sig ∧ header.kesSig = sig.encode

variable {sk : KesSecretKey} {kp : PqcKeyPair}

theorem SignedHeader.bytes_ne (h : SignedHeader sk kp header) :
    header.canonicalBytes ≠ header.unsigned.canonicalBytes := by
  obtain ⟨sig, -, hbytes⟩ := h.signature
  apply BlockHeader.canonicalBytes_ne_unsigned
  rw [hbytes]
  exact sig.encode_ne_nil

/-- **The check of a signed header passes only by mistake:** the leaf's signature is one of other bytes. -/
theorem SignedHeader.mistakes (h : SignedHeader sk kp header)
    (hcheck : checkKesSignature clock dilithiumSumKesVerifier pool header = .ok ()) :
    MistakesMessage Kes.leafLevel kp (Kes.periodBoundMessage sk.period header.unsigned.canonicalBytes)
      (Kes.periodBoundMessage sk.period header.canonicalBytes) := by
  obtain ⟨sig, hsigned, hbytes⟩ := h.signature
  obtain ⟨period, -, hcheck⟩ := okOr_bind_eq_ok.mp hcheck
  rw [hbytes] at hcheck
  obtain ⟨-, pk, haccepted⟩ := dilithiumSumKesVerifier_eq_ok hsigned.decode_encode hcheck
  have hleaf := haccepted.leaf
  rw [hsigned.leafPk_eq, hsigned.period_eq, (Kes.signPqc_eq_some hsigned.leafSignature_eq).1] at hleaf
  refine ⟨?_, hleaf⟩
  intro heq
  exact h.bytes_ne (List.append_cancel_left heq).symm

private theorem SignedHeader.mistakes_of_validate {ctx : BlockValidationContext} {vrf : VrfEvaluator}
    (h : SignedHeader sk kp header)
    (hvalid : validateBlockHeader header ctx vrf dilithiumSumKesVerifier = .ok ()) :
    MistakesMessage Kes.leafLevel kp (Kes.periodBoundMessage sk.period header.unsigned.canonicalBytes)
      (Kes.periodBoundMessage sk.period header.canonicalBytes) := by
  obtain ⟨pool, -, hcheck⟩ := validateBlockHeader_eq_ok hvalid
  exact h.mistakes hcheck

/-! ### Produced headers -/

/-- What a produced header is meant to satisfy: the validator finds the pool, its signature check passes, and the bytes it checks are the bytes that were signed. -/
structure HeaderValidates (pools : List StakePool) (clock : SlotClock) (pool : StakePool) (header : BlockHeader) : Prop where
  producer : findProducer pools header.producerKeyHash = .ok pool
  signature : checkKesSignature clock dilithiumSumKesVerifier pool header = .ok ()
  bytes_eq : header.canonicalBytes = header.unsigned.canonicalBytes

variable {ticker : SlotTicker} {s : NodeState} {slot : Slot} {vrfProof : Bytes} {now : Timestamp} {block : Block}

theorem SignedHeader.of_produceBlock (hok : (ticker.withKesSigning sk).produceBlock s slot vrfProof now = .ok block) :
    block.header.producerKeyHash = sha3_256 ticker.poolId.bytes ∧ ∃ kp, SignedHeader sk kp block.header := by
  obtain ⟨base, kesSig, hbase, hsign, rfl⟩ := (SlotTicker.produceBlock_signed rfl).mp hok
  obtain ⟨hempty, -, hproducer⟩ := SlotTicker.produceBlock_unsigned hbase
  obtain ⟨sig, hsig, hencode⟩ := Option.map_eq_some_iff.mp hsign
  obtain ⟨kp, hsigned⟩ := Kes.SignedBy.of_sign hsig
  have hunsigned : BlockHeader.unsigned { base.header with kesSig := kesSig } = base.header := by
    rw [BlockHeader.unsigned]
    dsimp only
    rw [← hempty]
  exact ⟨hproducer, kp, sig, hunsigned.symm ▸ hsigned, hencode.symm⟩

/-- **No produced header validates.** The bytes that were signed are never the bytes that are checked, so that the signature check passes only if the library accepts a signature of another message. The pool is found only if the hash of its VRF key is the hash of its id. -/
theorem producedHeader_never_validates (clock : SlotClock) (hdistinct : (pools.map StakePool.id).Nodup)
    (hid : ticker.poolId = pool.id) (hok : (ticker.withKesSigning sk).produceBlock s slot vrfProof now = .ok block) :
    ¬ HeaderValidates pools clock pool block.header ∧
      (findProducer pools block.header.producerKeyHash = .ok pool → sha3_256 pool.vrfKey = sha3_256 pool.id.bytes) ∧
      (checkKesSignature clock dilithiumSumKesVerifier pool block.header = .ok () →
        ∃ kp, MistakesMessage Kes.leafLevel kp
          (Kes.periodBoundMessage sk.period block.header.unsigned.canonicalBytes)
          (Kes.periodBoundMessage sk.period block.header.canonicalBytes)) := by
  obtain ⟨hproducer, kp, hsigned⟩ := SignedHeader.of_produceBlock hok
  refine ⟨?_, ?_, ?_⟩
  · intro hvalid
    exact hsigned.bytes_ne hvalid.bytes_eq
  · intro hfound
    rw [← hid, ← hproducer]
    exact (findProducer_eq_ok hdistinct hfound).2
  · intro hcheck
    exact ⟨kp, hsigned.mistakes hcheck⟩

/-- **A produced block passes the consensus validator only by mistake**, whatever the context and the leadership function. -/
theorem producedBlock_mistakes {ctx : BlockValidationContext} {vrf : VrfEvaluator}
    (hok : (ticker.withKesSigning sk).produceBlock s slot vrfProof now = .ok block)
    (hvalid : validateBlock block ctx vrf dilithiumSumKesVerifier = .ok ()) :
    ∃ kp, MistakesMessage Kes.leafLevel kp (Kes.periodBoundMessage sk.period block.header.unsigned.canonicalBytes)
      (Kes.periodBoundMessage sk.period block.header.canonicalBytes) := by
  obtain ⟨-, kp, hsigned⟩ := SignedHeader.of_produceBlock hok
  obtain ⟨_, -, hheader⟩ := bind_eq_ok.mp hvalid
  exact ⟨kp, hsigned.mistakes_of_validate hheader⟩

omit [Crypto] [Signing] in
theorem length_padded (h : Hash256) {n : Nat} (hn : 32 ≤ n) : (h.bytes ++ List.replicate (n - 32) (0 : UInt8)).length = n := by
  rw [List.length_append, h.length_eq, List.length_replicate]
  omega

/-- Signatures for small examples: a padded digest of the message. -/
@[reducible] def sampleSigning : Signing where
  mlDsaKeyGen level seed :=
    (seed.bytes ++ List.replicate (level.publicKeyBytes - 32) 0, List.replicate level.secretKeyBytes 0)
  mlDsaSign level _ message := (sampleDigest message).bytes ++ List.replicate (level.signatureBytes - 32) 0

@[reducible] def signingCrypto : Crypto where
  sha3_256 := sampleDigest
  blake3 := sampleDigest
  mlDsaVerify level _ message signature :=
    signature == (sampleDigest message).bytes ++ List.replicate (level.signatureBytes - 32) 0

omit [Crypto] [Signing] in
theorem leafSigning_sample : @Kes.LeafSigning signingCrypto sampleSigning := by
  apply @Kes.LeafSigning.of_lengths signingCrypto sampleSigning
  · intro seed
    exact length_padded seed (by decide)
  · intro seed
    exact List.length_replicate
  · intro secretKey message
    exact length_padded (sampleDigest message) (by decide)
  · intro seed message
    exact beq_self_eq_true _

/-- A registered pool with the given signature key. Its id is the hash of its VRF key. -/
def samplePool (kesKey : Bytes) : StakePool where
  id := sampleDigest (List.replicate 32 7)
  vrfKey := List.replicate 32 7
  kesKey := kesKey
  pledge := 1000000
  marginNum := 5
  marginDen := 100
  fixedCost := 340000000
  active := true

def sampleTicker : SlotTicker := ⟨(samplePool []).id, none, none⟩

omit [Crypto] [Signing] in
/-- A fresh key signs a block of the pool on a fresh node. -/
theorem produceBlock_sample {sk : KesSecretKey} (hperiod : sk.period = 0) (hseeds : sk.leafSeeds.length = 2048) :
    ∃ block, @SlotTicker.produceBlock signingCrypto (@SlotTicker.withKesSigning signingCrypto sampleSigning sampleTicker sk)
      (sampleNode .mainnet) 1 [] 2 = .ok block := by
  let crypto := signingCrypto
  let signing := sampleSigning
  obtain ⟨base, hbase⟩ : ∃ base, sampleTicker.withoutSigning.produceBlock (sampleNode .mainnet) 1 [] 2 = .ok base :=
    isOk_iff.mp (by decide +kernel)
  have hopen : sk.period < Kes.totalPeriods := by
    rw [hperiod]
    decide
  have hseed : sk.period.toNat < sk.leafSeeds.length := by
    rw [hperiod, hseeds]
    decide
  obtain ⟨sig, hsig⟩ := Kes.sign_isSome leafSigning_sample hopen hseed base.header.canonicalBytes
  refine ⟨_, (SlotTicker.produceBlock_signed rfl).mpr ⟨base, sig.encode, hbase, ?_, rfl⟩⟩
  rw [hsig]
  rfl

omit [Crypto] [Signing] in
theorem producedHeader_never_validates_sample :
    ∃ sk block, @SlotTicker.produceBlock signingCrypto
        (@SlotTicker.withKesSigning signingCrypto sampleSigning sampleTicker sk) (sampleNode .mainnet) 1 [] 2 = .ok block ∧
      ¬ @HeaderValidates signingCrypto [samplePool []] (.new .mainnet 0) (samplePool []) block.header := by
  obtain ⟨root, sk, -, hperiod, hseeds⟩ := @Kes.generate_isSome signingCrypto sampleSigning leafSigning_sample .zero
  obtain ⟨block, hblock⟩ := produceBlock_sample hperiod hseeds
  refine ⟨sk, block, hblock, ?_⟩
  exact (@producedHeader_never_validates signingCrypto [samplePool []] (samplePool []) sampleSigning sk sampleTicker _ _ _
    _ block (.new .mainnet 0) (by decide) rfl hblock).1

/-- The key is the pool's own: it was generated and advanced from a seed, and the pool has registered its root. -/
def HoldsKesKey (pool : StakePool) (sk : KesSecretKey) : Prop :=
  ∃ masterSeed periods root fresh, Kes.generate masterSeed = some (root, fresh) ∧ Kes.evolveBy periods fresh = some sk ∧
    pool.kesKey = root.bytes

/-- Everyone is elected: the function always gives zero. -/
def sampleVrf : VrfEvaluator := ⟨fun _ => .ok (.zero, []), fun _ _ _ => .ok .zero⟩

omit [Crypto] [Signing] in
/-- **The validator does not know the producer.** The pool is registered and elected, and signs with its own key in the key's own period; the hash in the header is that of the pool's id, and no registered VRF key has it. -/
theorem producedHeader_rejected :
    ¬ ∀ (_ : Crypto) (_ : Signing) (vrf : VrfEvaluator) (nonce : EpochNonce) (dist : StakeDistribution)
        (pools : List StakePool) (pool : StakePool) (clock : SlotClock) (sk : KesSecretKey) (ticker : SlotTicker)
        (s : NodeState) (slot : Slot) (output : VrfOutput) (vrfProof : Bytes) (now : Timestamp) (block : Block),
      Kes.LeafSigning → (pools.map StakePool.id).Nodup → pool ∈ pools → (∀ p ∈ pools, p.id = sha3_256 p.vrfKey) →
        HoldsKesKey pool sk → clock.slotToKesPeriod slot = some sk.period → ticker.poolId = pool.id →
          checkLeadership vrf pool.id nonce slot dist = .ok (some (output, vrfProof)) →
            (ticker.withKesSigning sk).produceBlock s slot vrfProof now = .ok block →
              HeaderValidates pools clock pool block.header := by
  intro hclaim
  let crypto := signingCrypto
  let signing := sampleSigning
  obtain ⟨root, sk, hgenerate, hperiod, hseeds⟩ := Kes.generate_isSome leafSigning_sample .zero
  obtain ⟨block, hblock⟩ := produceBlock_sample hperiod hseeds
  let pool := samplePool root.bytes
  have hkey : HoldsKesKey pool sk := ⟨.zero, 0, root, sk, hgenerate, rfl, rfl⟩
  have helected : @checkLeadership signingCrypto sampleVrf sampleTicker.poolId .zero 1
      ⟨0, (∅ : Std.ExtTreeMap PoolId UInt64).insert sampleTicker.poolId 1, 1⟩ = .ok (some (.zero, [])) := by
    decide +kernel
  have hids : ∀ p ∈ [pool], p.id = sha3_256 p.vrfKey := by
    intro p hp
    cases List.mem_singleton.mp hp
    rfl
  have hvalid := hclaim signingCrypto sampleSigning sampleVrf .zero _ [pool] pool (.new .mainnet 0) sk sampleTicker
    (sampleNode .mainnet) 1 .zero [] 2 block leafSigning_sample (List.nodup_singleton pool.id) List.mem_cons_self hids hkey
    (by rw [hperiod]; decide) rfl helected hblock
  have hfound := (findProducer_eq_ok (show ([pool].map StakePool.id).Nodup from List.nodup_singleton pool.id) hvalid.producer).2
  rw [(SignedHeader.of_produceBlock hblock).1] at hfound
  have hdiffers : sampleDigest (samplePool []).vrfKey ≠ sampleDigest sampleTicker.poolId.bytes := by decide +kernel
  exact hdiffers hfound

end QuantumVault
