import QuantumVault.Proof.Consensus.HeaderSignature
import QuantumVault.Proof.Consensus.KesTree

/-!
# Key-evolving signatures over a run

A key is signed with and advanced in any order. After some number of advances the key is the fresh one with exactly that many seeds overwritten, so its signatures verify, none of them is for a period that was left, and none is for another leaf unless the hash collides.
-/

namespace QuantumVault

inductive KesCall where
  | sign (msg : Bytes)
  | evolve
deriving DecidableEq

namespace Kes

variable [Crypto] [Signing]

/-! ### Runs -/

/-- The key after a call. A call that fails leaves the key as it is. -/
def afterCall (sk : KesSecretKey) : KesCall → KesSecretKey
  | .sign _ => sk
  | .evolve => (evolve sk).getD sk

def afterCalls (sk : KesSecretKey) (calls : List KesCall) : KesSecretKey := calls.foldl afterCall sk

def signatures : KesSecretKey → List KesCall → List (Bytes × KesSignature)
  | _, [] => []
  | sk, .sign msg :: calls => (sign sk msg).toList.map (msg, ·) ++ signatures sk calls
  | sk, .evolve :: calls => signatures (afterCall sk .evolve) calls

/-! ### The key at a period -/

/-- The fresh key after that many advances: the seeds of the periods before are overwritten, and nothing else is. -/
structure KeyAt (keyPair : Hash256 → PqcKeyPair) (masterSeed : Hash256) (periods : Nat) (sk : KesSecretKey) : Prop where
  le : periods ≤ 2048
  period : sk.period.toNat = periods
  leafPkHashes : sk.leafPkHashes = freshHashes keyPair masterSeed
  seed : ∀ i < 2048, sk.leafSeeds[i]? = some (if i < periods then .zero else deriveLeafSeed masterSeed (UInt32.ofNat i))

variable {keyPair : Hash256 → PqcKeyPair} {masterSeed : Hash256} {periods : Nat} {sk : KesSecretKey} {msg : Bytes}
  {sig : KesSignature}

omit [Signing] in
theorem getElem?_freshSeeds {i : Nat} (h : i < 2048) :
    (freshSeeds masterSeed)[i]? = some (deriveLeafSeed masterSeed (UInt32.ofNat i)) := by
  rw [freshSeeds, List.getElem?_map, List.getElem?_range (show i < totalPeriods.toNat from h), Option.map_some]

omit [Signing] in
theorem length_freshHashes : (freshHashes keyPair masterSeed).length = 2 ^ treeDepth := by
  rw [freshHashes, List.length_map, length_freshSeeds]
  decide

omit [Signing] in
private theorem getElem?_freshHashes {i : Nat} (h : i < 2048) : (freshHashes keyPair masterSeed)[i]? =
    some (leafPkHash (keyPair (deriveLeafSeed masterSeed (UInt32.ofNat i))).publicKey) := by
  rw [freshHashes, List.getElem?_map, getElem?_freshSeeds h, Option.map_some]

omit [Signing] in
theorem KeyAt.fresh :
    KeyAt keyPair masterSeed 0 ⟨0, freshSeeds masterSeed, freshHashes keyPair masterSeed⟩ := by
  refine ⟨Nat.zero_le _, rfl, by dsimp only, ?_⟩
  intro i hi
  rw [if_neg (Nat.not_lt_zero i), getElem?_freshSeeds hi]

omit [Signing] in
theorem KeyAt.isExhausted_iff (h : KeyAt keyPair masterSeed periods sk) : sk.isExhausted = true ↔ periods = 2048 := by
  have hle := h.le
  have htotal : totalPeriods.toNat = 2048 := by decide
  rw [KesSecretKey.isExhausted, decide_eq_true_iff, UInt32.le_iff_toNat_le, h.period, htotal]
  omega

omit [Signing] in
/-- An advance overwrites one more seed, until all are. -/
theorem KeyAt.evolve (h : KeyAt keyPair masterSeed periods sk) :
    KeyAt keyPair masterSeed (min (periods + 1) 2048) (afterCall sk .evolve) := by
  have hle := h.le
  by_cases hlast : periods = 2048
  · have hkept : afterCall sk .evolve = sk := by
      rw [afterCall, Kes.evolve, if_pos (h.isExhausted_iff.mpr hlast)]
      rfl
    have hmin : min (periods + 1) 2048 = periods := by omega
    rw [hkept, hmin]
    exact h
  · have hnext : afterCall sk .evolve =
        { sk with period := sk.period + 1, leafSeeds := sk.leafSeeds.set sk.period.toNat .zero } := by
      rw [afterCall, Kes.evolve, if_neg (mt h.isExhausted_iff.mp hlast)]
      rfl
    have hmin : min (periods + 1) 2048 = periods + 1 := by omega
    rw [hnext, hmin]
    refine ⟨by omega, ?_, h.leafPkHashes, ?_⟩
    · show (sk.period + 1).toNat = periods + 1
      rw [UInt32.toNat_add, h.period]
      show (periods + 1) % 2 ^ 32 = periods + 1
      omega
    · intro i hi
      show (sk.leafSeeds.set sk.period.toNat .zero)[i]? = _
      have hseed := h.seed i hi
      by_cases hcurrent : i = periods
      · obtain ⟨hlt, -⟩ := List.getElem?_eq_some_iff.mp hseed
        rw [hcurrent] at hlt
        rw [h.period, hcurrent, List.getElem?_set_self hlt, if_pos (Nat.lt_succ_self periods)]
      · have hiff : i < periods + 1 ↔ i < periods := by omega
        rw [h.period, List.getElem?_set_ne (Ne.symm hcurrent), hseed]
        simp only [hiff]

/-! ### One signature -/

/-- **A signature of the key verifies**, and is for the period the key is at. -/
theorem KeyAt.verify_sign (hleaf : LeafSigning) (hkeyPair : ∀ seed, fromSeedPqc leafLevel seed = some (keyPair seed))
    (h : KeyAt keyPair masterSeed periods sk) (hsign : sign sk msg = some sig) :
    sig.period.toNat = periods ∧ periods < 2048 ∧
      verify (merkleRootFromLeaves (freshHashes keyPair masterSeed)) sig msg = some true := by
  obtain ⟨kp, hsigned⟩ := SignedBy.of_sign hsign
  have hopen : periods < 2048 := by
    have hne : periods ≠ 2048 := by
      intro hlast
      rw [sign, if_pos (h.isExhausted_iff.mpr hlast)] at hsign
      cases hsign
    have hle := h.le
    omega
  have hperiod : sig.period.toNat = periods := by rw [hsigned.period_eq, h.period]
  refine ⟨hperiod, hopen, ?_⟩
  obtain ⟨seed, hseed, hkp⟩ := hsigned.keyPair
  have hpk : PqcPublicKey.fromBytes leafLevel sig.leafPk = some sig.leafPk := by
    rw [PqcPublicKey.fromBytes, if_neg (not_not.mpr (hsigned.leafPk_eq ▸ length_fromSeedPqc hkp))]
  obtain ⟨signature, hsignature, hvalid⟩ := hleaf.signature seed kp (periodBoundMessage sk.period msg) hkp
  obtain rfl : signature = sig.leafSignature := Option.some.inj (hsignature.symm.trans hsigned.leafSignature_eq)
  have hbytes : PqcSignature.fromBytes leafLevel sig.leafSignature = some sig.leafSignature := by
    obtain ⟨heq, -⟩ := signPqc_eq_some hsignature
    rw [signPqc] at hsignature
    split at hsignature
    · cases hsignature
    · rw [← heq] at hsignature
      exact hsignature
  have hpath : sig.merklePath = merklePathFor treeDepth (freshHashes keyPair masterSeed) periods := by
    rw [hsigned.merklePath_eq, h.leafPkHashes, h.period]
  have hhash : leafPkHash sig.leafPk = (freshHashes keyPair masterSeed).getD periods .zero := by
    have hcurrent := h.seed periods hopen
    rw [if_neg (Nat.lt_irrefl periods), ← h.period, hseed, Option.some_inj, h.period] at hcurrent
    rw [List.getD_eq_getElem?_getD, getElem?_freshHashes hopen, Option.getD_some, hsigned.leafPk_eq, ← hcurrent]
    rw [hkeyPair, Option.some_inj] at hkp
    rw [hkp]
  have hroot : merkleRootFromPath (leafPkHash sig.leafPk) sig.period.toNat sig.merklePath =
      merkleRootFromLeaves (freshHashes keyPair masterSeed) := by
    rw [hperiod, hpath, hhash]
    exact merkleRootFromPath_merklePathFor length_freshHashes hopen
  have hlt : sig.period < totalPeriods := by
    rw [UInt32.lt_iff_toNat_lt, hperiod]
    exact hopen
  refine verify_eq_some_true hlt hsigned.length_path hpk hbytes ?_ hroot
  rw [hsigned.leafPk_eq, hsigned.period_eq]
  exact hvalid

theorem KeyAt.sign_isSome (hleaf : LeafSigning) (h : KeyAt keyPair masterSeed periods sk) (hopen : periods < 2048)
    (msg : Bytes) : ∃ sig, sign sk msg = some sig := by
  have hlt : sk.period < totalPeriods := by
    rw [UInt32.lt_iff_toNat_lt, h.period]
    exact hopen
  obtain ⟨hseed, -⟩ := List.getElem?_eq_some_iff.mp (h.seed periods hopen)
  exact Kes.sign_isSome hleaf hlt (h.period ▸ hseed) msg

/-! ### Runs of a key -/

omit [Signing] in
theorem KeyAt.afterCalls (h : KeyAt keyPair masterSeed periods sk) (calls : List KesCall) :
    KeyAt keyPair masterSeed (min (periods + calls.count .evolve) 2048) (afterCalls sk calls) := by
  induction calls generalizing periods sk with
  | nil =>
      have hle := h.le
      rw [List.count_nil, Nat.add_zero, Nat.min_eq_left hle]
      exact h
  | cons call calls ih =>
      cases call with
      | sign msg =>
          rw [List.count_cons_of_ne (fun h => KesCall.noConfusion h)]
          exact ih h
      | evolve =>
          have hrest := ih h.evolve
          have hcount : min (min (periods + 1) 2048 + calls.count .evolve) 2048 =
              min (periods + (calls.count .evolve + 1)) 2048 := by omega
          rw [hcount] at hrest
          rw [List.count_cons_self]
          exact hrest

/-- **Every signature of a run verifies**, and none is for a period before the first one. -/
theorem KeyAt.signatures (hleaf : LeafSigning) (hkeyPair : ∀ seed, fromSeedPqc leafLevel seed = some (keyPair seed))
    (h : KeyAt keyPair masterSeed periods sk) {calls : List KesCall} {out : Bytes × KesSignature}
    (hout : out ∈ signatures sk calls) : periods ≤ out.2.period.toNat ∧ out.2.period.toNat < 2048 ∧
      verify (merkleRootFromLeaves (freshHashes keyPair masterSeed)) out.2 out.1 = some true := by
  induction calls generalizing periods sk with
  | nil => cases hout
  | cons call calls ih =>
      cases call with
      | sign msg =>
          rw [Kes.signatures, List.mem_append] at hout
          obtain hnow | hlater := hout
          · obtain ⟨sig, hsig, rfl⟩ := List.mem_map.mp hnow
            obtain ⟨hperiod, hopen, hverify⟩ := h.verify_sign hleaf hkeyPair (Option.mem_toList.mp hsig)
            exact ⟨hperiod.ge, hperiod.trans_lt hopen, hverify⟩
          · exact ih h hlater
      | evolve =>
          obtain ⟨hperiod, hlt, hverify⟩ := ih h.evolve hout
          have hle := h.le
          exact ⟨by omega, hlt, hverify⟩

/-! ### The generated key -/

omit [Signing] in
private theorem Accepted.leaf_binding {leaves : List Hash256} (hlength : leaves.length = 2 ^ treeDepth)
    (h : Accepted (merkleRootFromLeaves leaves) sig msg) :
    leaves[sig.period.toNat]? = some (leafPkHash sig.leafPk) ∨
      ∃ a ∈ pathInputs (leafPkHash sig.leafPk) sig.period.toNat sig.merklePath,
        ∃ b ∈ pathInputs (leaves.getD sig.period.toNat .zero) sig.period.toNat
            (merklePathFor treeDepth leaves sig.period.toNat),
          a ≠ b ∧ sha3_256 a = sha3_256 b := by
  have hlt : sig.period.toNat < 2 ^ treeDepth := UInt32.lt_iff_toNat_lt.mp h.period_lt
  obtain heq | hcollision := merkleRootFromPath_binding hlength hlt h.length_path h.root
  · have hin : sig.period.toNat < leaves.length := hlength ▸ hlt
    rw [heq, List.getD_eq_getElem?_getD, List.getElem?_eq_getElem hin, Option.getD_some]
    exact Or.inl rfl
  · exact Or.inr hcollision

/-- **A generated key signs what it is asked to, for its own periods, and only forward.** After any calls, with that many advances among them: all signatures so far verify; the key is at that period, or past the last one, and signs until then; the seeds of the periods before are overwritten; and whatever is called later, the period does not fall and no signature is for a period before. What verifies at all is from the leaf of its period, or two distinct inputs on the way from the two leaves to the root have the same hash. -/
theorem generated_key_is_forward_only (hleaf : LeafSigning) {masterSeed root : Hash256} {fresh : KesSecretKey}
    (hgenerate : generate masterSeed = some (root, fresh)) (calls later : List KesCall) :
    (∀ out ∈ signatures fresh calls, verify root out.2 out.1 = some true) ∧
      (afterCalls fresh calls).period.toNat = min (calls.count .evolve) 2048 ∧
      (calls.count .evolve < 2048 → ∀ msg, ∃ sig, sign (afterCalls fresh calls) msg = some sig ∧
        sig.period.toNat = calls.count .evolve) ∧
      (∀ i < 2048, i < calls.count .evolve → (afterCalls fresh calls).leafSeeds[i]? = some .zero) ∧
      (afterCalls fresh calls).period ≤ (afterCalls (afterCalls fresh calls) later).period ∧
      (∀ out ∈ signatures (afterCalls fresh calls) later, calls.count .evolve ≤ out.2.period.toNat) ∧
      ∀ sig msg, verify root sig msg = some true →
        fresh.leafPkHashes[sig.period.toNat]? = some (leafPkHash sig.leafPk) ∨
          ∃ a ∈ pathInputs (leafPkHash sig.leafPk) sig.period.toNat sig.merklePath,
            ∃ b ∈ pathInputs (fresh.leafPkHashes.getD sig.period.toNat .zero) sig.period.toNat
                (merklePathFor treeDepth fresh.leafPkHashes sig.period.toNat),
              a ≠ b ∧ sha3_256 a = sha3_256 b := by
  choose keyPair hkeyPair using hleaf.keyPair
  have hfresh := (generate_eq hkeyPair masterSeed).symm.trans hgenerate
  rw [Option.some_inj, Prod.mk.injEq] at hfresh
  obtain ⟨hroot, hkey⟩ := hfresh
  have hstart : KeyAt keyPair masterSeed 0 fresh := hkey ▸ KeyAt.fresh
  have hnow := hstart.afterCalls calls
  rw [Nat.zero_add] at hnow
  refine ⟨?_, hnow.period, ?_, ?_, ?_, ?_, ?_⟩
  · intro out hout
    exact hroot ▸ (hstart.signatures hleaf hkeyPair hout).2.2
  · intro hopen msg
    rw [Nat.min_eq_left hopen.le] at hnow
    obtain ⟨sig, hsig⟩ := hnow.sign_isSome hleaf hopen msg
    exact ⟨sig, hsig, (hnow.verify_sign hleaf hkeyPair hsig).1⟩
  · intro i hi hlt
    rw [hnow.seed i hi, if_pos (lt_min hlt hi)]
  · have hlater := hnow.afterCalls later
    rw [UInt32.le_iff_toNat_le, hnow.period, hlater.period]
    omega
  · intro out hout
    obtain ⟨hle, hlt, -⟩ := hnow.signatures hleaf hkeyPair hout
    omega
  · intro sig msg hverify
    have hhashes : fresh.leafPkHashes = freshHashes keyPair masterSeed := hstart.leafPkHashes
    rw [hhashes]
    rw [← hroot] at hverify
    exact (Accepted.of_verify hverify).leaf_binding length_freshHashes

omit [Crypto] [Signing] in
theorem generated_key_is_forward_only_sample :
    ∃ root fresh sig, @generate signingCrypto sampleSigning .zero = some (root, fresh) ∧
      @sign signingCrypto sampleSigning (afterCalls fresh [.evolve]) [7] = some sig ∧ sig.period.toNat = 1 ∧
      (afterCalls fresh [.evolve]).leafSeeds[0]? = some .zero ∧ @verify signingCrypto root sig [7] = some true := by
  obtain ⟨root, fresh, hgenerate, -⟩ := @generate_isSome signingCrypto sampleSigning leafSigning_sample .zero
  obtain ⟨hverify, -, hsign, hseeds, -⟩ := @generated_key_is_forward_only signingCrypto sampleSigning leafSigning_sample
    .zero root fresh hgenerate [.evolve, .sign [7]] []
  obtain ⟨sig, hsig, hperiod⟩ := hsign (by decide) [7]
  refine ⟨root, fresh, sig, hgenerate, hsig, hperiod, hseeds 0 (by decide) (by decide), ?_⟩
  refine hverify ([7], sig) (List.mem_append_left [] (List.mem_map_of_mem ?_))
  exact Option.mem_toList.mpr hsig

end Kes

end QuantumVault
