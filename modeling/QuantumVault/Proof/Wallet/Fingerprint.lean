import QuantumVault.Proof.Wallet.Address

/-!
# What a fingerprint stands for

A fingerprint hashes the spend key, the X25519 key and the Kyber key one after another. Their lengths follow from the parameter sets, but neither the parameter sets nor the lengths are hashed, and of the Kyber key no length is asked for when an address is decoded. So the same bytes are also the keys of an address with other parameter sets, as soon as they are long enough for its spend key.
-/

namespace QuantumVault

open Result

/-! ### The accepted addresses -/

section Accepted

variable {addr : PayableAddress} {text : Bytes}

/-- Some text is decoded into the address. The source has no text whose length does not fit 64 bits. -/
def IsDecoded (addr : PayableAddress) : Prop := ∃ text : Bytes, text.length < 2 ^ 64 ∧ decodeAddress text = .ok addr

private theorem StealthAddressPayload.length_of_decode {payload : StealthAddressPayload} {input rest : Bytes}
    (h : decode input = some (payload, rest)) :
    26 + payload.x25519Pk.length + payload.kyberPk.length + payload.spendPk.length ≤ input.length := by
  match input, h with
  | kyberLevel :: dilithiumLevel :: input, h =>
      obtain ⟨⟨x25519Pk, rest₁⟩, hx25519, h⟩ := Option.bind_eq_some_iff.mp h
      obtain ⟨⟨kyberPk, rest₂⟩, hkyber, h⟩ := Option.bind_eq_some_iff.mp h
      obtain ⟨⟨spendPk, rest₃⟩, hspend, h⟩ := Option.bind_eq_some_iff.mp h
      cases h
      have hx25519 := Decode.length_bytes hx25519
      have hkyber := Decode.length_bytes hkyber
      have hspend := Decode.length_bytes hspend
      rw [List.length_cons, List.length_cons]
      dsimp only
      omega

private theorem StealthAddressPayload.length_of_intoAddress {payload : StealthAddressPayload}
    (h : payload.intoAddress = .ok addr) :
    payload.x25519Pk.length = 32 ∧ payload.kyberPk = addr.viewPk.kyber ∧ payload.spendPk = addr.spendPk := by
  obtain ⟨kyberLevel, -, h⟩ := bind_eq_ok.mp h
  obtain ⟨dilithiumLevel, -, h⟩ := bind_eq_ok.mp h
  obtain ⟨x25519Pk, hx25519, h⟩ := okOr_bind_eq_ok.mp h
  have hlength : payload.x25519Pk.length = 32 := by
    by_contra hne
    rw [Hash256.ofBytes, dif_neg hne] at hx25519
    cases hx25519
  split at h
  · cases pure_eq_ok.mp h
    exact ⟨hlength, rfl, rfl⟩
  · cases h

private theorem length_encodeAddress_le (h : decodeAddress text = .ok addr) : (encodeAddress addr).length ≤ text.length := by
  obtain ⟨trimmed, htrimmed, h⟩ := okOr_bind_eq_ok.mp h
  obtain ⟨bytes, hbytes, h⟩ := bind_eq_ok.mp h
  obtain ⟨⟨payload, rest⟩, hpayload, h⟩ := okOr_bind_eq_ok.mp h
  obtain ⟨hx25519, hkyber, hspend⟩ := StealthAddressPayload.length_of_intoAddress h
  have hread := StealthAddressPayload.length_of_decode hpayload
  have hhex := Hex.length_decode_le (mapError_eq_ok.mp hbytes)
  have hfront : addressPrefix.length = 5 := rfl
  rw [Text.eq_append_of_stripPrefix htrimmed, List.length_append, length_encodeAddress, ← hkyber, ← hspend]
  omega

theorem isDecoded_iff : IsDecoded addr ↔ (encodeAddress addr).length < 2 ^ 64 := by
  refine ⟨fun h => ?_, fun hfits => ⟨encodeAddress addr, hfits, decodeAddress_encodeAddress hfits⟩⟩
  obtain ⟨text, hfits, hdecode⟩ := h
  exact (length_encodeAddress_le hdecode).trans_lt hfits

end Accepted

/-! ### The keys as one string -/

namespace PayableAddress

variable {a b : PayableAddress}

/-- The part of the hashed bytes that differs between addresses. -/
def keyBytes (addr : PayableAddress) : Bytes := addr.spendPk ++ (addr.viewPk.x25519.bytes ++ addr.viewPk.kyber)

private theorem fingerprintInput_eq_iff : fingerprintInput a = fingerprintInput b ↔ a.keyBytes = b.keyBytes := by
  simp only [fingerprintInput, keyBytes, List.append_assoc]
  exact List.append_right_inj _

theorem length_keyBytes (addr : PayableAddress) :
    addr.keyBytes.length = addr.spendLevel.publicKeyBytes + 32 + addr.viewPk.kyber.length := by
  rw [keyBytes, List.length_append, List.length_append, addr.length_spendPk, addr.viewPk.x25519.length_eq, Nat.add_assoc]

theorem eq_of_keyBytes_eq (hkeys : a.keyBytes = b.keyBytes) (hspend : a.spendLevel = b.spendLevel)
    (hview : a.viewPk.level = b.viewPk.level) : a = b := by
  obtain ⟨⟨⟨x25519, kyber, level⟩, spendPk⟩, spendLevel, hlength⟩ := a
  obtain ⟨⟨⟨x25519', kyber', level'⟩, spendPk'⟩, spendLevel', hlength'⟩ := b
  cases hspend
  cases hview
  obtain ⟨rfl, hrest⟩ := List.append_inj hkeys (hlength.trans hlength'.symm)
  obtain ⟨hx25519, rfl⟩ := List.append_inj hrest (x25519.length_eq.trans x25519'.length_eq.symm)
  cases Hash256.ext hx25519
  rfl

/-- The Kyber key has the length of its parameter set. -/
def KyberFits (addr : PayableAddress) : Prop := addr.viewPk.kyber.length = addr.viewPk.level.kyberPublicKeyBytes

/-- The lengths of the spend keys and those of the Kyber keys have nine different sums. -/
theorem levels_eq_of_length {spend spend' : DilithiumLevel} {view view' : KyberLevel}
    (h : spend.publicKeyBytes + view.kyberPublicKeyBytes = spend'.publicKeyBytes + view'.kyberPublicKeyBytes) :
    spend = spend' ∧ view = view' := by
  cases spend <;> cases spend' <;> cases view <;> cases view' <;> first
    | exact ⟨rfl, rfl⟩
    | exact absurd h (by decide)

theorem KyberFits.eq (ha : a.KyberFits) (hb : b.KyberFits) (hkeys : a.keyBytes = b.keyBytes) : a = b := by
  have hlength := congrArg List.length hkeys
  rw [length_keyBytes, length_keyBytes, show a.viewPk.kyber.length = _ from ha, show b.viewPk.kyber.length = _ from hb]
    at hlength
  rw [Nat.add_right_comm, Nat.add_right_comm b.spendLevel.publicKeyBytes, Nat.add_right_cancel_iff] at hlength
  obtain ⟨hspend, hview⟩ := levels_eq_of_length hlength
  exact eq_of_keyBytes_eq hkeys hspend hview

private theorem length_spendPart {spend : DilithiumLevel} (hlong : spend.publicKeyBytes + 32 ≤ a.keyBytes.length) :
    (a.keyBytes.take spend.publicKeyBytes).length = spend.publicKeyBytes := by
  rw [List.length_take]
  omega

private theorem length_x25519Part {spend : DilithiumLevel} (hlong : spend.publicKeyBytes + 32 ≤ a.keyBytes.length) :
    ((a.keyBytes.drop spend.publicKeyBytes).take 32).length = 32 := by
  rw [List.length_take, List.length_drop]
  omega

/-- The same bytes as keys of other parameter sets. What the first two keys leave over is taken for the Kyber key. -/
def resplit (addr : PayableAddress) (spend : DilithiumLevel) (view : KyberLevel)
    (hlong : spend.publicKeyBytes + 32 ≤ addr.keyBytes.length) : PayableAddress where
  viewPk := ⟨⟨(addr.keyBytes.drop spend.publicKeyBytes).take 32, length_x25519Part hlong⟩,
    (addr.keyBytes.drop spend.publicKeyBytes).drop 32, view⟩
  spendPk := addr.keyBytes.take spend.publicKeyBytes
  spendLevel := spend
  length_spendPk := length_spendPart hlong

private theorem keyBytes_resplit {spend : DilithiumLevel} {view : KyberLevel}
    (hlong : spend.publicKeyBytes + 32 ≤ a.keyBytes.length) : (a.resplit spend view hlong).keyBytes = a.keyBytes := by
  show a.keyBytes.take _ ++ ((a.keyBytes.drop _).take 32 ++ (a.keyBytes.drop _).drop 32) = _
  rw [List.take_append_drop, List.take_append_drop]

private theorem isDecoded_of_keyBytes_eq (ha : IsDecoded a) (hkeys : b.keyBytes = a.keyBytes) : IsDecoded b := by
  have hlength := congrArg List.length hkeys
  rw [length_keyBytes, length_keyBytes] at hlength
  rw [isDecoded_iff, length_encodeAddress, a.length_spendPk] at ha
  rw [isDecoded_iff, length_encodeAddress, b.length_spendPk]
  omega

end PayableAddress

open PayableAddress

/-- **Which addresses share the bytes behind a fingerprint.** Among the accepted addresses of two parameter sets, an accepted address is alone with its bytes exactly if these are its own parameter sets, or the bytes are too few for a spend key and an X25519 key. It is alone among all addresses whose Kyber keys have the length of their parameter set, if its own has. -/
theorem fingerprint_identifies_iff (a : PayableAddress) (ha : IsDecoded a) (spend : DilithiumLevel) (view : KyberLevel) :
    ((∀ b, IsDecoded b → b.spendLevel = spend → b.viewPk.level = view → fingerprintInput b = fingerprintInput a → b = a) ↔
      (spend = a.spendLevel ∧ view = a.viewPk.level) ∨ a.keyBytes.length < spend.publicKeyBytes + 32) ∧
    ∀ b, IsDecoded b → a.KyberFits → b.KyberFits → fingerprintInput b = fingerprintInput a → b = a := by
  simp only [fingerprintInput_eq_iff]
  refine ⟨⟨fun halone => ?_, fun hcond b _ hspend hview hkeys => ?_⟩, fun b _ ha hb hkeys => hb.eq ha hkeys⟩
  · by_contra hcond
    rw [not_or, not_lt] at hcond
    obtain ⟨hother, hlong⟩ := hcond
    have hkeys : (a.resplit spend view hlong).keyBytes = a.keyBytes := keyBytes_resplit hlong
    have heq := halone _ (isDecoded_of_keyBytes_eq ha hkeys) rfl rfl hkeys
    exact hother ⟨congrArg spendLevel heq, congrArg (fun addr => addr.viewPk.level) heq⟩
  · rcases hcond with hown | hshort
    · exact eq_of_keyBytes_eq hkeys (hspend.trans hown.1) (hview.trans hown.2)
    · rw [← hkeys, length_keyBytes, hspend] at hshort
      omega

theorem isDecoded_sampleAddress : IsDecoded sampleAddress := by
  rw [isDecoded_iff, length_encodeAddress_sample]
  decide

/-- Zero keys of the largest parameter sets. -/
def largestAddress : PayableAddress where
  viewPk := ⟨.zero, List.replicate 1568 0, .level5⟩
  spendPk := List.replicate 2592 0
  spendLevel := .level5
  length_spendPk := List.length_replicate

/-- The zeros of the smallest parameter sets are too few for the largest ones. -/
theorem fingerprint_identifies_sample : fingerprintInput largestAddress ≠ fingerprintInput sampleAddress := by
  intro hinput
  have hshort : sampleAddress.keyBytes.length < DilithiumLevel.level5.publicKeyBytes + 32 := by
    have hkyber : sampleAddress.viewPk.kyber.length = 800 := List.length_replicate
    rw [length_keyBytes, hkyber]
    decide
  have hdecoded : IsDecoded largestAddress := by
    have hkyber : largestAddress.viewPk.kyber.length = 1568 := List.length_replicate
    rw [isDecoded_iff, length_encodeAddress, largestAddress.length_spendPk, hkyber]
    decide
  have heq := (fingerprint_identifies_iff sampleAddress isDecoded_sampleAddress .level5 .level5).1.mpr (Or.inr hshort)
    largestAddress hdecoded rfl rfl hinput
  cases congrArg spendLevel heq

/-- The same keys under another Kyber parameter set are another address with the same fingerprint, whatever the hash. -/
theorem fingerprint_shared :
    ¬ ∀ a b : PayableAddress, IsDecoded a → IsDecoded b →
      fingerprintInput a = fingerprintInput b ∧ (∀ _ : Crypto, fingerprint a = fingerprint b) → a = b := by
  intro h
  have hdecoded : IsDecoded { sampleAddress with viewPk := { sampleAddress.viewPk with level := .level3 } } := by
    rw [isDecoded_iff, length_encodeAddress, ← length_encodeAddress sampleAddress, length_encodeAddress_sample]
    decide
  have heq := h _ _ isDecoded_sampleAddress hdecoded ⟨rfl, fun _ => rfl⟩
  cases congrArg (fun addr => addr.viewPk.level) heq

end QuantumVault
