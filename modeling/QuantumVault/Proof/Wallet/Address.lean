import QuantumVault.Proof.Privacy.Stealth
import QuantumVault.Wallet.Address

/-!
# Addresses in QR codes

An address text is decoded into the address, and what is put together from QR payloads is always an address text. The chunks are as long as the text divided by the number of parts, rounded up, so the last ones can be empty; these are left out although every payload announces them, and the payloads are then refused. All parts are there exactly when the chunks before the last one do not cover the text already.
-/

namespace QuantumVault

open Result

/-! ### The text of an address -/

section Texts

variable {addr : PayableAddress}

namespace StealthAddressPayload

theorem decode_encode {payload : StealthAddressPayload} (hx25519 : payload.x25519Pk.length < 2 ^ 64)
    (hkyber : payload.kyberPk.length < 2 ^ 64) (hspend : payload.spendPk.length < 2 ^ 64) :
    decode payload.encode = some (payload, []) := by
  have hlast := Decode.bytes_encode hspend []
  rw [List.append_nil] at hlast
  simp only [decode, encode, Encode.u8, List.append_assoc, List.cons_append, List.nil_append, Decode.u8,
    Decode.bytes_encode hx25519, Decode.bytes_encode hkyber, hlast, Option.bind_eq_bind, Option.bind_some, Option.pure_def]

private theorem intoAddress_fromAddress (addr : PayableAddress) : (fromAddress addr).intoAddress = .ok addr := by
  obtain ⟨⟨⟨x25519, kyber, level⟩, spendPk⟩, spendLevel, hlength⟩ := addr
  have hkyber : intoKyberLevel (Stealth.levelByte level) = .ok level := by cases level <;> rfl
  have hdilithium : intoDilithiumLevel (dilithiumLevelByte spendLevel) = .ok spendLevel := by cases spendLevel <;> rfl
  simp only [intoAddress, fromAddress, hkyber, hdilithium, Hash256.ofBytes_bytes, okOr_some, ok_bind]
  exact dif_pos hlength

end StealthAddressPayload

theorem length_encodeAddress (addr : PayableAddress) :
    (encodeAddress addr).length = 121 + 2 * addr.viewPk.kyber.length + 2 * addr.spendPk.length := by
  have hfront : addressPrefix.length = 5 := rfl
  have hbytes := addr.viewPk.x25519.length_eq
  simp only [encodeAddress, List.length_append, Hex.length_encode, StealthAddressPayload.encode,
    StealthAddressPayload.fromAddress, Encode.u8, Encode.length_bytes, List.length_singleton, hfront, hbytes]
  omega

theorem ascii_of_mem_encodeAddress {c : UInt8} (h : c ∈ encodeAddress addr) : c < 128 ∧ ¬ Text.IsUpper c := by
  rcases List.mem_append.mp h with h | h
  · have hfront : ∀ c ∈ addressPrefix, c < 128 ∧ ¬ Text.IsUpper c := by decide +kernel
    exact hfront c h
  · exact Hex.ascii_of_mem_encode h

/-- **An address is decoded from its text.** -/
theorem decodeAddress_encodeAddress (hfits : (encodeAddress addr).length < 2 ^ 64) :
    decodeAddress (encodeAddress addr) = .ok addr := by
  rw [length_encodeAddress] at hfits
  have hx25519 : (StealthAddressPayload.fromAddress addr).x25519Pk.length < 2 ^ 64 :=
    lt_of_eq_of_lt addr.viewPk.x25519.length_eq (by decide)
  have hdecode := StealthAddressPayload.decode_encode hx25519 (show addr.viewPk.kyber.length < 2 ^ 64 by omega) (show addr.spendPk.length < 2 ^ 64 by omega)
  rw [decodeAddress, encodeAddress, Text.stripPrefix_append, okOr_some, ok_bind, Hex.decode_encode, mapError_ok, ok_bind,
    hdecode, okOr_some, ok_bind]
  exact StealthAddressPayload.intoAddress_fromAddress addr

end Texts

/-! ### Cutting -/

section Cutting

variable {bytes : Bytes} {parts chunkLen k remaining : Nat}

def qrChunk (bytes : Bytes) (chunkLen k : Nat) : Bytes := (bytes.drop (k * chunkLen)).take chunkLen

private theorem flatMap_qrChunk (bytes : Bytes) (chunkLen parts : Nat) :
    (List.range parts).flatMap (qrChunk bytes chunkLen) = bytes.take (parts * chunkLen) := by
  induction parts with
  | zero => rw [Nat.zero_mul]; rfl
  | succ parts ih => rw [List.range_succ, List.flatMap_append, ih, List.flatMap_singleton, qrChunk, Nat.succ_mul, List.take_add]

/-- **A run of the cutting loop** makes a payload for each index until the text is used up. -/
theorem qrPartsFrom_run (hfits : bytes.length < 2 ^ 64) (hascii : ∀ c ∈ bytes, c < 128) :
    ∃ made, made ≤ remaining ∧
      qrPartsFrom bytes parts chunkLen k remaining =
        .ok ((List.range' k made).map fun i => qrPayload i parts (qrChunk bytes chunkLen i)) ∧
      (∀ i, k ≤ i → i < k + made → i * chunkLen < bytes.length) ∧
      (made < remaining → bytes.length ≤ (k + made) * chunkLen) := by
  induction remaining generalizing k with
  | zero => exact ⟨0, le_rfl, rfl, fun i _ _ => by omega, fun h => absurd h (lt_irrefl 0)⟩
  | succ remaining ih =>
      rw [qrPartsFrom]
      by_cases hend : bytes.length ≤ k * chunkLen
      · refine ⟨0, Nat.zero_le _, if_pos ?_, fun i _ _ => by omega, fun _ => hend⟩
        rw [maxUsize]
        omega
      · obtain ⟨made, hmade, hrest, hstarts, hused⟩ := ih (k := k + 1)
        have hstart : min (k * chunkLen) maxUsize = k * chunkLen := by
          rw [maxUsize]
          omega
        have hchunk : (bytes.drop (k * chunkLen)).take
            (min (min (k * chunkLen + chunkLen) maxUsize) bytes.length - k * chunkLen) = qrChunk bytes chunkLen k := by
          rw [qrChunk, List.take_eq_take_iff, List.length_drop, maxUsize]
          omega
        have hutf8 : Text.IsUtf8 (qrChunk bytes chunkLen k) :=
          Text.isUtf8_of_ascii fun c hc => hascii c (List.mem_of_mem_drop (List.mem_of_mem_take hc))
        refine ⟨made + 1, by omega, ?_, fun i hle hlt => ?_, fun h => ?_⟩
        · rw [hstart, if_neg (by omega)]
          dsimp only
          rw [hchunk, hrest]
          exact require_bind_eq_ok.mpr ⟨hutf8, rfl⟩
        · rcases Nat.eq_or_lt_of_le hle with rfl | hlater
          · exact not_le.mp hend
          · exact hstarts i hlater (by omega)
        · rw [← Nat.add_assoc, Nat.add_right_comm]
          exact hused (by omega)

end Cutting

/-! ### Putting together -/

section Joining

variable {payloads : List Bytes} {text : Bytes}

/-- The parts that the payloads are read as. -/
def ReadAs (payloads : List Bytes) (read : List QrPart) : Prop :=
  List.Forall₂ (fun payload part => readQrPart payload = .ok part) payloads read

def QrPart.entry (part : QrPart) : Nat × Bytes := (part.index, part.chunk)

theorem collectQrPart_eq_ok {state state' : Option Nat × List (Nat × Bytes)} {payload : Bytes} :
    collectQrPart state payload = .ok state' ↔ ∃ part, readQrPart payload = .ok part ∧
      state.1.getD part.total = part.total ∧ (some part.total, state.2 ++ [part.entry]) = state' := by
  rw [collectQrPart, bind_eq_ok]
  exact exists_congr fun part => and_congr_right fun _ => require_bind_eq_ok.trans (and_congr_right fun _ => pure_eq_ok)

/-- **A run of the reading loop**, after the number of parts is known. -/
theorem foldlM_collectQrPart {total : Nat} {indexed : List (Nat × Bytes)} {result : Option Nat × List (Nat × Bytes)} :
    payloads.foldlM collectQrPart (some total, indexed) = .ok result ↔ ∃ read, ReadAs payloads read ∧
      (∀ part ∈ read, part.total = total) ∧ (some total, indexed ++ read.map QrPart.entry) = result := by
  induction payloads generalizing indexed with
  | nil =>
      rw [List.foldlM_nil, pure_eq_ok]
      refine ⟨fun h => ⟨[], .nil, List.forall_mem_nil _, ?_⟩, fun h => ?_⟩
      · rw [List.map_nil, List.append_nil, h]
      · obtain ⟨read, hread, -, h⟩ := h
        cases hread
        rw [List.map_nil, List.append_nil] at h
        exact h
  | cons payload payloads ih =>
      rw [foldlM_cons_eq_ok]
      simp only [collectQrPart_eq_ok, Option.getD_some]
      refine ⟨fun h => ?_, fun h => ?_⟩
      · obtain ⟨_, ⟨part, hpart, rfl, rfl⟩, hrest⟩ := h
        obtain ⟨read, hread, htotal, rfl⟩ := ih.mp hrest
        refine ⟨part :: read, .cons hpart hread, List.forall_mem_cons.mpr ⟨rfl, htotal⟩, ?_⟩
        rw [List.map_cons, List.append_assoc, List.singleton_append]
      · obtain ⟨read, hread, htotal, rfl⟩ := h
        cases hread with
        | @cons _ part _ read hpart hread =>
            obtain ⟨rfl, htotal⟩ := List.forall_mem_cons.mp htotal
            refine ⟨_, ⟨part, hpart, rfl, rfl⟩, ih.mpr ⟨read, hread, htotal, ?_⟩⟩
            rw [List.map_cons, List.append_assoc, List.singleton_append]

theorem collectQrParts_eq_ok {total : Option Nat} {indexed : List (Nat × Bytes)} (hne : payloads ≠ []) :
    payloads.foldlM collectQrPart (none, []) = .ok (total, indexed) ↔ ∃ read, ReadAs payloads read ∧
      (∀ part ∈ read, total = some part.total) ∧ read ≠ [] ∧ indexed = read.map QrPart.entry := by
  obtain ⟨payload, payloads, rfl⟩ := List.exists_cons_of_ne_nil hne
  rw [foldlM_cons_eq_ok]
  simp only [collectQrPart_eq_ok, Option.getD_none, List.nil_append, true_and]
  refine ⟨fun h => ?_, fun h => ?_⟩
  · obtain ⟨_, ⟨part, hpart, rfl⟩, hrest⟩ := h
    obtain ⟨read, hread, htotal, hresult⟩ := foldlM_collectQrPart.mp hrest
    cases hresult
    refine ⟨part :: read, .cons hpart hread, List.forall_mem_cons.mpr ⟨rfl, fun other hother => ?_⟩,
      List.cons_ne_nil _ _, rfl⟩
    rw [htotal other hother]
  · obtain ⟨read, hread, htotal, -, rfl⟩ := h
    cases hread with
    | @cons _ part _ read hpart hread =>
        obtain ⟨rfl, htotal⟩ := List.forall_mem_cons.mp htotal
        exact ⟨_, ⟨part, hpart, rfl⟩, foldlM_collectQrPart.mpr
          ⟨read, hread, fun other hother => (Option.some.inj (htotal other hother)).symm, rfl⟩⟩

theorem joinChunks_eq_ok {expected : Nat} {entries : List (Nat × Bytes)} {joined : Bytes} :
    joinChunks expected entries = .ok joined ↔
      entries.map Prod.fst = List.range' expected entries.length ∧ entries.flatMap Prod.snd = joined := by
  induction entries generalizing expected joined with
  | nil => exact ⟨fun h => ⟨rfl, Except.ok.inj h⟩, fun h => congrArg Except.ok h.2⟩
  | cons entry entries ih =>
      rw [joinChunks, require_bind_eq_ok, bind_eq_ok, List.map_cons, List.length_cons, List.range'_succ, List.cons.injEq,
        List.flatMap_cons]
      simp only [ih, pure_eq_ok]
      refine ⟨fun h => ?_, fun h => ?_⟩
      · obtain ⟨hindex, _, ⟨hrest, rfl⟩, rfl⟩ := h
        exact ⟨⟨hindex, hrest⟩, rfl⟩
      · obtain ⟨⟨hindex, hrest⟩, rfl⟩ := h
        exact ⟨hindex, _, ⟨hrest, rfl⟩, rfl⟩

theorem perm_sortedByIndex (entries : List (Nat × Bytes)) : (sortedByIndex entries).Perm entries :=
  List.perm_insertionSort _ entries

/-- **What is accepted**, and what is put together from it. -/
theorem addressFromQrParts_eq_ok : addressFromQrParts payloads = .ok text ↔ ∃ read, ReadAs payloads read ∧ read ≠ [] ∧
    (∀ part ∈ read, part.total = read.length) ∧
    (sortedByIndex (read.map QrPart.entry)).map Prod.fst = List.range' 1 read.length ∧
    Text.toAsciiLowercase ((sortedByIndex (read.map QrPart.entry)).flatMap Prod.snd) = text ∧
    ∃ addr, decodeAddress text = .ok addr := by
  have hlength (read : List QrPart) : (sortedByIndex (read.map QrPart.entry)).length = read.length := by
    rw [(perm_sortedByIndex _).length_eq, List.length_map]
  unfold addressFromQrParts
  rw [require_bind_eq_ok]
  refine ⟨fun h => ?_, fun h => ?_⟩
  · obtain ⟨hne, h⟩ := h
    obtain ⟨⟨total, indexed⟩, hcollect, h⟩ := bind_eq_ok.mp h
    obtain ⟨hcount, h⟩ := require_bind_eq_ok.mp h
    obtain ⟨joined, hjoined, h⟩ := bind_eq_ok.mp h
    obtain ⟨addr, haddr, h⟩ := bind_eq_ok.mp h
    obtain ⟨read, hread, htotal, hnonempty, rfl⟩ := (collectQrParts_eq_ok hne).mp hcollect
    obtain ⟨hindices, rfl⟩ := joinChunks_eq_ok.mp hjoined
    rw [not_or, not_not, List.length_map] at hcount
    rw [hlength] at hindices
    refine ⟨read, hread, hnonempty, fun part hpart => ?_, hindices, pure_eq_ok.mp h, addr, pure_eq_ok.mp h ▸ haddr⟩
    rw [hcount.2, htotal part hpart]
    rfl
  · obtain ⟨read, hread, hnonempty, htotal, hindices, rfl, addr, haddr⟩ := h
    have hne : payloads ≠ [] := by
      rintro rfl
      cases hread
      exact hnonempty rfl
    have hcollect : payloads.foldlM collectQrPart (none, []) = .ok (some read.length, read.map QrPart.entry) :=
      (collectQrParts_eq_ok hne).mpr
        ⟨read, hread, fun part hpart => congrArg some (htotal part hpart).symm, hnonempty, rfl⟩
    refine ⟨hne, bind_eq_ok.mpr ⟨_, hcollect, require_bind_eq_ok.mpr ⟨?_, bind_eq_ok.mpr ⟨_, joinChunks_eq_ok.mpr
      ⟨by rw [hlength]; exact hindices, rfl⟩, bind_eq_ok.mpr ⟨addr, haddr, rfl⟩⟩⟩⟩⟩
    rw [not_or, not_not, List.length_map]
    exact ⟨List.length_pos_iff.mpr hnonempty |>.ne', rfl⟩

private theorem sortedByIndex_eq {entries sorted : List (Nat × Bytes)} (hperm : entries.Perm sorted)
    (hsorted : sorted.Pairwise fun a b => a.1 < b.1) : sortedByIndex entries = sorted := by
  have hperm' : (sortedByIndex entries).Perm sorted := (perm_sortedByIndex entries).trans hperm
  have hkeys : (sorted.map Prod.fst).Nodup := List.pairwise_map.mpr (hsorted.imp Nat.ne_of_lt)
  have hle : (sortedByIndex entries).Pairwise fun a b => a.1 ≤ b.1 := by
    have : Std.Total fun a b : Nat × Bytes => a.1 ≤ b.1 := ⟨fun a b => Nat.le_total a.1 b.1⟩
    have : IsTrans (Nat × Bytes) fun a b => a.1 ≤ b.1 := ⟨fun _ _ _ => Nat.le_trans⟩
    exact List.pairwise_insertionSort _ entries
  refine List.Perm.eq_of_pairwise (fun a b ha hb hab hba => ?_) hle (hsorted.imp Nat.le_of_lt) hperm'
  exact List.inj_on_of_nodup_map hkeys (hperm'.mem_iff.mp ha) hb (Nat.le_antisymm hab hba)

end Joining

/-! ### The round trip -/

section RoundTrip

variable {k parts : Nat} {chunk : Bytes}

/-- A payload is read back if its number of parts has 64 bits. -/
theorem readQrPart_qrPayload {part : QrPart} (hk : k < parts) :
    readQrPart (qrPayload k parts chunk) = .ok part ↔ parts < 2 ^ 64 ∧ ⟨k + 1, parts, chunk⟩ = part := by
  have hcolon : (58 : UInt8) ∉ Text.decimal (k + 1) ++ ascii "/" ++ Text.decimal parts := by
    simp only [List.mem_append, not_or]
    exact ⟨⟨fun h => absurd (Text.isDigit_of_mem_decimal h) (by decide), by decide⟩,
      fun h => absurd (Text.isDigit_of_mem_decimal h) (by decide)⟩
  have hslash : (47 : UInt8) ∉ Text.decimal (k + 1) := fun h => absurd (Text.isDigit_of_mem_decimal h) (by decide)
  have hbody : Text.splitOnce 58 (Text.decimal (k + 1) ++ ascii "/" ++ Text.decimal parts ++ ascii ":" ++ chunk) =
      some (Text.decimal (k + 1) ++ ascii "/" ++ Text.decimal parts, chunk) := by
    rw [List.append_assoc]
    exact Text.splitOnce_append hcolon chunk
  have hheader : Text.splitOnce 47 (Text.decimal (k + 1) ++ ascii "/" ++ Text.decimal parts) =
      some (Text.decimal (k + 1), Text.decimal parts) := by
    rw [List.append_assoc]
    exact Text.splitOnce_append hslash _
  rw [readQrPart, qrPayload, Text.stripPrefix_append, okOr_some, ok_bind, hbody, okOr_some, ok_bind]
  dsimp only
  rw [hheader, okOr_some, ok_bind]
  simp only [bind_eq_ok, mapError_eq_ok, Text.parseUsize_decimal, pure_eq_ok]
  refine ⟨fun h => ?_, fun h => ?_⟩
  · obtain ⟨_, ⟨-, rfl⟩, _, ⟨hparts, rfl⟩, _, -, rfl⟩ := h
    exact ⟨hparts, rfl⟩
  · obtain ⟨hparts, rfl⟩ := h
    exact ⟨k + 1, ⟨by omega, rfl⟩, parts, ⟨hparts, rfl⟩, (), require_eq_ok.mpr (by omega), rfl⟩

/-- The announced number of parts is all that is needed to tell that payloads are missing. -/
theorem length_of_accepted {payloads : List Bytes} {text : Bytes} (h : addressFromQrParts payloads = .ok text)
    (hk : k < parts) (hmem : qrPayload k parts chunk ∈ payloads) : payloads.length = parts := by
  obtain ⟨read, hread, -, htotal, -⟩ := addressFromQrParts_eq_ok.mp h
  obtain ⟨i, hi, hpayload⟩ := List.getElem_of_mem hmem
  have hpart := hread.get hi (hread.length_eq ▸ hi)
  rw [List.get_eq_getElem, List.get_eq_getElem, hpayload] at hpart
  obtain ⟨-, hpart⟩ := (readQrPart_qrPayload hk).mp hpart
  have hcount := htotal _ (List.getElem_mem (hread.length_eq ▸ hi))
  rw [← hpart] at hcount
  exact hread.length_eq.trans hcount.symm

private theorem addressFromQrParts_of_perm {addr : PayableAddress} (hfits : (encodeAddress addr).length < 2 ^ 64)
    {chunkLen : Nat} {payloads : List Bytes} (hparts : parts ≠ 0) (hbound : parts < 2 ^ 64)
    (hcover : (encodeAddress addr).length ≤ parts * chunkLen)
    (hperm : payloads.Perm ((List.range' 0 parts).map fun i =>
      qrPayload i parts (qrChunk (Text.toAsciiUppercase (encodeAddress addr)) chunkLen i))) :
    addressFromQrParts payloads = .ok (encodeAddress addr) := by
  set upper := Text.toAsciiUppercase (encodeAddress addr) with hupper
  let partAt (i : Nat) : QrPart := ⟨i + 1, parts, qrChunk upper chunkLen i⟩
  have hreadAll : ReadAs ((List.range' 0 parts).map fun i => qrPayload i parts (qrChunk upper chunkLen i))
      ((List.range' 0 parts).map partAt) := by
    rw [ReadAs, List.forall₂_map_left_iff, List.forall₂_map_right_iff, List.forall₂_same]
    intro i hi
    have hlt := (List.mem_range'_1.mp hi).2
    exact (readQrPart_qrPayload (by omega)).mpr ⟨hbound, rfl⟩
  obtain ⟨read, hread, hreadPerm⟩ := List.perm_comp_forall₂ hperm hreadAll
  have hlength : read.length = parts := by rw [hreadPerm.length_eq, List.length_map, List.length_range']
  have hsorted : sortedByIndex (read.map QrPart.entry) = ((List.range' 0 parts).map partAt).map QrPart.entry := by
    refine sortedByIndex_eq (hreadPerm.map _) ?_
    rw [List.pairwise_map, List.pairwise_map]
    exact (List.pairwise_lt_range' 1).imp fun hlt => Nat.succ_lt_succ hlt
  have hjoined : (((List.range' 0 parts).map partAt).map QrPart.entry).flatMap Prod.snd = upper := by
    rw [List.flatMap_map, List.flatMap_map, ← List.range_eq_range']
    show (List.range parts).flatMap (qrChunk upper chunkLen) = upper
    rw [flatMap_qrChunk, List.take_of_length_le]
    rwa [hupper, Text.length_toAsciiUppercase]
  have hlower : Text.toAsciiLowercase upper = encodeAddress addr :=
    Text.toAsciiLowercase_toAsciiUppercase fun c hc => (ascii_of_mem_encodeAddress hc).2
  refine addressFromQrParts_eq_ok.mpr ⟨read, hread, ?_, fun part hpart => ?_, ?_, ?_, addr, ?_⟩
  · exact List.ne_nil_of_length_pos (by omega)
  · obtain ⟨i, -, rfl⟩ := List.mem_map.mp (hreadPerm.mem_iff.mp hpart)
    exact hlength.symm
  · rw [hsorted, hlength, List.map_map, List.map_map]
    exact (List.range'_succ_left (s := 0)).symm
  · rw [hsorted, hjoined, hlower]
  · exact decodeAddress_encodeAddress hfits

/-- The text survives the cutting into a number of parts and any order of the payloads. -/
def SurvivesQr (addr : PayableAddress) (parts : Nat) : Prop :=
  ∃ made, addressToQrParts (encodeAddress addr) parts = .ok made ∧
    ∀ payloads, payloads.Perm made → addressFromQrParts payloads = .ok (encodeAddress addr)

/-- Every index from one to the number of parts comes once, and the text is that of an address. -/
def WellNumbered (payloads : List Bytes) (text : Bytes) : Prop :=
  ∃ read, ReadAs payloads read ∧ (∀ part ∈ read, part.total = payloads.length) ∧
    (read.map QrPart.index).Perm (List.range' 1 payloads.length) ∧ ∃ addr, decodeAddress text = .ok addr

private theorem wellNumbered_of_accepted {payloads : List Bytes} {text : Bytes} (h : addressFromQrParts payloads = .ok text) :
    WellNumbered payloads text := by
  obtain ⟨read, hread, -, htotal, hindices, -, haddr⟩ := addressFromQrParts_eq_ok.mp h
  have hlength : payloads.length = read.length := hread.length_eq
  refine ⟨read, hread, fun part hpart => (htotal part hpart).trans hlength.symm, ?_, haddr⟩
  have hperm := (perm_sortedByIndex (read.map QrPart.entry)).map Prod.fst
  rw [hindices, List.map_map] at hperm
  rw [hlength]
  exact hperm.symm

/-- What decides between survival and loss: whether the last chunk starts inside the text. -/
theorem survivesQr_iff {addr : PayableAddress} (hfits : (encodeAddress addr).length < 2 ^ 64) (parts : Nat) :
    SurvivesQr addr parts ↔ parts ≠ 0 ∧
      (parts - 1) * (((encodeAddress addr).length + (parts - 1)) / parts) < (encodeAddress addr).length := by
  set upper := Text.toAsciiUppercase (encodeAddress addr) with hupper
  have hlength : upper.length = (encodeAddress addr).length := Text.length_toAsciiUppercase _
  set chunkLen := ((encodeAddress addr).length + (parts - 1)) / parts with hchunkLen
  have hascii : ∀ c ∈ upper, c < 128 := by
    have hbyte : ∀ c : UInt8, c < 128 → (if Text.IsLower c then c - 32 else c) < 128 := by decide +kernel
    intro c hc
    obtain ⟨c, hmem, rfl⟩ := List.mem_map.mp hc
    exact hbyte c (ascii_of_mem_encodeAddress hmem).1
  obtain ⟨made, hmade, hrun, hstarts, hused⟩ :=
    @qrPartsFrom_run upper parts chunkLen 0 parts (hlength ▸ hfits) hascii
  have hcut (h : parts ≠ 0) : addressToQrParts (encodeAddress addr) parts =
      .ok ((List.range' 0 made).map fun i => qrPayload i parts (qrChunk upper chunkLen i)) := by
    refine require_bind_eq_ok.mpr ⟨h, ?_⟩
    show qrPartsFrom upper parts ((upper.length + (parts - 1)) / parts) 0 parts = _
    rw [hlength]
    exact hrun
  have hpositive := length_encodeAddress addr
  refine ⟨fun h => ?_, fun h => ?_⟩
  · obtain ⟨payloads, hpayloads, hsurvive⟩ := h
    have hparts : parts ≠ 0 := (require_bind_eq_ok.mp hpayloads).1
    rw [hcut hparts] at hpayloads
    cases hpayloads
    have hfirst : made ≠ 0 := by
      rintro rfl
      have := hused (by omega)
      omega
    have hpart : qrPayload 0 parts (qrChunk upper chunkLen 0) ∈
        (List.range' 0 made).map fun i => qrPayload i parts (qrChunk upper chunkLen i) :=
      List.mem_map.mpr ⟨0, List.mem_range'_1.mpr (by omega), rfl⟩
    have haccepted := length_of_accepted (hsurvive _ (List.Perm.refl _)) (by omega) hpart
    rw [List.length_map, List.length_range'] at haccepted
    exact ⟨hparts, hlength ▸ hstarts (parts - 1) (Nat.zero_le _) (by omega)⟩
  · obtain ⟨hparts, hlast⟩ := h
    have hall : made = parts := by
      by_contra hne
      have hle : made * chunkLen ≤ (parts - 1) * chunkLen := Nat.mul_le_mul_right _ (by omega)
      have hcovered := hused (by omega)
      rw [Nat.zero_add] at hcovered
      omega
    have hbound : parts < 2 ^ 64 := by
      have hstep : parts - 1 ≤ (parts - 1) * chunkLen :=
        Nat.le_mul_of_pos_right _ (Nat.div_pos (by omega) (by omega))
      omega
    have hcover : (encodeAddress addr).length ≤ parts * chunkLen := by
      have := Nat.lt_mul_div_succ ((encodeAddress addr).length + (parts - 1)) (Nat.pos_of_ne_zero hparts)
      rw [Nat.mul_add, ← hchunkLen] at this
      omega
    exact ⟨_, hall ▸ hcut hparts, fun payloads => addressFromQrParts_of_perm hfits hparts hbound hcover⟩

end RoundTrip

/-- **An address survives the cutting exactly when no part of it is left out**, and only payloads that are numbered without gap or repetition are accepted. The source has no text whose length does not fit 64 bits. -/
theorem qrParts_survive_iff (addr : PayableAddress) (hfits : (encodeAddress addr).length < 2 ^ 64) (parts : Nat) :
    (SurvivesQr addr parts ↔ parts ≠ 0 ∧
      (parts - 1) * (((encodeAddress addr).length + (parts - 1)) / parts) < (encodeAddress addr).length) ∧
    ∀ payloads text, addressFromQrParts payloads = .ok text → WellNumbered payloads text :=
  ⟨survivesQr_iff hfits parts, fun _ _ => wellNumbered_of_accepted⟩

def sampleAddress : PayableAddress where
  viewPk := ⟨.zero, List.replicate 800 0, .level1⟩
  spendPk := List.replicate 1312 0
  spendLevel := .level2
  length_spendPk := List.length_replicate

theorem length_encodeAddress_sample : (encodeAddress sampleAddress).length = 4345 := by
  have hkyber : sampleAddress.viewPk.kyber.length = 800 := List.length_replicate
  have hspend : sampleAddress.spendPk.length = 1312 := List.length_replicate
  rw [length_encodeAddress, hkyber, hspend]

theorem qrParts_survive_default : SurvivesQr sampleAddress 2 := by
  have hlength := length_encodeAddress_sample
  refine (qrParts_survive_iff sampleAddress (by omega) 2).1.mpr ⟨by decide, ?_⟩
  rw [hlength]
  decide

/-- Sixty-nine chunks cover the text, so the last of seventy parts is left out. -/
theorem qrParts_lost : ¬ ∀ (addr : PayableAddress) (parts : Nat), (encodeAddress addr).length < 2 ^ 64 → 1 ≤ parts →
    SurvivesQr addr parts := by
  intro hall
  have hlength := length_encodeAddress_sample
  have hsurvives := (survivesQr_iff (by omega) 70).mp (hall sampleAddress 70 (by omega) (by decide))
  rw [hlength] at hsurvives
  exact absurd hsurvives.2 (by decide)

end QuantumVault
