import QuantumVault.Net.Message
import QuantumVault.Proof.Storage.Records

/-!
# The wire format

Every reader of the wire format is exact: what it accepts is what the writer writes, followed by anything. So a message survives the wire, and an envelope that is accepted is an encoded message with bytes behind the message or behind the envelope. A message within the size limit has lengths that can be written down, whatever it holds.
-/

namespace QuantumVault

open Result

/-! ### Transactions and blocks -/

section Records

theorem Hash256.exact : Exact Hash256.decode Hash256.bytes fun _ => True := by
  refine .of (fun h _ rest => Hash256.decode_bytes h rest) fun {input h rest} hread => ⟨trivial, ?_⟩
  rw [Hash256.decode] at hread
  split at hread
  · cases hread
    exact (List.take_append_drop 32 input).symm
  · cases hread

theorem OutPoint.exact : Exact OutPoint.decode OutPoint.encode fun _ => True := by
  refine .of (fun op _ rest => OutPoint.decode_encode op rest) fun {input op rest} hread => ⟨trivial, ?_⟩
  obtain ⟨⟨txId, mid⟩, htxId, hread⟩ := Option.bind_eq_some_iff.mp hread
  obtain ⟨⟨index, mid'⟩, hindex, hread⟩ := Option.bind_eq_some_iff.mp hread
  cases hread
  obtain ⟨-, rfl⟩ := Hash256.exact.write_read htxId
  obtain ⟨-, rfl⟩ := Decode.exact_u32.write_read hindex
  simp [OutPoint.encode]

theorem TxInput.exact : Exact TxInput.decode TxInput.encode fun input => input.witness.length < 2 ^ 64 := by
  refine .of (fun input hwitness rest => TxInput.decode_encode hwitness rest) fun {input txInput rest} hread => ?_
  obtain ⟨⟨prevOutput, mid⟩, hprev, hread⟩ := Option.bind_eq_some_iff.mp hread
  obtain ⟨⟨witness, mid'⟩, hwitness, hread⟩ := Option.bind_eq_some_iff.mp hread
  cases hread
  obtain ⟨-, rfl⟩ := OutPoint.exact.write_read hprev
  obtain ⟨hfits, rfl⟩ := Decode.exact_bytes.write_read hwitness
  exact ⟨hfits, by simp [TxInput.encode]⟩

theorem StealthInfo.exact : Exact StealthInfo.decode StealthInfo.encode fun info => info.ephemeralPubkey.length < 2 ^ 64 := by
  refine .of (fun info hkey rest => StealthInfo.decode_encode hkey rest) fun {input info rest} hread => ?_
  obtain ⟨⟨key, mid⟩, hkey, hread⟩ := Option.bind_eq_some_iff.mp hread
  obtain ⟨⟨level, mid'⟩, hlevel, hread⟩ := Option.bind_eq_some_iff.mp hread
  obtain ⟨⟨tag, mid''⟩, htag, hread⟩ := Option.bind_eq_some_iff.mp hread
  cases hread
  obtain ⟨hfits, rfl⟩ := Decode.exact_bytes.write_read hkey
  obtain ⟨-, rfl⟩ := Decode.exact_u8.write_read hlevel
  obtain ⟨-, rfl⟩ := Decode.exact_u8.write_read htag
  exact ⟨hfits, by simp [StealthInfo.encode]⟩

theorem TxOutput.exact : Exact TxOutput.decode TxOutput.encode TxOutput.Fits := by
  refine .of (fun output hfits rest => TxOutput.decode_encode hfits rest) fun {input output rest} hread => ?_
  refine ⟨TxOutput.Fits.of_decode hread, ?_⟩
  obtain ⟨⟨value, mid⟩, hvalue, hread⟩ := Option.bind_eq_some_iff.mp hread
  obtain ⟨⟨script, mid'⟩, hscript, hread⟩ := Option.bind_eq_some_iff.mp hread
  obtain ⟨⟨datum, mid''⟩, hdatum, hread⟩ := Option.bind_eq_some_iff.mp hread
  obtain ⟨⟨stealth, mid'''⟩, hstealth, hread⟩ := Option.bind_eq_some_iff.mp hread
  cases hread
  obtain ⟨-, rfl⟩ := Decode.exact_u64.write_read hvalue
  obtain ⟨-, rfl⟩ := Decode.exact_bytes.write_read hscript
  obtain ⟨-, rfl⟩ := (Decode.exact_option Decode.exact_bytes).write_read hdatum
  obtain ⟨-, rfl⟩ := (Decode.exact_option StealthInfo.exact).write_read hstealth
  simp [TxOutput.encode]

theorem ValidityInterval.exact : Exact ValidityInterval.decode ValidityInterval.encode fun _ => True := by
  refine .of (fun interval _ rest => ValidityInterval.decode_encode interval rest) fun {input interval rest} hread =>
    ⟨trivial, ?_⟩
  obtain ⟨⟨notBefore, mid⟩, hbefore, hread⟩ := Option.bind_eq_some_iff.mp hread
  obtain ⟨⟨notAfter, mid'⟩, hafter, hread⟩ := Option.bind_eq_some_iff.mp hread
  cases hread
  obtain ⟨-, rfl⟩ := (Decode.exact_option Decode.exact_u64).write_read hbefore
  obtain ⟨-, rfl⟩ := (Decode.exact_option Decode.exact_u64).write_read hafter
  simp [ValidityInterval.encode]

theorem Transaction.exact : Exact Transaction.read Transaction.canonicalBytes Transaction.Fits := by
  refine .of (fun tx hfits rest => Transaction.read_canonicalBytes hfits rest) fun {input tx rest} hread => ?_
  obtain ⟨⟨version, mid⟩, hversion, hread⟩ := Option.bind_eq_some_iff.mp hread
  obtain ⟨⟨inputs, mid₁⟩, hinputs, hread⟩ := Option.bind_eq_some_iff.mp hread
  obtain ⟨⟨outputs, mid₂⟩, houtputs, hread⟩ := Option.bind_eq_some_iff.mp hread
  obtain ⟨⟨interval, mid₃⟩, hinterval, hread⟩ := Option.bind_eq_some_iff.mp hread
  obtain ⟨⟨lockTime, mid₄⟩, hlockTime, hread⟩ := Option.bind_eq_some_iff.mp hread
  obtain ⟨⟨fee, mid₅⟩, hfee, hread⟩ := Option.bind_eq_some_iff.mp hread
  cases hread
  obtain ⟨-, rfl⟩ := Decode.exact_u32.write_read hversion
  obtain ⟨hin, rfl⟩ := (Decode.exact_seq TxInput.exact).write_read hinputs
  obtain ⟨hout, rfl⟩ := (Decode.exact_seq TxOutput.exact).write_read houtputs
  obtain ⟨-, rfl⟩ := ValidityInterval.exact.write_read hinterval
  obtain ⟨-, rfl⟩ := Decode.exact_u64.write_read hlockTime
  obtain ⟨-, rfl⟩ := Decode.exact_u64.write_read hfee
  exact ⟨⟨hin.1, hin.2, hout.1, hout.2⟩, by simp [Transaction.canonicalBytes]⟩

structure BlockHeader.Fits (header : BlockHeader) : Prop where
  vrfProof : header.vrfProof.length < 2 ^ 64
  kesSig : header.kesSig.length < 2 ^ 64

theorem BlockHeader.exact : Exact BlockHeader.decode BlockHeader.canonicalBytes BlockHeader.Fits := by
  refine .of (fun header hfits rest => ?_) fun {input header rest} hread => ?_
  · simp [BlockHeader.decode, BlockHeader.canonicalBytes, Decode.u32_encode, Hash256.decode_bytes, Decode.u64_encode,
      Decode.bytes_encode hfits.vrfProof, Decode.bytes_encode hfits.kesSig]
  · obtain ⟨⟨version, mid⟩, hversion, hread⟩ := Option.bind_eq_some_iff.mp hread
    obtain ⟨⟨prevHash, mid₁⟩, hprev, hread⟩ := Option.bind_eq_some_iff.mp hread
    obtain ⟨⟨height, mid₂⟩, hheight, hread⟩ := Option.bind_eq_some_iff.mp hread
    obtain ⟨⟨slot, mid₃⟩, hslot, hread⟩ := Option.bind_eq_some_iff.mp hread
    obtain ⟨⟨timestamp, mid₄⟩, htimestamp, hread⟩ := Option.bind_eq_some_iff.mp hread
    obtain ⟨⟨merkleRoot, mid₅⟩, hroot, hread⟩ := Option.bind_eq_some_iff.mp hread
    obtain ⟨⟨commitment, mid₆⟩, hcommitment, hread⟩ := Option.bind_eq_some_iff.mp hread
    obtain ⟨⟨vrfProof, mid₇⟩, hvrf, hread⟩ := Option.bind_eq_some_iff.mp hread
    obtain ⟨⟨kesSig, mid₈⟩, hkes, hread⟩ := Option.bind_eq_some_iff.mp hread
    obtain ⟨⟨keyHash, mid₉⟩, hkey, hread⟩ := Option.bind_eq_some_iff.mp hread
    cases hread
    obtain ⟨-, rfl⟩ := Decode.exact_u32.write_read hversion
    obtain ⟨-, rfl⟩ := Hash256.exact.write_read hprev
    obtain ⟨-, rfl⟩ := Decode.exact_u64.write_read hheight
    obtain ⟨-, rfl⟩ := Decode.exact_u64.write_read hslot
    obtain ⟨-, rfl⟩ := Decode.exact_u64.write_read htimestamp
    obtain ⟨-, rfl⟩ := Hash256.exact.write_read hroot
    obtain ⟨-, rfl⟩ := Hash256.exact.write_read hcommitment
    obtain ⟨hvrfFits, rfl⟩ := Decode.exact_bytes.write_read hvrf
    obtain ⟨hkesFits, rfl⟩ := Decode.exact_bytes.write_read hkes
    obtain ⟨-, rfl⟩ := Hash256.exact.write_read hkey
    exact ⟨⟨hvrfFits, hkesFits⟩, by simp [BlockHeader.canonicalBytes]⟩

/-- The lists and byte strings of a block have lengths that can be written down. -/
structure Block.Written (block : Block) : Prop where
  header : block.header.Fits
  transactions : block.transactions.length < 2 ^ 64
  transaction : ∀ tx ∈ block.transactions, tx.Fits

theorem Block.exact : Exact Block.decode Block.encode Block.Written := by
  refine .of (fun block hfits rest => ?_) fun {input block rest} hread => ?_
  · have htxs := (Decode.exact_seq Transaction.exact).read_write ⟨hfits.transactions, hfits.transaction⟩ rest
    simp [Block.decode, Block.encode, BlockHeader.exact.read_write hfits.header, htxs]
  · obtain ⟨⟨header, mid⟩, hheader, hread⟩ := Option.bind_eq_some_iff.mp hread
    obtain ⟨⟨txs, mid'⟩, htxs, hread⟩ := Option.bind_eq_some_iff.mp hread
    cases hread
    obtain ⟨hheaderFits, rfl⟩ := BlockHeader.exact.write_read hheader
    obtain ⟨htxsFits, rfl⟩ := (Decode.exact_seq Transaction.exact).write_read htxs
    exact ⟨⟨hheaderFits, htxsFits.1, htxsFits.2⟩, by simp [Block.encode]⟩

end Records

/-! ### Messages -/

section Messages

theorem VrfProofMsg.exact : Exact VrfProofMsg.decode VrfProofMsg.encode fun msg =>
    msg.vrfOutput.length < 2 ^ 64 ∧ msg.vrfProof.length < 2 ^ 64 := by
  refine .of (fun msg hfits rest => ?_) fun {input msg rest} hread => ?_
  · simp [VrfProofMsg.decode, VrfProofMsg.encode, Decode.u64_encode, Decode.bytes_encode hfits.1,
      Decode.bytes_encode hfits.2, Hash256.decode_bytes]
  · obtain ⟨⟨slot, mid⟩, hslot, hread⟩ := Option.bind_eq_some_iff.mp hread
    obtain ⟨⟨vrfOutput, mid₁⟩, houtput, hread⟩ := Option.bind_eq_some_iff.mp hread
    obtain ⟨⟨vrfProof, mid₂⟩, hproof, hread⟩ := Option.bind_eq_some_iff.mp hread
    obtain ⟨⟨keyHash, mid₃⟩, hkey, hread⟩ := Option.bind_eq_some_iff.mp hread
    cases hread
    obtain ⟨-, rfl⟩ := Decode.exact_u64.write_read hslot
    obtain ⟨houtputFits, rfl⟩ := Decode.exact_bytes.write_read houtput
    obtain ⟨hproofFits, rfl⟩ := Decode.exact_bytes.write_read hproof
    obtain ⟨-, rfl⟩ := Hash256.exact.write_read hkey
    exact ⟨⟨houtputFits, hproofFits⟩, by simp [VrfProofMsg.encode]⟩

theorem VoteMsg.exact : Exact VoteMsg.decode VoteMsg.encode fun msg => msg.signature.length < 2 ^ 64 := by
  refine .of (fun msg hfits rest => ?_) fun {input msg rest} hread => ?_
  · simp [VoteMsg.decode, VoteMsg.encode, Decode.u64_encode, Decode.bytes_encode hfits, Hash256.decode_bytes]
  · obtain ⟨⟨slot, mid⟩, hslot, hread⟩ := Option.bind_eq_some_iff.mp hread
    obtain ⟨⟨blockHash, mid₁⟩, hblock, hread⟩ := Option.bind_eq_some_iff.mp hread
    obtain ⟨⟨keyHash, mid₂⟩, hkey, hread⟩ := Option.bind_eq_some_iff.mp hread
    obtain ⟨⟨signature, mid₃⟩, hsig, hread⟩ := Option.bind_eq_some_iff.mp hread
    cases hread
    obtain ⟨-, rfl⟩ := Decode.exact_u64.write_read hslot
    obtain ⟨-, rfl⟩ := Hash256.exact.write_read hblock
    obtain ⟨-, rfl⟩ := Hash256.exact.write_read hkey
    obtain ⟨hfits, rfl⟩ := Decode.exact_bytes.write_read hsig
    exact ⟨hfits, by simp [VoteMsg.encode]⟩

theorem exact_hashes : Exact (Decode.seq Hash256.decode) (Encode.seq Hash256.bytes) fun hashes => hashes.length < 2 ^ 64 := by
  intro input hashes rest
  rw [Decode.exact_seq Hash256.exact]
  simp

theorem GetHeadersMsg.exact :
    Exact GetHeadersMsg.decode GetHeadersMsg.encode fun msg => msg.locatorHashes.length < 2 ^ 64 := by
  refine .of (fun msg hfits rest => ?_) fun {input msg rest} hread => ?_
  · simp [GetHeadersMsg.decode, GetHeadersMsg.encode, exact_hashes.read_write hfits, Hash256.decode_bytes]
  · obtain ⟨⟨locator, mid⟩, hlocator, hread⟩ := Option.bind_eq_some_iff.mp hread
    obtain ⟨⟨stop, mid'⟩, hstop, hread⟩ := Option.bind_eq_some_iff.mp hread
    cases hread
    obtain ⟨hfits, rfl⟩ := exact_hashes.write_read hlocator
    obtain ⟨-, rfl⟩ := Hash256.exact.write_read hstop
    exact ⟨hfits, by simp [GetHeadersMsg.encode]⟩

theorem HeadersMsg.exact : Exact HeadersMsg.decode HeadersMsg.encode fun msg =>
    msg.headers.length < 2 ^ 64 ∧ ∀ header ∈ msg.headers, header.Fits := by
  refine .of (fun msg hfits rest => ?_) fun {input msg rest} hread => ?_
  · simp [HeadersMsg.decode, HeadersMsg.encode, (Decode.exact_seq BlockHeader.exact).read_write hfits]
  · obtain ⟨⟨headers, mid⟩, hheaders, hread⟩ := Option.bind_eq_some_iff.mp hread
    cases hread
    exact (Decode.exact_seq BlockHeader.exact).write_read hheaders

theorem GetBlocksMsg.exact : Exact GetBlocksMsg.decode GetBlocksMsg.encode fun msg => msg.hashes.length < 2 ^ 64 := by
  refine .of (fun msg hfits rest => ?_) fun {input msg rest} hread => ?_
  · simp [GetBlocksMsg.decode, GetBlocksMsg.encode, exact_hashes.read_write hfits]
  · obtain ⟨⟨hashes, mid⟩, hhashes, hread⟩ := Option.bind_eq_some_iff.mp hread
    cases hread
    exact exact_hashes.write_read hhashes

theorem PingMsg.exact : Exact PingMsg.decode PingMsg.encode fun _ => True := by
  refine .of (fun msg _ rest => by simp [PingMsg.decode, PingMsg.encode, Decode.u64_encode]) fun {input msg rest} hread => ?_
  obtain ⟨⟨nonce, mid⟩, hnonce, hread⟩ := Option.bind_eq_some_iff.mp hread
  cases hread
  exact Decode.exact_u64.write_read hnonce

theorem PongMsg.exact : Exact PongMsg.decode PongMsg.encode fun _ => True := by
  refine .of (fun msg _ rest => by simp [PongMsg.decode, PongMsg.encode, Decode.u64_encode]) fun {input msg rest} hread => ?_
  obtain ⟨⟨nonce, mid⟩, hnonce, hread⟩ := Option.bind_eq_some_iff.mp hread
  cases hread
  exact Decode.exact_u64.write_read hnonce

namespace NetworkMessage

/-- The lists and byte strings of a message have lengths that can be written down. -/
def Fits : NetworkMessage → Prop
  | .block b => b.Written
  | .transaction tx => tx.Fits
  | .vrfProof msg => msg.vrfOutput.length < 2 ^ 64 ∧ msg.vrfProof.length < 2 ^ 64
  | .vote msg => msg.signature.length < 2 ^ 64
  | .getHeaders msg => msg.locatorHashes.length < 2 ^ 64
  | .headers msg => msg.headers.length < 2 ^ 64 ∧ ∀ header ∈ msg.headers, header.Fits
  | .getBlocks msg => msg.hashes.length < 2 ^ 64
  | .ping _ => True
  | .pong _ => True

theorem eq_of_readAs {α : Type} {variant : α → NetworkMessage} {read : Bytes → Option (α × Bytes)} {write : α → Bytes}
    {F : α → Prop} {position : UInt32} {k : Nat} {input mid rest : Bytes} {msg : NetworkMessage} (hexact : Exact read write F)
    (hposition : position.toNat = k) (hinput : input = Encode.u32 position ++ mid)
    (hread : readAs variant read mid = some (msg, rest)) :
    ∃ x, msg = variant x ∧ F x ∧ input = Encode.u32 (UInt32.ofNat k) ++ write x ++ rest := by
  obtain ⟨⟨x, rest'⟩, hx, heq⟩ := Option.map_eq_some_iff.mp hread
  cases heq
  obtain ⟨hfits, rfl⟩ := hexact.write_read hx
  refine ⟨x, rfl, hfits, ?_⟩
  rw [hinput, ← hposition, UInt32.ofNat_toNat, List.append_assoc]

theorem exact : Exact decode encode Fits := by
  refine .of (fun msg hfits rest => ?_) fun {input msg rest} hread => ?_
  · cases msg with
    | block b => simp [decode, encode, readAs, Decode.u32_encode, Block.exact.read_write hfits]
    | transaction tx => simp [decode, encode, readAs, Decode.u32_encode, Transaction.exact.read_write hfits]
    | vrfProof msg => simp [decode, encode, readAs, Decode.u32_encode, VrfProofMsg.exact.read_write hfits]
    | vote msg => simp [decode, encode, readAs, Decode.u32_encode, VoteMsg.exact.read_write hfits]
    | getHeaders msg => simp [decode, encode, readAs, Decode.u32_encode, GetHeadersMsg.exact.read_write hfits]
    | headers msg => simp [decode, encode, readAs, Decode.u32_encode, HeadersMsg.exact.read_write hfits]
    | getBlocks msg => simp [decode, encode, readAs, Decode.u32_encode, GetBlocksMsg.exact.read_write hfits]
    | ping msg => simp [decode, encode, readAs, Decode.u32_encode, PingMsg.exact.read_write hfits]
    | pong msg => simp [decode, encode, readAs, Decode.u32_encode, PongMsg.exact.read_write hfits]
  · obtain ⟨⟨position, mid⟩, hposition, hread⟩ := Option.bind_eq_some_iff.mp hread
    have hinput := (Decode.exact_u32.write_read hposition).2
    dsimp only at hread
    split at hread
    · obtain ⟨x, rfl, hfits, heq⟩ := eq_of_readAs Block.exact ‹_› hinput hread
      exact ⟨hfits, heq⟩
    · obtain ⟨x, rfl, hfits, heq⟩ := eq_of_readAs Transaction.exact ‹_› hinput hread
      exact ⟨hfits, heq⟩
    · obtain ⟨x, rfl, hfits, heq⟩ := eq_of_readAs VrfProofMsg.exact ‹_› hinput hread
      exact ⟨hfits, heq⟩
    · obtain ⟨x, rfl, hfits, heq⟩ := eq_of_readAs VoteMsg.exact ‹_› hinput hread
      exact ⟨hfits, heq⟩
    · obtain ⟨x, rfl, hfits, heq⟩ := eq_of_readAs GetHeadersMsg.exact ‹_› hinput hread
      exact ⟨hfits, heq⟩
    · obtain ⟨x, rfl, hfits, heq⟩ := eq_of_readAs HeadersMsg.exact ‹_› hinput hread
      exact ⟨hfits, heq⟩
    · obtain ⟨x, rfl, hfits, heq⟩ := eq_of_readAs GetBlocksMsg.exact ‹_› hinput hread
      exact ⟨hfits, heq⟩
    · obtain ⟨x, rfl, hfits, heq⟩ := eq_of_readAs PingMsg.exact ‹_› hinput hread
      exact ⟨hfits, heq⟩
    · obtain ⟨x, rfl, hfits, heq⟩ := eq_of_readAs PongMsg.exact ‹_› hinput hread
      exact ⟨hfits, heq⟩
    · cases hread

end NetworkMessage

end Messages

/-! ### Messages within the size limit -/

section Sizes

theorem TxInput.encode_pos (input : TxInput) : 0 < input.encode.length := by
  rw [TxInput.encode, List.length_append, Encode.length_bytes]
  omega

theorem TxOutput.encode_pos (output : TxOutput) : 0 < output.encode.length := by
  rw [TxOutput.encode, List.length_append, List.length_append, List.length_append, Encode.length_bytes]
  omega

theorem TxInput.fits_of_length {input : TxInput} (h : input.encode.length < 2 ^ 64) : input.witness.length < 2 ^ 64 := by
  rw [TxInput.encode, List.length_append, Encode.length_bytes] at h
  omega

theorem TxOutput.fits_of_length {output : TxOutput} (h : output.encode.length < 2 ^ 64) : output.Fits := by
  rw [TxOutput.encode, List.length_append, List.length_append, List.length_append, Encode.length_bytes] at h
  refine ⟨by omega, fun datum hdatum => ?_, fun info hinfo => ?_⟩
  · rw [Option.mem_def.mp hdatum, Encode.option, List.length_cons, Encode.length_bytes] at h
    omega
  · rw [Option.mem_def.mp hinfo, Encode.option, List.length_cons, StealthInfo.encode, List.length_append,
      List.length_append, Encode.length_bytes] at h
    omega

theorem Transaction.fits_of_length {tx : Transaction} (h : tx.canonicalBytes.length < 2 ^ 64) : tx.Fits := by
  simp only [Transaction.canonicalBytes, List.length_append] at h
  have hinputs := Encode.length_le_of_seq fun input (_ : input ∈ tx.inputs) => input.encode_pos
  have houtputs := Encode.length_le_of_seq fun output (_ : output ∈ tx.outputs) => output.encode_pos
  refine ⟨by omega, fun input hinput => ?_, by omega, fun output houtput => ?_⟩
  · have hitem := Encode.length_item_le_of_seq TxInput.encode hinput
    exact TxInput.fits_of_length (by omega)
  · have hitem := Encode.length_item_le_of_seq TxOutput.encode houtput
    exact TxOutput.fits_of_length (by omega)

theorem Transaction.canonicalBytes_pos (tx : Transaction) : 0 < tx.canonicalBytes.length := by
  simp only [Transaction.canonicalBytes, List.length_append, Encode.length_seq_items]
  omega

theorem BlockHeader.fits_of_length {header : BlockHeader} (h : header.canonicalBytes.length < 2 ^ 64) : header.Fits := by
  simp only [BlockHeader.canonicalBytes, List.length_append, Encode.length_bytes] at h
  exact ⟨by omega, by omega⟩

theorem BlockHeader.canonicalBytes_pos (header : BlockHeader) : 0 < header.canonicalBytes.length := by
  simp only [BlockHeader.canonicalBytes, List.length_append, Encode.length_bytes]
  omega

private theorem Block.written_of_length {block : Block} (h : block.encode.length < 2 ^ 64) : block.Written := by
  rw [Block.encode, List.length_append] at h
  have htxs := Encode.length_le_of_seq fun tx (_ : tx ∈ block.transactions) => tx.canonicalBytes_pos
  refine ⟨BlockHeader.fits_of_length (by omega), by omega, fun tx htx => ?_⟩
  have hitem := Encode.length_item_le_of_seq Transaction.canonicalBytes htx
  exact Transaction.fits_of_length (by omega)

theorem length_hashes_le (hashes : List Hash256) : hashes.length ≤ (Encode.seq Hash256.bytes hashes).length :=
  Encode.length_le_of_seq fun h _ => by rw [h.length_eq]; norm_num

theorem NetworkMessage.fits_of_length {msg : NetworkMessage} (h : msg.encode.length < 2 ^ 64) : msg.Fits := by
  cases msg with
  | block b =>
      rw [encode, List.length_append] at h
      exact Block.written_of_length (by omega)
  | transaction tx =>
      rw [encode, List.length_append] at h
      exact Transaction.fits_of_length (by omega)
  | vrfProof msg =>
      simp only [encode, VrfProofMsg.encode, List.length_append, Encode.length_bytes] at h
      exact ⟨by omega, by omega⟩
  | vote msg =>
      simp only [encode, VoteMsg.encode, List.length_append, Encode.length_bytes] at h
      change msg.signature.length < 2 ^ 64
      omega
  | getHeaders msg =>
      have hlen := length_hashes_le msg.locatorHashes
      simp only [encode, GetHeadersMsg.encode, List.length_append] at h
      change msg.locatorHashes.length < 2 ^ 64
      omega
  | headers msg =>
      have hlen := Encode.length_le_of_seq fun header (_ : header ∈ msg.headers) => header.canonicalBytes_pos
      simp only [encode, HeadersMsg.encode, List.length_append] at h
      refine ⟨by omega, fun header hheader => ?_⟩
      have hitem := Encode.length_item_le_of_seq BlockHeader.canonicalBytes hheader
      exact BlockHeader.fits_of_length (by omega)
  | getBlocks msg =>
      have hlen := length_hashes_le msg.hashes
      simp only [encode, GetBlocksMsg.encode, List.length_append] at h
      change msg.hashes.length < 2 ^ 64
      omega
  | ping msg => trivial
  | pong msg => trivial

end Sizes

/-! ### The envelope -/

namespace Envelope

theorem exact : Exact read write fun envelope => envelope.payload.length < 2 ^ 64 := by
  refine .of (fun envelope hfits rest => ?_) fun {input envelope rest} hread => ?_
  · simp [read, write, Decode.exact_u16.read_write trivial, Decode.bytes_encode hfits]
  · obtain ⟨⟨version, mid⟩, hversion, hread⟩ := Option.bind_eq_some_iff.mp hread
    obtain ⟨⟨payload, mid'⟩, hpayload, hread⟩ := Option.bind_eq_some_iff.mp hread
    cases hread
    obtain ⟨-, rfl⟩ := Decode.exact_u16.write_read hversion
    obtain ⟨hfits, rfl⟩ := Decode.exact_bytes.write_read hpayload
    exact ⟨hfits, by simp [write]⟩

theorem length_write (envelope : Envelope) : envelope.write.length = 10 + envelope.payload.length := by
  rw [write, List.length_append, Encode.u16, length_toLittleEndian, Encode.length_bytes]
  omega

variable {msg : NetworkMessage} {bytes : Bytes}

theorem encode_eq_ok : encode msg = .ok bytes ↔ msg.encode.length ≤ maxMessageSize ∧ bytes = write ⟨protocolVersion, msg.encode⟩ := by
  unfold encode
  dsimp only
  split
  · rename_i hlarge
    simp [Nat.not_le.mpr hlarge]
  · rename_i hsmall
    simp [Nat.not_lt.mp hsmall, eq_comm]

theorem decode_eq_ok : decode bytes = .ok msg ↔ bytes.length ≤ maxMessageSize + 64 ∧
    ∃ junk junk', msg.Fits ∧ bytes = write ⟨protocolVersion, msg.encode ++ junk⟩ ++ junk' := by
  unfold decode
  simp only [require_bind_eq_ok, okOr_bind_eq_ok, pure_eq_ok, gt_iff_lt, not_lt, ne_eq, not_not, Prod.exists]
  refine and_congr_right fun hsize => ⟨?_, ?_⟩
  · rintro ⟨⟨version, payload⟩, junk', hread, rfl, m, junk, hmsg, rfl⟩
    obtain ⟨-, hbytes⟩ := exact.write_read hread
    obtain ⟨hfits, hpayload⟩ := NetworkMessage.exact.write_read hmsg
    dsimp only at hpayload
    exact ⟨junk, junk', hfits, hpayload ▸ hbytes⟩
  · rintro ⟨junk, junk', hfits, rfl⟩
    have hlen : (msg.encode ++ junk).length < 2 ^ 64 := by
      rw [List.length_append, length_write, maxMessageSize] at hsize
      dsimp only at hsize
      omega
    exact ⟨⟨protocolVersion, msg.encode ++ junk⟩, junk', exact.read_write hlen junk', rfl, msg, junk,
      NetworkMessage.exact.read_write hfits junk, rfl⟩

end Envelope

/-- **The wire format.** A message that can be sent is received as it was sent, and so it is with bytes behind it, up to the receiver's limit. What is received is an envelope of the current version around an encoded message with bytes behind the message or behind the envelope, so a receiver reads the message that one sender could have sent. A message is refused by the sender when its bytes are over the limit, and for no other reason. -/
theorem envelope_exact :
    (∀ (msg : NetworkMessage) (bytes junk : Bytes), Envelope.encode msg = .ok bytes →
      (bytes ++ junk).length ≤ maxMessageSize + 64 → Envelope.decode (bytes ++ junk) = .ok msg) ∧
    (∀ (msg : NetworkMessage) (bytes : Bytes), Envelope.encode msg = .ok bytes → bytes.length ≤ maxMessageSize + 64) ∧
    (∀ (bytes : Bytes) (msg : NetworkMessage), Envelope.decode bytes = .ok msg ↔
      bytes.length ≤ maxMessageSize + 64 ∧ ∃ junk junk', msg.Fits ∧
        bytes = Envelope.write ⟨protocolVersion, msg.encode ++ junk⟩ ++ junk') ∧
    (∀ msg : NetworkMessage, msg.encode.length ≤ maxMessageSize → ∃ bytes, Envelope.encode msg = .ok bytes) ∧
    ∀ msg : NetworkMessage, maxMessageSize < msg.encode.length →
      Envelope.encode msg = .error (.messageTooLarge msg.encode.length maxMessageSize) := by
  refine ⟨fun msg bytes junk hencode hsize => ?_, fun msg bytes hencode => ?_, fun bytes msg => Envelope.decode_eq_ok,
    fun msg hlen => ⟨_, Envelope.encode_eq_ok.mpr ⟨hlen, rfl⟩⟩, fun msg hlarge => if_pos hlarge⟩
  · obtain ⟨hlen, rfl⟩ := Envelope.encode_eq_ok.mp hencode
    refine Envelope.decode_eq_ok.mpr ⟨hsize, [], junk, NetworkMessage.fits_of_length ?_, by rw [List.append_nil]⟩
    exact hlen.trans_lt (by norm_num [maxMessageSize])
  · obtain ⟨hlen, rfl⟩ := Envelope.encode_eq_ok.mp hencode
    rw [Envelope.length_write]
    dsimp only
    omega

end QuantumVault
