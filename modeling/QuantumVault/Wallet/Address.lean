import QuantumVault.Lib.Text
import QuantumVault.Wallet.TxBuilder

/-!
# Addresses and their QR codes

A stealth address is written as a prefix and the hexadecimal form of its serialised keys. For QR codes the text goes into capitals and is cut into numbered payloads, which can be put together again in any order. Lengths are those of a 64-bit machine, whose largest one is `maxUsize`.
-/

namespace QuantumVault

open Result

/-- A stealth address with the parameter set of its spend key. -/
structure PayableAddress extends StealthAddress where
  spendLevel : DilithiumLevel
  length_spendPk : spendPk.length = spendLevel.publicKeyBytes
deriving DecidableEq

structure StealthAddressPayload where
  kyberLevel : UInt8
  dilithiumLevel : UInt8
  x25519Pk : Bytes
  kyberPk : Bytes
  spendPk : Bytes
deriving DecidableEq

namespace StealthAddressPayload

def dilithiumLevelByte : DilithiumLevel → UInt8
  | .level2 => 2
  | .level3 => 3
  | .level5 => 5

def fromAddress (addr : PayableAddress) : StealthAddressPayload :=
  ⟨Stealth.levelByte addr.viewPk.level, dilithiumLevelByte addr.spendLevel, addr.viewPk.x25519.bytes, addr.viewPk.kyber,
    addr.spendPk⟩

def intoKyberLevel (byte : UInt8) : Except WalletError KyberLevel :=
  if byte = 1 then .ok .level1
  else if byte = 3 then .ok .level3
  else if byte = 5 then .ok .level5
  else .error (.invalidArg s!"unknown Kyber level: {byte}")

def intoDilithiumLevel (byte : UInt8) : Except WalletError DilithiumLevel :=
  if byte = 2 then .ok .level2
  else if byte = 3 then .ok .level3
  else if byte = 5 then .ok .level5
  else .error (.invalidArg s!"unknown Dilithium level: {byte}")

/-- Back to an address. The length of the Kyber key is left to the encapsulation. -/
def intoAddress (payload : StealthAddressPayload) : Except WalletError PayableAddress := do
  let kyberLevel ← intoKyberLevel payload.kyberLevel
  let dilithiumLevel ← intoDilithiumLevel payload.dilithiumLevel
  let x25519Pk ← okOr (Hash256.ofBytes payload.x25519Pk)
    (.invalidArg s!"x25519_pk must be 32 bytes (got {payload.x25519Pk.length})")
  if h : payload.spendPk.length = dilithiumLevel.publicKeyBytes then
    return ⟨⟨⟨x25519Pk, payload.kyberPk, kyberLevel⟩, payload.spendPk⟩, dilithiumLevel, h⟩
  else
    throw (.crypto
      s!"spend_pk parse: {(CryptoError.invalidSize dilithiumLevel.publicKeyBytes payload.spendPk.length).text}")

def encode (payload : StealthAddressPayload) : Bytes :=
  Encode.u8 payload.kyberLevel ++ Encode.u8 payload.dilithiumLevel ++ Encode.bytes payload.x25519Pk ++
    Encode.bytes payload.kyberPk ++ Encode.bytes payload.spendPk

/-- Bytes that follow the payload are ignored. -/
def decode (input : Bytes) : Option (StealthAddressPayload × Bytes) := do
  let (kyberLevel, rest) ← Decode.u8 input
  let (dilithiumLevel, rest) ← Decode.u8 rest
  let (x25519Pk, rest) ← Decode.bytes rest
  let (kyberPk, rest) ← Decode.bytes rest
  let (spendPk, rest) ← Decode.bytes rest
  return (⟨kyberLevel, dilithiumLevel, x25519Pk, kyberPk, spendPk⟩, rest)

end StealthAddressPayload

def addressPrefix : Bytes := ascii "qvst1"

def encodeAddress (addr : PayableAddress) : Bytes :=
  addressPrefix ++ Hex.encode (StealthAddressPayload.fromAddress addr).encode

def decodeAddress (text : Bytes) : Except WalletError PayableAddress := do
  let trimmed ← okOr (Text.stripPrefix addressPrefix text) (.invalidArg "address must start with `qvst1`")
  let bytes ← (Hex.decode trimmed).mapError fun e => .invalidArg s!"hex decode: {e.text}"
  let (payload, _) ← okOr (StealthAddressPayload.decode bytes) .bincode
  payload.intoAddress

/-! ### Fingerprints -/

def fingerprintPrefix : Bytes := ascii "qvfp1"

def fingerprintTag : Bytes := ascii "QuantumVault-StealthAddr-v1"

/-- The bytes behind a fingerprint: the keys one after another, without lengths or levels. -/
def fingerprintInput (addr : PayableAddress) : Bytes :=
  fingerprintTag ++ addr.spendPk ++ addr.viewPk.x25519.bytes ++ addr.viewPk.kyber

/-- A short form for display, which cannot be paid to. -/
def fingerprint [Crypto] (addr : PayableAddress) : Bytes :=
  fingerprintPrefix ++ Hex.encode ((sha3_256 (fingerprintInput addr)).bytes.take 20)

/-! ### QR payloads -/

def maxUsize : Nat := 2 ^ 64 - 1

def qvaddrQrPrefix : Bytes := ascii "QVADDR1:"

/-- The payload of the part with the index `k`, from zero. -/
def qrPayload (k parts : Nat) (chunk : Bytes) : Bytes :=
  qvaddrQrPrefix ++ (Text.decimal (k + 1) ++ ascii "/" ++ Text.decimal parts ++ ascii ":" ++ chunk)

/-- The payloads of the remaining parts, the first of which has the index `k`. -/
def qrPartsFrom (bytes : Bytes) (parts chunkLen k : Nat) : (remaining : Nat) → Except WalletError (List Bytes)
  | 0 => .ok []
  | remaining + 1 => do
      let start := min (k * chunkLen) maxUsize
      if start ≥ bytes.length then return []
      let stop := min (min (start + chunkLen) maxUsize) bytes.length
      let chunk := (bytes.drop start).take (stop - start)
      require (Text.IsUtf8 chunk) (.invalidArg s!"qr chunk utf8: {Text.utf8ErrorText chunk}")
      let rest ← qrPartsFrom bytes parts chunkLen (k + 1) remaining
      return qrPayload k parts chunk :: rest

def addressToQrParts (address : Bytes) (parts : Nat) : Except WalletError (List Bytes) := do
  require (parts ≠ 0) (.invalidArg "parts must be >= 1")
  let upper := Text.toAsciiUppercase address
  let chunkLen := (upper.length + (parts - 1)) / parts
  qrPartsFrom upper parts chunkLen 0 parts

/-- A payload as it is read back: its index, the number of parts it announces, and its chunk. -/
structure QrPart where
  index : Nat
  total : Nat
  chunk : Bytes
deriving DecidableEq

def readQrPart (payload : Bytes) : Except WalletError QrPart := do
  let body ← okOr (Text.stripPrefix qvaddrQrPrefix payload)
    (.invalidArg s!"not a qvaddr QR payload: {Text.firstChars 20 payload}…")
  let (header, chunk) ← okOr (Text.splitOnce 58 body) (.invalidArg "qvaddr QR payload missing `:` separator")
  let (idxText, totalText) ← okOr (Text.splitOnce 47 header) (.invalidArg "qvaddr QR header must be `<k>/<N>`")
  let idx ← (Text.parseUsize idxText).mapError fun e => .invalidArg s!"qr index: {e.text}"
  let n ← (Text.parseUsize totalText).mapError fun e => .invalidArg s!"qr total: {e.text}"
  require (¬ (idx = 0 ∨ idx > n)) (.invalidArg s!"qvaddr QR index {idx} out of range 1..={n}")
  return ⟨idx, n, chunk⟩

/-- Read one more payload. The state is the number of parts announced so far and the chunks by index. -/
def collectQrPart (state : Option Nat × List (Nat × Bytes)) (payload : Bytes) :
    Except WalletError (Option Nat × List (Nat × Bytes)) := do
  let part ← readQrPart payload
  require (state.1.getD part.total = part.total)
    (.invalidArg s!"qvaddr QR parts disagree on total: {state.1.getD 0} vs {part.total}")
  return (some part.total, state.2 ++ [(part.index, part.chunk)])

/-- Join the chunks, which have to be numbered on from the expected index. -/
def joinChunks (expected : Nat) : List (Nat × Bytes) → Except WalletError Bytes
  | [] => .ok []
  | (k, chunk) :: rest => do
      require (k = expected) (.invalidArg s!"qvaddr QR part {expected} is missing")
      let joined ← joinChunks (expected + 1) rest
      return chunk ++ joined

def sortedByIndex (indexed : List (Nat × Bytes)) : List (Nat × Bytes) := indexed.insertionSort fun a b => a.1 ≤ b.1

def addressFromQrParts (parts : List Bytes) : Except WalletError Bytes := do
  require (parts ≠ []) (.invalidArg "no QR parts supplied")
  let (total, indexed) ← parts.foldlM collectQrPart (none, [])
  let total := total.getD 0
  require (¬ (total = 0 ∨ indexed.length ≠ total)) (.invalidArg s!"expected {total} QR parts, got {indexed.length}")
  let joined ← joinChunks 1 (sortedByIndex indexed)
  let lower := Text.toAsciiLowercase joined
  let _ ← decodeAddress lower
  return lower

end QuantumVault
