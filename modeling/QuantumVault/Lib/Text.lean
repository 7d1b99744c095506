import QuantumVault.Lib.Encoding
import QuantumVault.Lib.Result

/-!
# Texts

A text is the list of its UTF-8 bytes. This module has the operations on texts that split and join them, the two ways to change the case of the ASCII letters, the decimal form of a number and the hexadecimal form of a byte string. What is printed is read back: a decimal by `parseUsize`, which knows 64-bit numbers only, and a hexadecimal text by `Hex.decode`, which takes the letters in either case.
-/

namespace QuantumVault

open Result

namespace Text

/-! ### Cutting -/

/-- What follows the given front. -/
def stripPrefix (front text : Bytes) : Option Bytes :=
  if front <+: text then some (text.drop front.length) else none

/-- The parts before and after the first separator. -/
def splitOnce (separator : UInt8) : Bytes → Option (Bytes × Bytes)
  | [] => none
  | c :: rest =>
      if c = separator then some ([], rest) else (splitOnce separator rest).map fun parts => (c :: parts.1, parts.2)

theorem stripPrefix_append (front rest : Bytes) : stripPrefix front (front ++ rest) = some rest := by
  rw [stripPrefix, if_pos (List.prefix_append front rest), List.drop_left]

theorem eq_append_of_stripPrefix {front text rest : Bytes} (h : stripPrefix front text = some rest) : text = front ++ rest := by
  obtain ⟨⟨tail, rfl⟩, h⟩ := Option.ite_none_right_eq_some.mp h
  rw [List.drop_left] at h
  cases h
  rfl

theorem splitOnce_append {separator : UInt8} {before : Bytes} (h : separator ∉ before) (after : Bytes) :
    splitOnce separator (before ++ separator :: after) = some (before, after) := by
  induction before with
  | nil => exact if_pos rfl
  | cons c before ih =>
      rw [List.mem_cons, not_or] at h
      rw [List.cons_append, splitOnce, if_neg (Ne.symm h.1), ih h.2]
      rfl

/-! ### Case -/

def IsLower (c : UInt8) : Prop := 97 ≤ c ∧ c ≤ 122

def IsUpper (c : UInt8) : Prop := 65 ≤ c ∧ c ≤ 90

instance (c : UInt8) : Decidable (IsLower c) := inferInstanceAs (Decidable (_ ∧ _))

instance (c : UInt8) : Decidable (IsUpper c) := inferInstanceAs (Decidable (_ ∧ _))

def toAsciiUppercase (text : Bytes) : Bytes := text.map fun c => if IsLower c then c - 32 else c

def toAsciiLowercase (text : Bytes) : Bytes := text.map fun c => if IsUpper c then c + 32 else c

@[simp] theorem length_toAsciiUppercase (text : Bytes) : (toAsciiUppercase text).length = text.length := List.length_map _

/-- A text without capitals is what it was when it comes back from capitals. -/
theorem toAsciiLowercase_toAsciiUppercase {text : Bytes} (h : ∀ c ∈ text, ¬ IsUpper c) :
    toAsciiLowercase (toAsciiUppercase text) = text := by
  have hbyte : ∀ c : UInt8, ¬ IsUpper c →
      (if IsUpper (if IsLower c then c - 32 else c) then (if IsLower c then c - 32 else c) + 32
        else if IsLower c then c - 32 else c) = c := by decide +kernel
  rw [toAsciiLowercase, toAsciiUppercase, List.map_map]
  calc
    _ = text.map id := List.map_congr_left fun c hc => hbyte c (h c hc)
    _ = text := List.map_id text

/-! ### Validity -/

/-- The bytes are the encoding of a text. -/
def IsUtf8 (bytes : Bytes) : Prop := (ByteArray.mk bytes.toArray).validateUTF8 = true

instance (bytes : Bytes) : Decidable (IsUtf8 bytes) := inferInstanceAs (Decidable (_ = true))

/-- The first characters of a text. -/
def firstChars (count : Nat) (text : Bytes) : String :=
  String.ofList (((String.fromUTF8? (ByteArray.mk text.toArray)).getD "").toList.take count)

/-- A byte that continues a character. -/
def IsContinuation (c : UInt8) : Prop := 128 ≤ c ∧ c ≤ 191

instance (c : UInt8) : Decidable (IsContinuation c) := inferInstanceAs (Decidable (_ ∧ _))

/-- How the standard library reports invalid bytes that were cut out of a text: they start inside a character, or else they end inside one. -/
def utf8ErrorText (bytes : Bytes) : String :=
  if IsContinuation (bytes.headD 0) then "invalid utf-8 sequence of 1 bytes from index 0"
  else
    let cut := (bytes.reverse.takeWhile fun c => decide (IsContinuation c)).length + 1
    s!"incomplete utf-8 byte sequence from index {bytes.length - cut}"

theorem isUtf8_of_ascii {bytes : Bytes} (h : ∀ c ∈ bytes, c < 128) : IsUtf8 bytes := by
  have hbyte : ∀ c : UInt8, c < 128 → (Char.ofNat c.toNat).utf8Size = 1 ∧ (Char.ofNat c.toNat).toUInt8 = c := by
    decide +kernel
  rw [IsUtf8, ByteArray.validateUTF8_eq_true_iff]
  induction bytes using List.reverseRecOn with
  | nil => exact ByteArray.isValidUTF8_empty
  | append_singleton bytes c ih =>
      obtain ⟨hsize, hchar⟩ := hbyte c (h c List.mem_concat_self)
      have hpush := (ih fun d hd => h d (List.mem_append_left _ hd)).push hsize
      rwa [hchar, ByteArray.push, List.push_toArray] at hpush

/-! ### Decimals -/

/-- Why a text is not a number. -/
inductive ParseIntError where
  | empty
  | invalidDigit
  | posOverflow
deriving DecidableEq

def ParseIntError.text : ParseIntError → String
  | empty => "cannot parse integer from empty string"
  | invalidDigit => "invalid digit found in string"
  | posOverflow => "number too large to fit in target type"

/-- A number as it is printed. -/
def decimal (n : Nat) : Bytes := (Nat.toDigits 10 n).map fun c => UInt8.ofNat c.toNat

def IsDigit (c : UInt8) : Prop := 48 ≤ c ∧ c ≤ 57

instance (c : UInt8) : Decidable (IsDigit c) := inferInstanceAs (Decidable (_ ∧ _))

def parseDigit (value : Nat) (c : UInt8) : Except ParseIntError Nat := do
  require (IsDigit c) .invalidDigit
  let next := value * 10 + (c.toNat - 48)
  require (next < 2 ^ 64) .posOverflow
  return next

/-- Read an unsigned 64-bit number. A plus sign in front is passed over. -/
def parseUsize (text : Bytes) : Except ParseIntError Nat := do
  require (text ≠ []) .empty
  let digits := if text.head? = some 43 then text.tail else text
  require (digits ≠ []) .invalidDigit
  digits.foldlM parseDigit 0

theorem decimal_of_lt {n : Nat} (h : n < 10) : decimal n = [UInt8.ofNat (48 + n)] := by
  rw [decimal, Nat.toDigits_of_lt_base h]
  interval_cases n <;> rfl

theorem decimal_of_ge {n : Nat} (h : 10 ≤ n) : decimal n = decimal (n / 10) ++ decimal (n % 10) := by
  have hlast : n % 10 < 10 := Nat.mod_lt n (by decide)
  rw [decimal, Nat.toDigits_of_base_le (by decide) h, List.map_append, decimal, decimal, Nat.toDigits_of_lt_base hlast]

theorem decimal_ne_nil (n : Nat) : decimal n ≠ [] := by
  rw [decimal, Ne, List.map_eq_nil_iff]
  exact Nat.toDigits_ne_nil

theorem isDigit_ofNat {n : Nat} (h : n < 10) : IsDigit (UInt8.ofNat (48 + n)) ∧ (UInt8.ofNat (48 + n)).toNat - 48 = n := by
  interval_cases n <;> decide

theorem isDigit_of_mem_decimal {n : Nat} {c : UInt8} (h : c ∈ decimal n) : IsDigit c := by
  induction n using Nat.strongRecOn with
  | ind n ih =>
      rcases Nat.lt_or_ge n 10 with hlt | hge
      · rw [decimal_of_lt hlt, List.mem_singleton] at h
        exact h ▸ (isDigit_ofNat hlt).1
      · rw [decimal_of_ge hge, List.mem_append] at h
        rcases h with h | h
        · exact ih (n / 10) (by omega) h
        · exact ih (n % 10) (by omega) h

theorem parseDigit_ofNat {value digit next : Nat} (hdigit : digit < 10) :
    parseDigit value (UInt8.ofNat (48 + digit)) = .ok next ↔ value * 10 + digit < 2 ^ 64 ∧ value * 10 + digit = next := by
  obtain ⟨hisDigit, hvalue⟩ := isDigit_ofNat hdigit
  rw [parseDigit, require_bind_eq_ok, hvalue]
  exact (and_iff_right hisDigit).trans (require_bind_eq_ok.trans (and_congr_right fun _ => pure_eq_ok))

theorem foldlM_parseDigit_decimal {n value : Nat} :
    (decimal n).foldlM parseDigit 0 = .ok value ↔ n < 2 ^ 64 ∧ n = value := by
  induction n using Nat.strongRecOn generalizing value with
  | ind n ih =>
      have hdigit {digit value next : Nat} (h : digit < 10) : (decimal digit).foldlM parseDigit value = .ok next ↔
          value * 10 + digit < 2 ^ 64 ∧ value * 10 + digit = next := by
        rw [decimal_of_lt h, List.foldlM_cons, bind_eq_ok]
        simp only [List.foldlM_nil, pure_eq_ok, exists_eq_right, parseDigit_ofNat h]
      rcases Nat.lt_or_ge n 10 with hlt | hge
      · rw [hdigit hlt, Nat.zero_mul, Nat.zero_add]
      · have hlast : n % 10 < 10 := Nat.mod_lt n (by decide)
        rw [decimal_of_ge hge, foldlM_append_eq_ok]
        refine ⟨fun h => ?_, fun h => ⟨n / 10, (ih _ (by omega)).mpr ⟨by omega, rfl⟩, (hdigit hlast).mpr (by omega)⟩⟩
        obtain ⟨front, hfront, hback⟩ := h
        rw [ih _ (by omega)] at hfront
        rw [hdigit hlast] at hback
        omega

/-- **A printed number is read back** if it has 64 bits, and refused otherwise. -/
theorem parseUsize_decimal {n value : Nat} : parseUsize (decimal n) = .ok value ↔ n < 2 ^ 64 ∧ n = value := by
  have hplus : (decimal n).head? ≠ some 43 := fun hhead =>
    absurd (isDigit_of_mem_decimal (List.mem_of_mem_head? hhead)) (by decide)
  rw [parseUsize, require_bind_eq_ok, if_neg hplus, ← foldlM_parseDigit_decimal]
  exact (and_iff_right (decimal_ne_nil n)).trans (require_bind_eq_ok.trans (and_iff_right (decimal_ne_nil n)))

end Text

/-! ### Hexadecimal texts -/

namespace Hex

/-- Why a text is not hexadecimal. -/
inductive FromHexError where
  | oddLength
  | invalidHexCharacter (c : UInt8) (index : Nat)
deriving DecidableEq

/-- A byte taken for a character and quoted as in a debug message. -/
def quoted (c : UInt8) : String :=
  if c = 9 then "'\\t'" else if c = 10 then "'\\n'" else if c = 13 then "'\\r'" else if c = 0 then "'\\0'"
  else if c = 39 then "'\\''" else if c = 92 then "'\\\\'"
  else if c < 32 ∨ (127 ≤ c ∧ c < 160) ∨ c = 173 then
    "'\\u\x7b" ++ String.ofList (Nat.toDigits 16 c.toNat) ++ "\x7d'"
  else "'" ++ String.ofList [Char.ofNat c.toNat] ++ "'"

def FromHexError.text : FromHexError → String
  | oddLength => "Odd number of digits"
  | invalidHexCharacter c index => s!"Invalid character {quoted c} at position {index}"

/-- The digit of a number below sixteen, a letter being lower-case. -/
def digit (n : Nat) : UInt8 := UInt8.ofNat (if n < 10 then 48 + n else 87 + n)

def encode (bytes : Bytes) : Bytes := bytes.flatMap fun b => [digit (b.toNat / 16), digit (b.toNat % 16)]

/-- The value of a digit, a letter being in either case. -/
def val (c : UInt8) (index : Nat) : Except FromHexError Nat :=
  if 65 ≤ c ∧ c ≤ 70 then .ok (c.toNat - 55)
  else if 97 ≤ c ∧ c ≤ 102 then .ok (c.toNat - 87)
  else if 48 ≤ c ∧ c ≤ 57 then .ok (c.toNat - 48)
  else .error (.invalidHexCharacter c index)

/-- Read pairs of digits, the first of which is at the index. -/
def decodeFrom (index : Nat) : Bytes → Except FromHexError Bytes
  | high :: low :: rest => do
      let h ← val high index
      let l ← val low (index + 1)
      let bytes ← decodeFrom (index + 2) rest
      return UInt8.ofNat (h * 16 + l) :: bytes
  | _ => .ok []

def decode (text : Bytes) : Except FromHexError Bytes := do
  require (text.length % 2 = 0) .oddLength
  decodeFrom 0 text

theorem length_encode (bytes : Bytes) : (encode bytes).length = 2 * bytes.length := by
  induction bytes with
  | nil => rfl
  | cons b bytes ih =>
      rw [encode, List.flatMap_cons, List.length_append, ← encode, ih, List.length_cons]
      exact Nat.add_comm 2 _

theorem digit_ascii {n : Nat} (h : n < 16) : digit n < 128 ∧ ¬ Text.IsUpper (digit n) := by
  interval_cases n <;> decide

theorem ascii_of_mem_encode {bytes : Bytes} {c : UInt8} (h : c ∈ encode bytes) : c < 128 ∧ ¬ Text.IsUpper c := by
  obtain ⟨b, -, hc⟩ := List.mem_flatMap.mp h
  have hb := UInt8.toNat_lt b
  rcases List.mem_pair.mp hc with rfl | rfl
  · exact digit_ascii (by omega)
  · exact digit_ascii (by omega)

theorem val_digit {n : Nat} (h : n < 16) (index : Nat) : val (digit n) index = .ok n := by
  interval_cases n <;> rfl

theorem decodeFrom_encode (bytes : Bytes) (index : Nat) : decodeFrom index (encode bytes) = .ok bytes := by
  induction bytes generalizing index with
  | nil => rfl
  | cons b bytes ih =>
      have hb := UInt8.toNat_lt b
      have hbyte : b.toNat / 16 * 16 + b.toNat % 16 = b.toNat := Nat.div_add_mod' _ _
      show decodeFrom index (digit (b.toNat / 16) :: digit (b.toNat % 16) :: encode bytes) = _
      rw [decodeFrom, val_digit (by omega), val_digit (by omega), ih, ok_bind, ok_bind, ok_bind, hbyte, UInt8.ofNat_toNat]
      rfl

/-- **A printed byte string is read back.** -/
theorem decode_encode (bytes : Bytes) : decode (encode bytes) = .ok bytes := by
  refine require_bind_eq_ok.mpr ⟨?_, decodeFrom_encode bytes 0⟩
  rw [length_encode]
  omega

theorem length_decodeFrom_le {text bytes : Bytes} {index : Nat} (h : decodeFrom index text = .ok bytes) :
    2 * bytes.length ≤ text.length := by
  match text with
  | high :: low :: rest =>
      rw [decodeFrom] at h
      obtain ⟨_, -, h⟩ := bind_eq_ok.mp h
      obtain ⟨_, -, h⟩ := bind_eq_ok.mp h
      obtain ⟨tail, htail, h⟩ := bind_eq_ok.mp h
      cases pure_eq_ok.mp h
      have := length_decodeFrom_le htail
      rw [List.length_cons, List.length_cons, List.length_cons]
      omega
  | [] | [_] =>
      cases h
      exact Nat.zero_le _

theorem length_decode_le {text bytes : Bytes} (h : decode text = .ok bytes) : 2 * bytes.length ≤ text.length :=
  length_decodeFrom_le (require_bind_eq_ok.mp h).2

end Hex

end QuantumVault
