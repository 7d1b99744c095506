import Mathlib

/-!
# Byte strings and the canonical binary encoding

Little-endian integers of a fixed width, and the binary serialisation format built from them: fixed-width little-endian integers, an eight-byte length in front of every sequence, one tag byte in front of every optional value, and the fields of a record one after the other. Fixed-size byte arrays are written without a length.
-/

namespace QuantumVault

abbrev Bytes : Type := List UInt8

/-- The `width` low-order bytes of `n`, least significant first. -/
def toLittleEndian : (width : Nat) → (n : Nat) → Bytes
  | 0, _ => []
  | width + 1, n => UInt8.ofNat n :: toLittleEndian width (n / 256)

/-- The number a little-endian byte string denotes. -/
def ofLittleEndian : Bytes → Nat
  | [] => 0
  | b :: bs => b.toNat + 256 * ofLittleEndian bs

@[simp] theorem length_toLittleEndian (width n : Nat) : (toLittleEndian width n).length = width := by
  induction width generalizing n with
  | zero => rfl
  | succ width ih => simp [toLittleEndian, ih]

theorem ofLittleEndian_toLittleEndian (width n : Nat) : ofLittleEndian (toLittleEndian width n) = n % 256 ^ width := by
  induction width generalizing n with
  | zero => simp [toLittleEndian, ofLittleEndian, Nat.mod_one]
  | succ width ih =>
      have hbyte : (UInt8.ofNat n).toNat = n % 256 := UInt8.toNat_ofNat'
      rw [toLittleEndian, ofLittleEndian, ih, hbyte, Nat.pow_succ', Nat.mod_mul]

theorem ofLittleEndian_toLittleEndian_of_lt {width n : Nat} (h : n < 256 ^ width) :
    ofLittleEndian (toLittleEndian width n) = n := by
  rw [ofLittleEndian_toLittleEndian, Nat.mod_eq_of_lt h]

theorem ofLittleEndian_toLittleEndian_u64 (n : UInt64) : ofLittleEndian (toLittleEndian 8 n.toNat) = n.toNat :=
  ofLittleEndian_toLittleEndian_of_lt n.toNat_lt

theorem toLittleEndian_u64_inj {m n : UInt64} (h : toLittleEndian 8 m.toNat = toLittleEndian 8 n.toNat) : m = n := by
  have hnat := congrArg ofLittleEndian h
  rwa [ofLittleEndian_toLittleEndian_u64, ofLittleEndian_toLittleEndian_u64, UInt64.toNat_inj] at hnat

theorem ofLittleEndian_lt (bs : Bytes) : ofLittleEndian bs < 256 ^ bs.length := by
  induction bs with
  | nil => simp [ofLittleEndian]
  | cons b bs ih =>
      have hb := b.toNat_lt
      rw [ofLittleEndian, List.length_cons, pow_succ]
      omega

theorem toLittleEndian_ofLittleEndian (bs : Bytes) : toLittleEndian bs.length (ofLittleEndian bs) = bs := by
  induction bs with
  | nil => rfl
  | cons b bs ih =>
      have hb := b.toNat_lt
      have hquot : (b.toNat + 256 * ofLittleEndian bs) / 256 = ofLittleEndian bs := by omega
      have hbyte : UInt8.ofNat (b.toNat + 256 * ofLittleEndian bs) = b := by
        apply UInt8.toNat_inj.mp
        rw [UInt8.toNat_ofNat']
        omega
      rw [List.length_cons, toLittleEndian, ofLittleEndian, hquot, hbyte, ih]

theorem ofLittleEndian_append_zeros (bs : Bytes) (count : Nat) :
    ofLittleEndian (bs ++ List.replicate count 0) = ofLittleEndian bs := by
  have hzeros : ofLittleEndian (List.replicate count 0) = 0 := by
    induction count with
    | zero => rfl
    | succ count ih => rw [List.replicate_succ, ofLittleEndian, ih, UInt8.toNat_zero]
  induction bs with
  | nil => exact hzeros
  | cons b bs ih => rw [List.cons_append, ofLittleEndian, ofLittleEndian, ih]

namespace Encode

def u8 (n : UInt8) : Bytes := [n]

def u32 (n : UInt32) : Bytes := toLittleEndian 4 n.toNat

def u64 (n : UInt64) : Bytes := toLittleEndian 8 n.toNat

/-- A sequence: its length as a 64-bit word, then its items. -/
def seq {α : Type*} (item : α → Bytes) (xs : List α) : Bytes :=
  u64 (UInt64.ofNat xs.length) ++ xs.flatMap item

/-- A byte string of variable length. -/
def bytes (bs : Bytes) : Bytes := seq u8 bs

/-- An optional value: a tag byte, then the value if there is one. -/
def option {α : Type*} (item : α → Bytes) : Option α → Bytes
  | none => [0]
  | some x => 1 :: item x

theorem length_bytes (bs : Bytes) : (bytes bs).length = 8 + bs.length := by
  simp [bytes, seq, u64, u8, List.length_flatMap]

end Encode

/-- The bytes of an ASCII text. -/
def ascii (text : String) : Bytes := text.toList.map fun c => UInt8.ofNat c.toNat

/-! ### Reading back

A reader takes a value off the front of its input and returns the rest. -/

namespace Decode

/-- The first bytes, if there are that many. -/
def fixed (count : Nat) (input : Bytes) : Option (Bytes × Bytes) :=
  if count ≤ input.length then some (input.take count, input.drop count) else none

def u8 : Bytes → Option (UInt8 × Bytes)
  | [] => none
  | b :: rest => some (b, rest)

def u32 (input : Bytes) : Option (UInt32 × Bytes) := do
  let (word, rest) ← fixed 4 input
  return (UInt32.ofNat (ofLittleEndian word), rest)

def u64 (input : Bytes) : Option (UInt64 × Bytes) := do
  let (word, rest) ← fixed 8 input
  return (UInt64.ofNat (ofLittleEndian word), rest)

def bytes (input : Bytes) : Option (Bytes × Bytes) := do
  let (length, rest) ← u64 input
  fixed length.toNat rest

/-- The tag byte is 0 or 1. -/
def option {α : Type} (item : Bytes → Option (α × Bytes)) : Bytes → Option (Option α × Bytes)
  | [] => none
  | tag :: rest =>
      if tag = 0 then some (none, rest)
      else if tag = 1 then (item rest).map fun read => (some read.1, read.2)
      else none

def items {α : Type} (item : Bytes → Option (α × Bytes)) : (count : Nat) → Bytes → Option (List α × Bytes)
  | 0, input => some ([], input)
  | count + 1, input => do
      let (x, rest) ← item input
      let (xs, rest) ← items item count rest
      return (x :: xs, rest)

def seq {α : Type} (item : Bytes → Option (α × Bytes)) (input : Bytes) : Option (List α × Bytes) := do
  let (length, rest) ← u64 input
  items item length.toNat rest

theorem fixed_append {count : Nat} {bs : Bytes} (hlen : bs.length = count) (rest : Bytes) :
    fixed count (bs ++ rest) = some (bs, rest) := by
  have hle : count ≤ (bs ++ rest).length := by
    rw [List.length_append]
    omega
  rw [fixed, if_pos hle, List.take_left' hlen, List.drop_left' hlen]

theorem u32_encode (n : UInt32) (rest : Bytes) : u32 (Encode.u32 n ++ rest) = some (n, rest) := by
  have hlt : n.toNat < 256 ^ 4 := n.toNat_lt
  rw [u32, Encode.u32, fixed_append (length_toLittleEndian 4 _)]
  show some (UInt32.ofNat (ofLittleEndian (toLittleEndian 4 n.toNat)), rest) = _
  rw [ofLittleEndian_toLittleEndian, Nat.mod_eq_of_lt hlt, UInt32.ofNat_toNat]

theorem u64_encode (n : UInt64) (rest : Bytes) : u64 (Encode.u64 n ++ rest) = some (n, rest) := by
  have hlt : n.toNat < 256 ^ 8 := n.toNat_lt
  rw [u64, Encode.u64, fixed_append (length_toLittleEndian 8 _)]
  show some (UInt64.ofNat (ofLittleEndian (toLittleEndian 8 n.toNat)), rest) = _
  rw [ofLittleEndian_toLittleEndian, Nat.mod_eq_of_lt hlt, UInt64.ofNat_toNat]

theorem bytes_encode {bs : Bytes} (hlen : bs.length < 2 ^ 64) (rest : Bytes) :
    bytes (Encode.bytes bs ++ rest) = some (bs, rest) := by
  have hcount : (UInt64.ofNat bs.length).toNat = bs.length := by
    rw [UInt64.toNat_ofNat', Nat.mod_eq_of_lt hlen]
  have hitems : bs.flatMap Encode.u8 = bs := List.flatMap_singleton' bs
  rw [bytes, Encode.bytes, Encode.seq, List.append_assoc, u64_encode, hitems]
  show fixed (UInt64.ofNat bs.length).toNat (bs ++ rest) = _
  rw [hcount, fixed_append rfl]

/-! What is read off the front is not there any more. -/

theorem length_fixed {count : Nat} {input bs rest : Bytes} (h : fixed count input = some (bs, rest)) :
    bs.length = count ∧ input.length = count + rest.length := by
  obtain ⟨hle, h⟩ := Option.ite_none_right_eq_some.mp h
  cases h
  rw [List.length_take, List.length_drop]
  omega

theorem length_bytes {input bs rest : Bytes} (h : bytes input = some (bs, rest)) :
    input.length = 8 + bs.length + rest.length := by
  obtain ⟨⟨length, mid⟩, hlength, h⟩ := Option.bind_eq_some_iff.mp h
  obtain ⟨⟨word, mid'⟩, hword, hmid⟩ := Option.bind_eq_some_iff.mp hlength
  cases hmid
  have hfirst := length_fixed hword
  have hsecond := length_fixed h
  omega

section Sequences

variable {α : Type} {item : Bytes → Option (α × Bytes)} {encode : α → Bytes}

theorem option_encode {o : Option α} (hitem : ∀ x ∈ o, ∀ rest, item (encode x ++ rest) = some (x, rest)) (rest : Bytes) :
    option item (Encode.option encode o ++ rest) = some (o, rest) := by
  cases o with
  | none => rfl
  | some x =>
      show (item (encode x ++ rest)).map _ = _
      rw [hitem x rfl]
      rfl

theorem items_encode {xs : List α} (hitem : ∀ x ∈ xs, ∀ rest, item (encode x ++ rest) = some (x, rest)) (rest : Bytes) :
    items item xs.length (xs.flatMap encode ++ rest) = some (xs, rest) := by
  induction xs with
  | nil => rfl
  | cons x xs ih =>
      rw [List.forall_mem_cons] at hitem
      rw [List.length_cons, items, List.flatMap_cons, List.append_assoc, hitem.1]
      show (items item xs.length (xs.flatMap encode ++ rest) >>= _) = _
      rw [ih hitem.2]
      rfl

theorem seq_encode {xs : List α} (hitem : ∀ x ∈ xs, ∀ rest, item (encode x ++ rest) = some (x, rest))
    (hlen : xs.length < 2 ^ 64) (rest : Bytes) : seq item (Encode.seq encode xs ++ rest) = some (xs, rest) := by
  have hcount : (UInt64.ofNat xs.length).toNat = xs.length := by
    rw [UInt64.toNat_ofNat', Nat.mod_eq_of_lt hlen]
  rw [seq, Encode.seq, List.append_assoc, u64_encode]
  show items item (UInt64.ofNat xs.length).toNat (xs.flatMap encode ++ rest) = _
  rw [hcount, items_encode hitem]

end Sequences

end Decode

end QuantumVault
