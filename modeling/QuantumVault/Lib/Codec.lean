import QuantumVault.Lib.Encoding

/-!
# Exact readers

A reader is exact for a writer when it takes off the front of its input just what the writer writes, and nothing else is accepted. Exact readers are closed under the combinators of the encoding: words, byte strings, options and sequences. The values with an exact reader are those whose lengths can be written down.
-/

namespace QuantumVault

/-- What the reader takes off the front is what the writer writes for a value that fits. -/
def Exact {α : Type} (read : Bytes → Option (α × Bytes)) (write : α → Bytes) (Fits : α → Prop) : Prop :=
  ∀ input x rest, read input = some (x, rest) ↔ Fits x ∧ input = write x ++ rest

namespace Exact

variable {α : Type} {read : Bytes → Option (α × Bytes)} {write : α → Bytes} {Fits : α → Prop}

theorem of (hwritten : ∀ x, Fits x → ∀ rest, read (write x ++ rest) = some (x, rest))
    (hread : ∀ {input x rest}, read input = some (x, rest) → Fits x ∧ input = write x ++ rest) : Exact read write Fits := by
  intro input x rest
  constructor
  · exact hread
  · rintro ⟨hfits, rfl⟩
    exact hwritten x hfits rest

variable (h : Exact read write Fits)

include h

theorem read_write {x : α} (hfits : Fits x) (rest : Bytes) : read (write x ++ rest) = some (x, rest) :=
  (h _ x rest).mpr ⟨hfits, rfl⟩

theorem write_read {input rest : Bytes} {x : α} (hread : read input = some (x, rest)) :
    Fits x ∧ input = write x ++ rest :=
  (h input x rest).mp hread

end Exact

namespace Encode

def u16 (n : UInt16) : Bytes := toLittleEndian 2 n.toNat

variable {α : Type} {item : α → Bytes} {xs : List α}

theorem length_seq_items : (seq item xs).length = 8 + (xs.map fun x => (item x).length).sum := by
  simp [seq, u64, List.length_flatMap]

theorem length_le_of_seq (hitem : ∀ x ∈ xs, 0 < (item x).length) : xs.length ≤ (seq item xs).length := by
  have hsum : xs.length ≤ (xs.map fun x => (item x).length).sum := by
    induction xs with
    | nil => simp
    | cons x xs ih =>
        rw [List.forall_mem_cons] at hitem
        have hrest := ih hitem.2
        rw [List.length_cons, List.map_cons, List.sum_cons]
        omega
  rw [length_seq_items]
  omega

theorem length_item_le_of_seq (item : α → Bytes) {x : α} (hx : x ∈ xs) : (item x).length ≤ (seq item xs).length := by
  have hsum := List.single_le_sum (by simp) _ (List.mem_map_of_mem (f := fun x => (item x).length) hx)
  rw [length_seq_items]
  omega

end Encode

namespace Decode

def u16 (input : Bytes) : Option (UInt16 × Bytes) := do
  let (word, rest) ← fixed 2 input
  return (UInt16.ofNat (ofLittleEndian word), rest)

theorem eq_append_of_fixed {count : Nat} {input bs rest : Bytes} (h : fixed count input = some (bs, rest)) :
    input = bs ++ rest := by
  obtain ⟨-, heq⟩ := Option.ite_none_right_eq_some.mp h
  cases heq
  exact (List.take_append_drop count input).symm

theorem exact_u8 : Exact u8 Encode.u8 fun _ => True := by
  intro input x rest
  cases input with
  | nil => simp [u8, Encode.u8]
  | cons b input => simp [u8, Encode.u8]

theorem exact_word {W : Type} (width : Nat) (ofNat : Nat → W) (toNat : W → Nat) (hlt : ∀ w, toNat w < 256 ^ width)
    (hleft : ∀ n, n < 256 ^ width → toNat (ofNat n) = n) (hright : ∀ w, ofNat (toNat w) = w) :
    Exact (fun input => (fixed width input).bind fun r => some (ofNat (ofLittleEndian r.1), r.2))
      (fun w => toLittleEndian width (toNat w)) fun _ => True := by
  refine .of (fun w _ rest => ?_) fun {input w rest} hread => ⟨trivial, ?_⟩
  · rw [fixed_append (length_toLittleEndian width _), Option.bind_some, ofLittleEndian_toLittleEndian_of_lt (hlt w), hright]
  · obtain ⟨⟨bs, mid⟩, hfixed, heq⟩ := Option.bind_eq_some_iff.mp hread
    cases heq
    have hlen := (length_fixed hfixed).1
    have hvalue : ofLittleEndian bs < 256 ^ width := hlen ▸ ofLittleEndian_lt bs
    have hbytes := toLittleEndian_ofLittleEndian bs
    rw [hlen] at hbytes
    rw [hleft _ hvalue, hbytes]
    exact eq_append_of_fixed hfixed

theorem exact_u16 : Exact u16 Encode.u16 fun _ => True :=
  exact_word 2 UInt16.ofNat UInt16.toNat (fun w => w.toNat_lt)
    (fun _ hn => (UInt16.toNat_ofNat' ..).trans (Nat.mod_eq_of_lt hn)) fun _ => UInt16.ofNat_toNat

theorem exact_u32 : Exact u32 Encode.u32 fun _ => True :=
  exact_word 4 UInt32.ofNat UInt32.toNat (fun w => w.toNat_lt)
    (fun _ hn => (UInt32.toNat_ofNat' ..).trans (Nat.mod_eq_of_lt hn)) fun _ => UInt32.ofNat_toNat

theorem exact_u64 : Exact u64 Encode.u64 fun _ => True :=
  exact_word 8 UInt64.ofNat UInt64.toNat (fun w => w.toNat_lt)
    (fun _ hn => (UInt64.toNat_ofNat' ..).trans (Nat.mod_eq_of_lt hn)) fun _ => UInt64.ofNat_toNat

variable {α : Type} {item : Bytes → Option (α × Bytes)} {write : α → Bytes} {Fits : α → Prop}

theorem exact_bytes : Exact bytes Encode.bytes fun bs => bs.length < 2 ^ 64 := by
  refine .of (fun bs hlen rest => bytes_encode hlen rest) fun {input bs rest} hread => ?_
  obtain ⟨⟨count, mid⟩, hcount, hfixed⟩ := Option.bind_eq_some_iff.mp hread
  have hlen := (length_fixed hfixed).1
  have hitems : bs.flatMap Encode.u8 = bs := List.flatMap_singleton' bs
  refine ⟨hlen ▸ count.toNat_lt, ?_⟩
  rw [(exact_u64.write_read hcount).2, eq_append_of_fixed hfixed, Encode.bytes, Encode.seq, hitems, hlen, UInt64.ofNat_toNat,
    List.append_assoc]

theorem exact_option (hitem : Exact item write Fits) :
    Exact (option item) (Encode.option write) fun o => ∀ x ∈ o, Fits x := by
  refine .of (fun o hfits rest => option_encode (fun x hx rest => hitem.read_write (hfits x hx) rest) rest)
    fun {input o rest} hread => ?_
  cases input with
  | nil => simp [option] at hread
  | cons tag input =>
      rw [option] at hread
      split at hread
      · rename_i hzero
        cases hread
        exact ⟨by simp, by rw [hzero]; rfl⟩
      · split at hread
        · rename_i hone
          obtain ⟨⟨x, rest'⟩, hx, heq⟩ := Option.map_eq_some_iff.mp hread
          cases heq
          obtain ⟨hfits, rfl⟩ := hitem.write_read hx
          exact ⟨by simpa using hfits, by rw [hone]; rfl⟩
        · cases hread

theorem eq_append_of_items (hitem : Exact item write Fits) {count : Nat} {input rest : Bytes} {xs : List α}
    (hread : items item count input = some (xs, rest)) :
    xs.length = count ∧ (∀ x ∈ xs, Fits x) ∧ input = xs.flatMap write ++ rest := by
  induction count generalizing input xs with
  | zero =>
      cases hread
      exact ⟨rfl, by simp, rfl⟩
  | succ count ih =>
      obtain ⟨⟨x, mid⟩, hx, hread⟩ := Option.bind_eq_some_iff.mp hread
      obtain ⟨⟨xs, mid'⟩, hxs, hread⟩ := Option.bind_eq_some_iff.mp hread
      cases hread
      obtain ⟨hfits, rfl⟩ := hitem.write_read hx
      obtain ⟨hlen, hall, rfl⟩ := ih hxs
      exact ⟨by rw [List.length_cons, hlen], List.forall_mem_cons.mpr ⟨hfits, hall⟩,
        by rw [List.flatMap_cons, List.append_assoc]⟩

theorem exact_seq (hitem : Exact item write Fits) :
    Exact (seq item) (Encode.seq write) fun xs => xs.length < 2 ^ 64 ∧ ∀ x ∈ xs, Fits x := by
  refine .of (fun xs hfits rest => seq_encode (fun x hx rest => hitem.read_write (hfits.2 x hx) rest) hfits.1 rest)
    fun {input xs rest} hread => ?_
  obtain ⟨⟨count, mid⟩, hcount, hitems⟩ := Option.bind_eq_some_iff.mp hread
  obtain ⟨hlen, hall, hmid⟩ := eq_append_of_items hitem hitems
  refine ⟨⟨hlen ▸ count.toNat_lt, hall⟩, ?_⟩
  rw [(exact_u64.write_read hcount).2, hmid, Encode.seq, hlen, UInt64.ofNat_toNat, List.append_assoc]

end Decode

end QuantumVault
