import QuantumVault.Lib.Encoding
import QuantumVault.Lib.Limbs

/-!
# Big-endian words

The eight bytes of a word with the most significant first, and the number that a big-endian byte string denotes.
-/

namespace QuantumVault

theorem ofLittleEndian_reverse (bs : Bytes) : ofLittleEndian bs.reverse = Limbs.value 256 (bs.map UInt8.toNat) := by
  have hdigits : ∀ bs : Bytes, ofLittleEndian bs = Nat.ofDigits 256 (bs.map UInt8.toNat) := by
    intro bs
    induction bs with
    | nil => rfl
    | cons b bs ih => rw [ofLittleEndian, ih, List.map_cons, Nat.ofDigits_cons]
  rw [hdigits, Limbs.value, List.map_reverse]

namespace Word

def toBeBytes (n : UInt64) : Bytes := (toLittleEndian 8 n.toNat).reverse

def fromBeBytes (bs : Bytes) : UInt64 := UInt64.ofNat (ofLittleEndian bs.reverse)

@[simp] theorem length_toBeBytes (n : UInt64) : (toBeBytes n).length = 8 := by simp [toBeBytes]

@[simp] theorem ofLittleEndian_reverse_toBeBytes (n : UInt64) : ofLittleEndian (toBeBytes n).reverse = n.toNat := by
  rw [toBeBytes, List.reverse_reverse, ofLittleEndian_toLittleEndian_u64]

theorem value_toBeBytes (n : UInt64) : Limbs.value 256 ((toBeBytes n).map UInt8.toNat) = n.toNat := by
  rw [← ofLittleEndian_reverse, ofLittleEndian_reverse_toBeBytes]

theorem fromBeBytes_toBeBytes (n : UInt64) : fromBeBytes (toBeBytes n) = n := by
  rw [fromBeBytes, ofLittleEndian_reverse_toBeBytes, UInt64.ofNat_toNat]

theorem toBeBytes_inj : Function.Injective toBeBytes := Function.LeftInverse.injective fromBeBytes_toBeBytes

theorem toNat_fromBeBytes {bs : Bytes} (hlen : bs.length = 8) :
    (fromBeBytes bs).toNat = Limbs.value 256 (bs.map UInt8.toNat) := by
  have hlt := ofLittleEndian_lt bs.reverse
  rw [List.length_reverse, hlen] at hlt
  rw [fromBeBytes, UInt64.toNat_ofNat', ← ofLittleEndian_reverse]
  exact Nat.mod_eq_of_lt hlt

end Word

end QuantumVault
