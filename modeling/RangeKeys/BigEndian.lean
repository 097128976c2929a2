import RangeKeys.Bytes

/-!
# Big-endian numbers

A number is written in a field of `size` bytes, most significant byte first, and read back
from a list of bytes of any length.
-/

namespace RangeKeys.BigEndian

/-- The number in `size` bytes; of a number that does not fit, the low bytes. -/
def encode (size value : Nat) : Vector UInt8 size :=
  Vector.ofFn fun i => UInt8.ofNat (value >>> (8 * (size - 1 - i.val)))

/-- The number that the bytes spell. -/
def decode (bytes : List UInt8) : Nat :=
  bytes.foldl (fun value byte => value * 256 + byte.toNat) 0

theorem toList_encode_succ (size value : Nat) :
    (encode (size + 1) value).toList =
      UInt8.ofNat (value >>> (8 * size)) :: (encode size value).toList := by
  simp only [encode, Vector.toList_ofFn, List.ofFn_succ]
  congr 2
  funext i
  congr 3
  simp only [Fin.val_succ]
  omega

end RangeKeys.BigEndian
