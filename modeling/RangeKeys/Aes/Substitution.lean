/-!
# The byte field of AES and its substitution

Bytes are polynomials over the two-element field modulo `x⁸ + x⁴ + x³ + x + 1`, bit `i`
being the coefficient of `xⁱ`. The substitution sends a byte to its inverse in that
field, zero to zero, followed by an affine map on the bits.
-/

namespace RangeKeys.Aes

/-- The product with `x`. -/
def double (a : UInt8) : UInt8 :=
  (a <<< 1) ^^^ (if a &&& 0x80 = 0 then 0 else 0x1b)

/-- The product in the byte field, by Horner's rule on the bits of `b`. -/
def mul (a b : UInt8) : UInt8 :=
  (List.range 8).foldr (fun i sum => double sum ^^^ (if b.toNat.testBit i then a else 0)) 0

/-- The product of `a`, `a²`, `a⁴` and so on, up to the `n`-th squaring. -/
def squaringsProduct : (n : Nat) → UInt8 → UInt8
  | 0, a => a
  | n + 1, a => mul a (squaringsProduct n (mul a a))

/-- The power `a²⁵⁴`, which is the inverse of `a`, and zero for zero. -/
def inverse (a : UInt8) : UInt8 :=
  squaringsProduct 6 (mul a a)

/-- The bits of `a` moved up by `n` places, the top ones coming back in below. -/
def rotate (a : UInt8) (n : UInt8) : UInt8 :=
  (a <<< n) ||| (a >>> (8 - n))

/-- The substitution of one byte. -/
def substitute (a : UInt8) : UInt8 :=
  let b := inverse a
  b ^^^ rotate b 1 ^^^ rotate b 2 ^^^ rotate b 3 ^^^ rotate b 4 ^^^ 0x63

/-- All substitutions in order of the byte, computed once. -/
def substitutionTable : Vector UInt8 256 :=
  Vector.ofFn fun i => substitute (UInt8.ofNat i.val)

/-- The substitution of one byte, looked up. -/
def subByte (a : UInt8) : UInt8 :=
  have bound : a.toNat < 256 := a.toNat_lt
  substitutionTable[a.toNat]

theorem subByte_eq_substitute (a : UInt8) : subByte a = substitute a := by
  simp [subByte, substitutionTable]

end RangeKeys.Aes
