import RangeKeys.BigEndian

/-!
# The block field of GCM

Blocks are polynomials over the two-element field modulo `x¹²⁸ + x⁷ + x² + x + 1`. The
first bit of a block, the top bit of its first byte, is the coefficient of `1`, and the
last bit that of `x¹²⁷`.
-/

namespace RangeKeys.Gcm

/-- A polynomial of degree below 128; its most significant bit is the constant coefficient. -/
abbrev Element := BitVec 128

namespace Element

/-- The polynomial whose coefficients are the bits of the block. -/
def ofBlock (block : Block) : Element :=
  BitVec.ofNat 128 (BigEndian.decode block.toList)

/-- The block whose bits are the coefficients. -/
def toBlock (a : Element) : Block :=
  BigEndian.encode 16 a.toNat

/-- The product with `x`: `x¹²⁸` becomes `x⁷ + x² + x + 1`. -/
def shift (a : Element) : Element :=
  (a >>> 1) ^^^ (if a.getMsbD 127 then 0xe1#8 ++ 0#120 else 0#128)

/-- The product, by Horner's rule on the coefficients of `a` from the highest down. -/
def mul (a b : Element) : Element :=
  (List.range 128).foldr (fun i sum => shift sum ^^^ (if a.getMsbD i then b else 0)) 0

end Element

/-- The polynomial in `subkey` whose coefficients are the blocks, the last one that of `subkey`
itself. -/
def hash (subkey : Element) (blocks : List Element) : Element :=
  blocks.foldl (fun sum block => (sum ^^^ block).mul subkey) 0

end RangeKeys.Gcm
