import RangeKeys.Gcm.Field
import RangeKeys.Proofs.BinaryField.Irreducible
import RangeKeys.Proofs.SeedNode.Codec

/-!
# The hash tells inputs with one different block apart

The modulus of the block field is irreducible, so a product with a subkey other than zero has but
one other factor. Every step of the hash is such a product, and so the hash of blocks determines
any of them by the others. The hash under the subkey zero is zero.
-/

namespace RangeKeys.Gcm

namespace Element

/-- Blocks as polynomials of degree at most 127. -/
def basis : PolynomialBasis Element where
  top := 127
  tail i := (0xe1#8 ++ 0#120 : Element).getMsbD i
  coeff a i := a.getMsbD i
  zero := 0
  one := BitVec.twoPow 128 127
  add a b := a ^^^ b
  shift := shift
  ext same := BitVec.eq_of_getMsbD_eq fun i lt => same i (Nat.le_of_lt_succ lt)
  coeff_zero _ _ := BitVec.getMsbD_zero
  coeff_one i _ := by
    rw [BitVec.getMsbD_twoPow]
    simp
  coeff_add _ _ _ _ := BitVec.getMsbD_xor
  coeff_shift_zero a := by
    rw [shift, BitVec.getMsbD_xor, BitVec.getMsbD_ushiftRight]
    cases a.getMsbD 127 <;> simp
  coeff_shift_succ a i lt := by
    have inside : i + 1 < 128 := Nat.succ_lt_succ lt
    rw [shift, BitVec.getMsbD_xor, BitVec.getMsbD_ushiftRight]
    cases a.getMsbD 127 <;> simp [inside]

/-- The polynomial `x` after squaring it sixty-four times. -/
def halfway : Element := 0x6f9945a9e519a7229d4c1ad657f8a686

theorem iterate_square_x : basis.square^[64] (basis.shift basis.one) = halfway := by
  decide +kernel

theorem iterate_square_halfway : basis.square^[64] halfway = basis.shift basis.one := by
  decide +kernel

theorem mul_inverse_halfway :
    basis.mul (basis.add halfway (basis.shift basis.one)) 0x180da934bf53158251c13dbb149f5279 =
      basis.one := by
  decide +kernel

theorem irreducible_modulus : Irreducible basis.modulus := by
  refine basis.irreducible_modulus (k := 6) rfl ?_ ?_
    (c := (0x180da934bf53158251c13dbb149f5279 : Element))
  · rw [show 2 ^ (6 + 1) = 64 + 64 from rfl, Function.iterate_add_apply, iterate_square_x,
      iterate_square_halfway]
  · rw [show 2 ^ 6 = 64 from rfl, iterate_square_x, mul_inverse_halfway]

theorem mul_right_cancel {a b c : Element} (ne : c ≠ 0) (h : a.mul c = b.mul c) : a = b :=
  basis.mul_right_cancel irreducible_modulus ne h

theorem mul_zero (a : Element) : a.mul 0 = 0 :=
  basis.mul_zero a

theorem ofBlock_injective {a b : Block} (h : ofBlock a = ofBlock b) : a = b := by
  have lt (block : Block) : BigEndian.decode block.toList < 2 ^ 128 := by
    have bound := BigEndian.decode_lt block.toList
    rwa [Vector.length_toList, show 256 ^ 16 = 2 ^ 128 from rfl] at bound
  have same := congrArg BitVec.toNat h
  rw [ofBlock, ofBlock, BitVec.toNat_ofNat, BitVec.toNat_ofNat, Nat.mod_eq_of_lt (lt a),
    Nat.mod_eq_of_lt (lt b)] at same
  rw [← BigEndian.encode_decode a, ← BigEndian.encode_decode b, same]

theorem toBlock_injective {a b : Element} (h : toBlock a = toBlock b) : a = b :=
  BitVec.eq_of_toNat_eq
    (BigEndian.eq_of_toList_encode_eq a.isLt b.isLt (congrArg Vector.toList h))

end Element

section Hash

variable {subkey a b : Element}

/-- The sum that the first blocks leave behind is determined by what the other blocks make of it. -/
theorem foldl_injective (ne : subkey ≠ 0) {blocks : List Element}
    (h : blocks.foldl (fun sum block => (sum ^^^ block).mul subkey) a =
      blocks.foldl (fun sum block => (sum ^^^ block).mul subkey) b) : a = b := by
  induction blocks generalizing a b with
  | nil => exact h
  | cons block blocks ih =>
    have products := ih h
    exact (BitVec.xor_left_inj _).1 (Element.mul_right_cancel ne products)

/-- Inputs to the hash that differ in one block have different hashes. -/
theorem hash_injective (ne : subkey ≠ 0) (before : List Element) {after : List Element}
    (h : hash subkey (before ++ a :: after) = hash subkey (before ++ b :: after)) : a = b := by
  simp only [hash, List.foldl_append, List.foldl_cons] at h
  have products := foldl_injective ne h
  exact (BitVec.xor_right_inj _).1 (Element.mul_right_cancel ne products)

theorem hash_zero (blocks : List Element) : hash 0 blocks = 0 := by
  have from_zero : blocks.foldl (fun sum block => (sum ^^^ block).mul 0) (0 : Element) = 0 := by
    induction blocks with
    | nil => rfl
    | cons block blocks ih => rw [List.foldl_cons, Element.mul_zero, ih]
  exact from_zero

end Hash

end RangeKeys.Gcm
