import Mathlib.Tactic.LinearCombination
import RangeKeys.Aes.Encryption
import RangeKeys.Proofs.BinaryField.Irreducible

/-!
# Encryption under one key permutes the blocks

Squaring a byte eight times leads back to it, so taking the inverse twice does as well, and the
affine map on its bits can be undone. A row that is moved by its number of columns comes back if
moved on, and mixing the columns four times changes nothing. So no step of a round takes two states
to one, and neither does the addition of a round key, whatever the key.
-/

namespace RangeKeys.Aes

/-- A property of bytes is decided by trying all of them. -/
instance decidableForallByte (p : UInt8 → Prop) [DecidablePred p] : Decidable (∀ a, p a) :=
  decidable_of_iff (∀ i : Fin 256, p (UInt8.ofFin i))
    ⟨fun h a => h a.toFin, fun h i => h (UInt8.ofFin i)⟩

/-! ## Bytes as polynomials -/

theorem top_bit (a : UInt8) : (a &&& 0x80 = 0) = (a.toBitVec.getLsbD 7 = false) := by
  revert a
  decide +kernel

/-- Bytes as polynomials of degree at most seven. -/
def basis : PolynomialBasis UInt8 where
  top := 7
  tail i := (0x1b : UInt8).toBitVec.getLsbD i
  coeff a i := a.toBitVec.getLsbD i
  zero := 0
  one := 1
  add a b := a ^^^ b
  shift := double
  ext same := UInt8.toBitVec_inj.1 <| BitVec.eq_of_getLsbD_eq fun i lt =>
    same i (Nat.le_of_lt_succ lt)
  coeff_zero _ _ := BitVec.getLsbD_zero
  coeff_one i _ := by simp
  coeff_add _ _ _ _ := BitVec.getLsbD_xor
  coeff_shift_zero a := by
    simp only [double, top_bit]
    cases a.toBitVec.getLsbD 7 <;> simp
  coeff_shift_succ a i lt := by
    have inside : i + 1 < 8 := Nat.succ_lt_succ lt
    simp only [double, top_bit]
    cases a.toBitVec.getLsbD 7 <;>
      simp [inside, BitVec.getLsbD_eq_getElem (Nat.lt_of_succ_lt inside)]

theorem mul_eq (a b : UInt8) : mul a b = basis.mul b a := rfl

theorem residue_mul (a b : UInt8) :
    basis.residue (mul a b) = basis.residue a * basis.residue b := by
  rw [mul_eq, basis.residue_mul, mul_comm]

theorem residue_xor (a b : UInt8) :
    basis.residue (a ^^^ b) = basis.residue a + basis.residue b :=
  basis.residue_add a b

theorem residue_double (a : UInt8) :
    basis.residue (double a) = AdjoinRoot.root basis.modulus * basis.residue a :=
  basis.residue_shift a

/-- Squaring eight times leads every byte back to itself, since it does so with `x`. -/
theorem residue_pow (a : UInt8) : basis.residue a ^ 256 = basis.residue a := by
  have back : basis.square^[8] (basis.shift basis.one) = basis.shift basis.one := by
    decide +kernel
  have squared := basis.residue_iterate_square 8 a
  rw [basis.iterate_square_eq back] at squared
  exact squared.symm

/-! ## The substitution -/

theorem residue_squaringsProduct (n : ℕ) (a : UInt8) :
    basis.residue (squaringsProduct n a) = basis.residue a ^ (2 ^ (n + 1) - 1) := by
  induction n generalizing a with
  | zero => simp [squaringsProduct]
  | succ n ih =>
    have exponent : 2 ^ (n + 1 + 1) - 1 = 1 + 2 * (2 ^ (n + 1) - 1) := by
      have := Nat.one_le_two_pow (n := n + 1)
      rw [pow_succ 2 (n + 1)]
      omega
    rw [squaringsProduct, residue_mul, ih, residue_mul, ← pow_two, ← pow_mul, exponent,
      pow_add (basis.residue a) 1, pow_one]

theorem residue_inverse (a : UInt8) : basis.residue (inverse a) = basis.residue a ^ 254 := by
  have exponent : 2 * (2 ^ (6 + 1) - 1) = 254 := rfl
  rw [inverse, residue_squaringsProduct, residue_mul, ← pow_two, ← pow_mul, exponent]

theorem inverse_inverse (a : UInt8) : inverse (inverse a) = a := by
  -- An exponent can be lowered by 255 as long as it stays positive, and 254² is 255 · 253 + 1.
  have round (n : ℕ) : basis.residue a ^ (255 * n + 1) = basis.residue a := by
    induction n with
    | zero => simp
    | succ n ih =>
      rw [show 255 * (n + 1) + 1 = 255 * n + 256 by omega, pow_add, residue_pow, ← pow_succ, ih]
  apply basis.residue_injective
  rw [residue_inverse, residue_inverse, ← pow_mul]
  exact round 253

/-- The map on the bits of a byte that follows the inverse. -/
def affine (b : UInt8) : UInt8 :=
  b ^^^ rotate b 1 ^^^ rotate b 2 ^^^ rotate b 3 ^^^ rotate b 4 ^^^ 0x63

theorem affine_undone (b : UInt8) :
    rotate (affine b) 1 ^^^ rotate (affine b) 3 ^^^ rotate (affine b) 6 ^^^ 0x05 = b := by
  revert b
  decide +kernel

theorem subByte_injective : Function.Injective subByte := by
  intro a b h
  rw [subByte_eq_substitute, subByte_eq_substitute] at h
  have images : affine (inverse a) = affine (inverse b) := h
  have inverses : inverse a = inverse b := by
    rw [← affine_undone (inverse a), images, affine_undone]
  rw [← inverse_inverse a, inverses, inverse_inverse]

theorem subBytes_injective : Function.Injective subBytes := by
  intro s t h
  ext i lt : 1
  have bytes := congrArg (·[i]) h
  simp only [subBytes, Vector.getElem_map] at bytes
  exact subByte_injective bytes

/-! ## Rows and columns -/

theorem getElem_shiftRows (s : Block) (i : ℕ) (lt : i < 16) :
    (shiftRows s)[i] = s[5 * i % 16] := by
  simp [shiftRows]

/-- The byte comes from five times its place, and thirteen is the inverse of five modulo sixteen. -/
theorem getElem_shiftRows_back (s : Block) (i : ℕ) (lt : i < 16) :
    (shiftRows s)[13 * i % 16] = s[i] := by
  have place : 5 * (13 * i % 16) % 16 = i := by omega
  rw [getElem_shiftRows]
  simp only [place]

theorem shiftRows_injective : Function.Injective shiftRows := by
  intro s t h
  ext i lt : 1
  rw [← getElem_shiftRows_back s i lt, h, getElem_shiftRows_back]

theorem below_lt (i : Fin 16) (row : ℕ) : i.val / 4 * 4 + (i.val + row) % 4 < 16 := by
  omega

/-- The byte `row` rows below the byte at `i`, counted around its column. -/
def below (s : Block) (i : Fin 16) (row : ℕ) : UInt8 :=
  have bound := below_lt i row
  s[i.val / 4 * 4 + (i.val + row) % 4]

theorem below_add_four (s : Block) (i : Fin 16) (row : ℕ) :
    below s i (row + 4) = below s i row := by
  simp only [below, ← Nat.add_assoc, Nat.add_mod_right]

theorem below_mixColumns (s : Block) (i : Fin 16) (row : ℕ) :
    below (mixColumns s) i row = double (below s i row) ^^^
      (double (below s i (row + 1)) ^^^ below s i (row + 1)) ^^^ below s i (row + 2) ^^^
      below s i (row + 3) := by
  have place (more : ℕ) :
      (i.val / 4 * 4 + (i.val + row) % 4) / 4 * 4 + (i.val / 4 * 4 + (i.val + row) % 4 + more) % 4 =
        i.val / 4 * 4 + (i.val + (row + more)) % 4 := by
    omega
  have here := place 0
  rw [Nat.add_zero, Nat.add_zero] at here
  simp only [below, mixColumns, Vector.getElem_ofFn, place, Nat.add_zero, here]

/-- Mixing twice adds four times the difference of the bytes two rows apart. -/
theorem below_mixColumns_mixColumns (s : Block) (i : Fin 16) (row : ℕ) :
    below (mixColumns (mixColumns s)) i row =
      below s i row ^^^ double (double (below s i row ^^^ below s i (row + 2))) := by
  have two : (2 : AdjoinRoot basis.modulus) = 0 := CharTwo.two_eq_zero
  apply basis.residue_injective
  simp only [below_mixColumns, residue_xor, residue_double, Nat.add_assoc, Nat.reduceAdd,
    below_add_four s i]
  set x := AdjoinRoot.root basis.modulus
  linear_combination ((x + 1) * basis.residue (below s i row) +
    (x ^ 2 + x + 1) * basis.residue (below s i (row + 1)) +
    (2 * x + 1) * basis.residue (below s i (row + 2)) +
    (2 * x + 1) * basis.residue (below s i (row + 3))) * two

/-- The difference stays, so mixing twice more adds the same once more. -/
theorem below_mixColumns_four (s : Block) (i : Fin 16) (row : ℕ) :
    below (mixColumns (mixColumns (mixColumns (mixColumns s)))) i row = below s i row := by
  have two : (2 : AdjoinRoot basis.modulus) = 0 := CharTwo.two_eq_zero
  apply basis.residue_injective
  simp only [below_mixColumns_mixColumns, residue_xor, residue_double, Nat.add_assoc,
    Nat.reduceAdd, below_add_four s i]
  linear_combination (AdjoinRoot.root basis.modulus ^ 2 + AdjoinRoot.root basis.modulus ^ 4) *
    (basis.residue (below s i row) + basis.residue (below s i (row + 2))) * two

theorem mixColumns_four (s : Block) :
    mixColumns (mixColumns (mixColumns (mixColumns s))) = s := by
  ext i lt : 1
  have byte := below_mixColumns_four s ⟨i, lt⟩ 0
  have place : i / 4 * 4 + i % 4 = i := by omega
  simpa only [below, Nat.add_zero, place] using byte

theorem mixColumns_injective : Function.Injective mixColumns := by
  intro s t h
  rw [← mixColumns_four s, h, mixColumns_four]

/-! ## The rounds -/

theorem rounds_injective (full : ℕ) (constant : UInt8) (key : Block) :
    Function.Injective (rounds full constant key) := by
  induction full generalizing constant key with
  | zero =>
    intro s t h
    exact subBytes_injective (shiftRows_injective (Bytes.xor_right_injective _ h))
  | succ n ih =>
    intro s t h
    have mixed := Bytes.xor_right_injective _ (ih _ _ h)
    exact subBytes_injective (shiftRows_injective (mixColumns_injective mixed))

/-- No two blocks have the same encryption under one key. -/
theorem encrypt_injective (key : Block) : Function.Injective (encrypt key) := by
  intro a b h
  exact Bytes.xor_right_injective key (rounds_injective 9 1 key h)

end RangeKeys.Aes
