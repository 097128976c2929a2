import Mathlib.FieldTheory.Finite.Extension

/-!
# Polynomials over the two-element field, given by their coefficients

Bytes and blocks of bits stand for polynomials modulo one whose degree is their length. Their sum
is taken bit by bit, the product with `X` is a shift, and the product of any two follows from it by
Horner's rule. Read as polynomials in a root of the modulus they add and multiply as they should.
-/

namespace RangeKeys

/-- A type whose items are the polynomials of degree at most `top`, with the operations modulo the
polynomial of degree `top + 1` whose lower coefficients are `tail`. -/
structure PolynomialBasis (A : Type) where
  top : ℕ
  tail : ℕ → Bool
  coeff : A → ℕ → Bool
  zero : A
  one : A
  add : A → A → A
  shift : A → A
  ext : ∀ {a b}, (∀ i ≤ top, coeff a i = coeff b i) → a = b
  coeff_zero : ∀ i ≤ top, coeff zero i = false
  coeff_one : ∀ i ≤ top, coeff one i = decide (i = 0)
  coeff_add : ∀ a b, ∀ i ≤ top, coeff (add a b) i = (coeff a i ^^ coeff b i)
  coeff_shift_zero : ∀ a, coeff (shift a) 0 = (coeff a top && tail 0)
  coeff_shift_succ : ∀ a, ∀ i < top,
    coeff (shift a) (i + 1) = (coeff a i ^^ (coeff a top && tail (i + 1)))

namespace PolynomialBasis

variable {A : Type} (basis : PolynomialBasis A)

/-- The product, by Horner's rule on the coefficients of `a` from the highest down. -/
def mul (a b : A) : A :=
  (List.range (basis.top + 1)).foldr
    (fun i sum => basis.add (basis.shift sum) (if basis.coeff a i then b else basis.zero))
    basis.zero

/-- The product of an item with itself. -/
def square (a : A) : A :=
  basis.mul a a

/-! ## Values -/

section Ring

variable {R : Type*} [CommRing R]

/-- The coefficient in a ring. -/
def bit (R : Type*) [CommRing R] (b : Bool) : R :=
  if b then 1 else 0

@[simp] theorem bit_false : bit R false = 0 := rfl

@[simp] theorem bit_true : bit R true = 1 := rfl

theorem bit_and (a b : Bool) : bit R (a && b) = bit R a * bit R b := by
  cases a <;> cases b <;> simp

/-- The value of the polynomial of degree less than `count` with the coefficients. -/
def value (α : R) (count : ℕ) (coeffs : ℕ → Bool) : R :=
  ∑ i ∈ Finset.range count, bit R (coeffs i) * α ^ i

theorem value_congr {α : R} {count : ℕ} {coeffs others : ℕ → Bool}
    (same : ∀ i < count, coeffs i = others i) : value α count coeffs = value α count others := by
  refine Finset.sum_congr rfl fun i mem => ?_
  rw [same i (Finset.mem_range.1 mem)]

theorem value_false (α : R) (count : ℕ) : value α count (fun _ => false) = 0 := by
  simp [value]

/-- The constant coefficient apart. -/
theorem value_succ (α : R) (count : ℕ) (coeffs : ℕ → Bool) :
    value α (count + 1) coeffs = bit R (coeffs 0) + α * value α count fun i => coeffs (i + 1) := by
  rw [value, Finset.sum_range_succ', pow_zero, mul_one, add_comm, value, Finset.mul_sum]
  congr 1
  refine Finset.sum_congr rfl fun i _ => ?_
  rw [pow_succ']
  ring

/-- The highest coefficient apart. -/
theorem value_succ_last (α : R) (count : ℕ) (coeffs : ℕ → Bool) :
    value α (count + 1) coeffs = value α count coeffs + bit R (coeffs count) * α ^ count :=
  Finset.sum_range_succ ..

theorem value_and (α : R) (count : ℕ) (b : Bool) (coeffs : ℕ → Bool) :
    value α count (fun i => b && coeffs i) = bit R b * value α count coeffs := by
  simp only [value, bit_and, Finset.mul_sum, mul_assoc]

theorem map_value {S : Type*} [CommRing S] (f : R →+* S) (α : R) (count : ℕ)
    (coeffs : ℕ → Bool) : f (value α count coeffs) = value (f α) count coeffs := by
  have map_bit (b : Bool) : f (bit R b) = bit S b := by
    cases b <;> simp
  simp only [value, map_sum, map_mul, map_bit, map_pow]

/-- The value of an item. -/
def eval (α : R) (a : A) : R :=
  value α (basis.top + 1) (basis.coeff a)

/-- The modulus has the value zero. In this ring a sign makes no difference. -/
def IsRoot (α : R) : Prop :=
  α ^ (basis.top + 1) = value α (basis.top + 1) basis.tail

variable {basis} {α : R}

theorem eval_zero : basis.eval α basis.zero = 0 := by
  rw [eval, value_congr fun i lt => basis.coeff_zero i (Nat.le_of_lt_succ lt), value_false]

theorem eval_one : basis.eval α basis.one = 1 := by
  have higher : value α basis.top (fun i => basis.coeff basis.one (i + 1)) = 0 := by
    rw [value_congr fun i lt => basis.coeff_one (i + 1) lt]
    exact value_false ..
  rw [eval, value_succ, higher, basis.coeff_one 0 (Nat.zero_le _)]
  simp

end Ring

section Characteristic

variable {basis} {R : Type*} [CommRing R] [Algebra (ZMod 2) R] {α : R}

theorem bit_xor (a b : Bool) : bit R (a ^^ b) = bit R a + bit R b := by
  cases a <;> cases b <;> simp [ZModModule.add_self]

theorem value_xor (count : ℕ) (coeffs others : ℕ → Bool) :
    value α count (fun i => coeffs i ^^ others i) =
      value α count coeffs + value α count others := by
  simp only [value, bit_xor, add_mul, Finset.sum_add_distrib]

theorem eval_add (a b : A) :
    basis.eval α (basis.add a b) = basis.eval α a + basis.eval α b := by
  rw [eval, value_congr fun i lt => basis.coeff_add a b i (Nat.le_of_lt_succ lt), value_xor]
  rfl

theorem eval_shift (root : basis.IsRoot α) (a : A) :
    basis.eval α (basis.shift a) = α * basis.eval α a := by
  -- The coefficient that is shifted out comes back as a multiple of the modulus.
  have back : bit R (basis.coeff a basis.top) * α ^ (basis.top + 1) =
      bit R (basis.coeff a basis.top && basis.tail 0) +
        α * value α basis.top fun i => basis.coeff a basis.top && basis.tail (i + 1) := by
    rw [root, ← value_and, value_succ]
  have higher := value_congr (α := α) fun i lt => basis.coeff_shift_succ a i lt
  calc basis.eval α (basis.shift a)
      = bit R (basis.coeff a basis.top && basis.tail 0) +
          α * (value α basis.top (basis.coeff a) +
            value α basis.top fun i => basis.coeff a basis.top && basis.tail (i + 1)) := by
        rw [eval, value_succ, higher, value_xor, basis.coeff_shift_zero]
    _ = α * value α basis.top (basis.coeff a) +
          bit R (basis.coeff a basis.top) * α ^ (basis.top + 1) := by
        rw [back]
        ring
    _ = α * basis.eval α a := by
        rw [eval, value_succ_last]
        ring

/-- Horner's rule, for any number of coefficients. -/
theorem eval_foldr (root : basis.IsRoot α) (b : A) (count : ℕ) (coeffs : ℕ → Bool) :
    basis.eval α ((List.range count).foldr
      (fun i sum => basis.add (basis.shift sum) (if coeffs i then b else basis.zero))
      basis.zero) = value α count coeffs * basis.eval α b := by
  induction count generalizing coeffs with
  | zero => simp [eval_zero, value]
  | succ count ih =>
    have last : basis.eval α (if coeffs 0 then b else basis.zero) =
        bit R (coeffs 0) * basis.eval α b := by
      cases coeffs 0 <;> simp [eval_zero]
    rw [List.range_succ_eq_map, List.foldr_cons, List.foldr_map, eval_add, eval_shift root, last,
      ih fun i => coeffs (i + 1), value_succ]
    ring

theorem eval_mul (root : basis.IsRoot α) (a b : A) :
    basis.eval α (basis.mul a b) = basis.eval α a * basis.eval α b :=
  eval_foldr root b _ _

theorem eval_iterate_square (root : basis.IsRoot α) (count : ℕ) (a : A) :
    basis.eval α (basis.square^[count] a) = basis.eval α a ^ 2 ^ count := by
  induction count generalizing a with
  | zero => simp
  | succ count ih =>
    rw [Function.iterate_succ_apply, ih, square, eval_mul root, ← pow_two, ← pow_mul, pow_succ']

end Characteristic

end PolynomialBasis

end RangeKeys
