import RangeKeys.Proofs.BinaryField.PolynomialBasis

/-!
# Irreducible moduli

Modulo a polynomial the items of a basis are told apart by their values at its root. If the modulus
is irreducible, the values lie in a field, so a factor other than zero can be cancelled. A modulus
whose degree is a power of two is irreducible if squaring `X` as many times as its degree leads back
to `X`, and squaring it half as many times to something whose difference from `X` is invertible.
-/

namespace RangeKeys

open Polynomial

/-- Rabin's test for a degree that is a power of two, which has a single prime divisor. -/
theorem irreducible_of_frobenius {p : (ZMod 2)[X]} {k : ℕ} (monic : p.Monic)
    (degree : p.natDegree = 2 ^ (k + 1)) (full : p ∣ X ^ 2 ^ 2 ^ (k + 1) - X)
    (half : IsCoprime p (X ^ 2 ^ 2 ^ k - X)) : Irreducible p := by
  have positive : 0 < p.natDegree := degree ▸ Nat.two_pow_pos _
  have ne_one : p ≠ 1 := fun h => by simp [h] at positive
  rw [monic.irreducible_iff_lt_natDegree_lt ne_one]
  intro q q_monic bounds q_dvd
  obtain ⟨q_positive, q_le⟩ := Finset.mem_Ioc.1 bounds
  obtain ⟨f, f_irreducible, f_dvd_q⟩ := exists_irreducible_of_natDegree_pos q_positive
  have f_dvd : f ∣ p := f_dvd_q.trans q_dvd
  -- An irreducible factor of at most half the degree has a degree that divides this half.
  have f_le : f.natDegree ≤ 2 ^ k := by
    have le_q := natDegree_le_of_dvd f_dvd_q q_monic.ne_zero
    rw [degree, pow_succ] at q_le
    omega
  have degree_dvd : f.natDegree ∣ 2 ^ (k + 1) := by
    apply f_irreducible.natDegree_dvd_of_dvd_X_pow_card_pow_sub_X
    rw [Nat.card_zmod]
    exact f_dvd.trans full
  obtain ⟨m, -, f_degree⟩ := (Nat.dvd_prime_pow Nat.prime_two).1 degree_dvd
  have m_le : m ≤ k := (Nat.pow_le_pow_iff_right (by omega)).1 (f_degree ▸ f_le)
  have f_dvd_half : f ∣ X ^ 2 ^ 2 ^ k - X := by
    have divides := f_irreducible.natDegree_dvd_iff_dvd_X_pow_card_pow_sub_X (n := 2 ^ k)
    rw [Nat.card_zmod] at divides
    exact divides.1 (f_degree ▸ Nat.pow_dvd_pow 2 m_le)
  exact f_irreducible.not_isUnit (half.isUnit_of_dvd' f_dvd f_dvd_half)

namespace PolynomialBasis

section Coefficients

variable (count : ℕ) (coeffs : ℕ → Bool)

theorem coeff_value (n : ℕ) :
    (value (X : (ZMod 2)[X]) count coeffs).coeff n =
      if n < count then bit (ZMod 2) (coeffs n) else 0 := by
  have term (i : ℕ) : (bit (ZMod 2)[X] (coeffs i) * X ^ i).coeff n =
      if n = i then bit (ZMod 2) (coeffs i) else 0 := by
    cases coeffs i <;> simp [coeff_X_pow]
  rw [value, finsetSum_coeff, Finset.sum_congr rfl fun i _ => term i, Finset.sum_ite_eq]
  simp only [Finset.mem_range]

theorem degree_value_lt : (value (X : (ZMod 2)[X]) count coeffs).degree < count := by
  rw [degree_lt_iff_coeff_zero]
  intro n le
  rw [coeff_value, if_neg (Nat.not_lt.2 le)]

theorem bit_injective {a b : Bool} (h : bit (ZMod 2) a = bit (ZMod 2) b) : a = b := by
  cases a <;> cases b <;> simp_all

end Coefficients

variable {A : Type} (basis : PolynomialBasis A)

/-- The polynomial modulo which the items are multiplied. -/
noncomputable def modulus : (ZMod 2)[X] :=
  X ^ (basis.top + 1) + value X (basis.top + 1) basis.tail

theorem monic_modulus : basis.modulus.Monic :=
  monic_X_pow_add (degree_value_lt ..)

theorem natDegree_modulus : basis.modulus.natDegree = basis.top + 1 := by
  rw [modulus, natDegree_add_eq_left_of_degree_lt, natDegree_X_pow]
  rw [degree_X_pow]
  exact degree_value_lt ..

theorem degree_modulus : basis.modulus.degree = (basis.top + 1 : ℕ) := by
  rw [degree_eq_natDegree basis.monic_modulus.ne_zero, natDegree_modulus]

instance : Nontrivial (AdjoinRoot basis.modulus) := by
  apply AdjoinRoot.nontrivial
  rw [degree_modulus]
  exact_mod_cast Nat.succ_ne_zero basis.top

instance : CharP (AdjoinRoot basis.modulus) 2 :=
  charP_of_injective_algebraMap (algebraMap (ZMod 2) _).injective 2

/-- The item in the ring of polynomials modulo the modulus. -/
noncomputable def residue (a : A) : AdjoinRoot basis.modulus :=
  basis.eval (AdjoinRoot.root basis.modulus) a

theorem mk_value (count : ℕ) (coeffs : ℕ → Bool) :
    AdjoinRoot.mk basis.modulus (value X count coeffs) =
      value (AdjoinRoot.root basis.modulus) count coeffs := by
  rw [map_value, AdjoinRoot.mk_X]

theorem mk_eval (a : A) : AdjoinRoot.mk basis.modulus (basis.eval X a) = basis.residue a :=
  basis.mk_value ..

theorem isRoot_root : basis.IsRoot (AdjoinRoot.root basis.modulus) := by
  have zero : AdjoinRoot.mk basis.modulus
      (X ^ (basis.top + 1) + value X (basis.top + 1) basis.tail) = 0 := AdjoinRoot.mk_self
  rw [map_add, map_pow, AdjoinRoot.mk_X, mk_value] at zero
  rw [IsRoot, ← sub_eq_zero, ZModModule.sub_eq_add]
  exact zero

variable {a b c : A}

/-- Polynomials of a degree below that of the modulus are told apart modulo it. -/
theorem residue_injective : Function.Injective basis.residue := by
  intro a b h
  have small : (basis.eval (X : (ZMod 2)[X]) a - basis.eval X b).degree <
      basis.modulus.degree := by
    rw [degree_modulus]
    exact (degree_sub_le _ _).trans_lt (max_lt (degree_value_lt ..) (degree_value_lt ..))
  rw [← mk_eval, ← mk_eval, AdjoinRoot.mk_eq_mk] at h
  have same : basis.eval (X : (ZMod 2)[X]) a = basis.eval X b :=
    sub_eq_zero.1 (eq_zero_of_dvd_of_degree_lt h small)
  apply basis.ext
  intro i le
  have coeffs := congrArg (Polynomial.coeff · i) same
  simp only [eval, coeff_value, if_pos (Nat.lt_succ_of_le le)] at coeffs
  exact bit_injective coeffs

theorem residue_zero : basis.residue basis.zero = 0 :=
  eval_zero

theorem residue_one : basis.residue basis.one = 1 :=
  eval_one

theorem residue_add (a b : A) :
    basis.residue (basis.add a b) = basis.residue a + basis.residue b :=
  eval_add a b

theorem residue_mul (a b : A) :
    basis.residue (basis.mul a b) = basis.residue a * basis.residue b :=
  eval_mul basis.isRoot_root a b

theorem residue_iterate_square (count : ℕ) (a : A) :
    basis.residue (basis.square^[count] a) = basis.residue a ^ 2 ^ count :=
  eval_iterate_square basis.isRoot_root count a

theorem residue_shift (a : A) :
    basis.residue (basis.shift a) = AdjoinRoot.root basis.modulus * basis.residue a :=
  eval_shift basis.isRoot_root a

theorem residue_shift_one :
    basis.residue (basis.shift basis.one) = AdjoinRoot.root basis.modulus := by
  rw [residue_shift, residue_one, mul_one]

/-! ## Powers of two -/

/-- If squaring `X` leads back to `X`, squaring leads every item back to itself. -/
theorem iterate_square_eq {count : ℕ}
    (back : basis.square^[count] (basis.shift basis.one) = basis.shift basis.one) (a : A) :
    basis.square^[count] a = a := by
  have root : AdjoinRoot.root basis.modulus ^ 2 ^ count = AdjoinRoot.root basis.modulus := by
    rw [← residue_shift_one, ← residue_iterate_square, back]
  apply basis.residue_injective
  rw [residue_iterate_square]
  calc basis.residue a ^ 2 ^ count
      = iterateFrobenius (AdjoinRoot basis.modulus) 2 count (basis.residue a) := rfl
    _ = basis.residue a := by
        rw [residue, eval, map_value, iterateFrobenius_def, root]

/-! ## Fields -/

theorem mul_zero (a : A) : basis.mul a basis.zero = basis.zero := by
  apply basis.residue_injective
  rw [residue_mul, residue_zero, MulZeroClass.mul_zero]

/-- If the modulus is irreducible, a factor other than zero can be cancelled. -/
theorem mul_right_cancel (irreducible : Irreducible basis.modulus) (ne : c ≠ basis.zero)
    (h : basis.mul a c = basis.mul b c) : a = b := by
  have : Fact (Irreducible basis.modulus) := ⟨irreducible⟩
  have ne_zero : basis.residue c ≠ 0 := by
    intro zero
    exact ne (basis.residue_injective (zero.trans basis.residue_zero.symm))
  apply basis.residue_injective
  apply mul_right_cancel₀ ne_zero
  rw [← residue_mul, ← residue_mul, h]

/-- Rabin's test by computing with items. -/
theorem irreducible_modulus {k : ℕ} (degree : basis.top + 1 = 2 ^ (k + 1))
    (full : basis.square^[2 ^ (k + 1)] (basis.shift basis.one) = basis.shift basis.one)
    (half : basis.mul (basis.add (basis.square^[2 ^ k] (basis.shift basis.one))
      (basis.shift basis.one)) c = basis.one) : Irreducible basis.modulus := by
  refine irreducible_of_frobenius (k := k) basis.monic_modulus ?_ ?_ ?_
  · rw [natDegree_modulus, degree]
  · rw [← AdjoinRoot.mk_eq_zero, map_sub, map_pow, AdjoinRoot.mk_X, ← residue_shift_one,
      ← residue_iterate_square, full, sub_self]
  · have unit : AdjoinRoot.mk basis.modulus ((X ^ 2 ^ 2 ^ k - X) * basis.eval X c) =
        AdjoinRoot.mk basis.modulus 1 := by
      rw [map_mul, map_sub, map_pow, AdjoinRoot.mk_X, mk_eval, map_one, ZModModule.sub_eq_add,
        ← residue_one, ← half, residue_mul, residue_add, residue_iterate_square, residue_shift_one]
    obtain ⟨d, d_eq⟩ := AdjoinRoot.mk_eq_mk.1 unit
    refine ⟨-d, basis.eval X c, ?_⟩
    rw [mul_comm (basis.eval X c), neg_mul, mul_comm d, ← d_eq]
    ring

end PolynomialBasis

end RangeKeys
