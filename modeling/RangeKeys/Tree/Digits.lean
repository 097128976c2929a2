/-!
# Positional notation

The digits of a number at a base, most significant first, in a fixed count; higher digits
are dropped. Main fact: the digits of a number split at any place into the digits of its
quotient and those of the rest.
-/

namespace RangeKeys

/-- The lowest `count` digits of `value` (`base_digits`). -/
def digits (base : Nat) : (count : Nat) → (value : Nat) → List Nat
  | 0, _ => []
  | n + 1, value => value / base.pow n % base :: digits base n value

@[simp] theorem length_digits (base count value : Nat) :
    (digits base count value).length = count := by
  induction count with
  | zero => rfl
  | succ n ih => simp [digits, ih]

theorem lt_of_mem_digits {base count value digit : Nat} (hbase : 0 < base)
    (h : digit ∈ digits base count value) : digit < base := by
  induction count with
  | zero => cases h
  | succ n ih =>
    rcases List.mem_cons.1 h with rfl | h
    · exact Nat.mod_lt _ hbase
    · exact ih h

theorem digits_add (base high low value : Nat) :
    digits base (high + low) value =
      digits base high (value / base.pow low) ++ digits base low value := by
  induction high with
  | zero => simp [digits]
  | succ n ih =>
    rw [Nat.add_right_comm, digits, ih, digits, List.cons_append, Nat.div_div_eq_div_mul,
      Nat.add_comm n low]
    simp [Nat.pow_add]

/-- A multiple of the number of values that the digits can spell is lost. -/
theorem digits_add_mul_pow {base : Nat} (hbase : 0 < base) (count value multiple : Nat) :
    digits base count (value + multiple * base.pow count) = digits base count value := by
  induction count generalizing multiple with
  | zero => rfl
  | succ n ih =>
    have lower : multiple * base.pow (n + 1) = multiple * base * base.pow n := by
      rw [Nat.mul_assoc, Nat.mul_comm base]
      rfl
    have hpow : 0 < base.pow n := Nat.pow_pos hbase
    rw [digits, digits, lower, ih, Nat.add_mul_div_right _ _ hpow, Nat.add_mul_mod_self_right]

end RangeKeys
