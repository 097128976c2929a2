import Mathlib.Data.List.Basic
import RangeKeys.Tree.Digits
import RangeKeys.Tree.Expansion

/-!
# What the levels of an expansion hold

Numbering the keys of a level below one seed from left to right, a level of the expansion holds
the keys of consecutive numbers, from that of the key above the first leaf to that of the key above
the last one. Clipping only the two outer families of the next level keeps it so.
-/

namespace RangeKeys.Cipher

variable {fanout last : Nat}

/-- The key with the number `number` on the level so far below `seed`. The higher digits of the
number lead to the seed. -/
def keyBelow (cipher : Cipher) (fanout : Nat) (seed : Key) (levels number : Nat) : Key :=
  (cipher.descend seed ((digits fanout levels number).map UInt32.ofNat)).value

theorem value_descend_append (cipher : Cipher) (seed : Key) (p q : List UInt32) :
    (cipher.descend seed (p ++ q)).value =
      (cipher.descend (cipher.descend seed p).value q).value := by
  rw [descend_append, Metered.value_bind]

theorem keyBelow_child (cipher : Cipher) (seed : Key) {branch : Nat} (lt : branch < fanout)
    (levels number : Nat) :
    cipher.keyBelow fanout seed (levels + 1) (number * fanout + branch) =
      (cipher.child (cipher.keyBelow fanout seed levels number) (UInt32.ofNat branch)).value := by
  have pos : 0 < fanout := Nat.zero_lt_of_lt lt
  have quotient : (number * fanout + branch) / fanout = number := by
    rw [Nat.mul_comm, Nat.mul_add_div pos, Nat.div_eq_of_lt lt, Nat.add_zero]
  have rest : (number * fanout + branch) % fanout = branch := by
    rw [Nat.mul_comm, Nat.mul_add_mod, Nat.mod_eq_of_lt lt]
  have split : digits fanout (levels + 1) (number * fanout + branch) =
      digits fanout levels number ++ [branch] := by
    rw [digits_add]
    simp [digits, quotient, rest]
  rw [keyBelow, split, List.map_append, value_descend_append]
  rfl

/-- The children of the key of a number have the numbers of its family. -/
theorem value_childRun (cipher : Cipher) (seed : Key) (levels number first : Nat)
    (lt : last < fanout) :
    (cipher.childRun (cipher.keyBelow fanout seed levels number) first last).value =
      (List.range' (number * fanout + first) (last + 1 - first)).map
        (cipher.keyBelow fanout seed (levels + 1)) := by
  rw [childRun, Metered.value_mapM, ← List.map_add_range', List.map_map]
  refine List.map_congr_left fun branch mem => ?_
  have bounds := List.mem_range'_1.1 mem
  exact (keyBelow_child cipher seed (by omega) levels number).symm

theorem value_nextLevel_cons (cipher : Cipher) (fanout last first : Nat) {seed : Key}
    {level : List Key} (more : level ≠ []) :
    (cipher.nextLevel fanout last first (seed :: level)).value =
      (cipher.childRun seed first (fanout - 1)).value ++
        (cipher.nextLevel fanout last 0 level).value := by
  cases level with
  | nil => exact absurd rfl more
  | cons next level => rfl

/-- Consecutive keys have consecutive children, clipped on both sides. -/
theorem value_nextLevel (cipher : Cipher) (seed : Key) (levels number more first : Nat)
    (first_lt : first < fanout) (last_lt : last < fanout) :
    (cipher.nextLevel fanout last first
        ((List.range' number (more + 1)).map (cipher.keyBelow fanout seed levels))).value =
      (List.range' (number * fanout + first)
        ((number + more) * fanout + last + 1 - (number * fanout + first))).map
          (cipher.keyBelow fanout seed (levels + 1)) := by
  induction more generalizing number first with
  | zero =>
    have size : number * fanout + last + 1 - (number * fanout + first) = last + 1 - first := by
      omega
    rw [Nat.add_zero number, size]
    exact value_childRun cipher seed levels number first last_lt
  | succ more ih =>
    have pos : 0 < fanout := Nat.zero_lt_of_lt first_lt
    have family := value_childRun cipher seed levels number first (Nat.sub_lt pos Nat.one_pos)
    have rest := ih (number + 1) 0 pos
    rw [Nat.add_zero ((number + 1) * fanout)] at rest
    have joins : number * fanout + first + (fanout - 1 + 1 - first) = (number + 1) * fanout := by
      rw [Nat.succ_mul]
      omega
    have size : (fanout - 1 + 1 - first) +
        ((number + 1 + more) * fanout + last + 1 - (number + 1) * fanout) =
          (number + (more + 1)) * fanout + last + 1 - (number * fanout + first) := by
      have wide : (number + 1) * fanout ≤ (number + 1 + more) * fanout :=
        Nat.mul_le_mul_right _ (Nat.le_add_right ..)
      rw [Nat.add_comm more 1, ← Nat.add_assoc]
      omega
    rw [List.range'_succ, List.map_cons, value_nextLevel_cons cipher fanout last first (by simp),
      family, rest, ← List.map_append, ← size, ← List.range'_append_1, joins]

/-- The keys above the leaves from `first` to `final`, `levels + 1` levels above these, have for their
clipped children the keys that are `levels` levels above them. -/
theorem value_nextLevel_digits (cipher : Cipher) (seed : Key) {first final : Nat}
    (pos : 0 < fanout) (le : first ≤ final) (levels done : Nat) :
    (cipher.nextLevel fanout (final / fanout.pow levels % fanout)
      (first / fanout.pow levels % fanout)
      ((List.range' (first / fanout.pow (levels + 1))
        (final / fanout.pow (levels + 1) - first / fanout.pow (levels + 1) + 1)).map
          (cipher.keyBelow fanout seed done))).value =
      (List.range' (first / fanout.pow levels)
        (final / fanout.pow levels - first / fanout.pow levels + 1)).map
          (cipher.keyBelow fanout seed (done + 1)) := by
  have up (leaf : Nat) : leaf / fanout.pow (levels + 1) * fanout +
      leaf / fanout.pow levels % fanout = leaf / fanout.pow levels := by
    have next : fanout.pow (levels + 1) = fanout.pow levels * fanout := rfl
    rw [next, ← Nat.div_div_eq_div_mul]
    exact Nat.div_add_mod' ..
  have above_le : first / fanout.pow (levels + 1) ≤ final / fanout.pow (levels + 1) :=
    Nat.div_le_div_right le
  have below_le : first / fanout.pow levels ≤ final / fanout.pow levels :=
    Nat.div_le_div_right le
  rw [value_nextLevel _ _ _ _ _ _ (Nat.mod_lt _ pos) (Nat.mod_lt _ pos),
    Nat.add_sub_cancel' above_le, up, up, Nat.sub_add_comm below_le]

theorem value_expand_levels (cipher : Cipher) (seed : Key) {first final : Nat}
    (pos : 0 < fanout) (le : first ≤ final) (levels done : Nat) :
    (cipher.expand fanout ((digits fanout levels first).zip (digits fanout levels final))
      ((List.range' (first / fanout.pow levels)
        (final / fanout.pow levels - first / fanout.pow levels + 1)).map
          (cipher.keyBelow fanout seed done))).value =
      (List.range' first (final - first + 1)).map
        (cipher.keyBelow fanout seed (done + levels)) := by
  induction levels generalizing done with
  | zero => simp [digits, expand]
  | succ levels ih =>
    rw [digits, digits, List.zip_cons_cons, expand, Metered.value_bind,
      value_nextLevel_digits cipher seed pos le, ih, Nat.add_assoc, Nat.add_comm 1]

end RangeKeys.Cipher
