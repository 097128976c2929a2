import Mathlib.Data.Nat.Digits.Defs
import RangeKeys.Proofs.Position.Ancestry

/-!
# What the digits of a number spell

Digits are read back as the number that they were made of, save for a multiple of the number of
values that so many digits can spell. So nodes with the same path are the same node, and the way
from the root to a leaf begins with the path of a node exactly if the leaf lies below that node.
-/

namespace RangeKeys

theorem ofDigits_reverse_digits (base count value : Nat) :
    Nat.ofDigits base (digits base count value).reverse = value % base ^ count := by
  induction count with
  | zero => exact (Nat.mod_one value).symm
  | succ n ih =>
    have top_place : (digits base n value).reverse.length = n := by
      rw [List.length_reverse, length_digits]
    rw [digits, List.reverse_cons, Nat.ofDigits_append, ih, top_place, Nat.ofDigits_singleton,
      Nat.pow_succ, Nat.mod_mul]
    rfl

/-- Numbers that fit are kept as words of 32 bits. -/
theorem map_toNat_map_ofNat {ns : List Nat} (small : ∀ n ∈ ns, n < UInt32.size) :
    (ns.map UInt32.ofNat).map UInt32.toNat = ns := by
  rw [List.map_map]
  exact (List.map_congr_left fun n mem => UInt32.toNat_ofNat_of_lt' (small n mem)).trans
    (List.map_id ns)

theorem lt_size_of_mem_digits {base count value : Nat} (pos : 0 < base) (le : base ≤ maxFanout) :
    ∀ digit ∈ digits base count value, digit < UInt32.size := by
  intro digit mem
  exact Nat.lt_of_lt_of_le (lt_of_mem_digits pos mem) (Nat.le_trans le (by decide))

/-- The number that digits spell, the most significant one first. -/
def spelled (base : Nat) (branches : List UInt32) : Nat :=
  Nat.ofDigits base (branches.map UInt32.toNat).reverse

theorem spelled_digits {base : Nat} (pos : 0 < base) (le : base ≤ maxFanout) (count value : Nat) :
    spelled base ((digits base count value).map UInt32.ofNat) = value % base ^ count := by
  rw [spelled, map_toNat_map_ofNat (lt_size_of_mem_digits pos le), ofDigits_reverse_digits]

namespace Position

variable {shape : Shape} {p q : Position} {leaf : Nat}

@[simp] theorem length_path (shape : Shape) (p : Position) : (p.path shape).length = p.depth := by
  rw [path, List.length_map, length_digits]

theorem spelled_path (h : p.Exists shape) : spelled shape.fanout (p.path shape) = p.number := by
  rw [path, spelled_digits shape.fanout_pos shape.fanout_le_max]
  exact Nat.mod_eq_of_lt h.2

/-- A node is told by its path. -/
theorem eq_of_path_eq (hp : p.Exists shape) (hq : q.Exists shape)
    (same : p.path shape = q.path shape) : p = q := by
  have depth_eq : p.depth = q.depth := by
    rw [← length_path shape p, same, length_path]
  have number_eq : p.number = q.number := by
    rw [← spelled_path hp, same, spelled_path hq]
  obtain ⟨_, _⟩ := p
  obtain ⟨_, _⟩ := q
  exact (mk.injEq ..).mpr ⟨depth_eq, number_eq⟩

/-- The way from the root to a leaf begins with the path of a node exactly if the leaf lies below
the node. -/
theorem path_prefix_pathTo_iff (h : p.Exists shape) (leaf_lt : leaf < shape.leafCount) :
    p.path shape <+: root.pathTo shape leaf ↔ leaf ∈ p.leaves shape := by
  constructor
  · intro begins
    -- at each depth there is one node whose path the way begins with, the one above the leaf
    have above_begins : (above shape p.depth leaf).path shape <+: root.pathTo shape leaf :=
      ⟨_, path_append_pathTo h.1 (mem_leaves_above p.depth)⟩
    have same : p.path shape = (above shape p.depth leaf).path shape := by
      apply (List.prefix_of_prefix_length_le begins above_begins _).eq_of_length
      · simp [above]
      · simp [above]
    exact mem_leaves_iff_eq_above.2 (eq_of_path_eq h (exists_above h.1 leaf_lt) same)
  · intro below
    exact ⟨_, path_append_pathTo h.1 below⟩

end Position

end RangeKeys
