import RangeKeys.Proofs.LeafRange.Partition
import RangeKeys.Tree.Position

/-!
# Ancestors and descendants

The node at a given depth that has a leaf below it is found by dividing the number of the leaf,
so two nodes that share a leaf lie one below the other. The path to a leaf runs through every
node above it.
-/

namespace RangeKeys

namespace Shape

variable (shape : Shape)

theorem descendants_succ (levels : Nat) :
    shape.descendants (levels + 1) = shape.descendants levels * shape.fanout := rfl

theorem descendants_add (a b : Nat) :
    shape.descendants (a + b) = shape.descendants a * shape.descendants b :=
  Nat.pow_add ..

/-- The leaves are divided evenly among the nodes of a level. -/
theorem leafCount_eq_mul {depth : Nat} (h : depth ≤ shape.depth) :
    shape.leafCount = shape.descendants depth * shape.descendants (shape.depth - depth) := by
  rw [← descendants_add, Nat.add_sub_cancel' h, leafCount]

theorem leafCount_pos : 0 < shape.leafCount :=
  shape.descendants_pos _

theorem descendants_le_leafCount {levels : Nat} (h : levels ≤ shape.depth) :
    shape.descendants levels ≤ shape.leafCount := by
  rw [shape.leafCount_eq_mul h]
  exact Nat.le_mul_of_pos_right _ (shape.descendants_pos _)

theorem leafCount_lt : shape.leafCount < UInt64.size :=
  shape.leaves_fit

end Shape

namespace Position

variable {shape : Shape} {p q : Position} {leaf : Nat}

/-- The leaves below a node are those whose number divides to that of the node. -/
theorem mem_leaves_iff : leaf ∈ p.leaves shape ↔ leaf / p.width shape = p.number := by
  have hw := p.width_pos shape
  rw [LeafRange.mem_def, Nat.div_eq_iff hw]
  simp only [leaves]
  omega

theorem succ_last_leaves (p : Position) :
    (p.leaves shape).last + 1 = (p.number + 1) * p.width shape := by
  have hw := p.width_pos shape
  rw [Nat.succ_mul]
  simp only [leaves]
  omega

/-- The node of the depth that has the leaf below it. -/
def above (shape : Shape) (depth leaf : Nat) : Position :=
  ⟨depth, leaf / shape.descendants (shape.depth - depth)⟩

/-- The node directly above. -/
def parent (shape : Shape) (p : Position) : Position :=
  ⟨p.depth - 1, p.number / shape.fanout⟩

theorem mem_leaves_iff_eq_above : leaf ∈ p.leaves shape ↔ p = above shape p.depth leaf := by
  rw [mem_leaves_iff]
  obtain ⟨depth, number⟩ := p
  simp only [above, width, mk.injEq, true_and]
  exact eq_comm

theorem mem_leaves_above (depth : Nat) : leaf ∈ (above shape depth leaf).leaves shape :=
  mem_leaves_iff_eq_above.2 rfl

theorem mem_root_leaves_iff : leaf ∈ (root.leaves shape) ↔ leaf < shape.leafCount := by
  rw [mem_leaves_iff]
  simp only [root, width, Nat.sub_zero]
  exact Nat.div_eq_zero_iff_lt shape.leafCount_pos

theorem parent_above {depth : Nat} (pos : 0 < depth) (le : depth ≤ shape.depth) :
    (above shape depth leaf).parent shape = above shape (depth - 1) leaf := by
  have levels : shape.depth - (depth - 1) = shape.depth - depth + 1 := by omega
  simp only [parent, above, levels, Shape.descendants_succ, Nat.div_div_eq_div_mul]

/-- Of two nodes above one leaf, the deeper one lies below the other. -/
theorem within_of_depth_le (hp : leaf ∈ p.leaves shape) (hq : leaf ∈ q.leaves shape)
    (le : p.depth ≤ q.depth) (bound : q.depth ≤ shape.depth) :
    (q.leaves shape).Within (p.leaves shape) := by
  have levels : shape.depth - p.depth = shape.depth - q.depth + (q.depth - p.depth) := by omega
  have wide : p.width shape = q.width shape * shape.descendants (q.depth - p.depth) := by
    rw [width, levels, Shape.descendants_add, width]
  rw [mem_leaves_iff, wide, ← Nat.div_div_eq_div_mul] at hp
  rw [mem_leaves_iff] at hq
  refine LeafRange.within_iff.2 fun other hother => ?_
  rw [mem_leaves_iff] at hother ⊢
  rw [wide, ← Nat.div_div_eq_div_mul, hother, ← hq, hp]

theorem eq_of_depth_eq (hp : leaf ∈ p.leaves shape) (hq : leaf ∈ q.leaves shape)
    (eq : p.depth = q.depth) : p = q := by
  rw [mem_leaves_iff_eq_above.1 hp, mem_leaves_iff_eq_above.1 hq, eq]

/-- If a node lies strictly above another one that shares a leaf with it, it also has the parent
of that one below it. -/
theorem parent_within_of_depth_lt (hp : leaf ∈ p.leaves shape) (hq : leaf ∈ q.leaves shape)
    (lt : p.depth < q.depth) (bound : q.depth ≤ shape.depth) :
    ((q.parent shape).leaves shape).Within (p.leaves shape) := by
  have parent_eq : q.parent shape = above shape (q.depth - 1) leaf := by
    rw [mem_leaves_iff_eq_above.1 hq]
    exact parent_above (by omega) bound
  rw [parent_eq]
  exact within_of_depth_le hp (mem_leaves_above _) (by simp only [above]; omega)
    (by simp only [above]; omega)

/-! ## Existence -/

theorem Exists.last_lt (h : p.Exists shape) : (p.leaves shape).last < shape.leafCount := by
  obtain ⟨depth_le, number_lt⟩ := h
  have hw := p.width_pos shape
  have fits : (p.number + 1) * p.width shape ≤ shape.leafCount := by
    rw [shape.leafCount_eq_mul depth_le]
    exact Nat.mul_le_mul_right _ number_lt
  rw [Nat.succ_mul] at fits
  simp only [leaves]
  omega

theorem exists_above {depth : Nat} (le : depth ≤ shape.depth) (h : leaf < shape.leafCount) :
    (above shape depth leaf).Exists shape := by
  refine ⟨le, ?_⟩
  rw [shape.leafCount_eq_mul le, Nat.mul_comm] at h
  exact Nat.div_lt_of_lt_mul h

theorem exists_root : root.Exists shape :=
  ⟨Nat.zero_le _, shape.descendants_pos _⟩

theorem Exists.depth_lt_size (h : p.Exists shape) : p.depth < UInt16.size :=
  Nat.lt_of_le_of_lt h.1 (Nat.lt_trans shape.depth_lt (by decide))

theorem Exists.number_lt_size (h : p.Exists shape) : p.number < UInt64.size :=
  Nat.lt_of_lt_of_le h.2
    (Nat.le_trans (shape.descendants_le_leafCount h.1) (Nat.le_of_lt shape.leafCount_lt))

/-! ## Paths -/

/-- The way from the root to a leaf passes through every node above the leaf. -/
theorem path_append_pathTo (le : p.depth ≤ shape.depth) (h : leaf ∈ p.leaves shape) :
    p.path shape ++ p.pathTo shape leaf = root.pathTo shape leaf := by
  have split := digits_add shape.fanout p.depth (shape.depth - p.depth) leaf
  have number_eq : leaf / shape.fanout.pow (shape.depth - p.depth) = p.number :=
    mem_leaves_iff.1 h
  rw [Nat.add_sub_cancel' le, number_eq] at split
  simp only [path, pathTo, root, Nat.sub_zero, split, List.map_append]

/-- Below a node the branches to a leaf spell how far it stands from the first leaf there. -/
theorem pathTo_eq_digits_sub (h : leaf ∈ p.leaves shape) :
    p.pathTo shape leaf =
      (digits shape.fanout (shape.depth - p.depth) (leaf - (p.leaves shape).first)).map
        UInt32.ofNat := by
  have split : leaf = leaf - (p.leaves shape).first +
      p.number * shape.fanout.pow (shape.depth - p.depth) := (Nat.sub_add_cancel h.1).symm
  have dropped := digits_add_mul_pow shape.fanout_pos (shape.depth - p.depth)
    (leaf - (p.leaves shape).first) p.number
  rw [pathTo, ← dropped, ← split]

/-- Every branch is one that a single step accepts. -/
theorem toNat_le_of_mem_pathTo {branch : UInt32} (h : branch ∈ p.pathTo shape leaf) :
    branch.toNat ≤ 255 := by
  obtain ⟨digit, mem, rfl⟩ := List.mem_map.1 h
  have digit_lt := lt_of_mem_digits shape.fanout_pos mem
  have fanout_le : shape.fanout ≤ 256 := shape.fanout_le_max
  rw [UInt32.toNat_ofNat_of_lt' (by simp only [UInt32.size]; omega)]
  omega

end Position

end RangeKeys
