import RangeKeys.Proofs.Position.Ancestry

/-!
# Topmost nodes of a range

A node is topmost for a range if its leaves lie in the range while those of its parent do not. No
two topmost nodes share a leaf, every leaf of the range lies below one, and so does every node
whose leaves lie in the range.
-/

namespace RangeKeys.Position

/-- The leaves below the node lie in the range, and it is the highest such node of the tree. -/
structure Topmost (shape : Shape) (range : LeafRange) (p : Position) : Prop where
  inTree : p.Exists shape
  within : (p.leaves shape).Within range
  maximal : p.depth = 0 ∨ ¬ ((p.parent shape).leaves shape).Within range

variable {shape : Shape} {range : LeafRange} {p q : Position} {leaf : Nat}

/-- A node of the range cannot stand above a topmost one. -/
theorem Topmost.depth_le (hq : q.Topmost shape range) (hp : (p.leaves shape).Within range)
    (leafP : leaf ∈ p.leaves shape) (leafQ : leaf ∈ q.leaves shape) : q.depth ≤ p.depth := by
  by_contra deeper
  have parent_within :=
    parent_within_of_depth_lt leafP leafQ (Nat.lt_of_not_le deeper) hq.inTree.1
  rcases hq.maximal with root | outside
  · omega
  · exact outside (parent_within.trans hp)

theorem Topmost.eq_of_mem (hp : p.Topmost shape range) (hq : q.Topmost shape range)
    (leafP : leaf ∈ p.leaves shape) (leafQ : leaf ∈ q.leaves shape) : p = q :=
  eq_of_depth_eq leafP leafQ
    (Nat.le_antisymm (hp.depth_le hq.within leafQ leafP) (hq.depth_le hp.within leafP leafQ))

theorem exists_of_within (fits : range.last < shape.leafCount) (le : p.depth ≤ shape.depth)
    (within : (p.leaves shape).Within range) : p.Exists shape := by
  have leaf_lt := Nat.lt_of_le_of_lt within.first_mem.2 fits
  rw [mem_leaves_iff_eq_above.1 (LeafRange.first_mem (p.leaves shape))]
  exact exists_above le leaf_lt

theorem leaves_of_bottom (depth_eq : p.depth = shape.depth) :
    (p.leaves shape).first = p.number ∧ (p.leaves shape).last = p.number := by
  simp [leaves, width, depth_eq, Shape.descendants]

/-- Going up from a leaf of the range, the last node that still lies in the range is topmost. -/
theorem exists_topmost (fits : range.last < shape.leafCount) (mem : leaf ∈ range) :
    ∃ p : Position, p.Topmost shape range ∧ leaf ∈ p.leaves shape := by
  have climb : ∀ depth ≤ shape.depth, ((above shape depth leaf).leaves shape).Within range →
      ∃ p : Position, p.Topmost shape range ∧ leaf ∈ p.leaves shape := by
    intro depth le within
    induction depth with
    | zero => exact ⟨_, ⟨exists_of_within fits le within, within, .inl rfl⟩, mem_leaves_above _⟩
    | succ depth ih =>
      have parent_eq : (above shape (depth + 1) leaf).parent shape = above shape depth leaf :=
        parent_above (Nat.succ_pos depth) le
      by_cases higher : ((above shape depth leaf).leaves shape).Within range
      · exact ih (by omega) higher
      · refine ⟨_, ⟨exists_of_within fits le within, within, .inr ?_⟩, mem_leaves_above _⟩
        rw [parent_eq]
        exact higher
  apply climb shape.depth (Nat.le_refl _)
  have bottom := leaves_of_bottom (p := above shape shape.depth leaf) rfl
  have number_eq : (above shape shape.depth leaf).number = leaf := by
    simp [above, Shape.descendants]
  refine ⟨?_, ?_⟩
  · rw [bottom.1, number_eq]
    exact mem.1
  · rw [bottom.2, number_eq]
    exact mem.2

/-! ## Families of siblings -/

section Family

variable {depth : Nat} (lt : depth < shape.depth) (number : Nat)
include lt

theorem width_of_family :
    (⟨depth, number⟩ : Position).width shape =
      shape.descendants (shape.depth - (depth + 1)) * shape.fanout := by
  have levels : shape.depth - depth = shape.depth - (depth + 1) + 1 := by omega
  rw [width, levels, Shape.descendants_succ]

theorem first_of_family :
    ((⟨depth, number⟩ : Position).leaves shape).first =
      ((⟨depth + 1, number * shape.fanout⟩ : Position).leaves shape).first := by
  simp only [leaves, width_of_family lt]
  rw [width, Nat.mul_assoc, Nat.mul_comm shape.fanout]

theorem last_of_family :
    ((⟨depth, number⟩ : Position).leaves shape).last =
      ((⟨depth + 1, number * shape.fanout + (shape.fanout - 1)⟩ : Position).leaves shape).last := by
  have next : number * shape.fanout + (shape.fanout - 1) + 1 = (number + 1) * shape.fanout := by
    have := shape.fanout_pos
    rw [Nat.succ_mul]
    omega
  apply Nat.succ.inj
  simp only [Nat.succ_eq_add_one, succ_last_leaves, width_of_family lt, next]
  rw [width, Nat.mul_assoc, Nat.mul_comm shape.fanout]

/-- The leaves of a node lie in the range if those of its first and last child do. -/
theorem within_iff_family {range : LeafRange} :
    ((⟨depth, number⟩ : Position).leaves shape).Within range ↔
      ((⟨depth + 1, number * shape.fanout⟩ : Position).leaves shape).Within range ∧
        ((⟨depth + 1, number * shape.fanout + (shape.fanout - 1)⟩ : Position).leaves
          shape).Within range := by
  have first_eq := first_of_family lt number
  have last_eq := last_of_family lt number
  have begins : ((⟨depth + 1, number * shape.fanout⟩ : Position).leaves shape).Within
      ((⟨depth, number⟩ : Position).leaves shape) := by
    refine within_of_depth_le (LeafRange.first_mem _) ?_ (Nat.le_succ depth) lt
    rw [first_eq]
    exact LeafRange.first_mem _
  have ends : ((⟨depth + 1, number * shape.fanout + (shape.fanout - 1)⟩ : Position).leaves
      shape).Within ((⟨depth, number⟩ : Position).leaves shape) := by
    refine within_of_depth_le (LeafRange.last_mem _) ?_ (Nat.le_succ depth) lt
    rw [last_eq]
    exact LeafRange.last_mem _
  refine ⟨fun within => ⟨begins.trans within, ends.trans within⟩, fun children => ⟨?_, ?_⟩⟩
  · rw [first_eq]
    exact children.1.1
  · rw [last_eq]
    exact children.2.2

end Family

end RangeKeys.Position
