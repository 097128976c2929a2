import Mathlib.Algebra.Order.BigOperators.Group.Finset
import Mathlib.Order.Interval.Finset.Nat
import RangeKeys.Proofs.Cover.Exactness

/-!
# How many nodes cover a range

The parent of a topmost node reaches beyond the range, so it stands above one end of the range, and
not all of its children lie in the range. So each level has topmost nodes in two families at most,
and in neither family all are topmost. The root is topmost only for the range of all leaves.
-/

namespace RangeKeys

namespace Position

variable {shape : Shape} {range : LeafRange} {p : Position} {depth leaf : Nat}

theorem mem_leaves_parent (hp : leaf ∈ p.leaves shape) (pos : 0 < p.depth)
    (le : p.depth ≤ shape.depth) : leaf ∈ (p.parent shape).leaves shape := by
  rw [mem_leaves_iff_eq_above.1 hp, parent_above pos le]
  exact mem_leaves_above _

/-- The parent of a topmost node stands above an end of the range. -/
theorem Topmost.parent_eq_above (top : p.Topmost shape range) (pos : 0 < p.depth) :
    p.parent shape = above shape (p.depth - 1) range.first ∨
      p.parent shape = above shape (p.depth - 1) range.last := by
  have shared := mem_leaves_parent (LeafRange.first_mem (p.leaves shape)) pos top.inTree.1
  have wanted := top.within.first_mem
  have beyond := top.maximal.resolve_left (Nat.ne_of_gt pos)
  rcases not_and_or.1 beyond with left | right
  · refine .inl (mem_leaves_iff_eq_above.1 ⟨?_, ?_⟩)
    · exact Nat.le_of_lt (Nat.lt_of_not_le left)
    · exact Nat.le_trans wanted.1 shared.2
  · refine .inr (mem_leaves_iff_eq_above.1 ⟨?_, ?_⟩)
    · exact Nat.le_trans shared.1 wanted.2
    · exact Nat.le_of_lt (Nat.lt_of_not_le right)

/-- The numbers of the children of a node that lie in the range while the node itself does not. -/
def splitFamily (shape : Shape) (range : LeafRange) (p : Position) : Finset Nat :=
  (Finset.Ico (p.number * shape.fanout) ((p.number + 1) * shape.fanout)).filter fun number =>
    ((⟨p.depth + 1, number⟩ : Position).leaves shape).Within range ∧
      ¬ (p.leaves shape).Within range

theorem card_family (shape : Shape) (number : Nat) :
    (Finset.Ico (number * shape.fanout) ((number + 1) * shape.fanout)).card = shape.fanout := by
  rw [Nat.card_Ico, Nat.succ_mul, Nat.add_sub_cancel_left]

/-- A family is split only if one of its members is left out. -/
theorem card_splitFamily_le (lt : p.depth < shape.depth) (range : LeafRange) :
    (p.splitFamily shape range).card ≤ shape.fanout - 1 := by
  have pos := shape.fanout_pos
  have first_mem : p.number * shape.fanout ∈
      Finset.Ico (p.number * shape.fanout) ((p.number + 1) * shape.fanout) := by
    rw [Finset.mem_Ico, Nat.succ_mul]
    omega
  have last_mem : p.number * shape.fanout + (shape.fanout - 1) ∈
      Finset.Ico (p.number * shape.fanout) ((p.number + 1) * shape.fanout) := by
    rw [Finset.mem_Ico, Nat.succ_mul]
    omega
  have fewer : p.splitFamily shape range ⊂
      Finset.Ico (p.number * shape.fanout) ((p.number + 1) * shape.fanout) := by
    rw [splitFamily, Finset.filter_ssubset]
    by_contra all
    push Not at all
    have outside := (all _ first_mem).2
    exact outside ((within_iff_family lt p.number).2 ⟨(all _ first_mem).1, (all _ last_mem).1⟩)
  have card_lt := Finset.card_lt_card fewer
  rw [card_family] at card_lt
  exact Nat.le_sub_one_of_lt card_lt

theorem Topmost.number_mem_splitFamily (top : p.Topmost shape range)
    (depth_eq : p.depth = depth + 1) : p.number ∈ (p.parent shape).splitFamily shape range := by
  obtain ⟨_, number⟩ := p
  obtain rfl := depth_eq
  have pos := shape.fanout_pos
  have split := Nat.div_add_mod' number shape.fanout
  have lt := Nat.mod_lt number pos
  rw [splitFamily, Finset.mem_filter, Finset.mem_Ico]
  refine ⟨⟨?_, ?_⟩, top.within, top.maximal.resolve_left (Nat.succ_ne_zero depth)⟩
  · exact Nat.div_mul_le_self ..
  · simp only [parent, Nat.succ_mul]
    omega

/-- The root is topmost for the range of all leaves only. -/
theorem topmost_root_iff (fits : range.last < shape.leafCount) :
    root.Topmost shape range ↔ range.first = 0 ∧ range.last + 1 = shape.leafCount := by
  have first_eq : (root.leaves shape).first = 0 := Nat.zero_mul _
  have last_eq : (root.leaves shape).last + 1 = shape.leafCount := by
    rw [succ_last_leaves, root, Nat.zero_add, Nat.one_mul, width, Nat.sub_zero, Shape.leafCount]
  constructor
  · intro top
    have within := top.within
    unfold LeafRange.Within at within
    omega
  · intro all
    refine ⟨exists_root, ⟨?_, ?_⟩, .inl rfl⟩ <;> omega

theorem Topmost.eq_root (top : p.Topmost shape range) (depth_eq : p.depth = 0) : p = root := by
  obtain ⟨_, number⟩ := p
  obtain rfl := depth_eq
  have number_eq : number = 0 := Nat.lt_one_iff.1 top.inTree.2
  rw [number_eq, root]

end Position

namespace Cover

open Position

variable {shape : Shape} {range : LeafRange} {depth : Nat}

/-- The root covers a range alone. -/
theorem cover_eq_root (fits : range.last < shape.leafCount)
    (whole : root.Topmost shape range) : cover shape range = [root] := by
  rw [← List.perm_singleton, List.perm_ext_iff_of_nodup (nodup_cover fits) (List.nodup_singleton _)]
  intro p
  rw [mem_cover_iff fits, List.mem_singleton]
  constructor
  · intro top
    have leafP := LeafRange.first_mem (p.leaves shape)
    have leaf_lt := Nat.lt_of_le_of_lt top.within.first_mem.2 fits
    exact top.eq_of_mem whole leafP (mem_root_leaves_iff.2 leaf_lt)
  · intro eq
    exact eq ▸ whole

/-- Below the root, no level has more nodes of the cover than two families short of one member. -/
theorem card_level_succ_le (fits : range.last < shape.leafCount) (lt : depth < shape.depth) :
    ((cover shape range).toFinset.filter (·.depth = depth + 1)).card ≤
      2 * (shape.fanout - 1) := by
  let left := (above shape depth range.first).splitFamily shape range
  let right := (above shape depth range.last).splitFamily shape range
  have numbers : Set.MapsTo number
      ((cover shape range).toFinset.filter (·.depth = depth + 1)) (left ∪ right : Finset Nat) := by
    intro p mem
    obtain ⟨mem, depth_eq⟩ := Finset.mem_filter.1 mem
    have top := (mem_cover_iff fits).1 (List.mem_toFinset.1 mem)
    have split := top.number_mem_splitFamily depth_eq
    rcases top.parent_eq_above (depth_eq ▸ Nat.succ_pos depth) with parent_eq | parent_eq
    · rw [parent_eq, depth_eq] at split
      exact Finset.mem_union_left _ split
    · rw [parent_eq, depth_eq] at split
      exact Finset.mem_union_right _ split
  have distinct : Set.InjOn number
      ((cover shape range).toFinset.filter (·.depth = depth + 1) : Finset Position) := by
    intro p hp q hq same
    have depth_p := (Finset.mem_filter.1 hp).2
    have depth_q := (Finset.mem_filter.1 hq).2
    cases p
    cases q
    simp_all
  have left_le : left.card ≤ shape.fanout - 1 := card_splitFamily_le lt range
  have right_le : right.card ≤ shape.fanout - 1 := card_splitFamily_le lt range
  calc ((cover shape range).toFinset.filter (·.depth = depth + 1)).card
      ≤ (left ∪ right).card := Finset.card_le_card_of_injOn number numbers distinct
    _ ≤ left.card + right.card := Finset.card_union_le ..
    _ ≤ 2 * (shape.fanout - 1) := by omega

/-- No level has more nodes of the cover than two families short of one member. -/
theorem card_level_le (fits : range.last < shape.leafCount) (depth : Nat) :
    ((cover shape range).toFinset.filter (·.depth = depth)).card ≤ 2 * (shape.fanout - 1) := by
  have two_le := shape.two_le_fanout
  by_cases empty : (cover shape range).toFinset.filter (·.depth = depth) = ∅
  · rw [empty]
    exact Nat.zero_le _
  · obtain ⟨p, mem⟩ := Finset.nonempty_iff_ne_empty.2 empty
    obtain ⟨covers, depth_eq⟩ := Finset.mem_filter.1 mem
    have top := (mem_cover_iff fits).1 (List.mem_toFinset.1 covers)
    rcases Nat.eq_zero_or_pos depth with rfl | pos
    · rw [cover_eq_root fits (top.eq_root depth_eq ▸ top)]
      have one := Finset.card_filter_le [root].toFinset (·.depth = 0)
      have single : [root].toFinset.card = 1 := rfl
      omega
    · obtain ⟨above, rfl⟩ := Nat.exists_eq_succ_of_ne_zero (Nat.ne_of_gt pos)
      have le := top.inTree.1
      exact card_level_succ_le fits (by omega)

theorem countP_level_le (fits : range.last < shape.leafCount) (depth : Nat) :
    (cover shape range).countP (·.depth = depth) ≤ 2 * (shape.fanout - 1) := by
  have distinct := (nodup_cover fits).filter (·.depth = depth)
  rw [List.countP_eq_length_filter, ← List.toFinset_card_of_nodup distinct, List.toFinset_filter]
  simpa using card_level_le fits depth

/-- The root, or some nodes of each level below it. -/
theorem length_cover_le_of_levels (fits : range.last < shape.leafCount) :
    (cover shape range).length ≤ max 1 (2 * (shape.fanout - 1) * shape.depth) := by
  by_cases whole : root.Topmost shape range
  · rw [cover_eq_root fits whole]
    exact Nat.le_max_left ..
  · have below : ∀ p ∈ (cover shape range).toFinset, p.depth ∈ Finset.Ioc 0 shape.depth := by
      intro p mem
      rw [List.mem_toFinset] at mem
      have top := (mem_cover_iff fits).1 mem
      refine Finset.mem_Ioc.2 ⟨Nat.pos_of_ne_zero fun zero => whole ?_, top.inTree.1⟩
      exact top.eq_root zero ▸ top
    have total := Finset.card_le_mul_card_image_of_maps_to below _ fun depth _ =>
      card_level_le fits depth
    rw [Nat.card_Ioc, Nat.sub_zero, List.toFinset_card_of_nodup (nodup_cover fits)] at total
    exact Nat.le_trans total (Nat.le_max_right ..)

end Cover

end RangeKeys
