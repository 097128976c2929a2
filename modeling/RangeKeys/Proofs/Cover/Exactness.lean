import RangeKeys.Proofs.Cover.Climb

/-!
# The cover of a range

The cover consists of the topmost nodes of the range, from left to right. They partition the
range, and no set of nodes that partitions it is smaller, because every node in the range lies
below a topmost one.
-/

namespace RangeKeys.Cover

open Position

variable {shape : Shape} {range : LeafRange} {p : Position} {leaf : Nat}

theorem complete_taken (fits : range.last < shape.leafCount) :
    Climb.Complete shape range (taken shape range) := by
  have ends := (Climb.atLevel_leaves shape range).levels fits
  unfold taken
  split
  · rename_i climb goes_on
    rw [goes_on] at ends
    exact ends.elim
  · rename_i taken spent
    rw [spent] at ends
    exact ends

theorem perm_cover (shape : Shape) (range : LeafRange) :
    (cover shape range).Perm (taken shape range) :=
  List.mergeSort_perm ..

/-- The cover consists of exactly the topmost nodes. -/
theorem mem_cover_iff (fits : range.last < shape.leafCount) :
    p ∈ cover shape range ↔ p.Topmost shape range := by
  rw [(perm_cover shape range).mem_iff]
  exact (complete_taken fits).mem_iff p

theorem nodup_cover (fits : range.last < shape.leafCount) : (cover shape range).Nodup :=
  (perm_cover shape range).nodup_iff.2 (complete_taken fits).nodup

theorem sorted_cover (shape : Shape) (range : LeafRange) :
    (cover shape range).Pairwise fun a b =>
      (a.leaves shape).first ≤ (b.leaves shape).first :=
  LeafRange.sorted_by_first (leaves shape) (taken shape range)

theorem pairwise_cover (fits : range.last < shape.leafCount) :
    (cover shape range).Pairwise fun a b => (a.leaves shape).Before (b.leaves shape) := by
  refine ((sorted_cover shape range).and (nodup_cover fits)).imp_of_mem ?_
  intro a b ha hb h
  refine LeafRange.before_of_not_meets (fun meets => h.2 ?_) h.1
  obtain ⟨leaf, leafA, leafB⟩ := LeafRange.meets_iff.1 meets
  exact ((mem_cover_iff fits).1 ha).eq_of_mem ((mem_cover_iff fits).1 hb) leafA leafB

theorem mem_range_iff_exists_mem_cover (fits : range.last < shape.leafCount) :
    leaf ∈ range ↔ ∃ p ∈ cover shape range, leaf ∈ p.leaves shape := by
  simp only [mem_cover_iff fits]
  refine ⟨exists_topmost fits, fun h => ?_⟩
  obtain ⟨p, top, leafP⟩ := h
  exact LeafRange.within_iff.1 top.within leaf leafP

theorem partition_cover (fits : range.last < shape.leafCount) :
    LeafRange.Partition ((cover shape range).map (leaves shape)) range where
  disjoint := List.pairwise_map.2 ((pairwise_cover fits).imp LeafRange.Before.not_meets)
  holds := by
    intro leaf
    rw [mem_range_iff_exists_mem_cover fits]
    simp

/-- Nodes that partition the range are at least as many as those of its cover. -/
theorem length_cover_le {nodes : List Position} (fits : range.last < shape.leafCount)
    (inTree : ∀ p ∈ nodes, p.Exists shape)
    (h : LeafRange.Partition (nodes.map (leaves shape)) range) :
    (cover shape range).length ≤ nodes.length := by
  have refines : ∀ part ∈ nodes.map (leaves shape),
      ∃ other ∈ (cover shape range).map (leaves shape), part.Within other := by
    intro part mem
    have within := h.within mem
    obtain ⟨p, hp, rfl⟩ := List.mem_map.1 mem
    have first_p := LeafRange.first_mem (p.leaves shape)
    obtain ⟨q, hq, first_q⟩ := (mem_range_iff_exists_mem_cover fits).1 within.first_mem
    have le := ((mem_cover_iff fits).1 hq).depth_le within first_p first_q
    exact ⟨_, List.mem_map.2 ⟨q, hq, rfl⟩, within_of_depth_le first_q first_p le (inTree p hp).1⟩
  simpa using (partition_cover fits).length_le_of_refines h refines

end RangeKeys.Cover
