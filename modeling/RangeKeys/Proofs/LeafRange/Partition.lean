import Mathlib.Data.List.Pairwise
import Mathlib.Data.List.Sort
import Mathlib.Order.Bounds.Basic
import RangeKeys.Tree.LeafRange

/-!
# Partitions of a range

A list of ranges partitions a whole if no two of them share a leaf and together they hold the
leaves of the whole. The list counts repetitions, and its order does not matter. Main facts:
parts may be replaced by partitions of themselves and back, a partition that refines another
one is at least as long, and the leaves of parts that stand from left to right are, one part
after the other, the leaves of the whole in order.
-/

namespace RangeKeys.LeafRange

/-- Every leaf of `a` stands left of every leaf of `b`. -/
def Before (a b : LeafRange) : Prop :=
  a.last < b.first

theorem meets_comm {a b : LeafRange} : a.Meets b ↔ b.Meets a :=
  And.comm

theorem not_meets_symm {a b : LeafRange} (h : ¬ a.Meets b) : ¬ b.Meets a :=
  fun meets => h (meets_comm.1 meets)

instance : Std.Symm fun a b : LeafRange => ¬ a.Meets b where
  symm _ _ := not_meets_symm

theorem Before.not_meets {a b : LeafRange} (h : a.Before b) : ¬ a.Meets b := by
  intro meets
  have := meets.2
  unfold Before at h
  omega

theorem before_of_not_meets {a b : LeafRange} (h : ¬ a.Meets b) (le : a.first ≤ b.first) :
    a.Before b := by
  have hb := b.first_le_last
  unfold Meets at h
  unfold Before
  omega

theorem Within.trans {a b c : LeafRange} (h : a.Within b) (h' : b.Within c) : a.Within c :=
  ⟨Nat.le_trans h'.1 h.1, Nat.le_trans h.2 h'.2⟩

theorem Within.first_mem {a b : LeafRange} (h : a.Within b) : a.first ∈ b :=
  ⟨h.1, Nat.le_trans a.first_le_last h.2⟩

theorem Within.last_mem {a b : LeafRange} (h : a.Within b) : a.last ∈ b :=
  ⟨Nat.le_trans h.1 a.first_le_last, h.2⟩

/-- The leaves that two ranges have in common. -/
def common {a b : LeafRange} (meets : a.Meets b) : LeafRange where
  first := max b.first a.first
  last := min b.last a.last
  first_le_last := by
    have ha := a.first_le_last
    have hb := b.first_le_last
    have := meets.1
    have := meets.2
    omega

theorem common_within {a b : LeafRange} (meets : a.Meets b) : (common meets).Within a :=
  ⟨Nat.le_max_right .., Nat.min_le_right ..⟩

theorem mem_common_iff {a b : LeafRange} {leaf : Nat} (meets : a.Meets b) :
    leaf ∈ common meets ↔ leaf ∈ a ∧ leaf ∈ b := by
  simp only [mem_def, common]
  omega

theorem first_mem (a : LeafRange) : a.first ∈ a :=
  ⟨Nat.le_refl _, a.first_le_last⟩

theorem last_mem (a : LeafRange) : a.last ∈ a :=
  ⟨a.first_le_last, Nat.le_refl _⟩

theorem ext {a b : LeafRange} (first_eq : a.first = b.first) (last_eq : a.last = b.last) :
    a = b := by
  cases a
  cases b
  cases first_eq
  cases last_eq
  rfl

theorem between_eq_ok_iff {first last : UInt64} {range : LeafRange} :
    between first last = .ok range ↔ range.first = first.toNat ∧ range.last = last.toNat := by
  cases range with
  | mk a b le =>
    unfold between
    refine ⟨fun h => ?_, fun h => ?_⟩
    · split at h
      · injection h with h
        injection h with first_eq last_eq
        exact ⟨first_eq.symm, last_eq.symm⟩
      · cases h
    · obtain ⟨rfl, rfl⟩ := h
      exact dif_pos le

theorem between_of_le {first last : UInt64} (le : first.toNat ≤ last.toNat) :
    between first last = .ok ⟨first.toNat, last.toNat, le⟩ :=
  dif_pos le

theorem between_of_lt {first last : UInt64} (lt : last.toNat < first.toNat) :
    between first last = .error (.invalidRange first.toNat last.toNat) :=
  dif_neg (Nat.not_le.2 lt)

/-- A range whose leaves are words lies between the words of its ends. -/
theorem between_ofNat {range : LeafRange} (last_lt : range.last < UInt64.size) :
    between (.ofNat range.first) (.ofNat range.last) = .ok range := by
  have first_lt := Nat.lt_of_le_of_lt range.first_le_last last_lt
  rw [between_eq_ok_iff, UInt64.toNat_ofNat_of_lt' first_lt, UInt64.toNat_ofNat_of_lt' last_lt]
  exact ⟨rfl, rfl⟩

/-- A range is known by its leaves. -/
theorem eq_of_mem_iff {a b : LeafRange} (h : ∀ leaf, leaf ∈ a ↔ leaf ∈ b) : a = b := by
  have hab := within_iff.2 fun leaf => (h leaf).1
  have hba := within_iff.2 fun leaf => (h leaf).2
  exact ext (Nat.le_antisymm hba.1 hab.1) (Nat.le_antisymm hab.2 hba.2)

/-- No two of the ranges share a leaf, and together they hold the leaves of `whole`. -/
structure Partition (ranges : List LeafRange) (whole : LeafRange) : Prop where
  disjoint : ranges.Pairwise fun a b => ¬ a.Meets b
  holds : ∀ leaf, leaf ∈ whole ↔ ∃ range ∈ ranges, leaf ∈ range

/-- Things that have leaves are sorted by the first of them. -/
theorem sorted_by_first {α : Type} (leaves : α → LeafRange) (items : List α) :
    (items.mergeSort fun a b => (leaves a).first ≤ (leaves b).first).Pairwise fun a b =>
      (leaves a).first ≤ (leaves b).first := by
  let le (a b : α) : Bool := decide ((leaves a).first ≤ (leaves b).first)
  have trans : ∀ a b c, le a b → le b c → le a c := by
    intro a b c hab hbc
    simp only [le, decide_eq_true_eq] at hab hbc ⊢
    omega
  have total : ∀ a b, le a b || le b a := by
    intro a b
    simp only [le, Bool.or_eq_true, decide_eq_true_eq]
    omega
  have sorted := List.pairwise_mergeSort trans total items
  simp only [le, decide_eq_true_eq] at sorted
  exact sorted

theorem pairwise_disjoint_perm {ranges others : List LeafRange} (h : ranges.Perm others) :
    (ranges.Pairwise fun a b => ¬ a.Meets b) ↔ others.Pairwise fun a b => ¬ a.Meets b :=
  h.pairwise_iff not_meets_symm

namespace Partition

variable {ranges others : List LeafRange} {whole : LeafRange}

theorem perm (h : Partition ranges whole) (p : ranges.Perm others) : Partition others whole where
  disjoint := (pairwise_disjoint_perm p).1 h.disjoint
  holds := by
    intro leaf
    simp only [h.holds, p.mem_iff]

theorem within (h : Partition ranges whole) {range : LeafRange} (mem : range ∈ ranges) :
    range.Within whole :=
  within_iff.2 fun leaf hleaf => (h.holds leaf).2 ⟨range, mem, hleaf⟩

theorem ne_nil (h : Partition ranges whole) : ranges ≠ [] := by
  intro empty
  subst empty
  obtain ⟨range, mem, -⟩ := (h.holds whole.first).1 whole.first_mem
  cases mem

/-- The whole begins where the first of its parts does. -/
theorem isLeast_first (h : Partition ranges whole) :
    IsLeast {leaf | ∃ range ∈ ranges, range.first = leaf} whole.first := by
  constructor
  · obtain ⟨range, mem, hleaf⟩ := (h.holds whole.first).1 whole.first_mem
    exact ⟨range, mem, Nat.le_antisymm hleaf.1 (h.within mem).1⟩
  · intro leaf begins
    rcases begins with ⟨range, mem, rfl⟩
    exact (h.within mem).1

/-- The whole ends where the last of its parts does. -/
theorem isGreatest_last (h : Partition ranges whole) :
    IsGreatest {leaf | ∃ range ∈ ranges, range.last = leaf} whole.last := by
  constructor
  · obtain ⟨range, mem, hleaf⟩ := (h.holds whole.last).1 whole.last_mem
    exact ⟨range, mem, Nat.le_antisymm (h.within mem).2 hleaf.2⟩
  · intro leaf ends
    rcases ends with ⟨range, mem, rfl⟩
    exact (h.within mem).2

theorem eq_whole {whole' : LeafRange} (h : Partition ranges whole)
    (h' : Partition ranges whole') : whole = whole' :=
  eq_of_mem_iff fun leaf => (h.holds leaf).trans (h'.holds leaf).symm

/-- A leaf belongs to one part only. -/
theorem eq_of_mem (h : Partition ranges whole) {a b : LeafRange} {leaf : Nat} (ha : a ∈ ranges)
    (hb : b ∈ ranges) (leafA : leaf ∈ a) (leafB : leaf ∈ b) : a = b := by
  by_contra differ
  exact h.disjoint.forall ha hb differ (LeafRange.meets_iff.2 ⟨leaf, leafA, leafB⟩)

/-- Two wholes meet exactly if parts of theirs do. -/
theorem meets_iff {parts others : List LeafRange} {a b : LeafRange} (ha : Partition parts a)
    (hb : Partition others b) : a.Meets b ↔ ∃ x ∈ parts, ∃ y ∈ others, x.Meets y := by
  constructor
  · intro h
    obtain ⟨leaf, inA, inB⟩ := LeafRange.meets_iff.1 h
    obtain ⟨x, hx, leafX⟩ := (ha.holds leaf).1 inA
    obtain ⟨y, hy, leafY⟩ := (hb.holds leaf).1 inB
    exact ⟨x, hx, y, hy, LeafRange.meets_iff.2 ⟨leaf, leafX, leafY⟩⟩
  · intro h
    rcases h with ⟨x, hx, y, hy, h⟩
    obtain ⟨leaf, leafX, leafY⟩ := LeafRange.meets_iff.1 h
    exact LeafRange.meets_iff.2
      ⟨leaf, (ha.holds leaf).2 ⟨x, hx, leafX⟩, (hb.holds leaf).2 ⟨y, hy, leafY⟩⟩

end Partition

/-! ## Parts of parts -/

theorem mem_flatten_iff {parts : List (List LeafRange)} {ranges : List LeafRange}
    (h : List.Forall₂ Partition parts ranges) (leaf : Nat) :
    (∃ part ∈ parts.flatten, leaf ∈ part) ↔ ∃ range ∈ ranges, leaf ∈ range := by
  induction h with
  | nil => simp
  | cons partition _ ih =>
    simp only [List.flatten_cons, List.mem_append, or_and_right, exists_or, ih,
      List.mem_cons, exists_eq_left, partition.holds]

/-- What a range meets among other ranges can be told from the parts of them all. -/
theorem not_meets_flatten_iff {part : List LeafRange} {range : LeafRange}
    {parts : List (List LeafRange)} {ranges : List LeafRange} (partition : Partition part range)
    (h : List.Forall₂ Partition parts ranges) :
    (∀ x ∈ part, ∀ y ∈ parts.flatten, ¬ x.Meets y) ↔
      ∀ other ∈ ranges, ¬ range.Meets other := by
  induction h with
  | nil => simp
  | cons partition' _ ih =>
    have first := partition.meets_iff partition'
    simp only [List.flatten_cons, List.mem_append, List.forall_mem_cons, ← ih, first,
      not_exists, not_and]
    constructor
    · intro apart
      exact ⟨fun x hx y hy => apart x hx y (.inl hy), fun x hx y hy => apart x hx y (.inr hy)⟩
    · intro apart x hx y hy
      rcases hy with hy | hy
      · exact apart.1 x hx y hy
      · exact apart.2 x hx y hy

theorem disjoint_flatten_iff {parts : List (List LeafRange)} {ranges : List LeafRange}
    (h : List.Forall₂ Partition parts ranges) :
    (parts.flatten.Pairwise fun a b => ¬ a.Meets b) ↔
      ranges.Pairwise fun a b => ¬ a.Meets b := by
  induction h with
  | nil => simp
  | cons partition rest ih =>
    rw [List.flatten_cons, List.pairwise_append, List.pairwise_cons, ih,
      not_meets_flatten_iff partition rest]
    simp only [partition.disjoint, true_and]
    exact and_comm

/-- Ranges partition a whole exactly if partitions of them do, taken together. -/
theorem partition_flatten_iff {parts : List (List LeafRange)} {ranges : List LeafRange}
    {whole : LeafRange} (h : List.Forall₂ Partition parts ranges) :
    Partition parts.flatten whole ↔ Partition ranges whole := by
  constructor
  · intro fine
    rcases fine with ⟨disjoint, holds⟩
    refine ⟨(disjoint_flatten_iff h).1 disjoint, fun leaf => ?_⟩
    rw [holds, mem_flatten_iff h]
  · intro coarse
    rcases coarse with ⟨disjoint, holds⟩
    refine ⟨(disjoint_flatten_iff h).2 disjoint, fun leaf => ?_⟩
    rw [holds, mem_flatten_iff h]

/-- If every part of a finer partition lies in a part of the coarser one, the finer one has at
least as many parts. -/
theorem Partition.length_le_of_refines {coarse fine : List LeafRange} {whole : LeafRange}
    (hc : Partition coarse whole) (hf : Partition fine whole)
    (refines : ∀ part ∈ fine, ∃ range ∈ coarse, part.Within range) :
    coarse.length ≤ fine.length := by
  -- each coarse part is charged to the fine part that holds its first leaf
  have charged : ∀ range ∈ coarse, ∃ part ∈ fine, range.first ∈ part := by
    intro range mem
    exact (hf.holds _).1 (hc.within mem).first_mem
  choose! part part_mem first_mem using charged
  have distinct : (coarse.map part).Nodup := by
    refine List.pairwise_map.2 (hc.disjoint.imp_of_mem ?_)
    intro a b ha hb apart same
    obtain ⟨range, hrange, within⟩ := refines (part a) (part_mem a ha)
    have inA := within_iff.1 within _ (first_mem a ha)
    have inB := within_iff.1 within _ (same ▸ first_mem b hb)
    have eqA := hc.eq_of_mem hrange ha inA a.first_mem
    have eqB := hc.eq_of_mem hrange hb inB b.first_mem
    subst eqA eqB
    exact apart (LeafRange.meets_iff.2 ⟨_, range.first_mem, range.first_mem⟩)
  have charge : coarse.map part ⊆ fine := by
    intro x hx
    obtain ⟨range, mem, rfl⟩ := List.mem_map.1 hx
    exact part_mem range mem
  simpa using (List.subperm_of_subset distinct charge).length_le

/-! ## Leaves in order -/

/-- The leaves from left to right. -/
def toList (range : LeafRange) : List Nat :=
  List.range' range.first range.count

theorem mem_toList {range : LeafRange} {leaf : Nat} : leaf ∈ range.toList ↔ leaf ∈ range := by
  have := range.first_le_last
  simp only [toList, count, List.mem_range'_1, mem_def]
  omega

theorem pairwise_toList (range : LeafRange) : range.toList.Pairwise (· < ·) :=
  List.pairwise_lt_range'

theorem eq_toList {leaves : List Nat} {range : LeafRange} (increasing : leaves.Pairwise (· < ·))
    (mem_iff : ∀ leaf, leaf ∈ leaves ↔ leaf ∈ range) : leaves = range.toList :=
  increasing.eq_of_mem_iff range.pairwise_toList fun leaf => (mem_iff leaf).trans mem_toList.symm

theorem Partition.flatMap_toList {ranges : List LeafRange} {whole : LeafRange}
    (h : Partition ranges whole) (ordered : ranges.Pairwise Before) :
    ranges.flatMap toList = whole.toList := by
  apply eq_toList
  · refine List.pairwise_flatMap.2 ⟨fun range _ => range.pairwise_toList, ordered.imp ?_⟩
    intro a b before x hx y hy
    exact Nat.lt_of_le_of_lt (mem_toList.1 hx).2 (Nat.lt_of_lt_of_le before (mem_toList.1 hy).1)
  · intro leaf
    simp only [List.mem_flatMap, mem_toList, h.holds]

/-- A range lies in order among the leaves of a range around it. -/
theorem filter_toList_of_within {range whole : LeafRange} (h : range.Within whole) :
    whole.toList.filter (· ∈ range) = range.toList := by
  apply eq_toList (whole.pairwise_toList.filter _)
  intro leaf
  simp only [List.mem_filter, mem_toList, decide_eq_true_eq, and_iff_right_iff_imp]
  exact within_iff.1 h leaf

theorem filter_toList_of_meets {range whole : LeafRange} (h : whole.Meets range) :
    whole.toList.filter (· ∈ range) = (common h).toList := by
  apply eq_toList (whole.pairwise_toList.filter _)
  intro leaf
  simp only [List.mem_filter, mem_toList, decide_eq_true_eq, mem_common_iff]

theorem filter_toList_of_not_meets {range whole : LeafRange} (h : ¬ whole.Meets range) :
    whole.toList.filter (· ∈ range) = [] := by
  refine List.filter_eq_nil_iff.2 fun leaf mem inRange => h ?_
  exact meets_iff.2 ⟨leaf, mem_toList.1 mem, of_decide_eq_true inRange⟩

/-- The wanted leaves of a whole are those of its parts that have any. -/
theorem Partition.flatMap_wanted {α β : Type} {items : List α} {leaves : α → LeafRange}
    {whole : LeafRange} (h : Partition (items.map leaves) whole)
    (ordered : items.Pairwise fun a b => (leaves a).Before (leaves b)) (range : LeafRange)
    (f : Nat → β) :
    (items.filter fun a => (leaves a).Meets range).flatMap
        (fun a => ((leaves a).toList.filter (· ∈ range)).map f) =
      (whole.toList.filter (· ∈ range)).map f := by
  have skip : ∀ items : List α, (items.filter fun a => (leaves a).Meets range).flatMap
      (fun a => (leaves a).toList.filter (· ∈ range)) =
        items.flatMap fun a => (leaves a).toList.filter (· ∈ range) := by
    intro items
    induction items with
    | nil => rfl
    | cons a items ih =>
      rw [List.flatMap_cons, ← ih]
      by_cases meets : (leaves a).Meets range
      · simp [meets]
      · simp [meets, filter_toList_of_not_meets meets]
  rw [← List.map_flatMap, skip, ← h.flatMap_toList (List.pairwise_map.2 ordered),
    List.flatMap_map, List.filter_flatMap]

end RangeKeys.LeafRange
