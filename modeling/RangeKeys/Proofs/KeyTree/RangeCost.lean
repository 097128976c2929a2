import Mathlib.Algebra.Order.BigOperators.Group.Finset
import Mathlib.Order.Interval.Finset.Nat
import RangeKeys.Proofs.Expansion.Calls
import RangeKeys.Proofs.KeyTree.LeafKeys
import RangeKeys.Proofs.Metered.Failures

/-!
# What the keys of a range cost

From a node that is held, edges lead down to all nodes that have a wanted leaf below them. Each of
these edges is gone once, however many leaves lie behind it, and no other edge is. So the keys of a
range cost no more together than one by one, and those that are refused cost nothing.
-/

namespace RangeKeys

namespace Position

variable {shape : Shape} {p : Position} {depth first last : Nat}

/-- A node has leaves of a part below it if its number lies between those of the nodes of its depth
above the two ends of the part. -/
theorem meets_leaves_iff {part : LeafRange} : part.Meets (p.leaves shape) ↔
    part.first / p.width shape ≤ p.number ∧ p.number ≤ part.last / p.width shape := by
  have pos := p.width_pos shape
  have succ_last : (p.leaves shape).last + 1 = (p.number + 1) * p.width shape :=
    p.succ_last_leaves
  have left : part.first / p.width shape ≤ p.number ↔ part.first ≤ (p.leaves shape).last := by
    rw [← Nat.lt_succ_iff, Nat.div_lt_iff_lt_mul pos, Nat.succ_eq_add_one, ← succ_last,
      Nat.lt_succ_iff]
  rw [left, Nat.le_div_iff_mul_le pos]
  rfl

/-- The nodes deeper than `depth` that stand above the leaves from `first` to `last`, these leaves
included. -/
def nodesAbove (shape : Shape) (depth first last : Nat) : Finset Position :=
  ((Finset.Ioc depth shape.depth).sigma fun level =>
    Finset.Icc (first / shape.descendants (shape.depth - level))
      (last / shape.descendants (shape.depth - level))).map
    ⟨fun place => ⟨place.1, place.2⟩, fun a b same => by cases a; cases b; cases same; rfl⟩

theorem mem_nodesAbove : p ∈ nodesAbove shape depth first last ↔
    (depth < p.depth ∧ p.depth ≤ shape.depth) ∧
      first / p.width shape ≤ p.number ∧ p.number ≤ last / p.width shape := by
  rw [nodesAbove, Finset.mem_map]
  constructor
  · intro ⟨place, mem, place_eq⟩
    obtain ⟨deep, number⟩ := Finset.mem_sigma.1 mem
    obtain rfl := place_eq
    exact ⟨Finset.mem_Ioc.1 deep, Finset.mem_Icc.1 number⟩
  · intro ⟨deep, number⟩
    refine ⟨⟨p.depth, p.number⟩, Finset.mem_sigma.2 ⟨?_, ?_⟩, rfl⟩
    · exact Finset.mem_Ioc.2 deep
    · exact Finset.mem_Icc.2 number

theorem card_nodesAbove (shape : Shape) (depth : Nat) (le : first ≤ last) :
    (nodesAbove shape depth first last).card =
      ∑ level ∈ Finset.Ioc depth shape.depth,
        (last / shape.descendants (shape.depth - level) -
          first / shape.descendants (shape.depth - level) + 1) := by
  rw [nodesAbove, Finset.card_map, Finset.card_sigma]
  refine Finset.sum_congr rfl fun level _ => ?_
  rw [Nat.card_Icc, Nat.sub_add_comm (Nat.div_le_div_right le)]

/-- On no level there are more nodes above a run of leaves than leaves. -/
theorem card_nodesAbove_le (shape : Shape) (depth : Nat) (le : first ≤ last) :
    (nodesAbove shape depth first last).card ≤
      (last - first + 1) * (shape.depth - depth) := by
  have each : ∀ level ∈ Finset.Ioc depth shape.depth,
      last / shape.descendants (shape.depth - level) -
        first / shape.descendants (shape.depth - level) + 1 ≤ last - first + 1 := by
    intro level _
    have pos := shape.descendants_pos (shape.depth - level)
    have far : last ≤ first + (last - first) * shape.descendants (shape.depth - level) := by
      have := Nat.le_mul_of_pos_right (last - first) pos
      omega
    have quotients := Nat.div_le_div_right (c := shape.descendants (shape.depth - level)) far
    rw [Nat.add_mul_div_right _ _ pos] at quotients
    omega
  calc (nodesAbove shape depth first last).card
      = ∑ level ∈ Finset.Ioc depth shape.depth,
          (last / shape.descendants (shape.depth - level) -
            first / shape.descendants (shape.depth - level) + 1) := card_nodesAbove shape depth le
    _ ≤ ∑ _level ∈ Finset.Ioc depth shape.depth, (last - first + 1) := Finset.sum_le_sum each
    _ = (shape.depth - depth) * (last - first + 1) := by
        rw [Finset.sum_const_nat fun _ _ => rfl, Nat.card_Ioc]
    _ = (last - first + 1) * (shape.depth - depth) := Nat.mul_comm ..

end Position

/-- An expansion below a node makes one call for each deeper node above the leaves it leads to. -/
theorem Cipher.calls_expand {shape : Shape} {p : Position} {part : LeafRange} (cipher : Cipher)
    (seed : Key) (within : part.Within (p.leaves shape)) :
    (cipher.expand shape.fanout
      ((digits shape.fanout (shape.depth - p.depth) part.first).zip
        (digits shape.fanout (shape.depth - p.depth) part.last)) [seed]).calls =
      .ofEncryptions (Position.nodesAbove shape p.depth part.first part.last).card := by
  have first_eq : part.first / shape.fanout.pow (shape.depth - p.depth) = p.number :=
    Position.mem_leaves_iff.1 within.first_mem
  have last_eq : part.last / shape.fanout.pow (shape.depth - p.depth) = p.number :=
    Position.mem_leaves_iff.1 within.last_mem
  have levels := calls_expand_levels cipher seed shape.fanout_pos part.first_le_last
    (shape.depth - p.depth) 0
  rw [first_eq, last_eq, Nat.sub_self] at levels
  rw [Position.card_nodesAbove shape p.depth part.first_le_last]
  refine levels.trans (congrArg Calls.ofEncryptions ?_)
  -- the level counted from the leaves is the level of that distance from their depth
  refine Finset.sum_nbij' (fun level => shape.depth - level) (fun depth => shape.depth - depth)
    ?_ ?_ ?_ ?_ ?_
  · intro level mem
    rw [Finset.mem_range] at mem
    rw [Finset.mem_Ioc]
    omega
  · intro depth mem
    rw [Finset.mem_Ioc] at mem
    rw [Finset.mem_range]
    omega
  · intro level mem
    rw [Finset.mem_range] at mem
    omega
  · intro depth mem
    rw [Finset.mem_Ioc] at mem
    omega
  · intro level mem
    rw [Finset.mem_range] at mem
    have back : shape.depth - (shape.depth - level) = level := by omega
    rw [back]
    rfl

namespace KeyTree

variable {tree : KeyTree} {range : LeafRange} {node : SeedNode}

/-! ## One leaf -/

/-- The way from the covering node down to the leaf has to be gone. -/
theorem calls_seed_of_mem {leaf : UInt64} (mem : node ∈ tree.nodes)
    (covers : leaf.toNat ∈ node.leaves tree.shape) :
    (tree.seed leaf).calls = .ofEncryptions (tree.shape.depth - node.depth.toNat) := by
  have held : leaf.toNat ∈ tree.interval := tree.share.mem_interval_of_mem mem covers
  have way := tree.cipher.calls_descend node.seed (node.position.pathTo tree.shape leaf.toNat)
  rw [seed, Attempt.calls_bind, Attempt.outcome_liftExcept, checkHeld_eq_ok held,
    tree.share.covering?_eq_some mem covers, Attempt.calls_liftExcept, Calls.none_add]
  refine (Attempt.calls_liftMetered _).trans (way.trans ?_)
  rw [Position.pathTo, List.length_map, length_digits]
  rfl

/-! ## A range of leaves -/

/-- The nodes held that have leaves of the range. -/
def meeting (tree : KeyTree) (range : LeafRange) : List SeedNode :=
  tree.nodes.filter fun node => (node.leaves tree.shape).Meets range

theorem mem_meeting : node ∈ tree.meeting range ↔
    node ∈ tree.nodes ∧ (node.leaves tree.shape).Meets range := by
  rw [meeting, List.mem_filter, decide_eq_true_eq]

/-- The nodes below a node held that stand above the leaves of the range there. -/
def waysBelow (tree : KeyTree) (range : LeafRange) (node : SeedNode) : Finset Position :=
  Position.nodesAbove tree.shape node.depth.toNat
    (max range.first (node.leaves tree.shape).first)
    (min range.last (node.leaves tree.shape).last)

/-- The node lies below one that is held, on the way to a leaf of the range. So the edge that leads to
it must be gone. -/
def OnTheWay (tree : KeyTree) (range : LeafRange) (p : Position) : Prop :=
  ∃ node ∈ tree.nodes, ∃ leaf ∈ range, leaf ∈ node.leaves tree.shape ∧
    leaf ∈ p.leaves tree.shape ∧ node.depth.toNat < p.depth ∧ p.depth ≤ tree.shape.depth

theorem mem_waysBelow (meets : (node.leaves tree.shape).Meets range) {p : Position} :
    p ∈ tree.waysBelow range node ↔
      (node.depth.toNat < p.depth ∧ p.depth ≤ tree.shape.depth) ∧
        ∃ leaf ∈ range, leaf ∈ node.leaves tree.shape ∧ leaf ∈ p.leaves tree.shape := by
  have crossed : (LeafRange.common meets).Meets (p.leaves tree.shape) ↔ _ :=
    Position.meets_leaves_iff
  rw [waysBelow, Position.mem_nodesAbove]
  refine and_congr_right fun _ => crossed.symm.trans (LeafRange.meets_iff.trans ?_)
  simp only [LeafRange.mem_common_iff]
  refine exists_congr fun leaf => ?_
  rw [and_comm (a := leaf ∈ node.leaves tree.shape), and_assoc]

theorem calls_expandNode (meets : (node.leaves tree.shape).Meets range) :
    (tree.expandNode range node).calls = .ofEncryptions (tree.waysBelow range node).card :=
  tree.cipher.calls_expand node.seed (LeafRange.common_within meets)

theorem calls_expand (tree : KeyTree) (range : LeafRange) :
    (tree.expand range).calls =
      .ofEncryptions ((tree.meeting range).map fun node => (tree.waysBelow range node).card).sum := by
  have each : ∀ node ∈ tree.meeting range,
      (tree.expandNode range node).calls = .ofEncryptions (tree.waysBelow range node).card :=
    fun node mem => calls_expandNode (mem_meeting.1 mem).2
  have total := Metered.calls_mapM each
  simp only [expand, Metered.calls_bind, Metered.calls_pure, Calls.add_none]
  exact total

/-- A node on the way to leaves of the range lies below one node held only. -/
theorem pairwiseDisjoint_waysBelow (tree : KeyTree) (range : LeafRange) :
    ((tree.meeting range).toFinset : Set SeedNode).PairwiseDisjoint (tree.waysBelow range) := by
  intro a ha b hb differ
  rw [Finset.mem_coe, List.mem_toFinset, mem_meeting] at ha hb
  refine Finset.disjoint_left.2 fun p below_a below_b => differ ?_
  obtain ⟨deep_a, leafA, -, a_covers, p_covers⟩ := (mem_waysBelow ha.2).1 below_a
  obtain ⟨-, leafB, -, b_covers, p_covers'⟩ := (mem_waysBelow hb.2).1 below_b
  have inner := Position.within_of_depth_le a_covers p_covers (Nat.le_of_lt deep_a.1) deep_a.2
  have a_covers' := LeafRange.within_iff.1 inner leafB p_covers'
  exact tree.share.eq_of_mem_leaves ha.1 hb.1 a_covers' b_covers

theorem nodup_meeting (tree : KeyTree) (range : LeafRange) : (tree.meeting range).Nodup := by
  refine (tree.pairwise_before_nodes.imp ?_).filter _
  intro a b before same
  obtain rfl := same
  exact Nat.not_lt.2 (a.leaves tree.shape).first_le_last before

/-- The nodes on the way to the leaves of the range. -/
def ways (tree : KeyTree) (range : LeafRange) : Finset Position :=
  (tree.meeting range).toFinset.biUnion (tree.waysBelow range)

theorem mem_ways {p : Position} : p ∈ tree.ways range ↔ tree.OnTheWay range p := by
  rw [ways, Finset.mem_biUnion]
  constructor
  · intro ⟨node, mem, below⟩
    rw [List.mem_toFinset, mem_meeting] at mem
    obtain ⟨deep, leaf, wanted, covers, p_covers⟩ := (mem_waysBelow mem.2).1 below
    exact ⟨node, mem.1, leaf, wanted, covers, p_covers, deep⟩
  · intro ⟨node, mem, leaf, wanted, covers, p_covers, deep⟩
    have meets := LeafRange.meets_iff.2 ⟨leaf, covers, wanted⟩
    refine ⟨node, ?_, (mem_waysBelow meets).2 ⟨deep, leaf, wanted, covers, p_covers⟩⟩
    rw [List.mem_toFinset, mem_meeting]
    exact ⟨mem, meets⟩

theorem card_ways (tree : KeyTree) (range : LeafRange) :
    (tree.ways range).card =
      ((tree.meeting range).map fun node => (tree.waysBelow range node).card).sum := by
  rw [ways, Finset.card_biUnion (tree.pairwiseDisjoint_waysBelow range),
    List.sum_toFinset _ (tree.nodup_meeting range)]

/-- What leaf by leaf the keys of the leaves of a node cost. -/
theorem calls_seed_below {leaf : Nat} (mem : node ∈ tree.nodes)
    (covers : leaf ∈ node.leaves tree.shape) :
    (tree.seed (.ofNat leaf)).calls = .ofEncryptions (tree.shape.depth - node.depth.toNat) := by
  have leaf_eq := toNat_ofNat_of_mem (tree.share.mem_interval_of_mem mem covers)
  apply calls_seed_of_mem mem
  rw [leaf_eq]
  exact covers

/-- Below each node held, the keys of a range cost no more together than one by one. -/
theorem card_waysBelow_le (mem : node ∈ tree.nodes)
    (meets : (node.leaves tree.shape).Meets range) :
    (tree.waysBelow range node).card ≤
      (((node.leaves tree.shape).toList.filter (· ∈ range)).map fun leaf =>
        (tree.seed (.ofNat leaf)).calls.encryptions).sum := by
  have each : ∀ leaf ∈ (LeafRange.common meets).toList,
      (tree.seed (.ofNat leaf)).calls.encryptions = tree.shape.depth - node.depth.toNat := by
    intro leaf wanted
    have covers := ((LeafRange.mem_common_iff meets).1 (LeafRange.mem_toList.1 wanted)).1
    exact congrArg Calls.encryptions (calls_seed_below mem covers)
  rw [LeafRange.filter_toList_of_meets meets, List.map_congr_left each, List.map_const',
    List.sum_replicate_nat, LeafRange.toList, List.length_range']
  exact Position.card_nodesAbove_le tree.shape node.depth.toNat
    (LeafRange.common meets).first_le_last

/-- The keys of a range cost no more together than one by one. -/
theorem card_ways_le (within : range.Within tree.interval) :
    (tree.ways range).card ≤
      (range.toList.map fun leaf => (tree.seed (.ofNat leaf)).calls.encryptions).sum := by
  have parts := tree.partition_nodes.flatMap_wanted tree.pairwise_before_nodes range
    fun leaf => (tree.seed (.ofNat leaf)).calls.encryptions
  rw [LeafRange.filter_toList_of_within within] at parts
  rw [card_ways, ← parts, List.flatMap_def, List.sum_flatten, List.map_map]
  refine List.sum_le_sum fun node mem => ?_
  obtain ⟨mem, meets⟩ := mem_meeting.1 mem
  exact card_waysBelow_le mem meets

section Answers

variable {memory : Memory} {first last : UInt64}

open Attempt (FailsFirst)

/-- Whatever is refused is refused before any call. -/
theorem failsFirst_seedsIn (tree : KeyTree) (memory : Memory) (first last : UInt64) :
    FailsFirst (fun _ => True) (tree.seedsIn memory first last) := by
  refine .bind_check fun range => .bind_check fun _ => .bind_check fun _ => ?_
  split
  · exact .of_failsOnly (.liftMetered _)
  · exact .throw _

theorem calls_seedsIn (between : LeafRange.between first last = .ok range)
    (within : range.Within tree.interval) (room : memory.hasRoom range.count = true) :
    (tree.seedsIn memory first last).calls = (tree.expand range).calls := by
  obtain ⟨first_eq, last_eq⟩ := LeafRange.between_eq_ok_iff.1 between
  have first_held : first.toNat ∈ tree.interval := first_eq ▸ within.first_mem
  have last_held : last.toNat ∈ tree.interval := last_eq ▸ within.last_mem
  simp only [seedsIn, Attempt.calls_bind, Attempt.outcome_liftExcept, Attempt.calls_liftExcept,
    between, checkHeld_eq_ok first_held, checkHeld_eq_ok last_held, Calls.none_add, if_pos room]
  exact Attempt.calls_liftMetered _

end Answers

/-- Keys of a range that are refused cost no call. Those that are given cost one call for each edge
between a node held and a leaf of the range, which makes on every level below such a node as many
as there are nodes above its leaves in the range. That is never more than the keys of the leaves
cost one by one. -/
theorem seedsIn_derives_each_edge_once (tree : KeyTree) (memory : Memory) (first last : UInt64) :
    let answer := tree.seedsIn memory first last
    (∀ e, answer.outcome = .error e → answer.calls = .none) ∧
    ∀ le : first.toNat ≤ last.toNat, first.toNat ∈ tree.interval → last.toNat ∈ tree.interval →
      memory.hasRoom (last.toNat - first.toNat + 1) = true →
      let range : LeafRange := ⟨first.toNat, last.toNat, le⟩
      let meeting := tree.nodes.filter fun node => (node.leaves tree.shape).Meets range
      (∃ keys, answer.outcome = .ok keys) ∧
      answer.calls = .ofEncryptions (meeting.map fun node =>
        let leaves := node.leaves tree.shape
        ∑ depth ∈ Finset.Ioc node.depth.toNat tree.shape.depth,
          let width := tree.shape.fanout ^ (tree.shape.depth - depth)
          (min range.last leaves.last / width - max range.first leaves.first / width + 1)).sum ∧
      (∃ edges : Finset Position, (∀ p, p ∈ edges ↔ tree.OnTheWay range p) ∧
        answer.calls = .ofEncryptions edges.card) ∧
      answer.calls.encryptions ≤
        (range.toList.map fun leaf => (tree.seed (.ofNat leaf)).calls.encryptions).sum := by
  intro answer
  refine ⟨fun e failed => tree.failsFirst_seedsIn memory first last e failed trivial, ?_⟩
  intro le first_held last_held room range meeting
  have between : LeafRange.between first last = .ok range := LeafRange.between_of_le le
  have within : range.Within tree.interval := ⟨first_held.1, last_held.2⟩
  have outcome_eq : answer.outcome = _ := outcome_seedsIn between within
  have calls_eq : answer.calls = _ := calls_seedsIn between within room
  have ways_eq : answer.calls = .ofEncryptions (tree.ways range).card := by
    rw [calls_eq, calls_expand, card_ways]
  refine ⟨⟨_, outcome_eq.trans (if_pos room)⟩, ?_, ⟨tree.ways range, fun p => mem_ways, ways_eq⟩, ?_⟩
  · rw [calls_eq, calls_expand]
    refine congrArg (fun costs : List Nat => Calls.ofEncryptions costs.sum) ?_
    refine List.map_congr_left fun node mem => ?_
    have meets := (mem_meeting.1 mem).2
    exact Position.card_nodesAbove tree.shape node.depth.toNat
      (LeafRange.common meets).first_le_last
  · rw [ways_eq]
    exact card_ways_le within

/-- Of eight leaves, the keys of all but the outer two cost twelve calls: two, four and six on the
three levels below the root. -/
theorem inner_six_of_eight_keys_cost_twelve_calls :
    let tree : KeyTree :=
      ⟨.aes, ⟨3, 2, by decide, by decide, by decide⟩, .root ⟨.replicate 16 7⟩⟩
    (1 : UInt64).toNat ∈ tree.interval ∧ (6 : UInt64).toNat ∈ tree.interval ∧
      (∃ keys, (tree.seedsIn .addressable 1 6).outcome = .ok keys) ∧
      (tree.seedsIn .addressable 1 6).calls = .ofEncryptions 12 := by
  intro tree
  have first_held : (1 : UInt64).toNat ∈ tree.interval := by decide
  have last_held : (6 : UInt64).toNat ∈ tree.interval := by decide
  obtain ⟨keys, cost, -⟩ := (seedsIn_derives_each_edge_once tree .addressable 1 6).2 (by decide)
    first_held last_held (by decide)
  exact ⟨first_held, last_held, keys, cost.trans (by decide)⟩

end KeyTree

end RangeKeys
