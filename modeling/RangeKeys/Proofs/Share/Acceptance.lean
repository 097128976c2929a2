import RangeKeys.Proofs.Position.Ancestry
import RangeKeys.Tree.Share

/-!
# Which nodes make a share

Nodes are put in the order of their first leaves and only neighbours are compared. Nodes in that
order tile an interval exactly if their leaves partition it, which does not depend on the order
at all. So a share can be made of nodes of the tree exactly if their leaves partition an
interval, and the nodes then have only one order.
-/

namespace RangeKeys

namespace SeedNode

variable {shape : Shape} {nodes others : List SeedNode} {start stop leaf : Nat}
  {interval : LeafRange}

theorem map_leaves (shape : Shape) (nodes : List SeedNode) :
    nodes.map (leaves shape) = (nodes.map position).map (Position.leaves shape) := by
  rw [List.map_map]
  rfl

/-- The leaves of the first node stand left of those of the second. -/
def Before (shape : Shape) (a b : SeedNode) : Prop :=
  (a.leaves shape).Before (b.leaves shape)

/-- No node begins left of the one before it. -/
def Sorted (shape : Shape) (nodes : List SeedNode) : Prop :=
  nodes.Pairwise fun a b => (a.leaves shape).first ≤ (b.leaves shape).first

theorem perm_sortByLeaf (shape : Shape) (nodes : List SeedNode) :
    (sortByLeaf shape nodes).Perm nodes :=
  List.mergeSort_perm ..

theorem sorted_sortByLeaf (shape : Shape) (nodes : List SeedNode) :
    Sorted shape (sortByLeaf shape nodes) :=
  LeafRange.sorted_by_first (leaves shape) nodes

/-! ## Tilings and partitions -/

theorem Tiles.start_le (h : Tiles shape start nodes stop) : start ≤ stop := by
  induction nodes generalizing start with
  | nil => exact Nat.le_of_eq h
  | cons node nodes ih =>
    obtain ⟨rfl, rest⟩ := h
    have := (node.leaves shape).first_le_last
    have := ih rest
    omega

theorem Tiles.mem_iff (h : Tiles shape start nodes stop) :
    start ≤ leaf ∧ leaf < stop ↔ ∃ node ∈ nodes, leaf ∈ node.leaves shape := by
  induction nodes generalizing start with
  | nil =>
    obtain rfl : start = stop := h
    simp only [List.not_mem_nil, false_and, exists_false, iff_false]
    omega
  | cons node nodes ih =>
    obtain ⟨rfl, rest⟩ := h
    have le := (node.leaves shape).first_le_last
    have rest_le := rest.start_le
    rw [List.exists_mem_cons_iff, ← ih rest, LeafRange.mem_def]
    omega

theorem Tiles.pairwise_before (h : Tiles shape start nodes stop) :
    nodes.Pairwise (Before shape) := by
  induction nodes generalizing start with
  | nil => exact List.Pairwise.nil
  | cons node nodes ih =>
    obtain ⟨-, rest⟩ := h
    refine List.pairwise_cons.2 ⟨fun other mem => ?_, ih rest⟩
    exact (rest.mem_iff.2 ⟨other, mem, LeafRange.first_mem _⟩).1

theorem tiles_of_sorted (sorted : Sorted shape nodes)
    (disjoint : nodes.Pairwise fun a b => ¬ (a.leaves shape).Meets (b.leaves shape))
    (le : start ≤ stop)
    (holds : ∀ leaf, start ≤ leaf ∧ leaf < stop ↔ ∃ node ∈ nodes, leaf ∈ node.leaves shape) :
    Tiles shape start nodes stop := by
  induction nodes generalizing start with
  | nil =>
    have := holds start
    simp only [List.not_mem_nil, false_and, exists_false, iff_false] at this
    show start = stop
    omega
  | cons node nodes ih =>
    obtain ⟨least, sorted⟩ := List.pairwise_cons.1 sorted
    obtain ⟨apart, disjoint⟩ := List.pairwise_cons.1 disjoint
    have node_le := (node.leaves shape).first_le_last
    have node_first := (holds _).2 ⟨node, List.mem_cons_self, LeafRange.first_mem _⟩
    have node_last := (holds _).2 ⟨node, List.mem_cons_self, LeafRange.last_mem _⟩
    -- whichever node holds the start, the first one begins no later
    have first_eq : (node.leaves shape).first = start := by
      obtain ⟨other, mem, hstart⟩ := (holds start).1 ⟨Nat.le_refl _, by omega⟩
      rcases List.mem_cons.1 mem with rfl | mem
      · exact Nat.le_antisymm hstart.1 node_first.1
      · exact Nat.le_antisymm (Nat.le_trans (least other mem) hstart.1) node_first.1
    refine ⟨first_eq, ih sorted disjoint (by omega) fun leaf => ?_⟩
    constructor
    · intro h
      obtain ⟨other, mem, hleaf⟩ := (holds leaf).1 ⟨by omega, h.2⟩
      rcases List.mem_cons.1 mem with rfl | mem
      · have := hleaf.2
        omega
      · exact ⟨other, mem, hleaf⟩
    · intro h
      rcases h with ⟨other, mem, hleaf⟩
      have before := LeafRange.before_of_not_meets (apart other mem) (least other mem)
      have := ((holds leaf).2 ⟨other, List.mem_cons_of_mem _ mem, hleaf⟩).2
      have := hleaf.1
      unfold LeafRange.Before at before
      omega

theorem Tiles.partition (h : Tiles shape interval.first nodes (interval.last + 1)) :
    LeafRange.Partition (nodes.map (leaves shape)) interval where
  disjoint := List.pairwise_map.2 (h.pairwise_before.imp LeafRange.Before.not_meets)
  holds := by
    intro leaf
    have holds : interval.first ≤ leaf ∧ leaf < interval.last + 1 ↔ _ := h.mem_iff
    rw [Nat.lt_succ_iff] at holds
    rw [LeafRange.mem_def, holds]
    simp only [List.mem_map, exists_exists_and_eq_and]

/-- Nodes in the order of their first leaves tile what they partition. -/
theorem tiles_of_partition (sorted : Sorted shape nodes)
    (h : LeafRange.Partition (nodes.map (leaves shape)) interval) :
    Tiles shape interval.first nodes (interval.last + 1) := by
  have le := interval.first_le_last
  refine tiles_of_sorted sorted (List.pairwise_map.1 h.disjoint) (by omega) fun leaf => ?_
  have holds := h.holds leaf
  simp only [List.mem_map, exists_exists_and_eq_and] at holds
  rw [← holds, LeafRange.mem_def, Nat.lt_succ_iff]

/-! ## The check of neighbours -/

theorem lastLeaf_eq_ok_iff {last final : Nat} :
    lastLeaf shape last nodes = .ok final ↔ Tiles shape (last + 1) nodes (final + 1) := by
  refine ⟨fun h => (lastLeaf_eq_ok h).2, fun h => ?_⟩
  induction nodes generalizing last with
  | nil =>
    obtain rfl : last = final := by simpa [Tiles] using h
    rfl
  | cons node nodes ih =>
    rw [lastLeaf, if_pos h.1]
    exact ih h.2

/-- The check stops at the first node that does not begin where the nodes before it end. -/
theorem lastLeaf_eq_error {last : Nat} {e : TreeError}
    (h : lastLeaf shape last nodes = .error e) :
    ∃ before node after expected, nodes = before ++ node :: after ∧
      Tiles shape (last + 1) before expected ∧ (node.leaves shape).first ≠ expected ∧
      e = .nonContiguousNodes expected (node.leaves shape).first := by
  induction nodes generalizing last with
  | nil => cases h
  | cons node nodes ih =>
    rw [lastLeaf] at h
    split at h
    · rename_i joins
      obtain ⟨before, other, after, expected, rfl, tiles, differ, rfl⟩ := ih h
      exact ⟨node :: before, other, after, expected, rfl, ⟨joins, tiles⟩, differ, rfl⟩
    · rename_i differ
      injection h with h
      exact ⟨[], node, nodes, last + 1, rfl, rfl, differ, h.symm⟩

/-- What the numbers in the report of a break say about the nodes: either no node has the
expected leaf, or two have the leaf at which a node begins instead. -/
def Break (shape : Shape) (nodes : List SeedNode) (expected actual : Nat) : Prop :=
  actual ≠ expected ∧
    (expected < actual → ∀ node ∈ nodes, expected ∉ node.leaves shape) ∧
    (actual < expected → 2 ≤ nodes.countP fun node => actual ∈ node.leaves shape)

theorem Break.perm {expected actual : Nat} (h : Break shape nodes expected actual)
    (p : nodes.Perm others) : Break shape others expected actual := by
  obtain ⟨differ, gap, overlap⟩ := h
  refine ⟨differ, fun lt node mem => gap lt node (p.mem_iff.2 mem), fun lt => ?_⟩
  rw [← p.countP_eq]
  exact overlap lt

theorem break_of_append {before after : List SeedNode} {node : SeedNode}
    (sorted : Sorted shape (before ++ node :: after)) (tiles : Tiles shape start before stop)
    (le : start ≤ (node.leaves shape).first) (differ : (node.leaves shape).first ≠ stop) :
    Break shape (before ++ node :: after) stop (node.leaves shape).first := by
  obtain ⟨-, sorted_after, -⟩ := List.pairwise_append.1 sorted
  obtain ⟨later, -⟩ := List.pairwise_cons.1 sorted_after
  refine ⟨differ, fun gap other mem covers => ?_, fun overlap => ?_⟩
  · rcases List.mem_append.1 mem with mem | mem
    · have := (tiles.mem_iff.2 ⟨other, mem, covers⟩).2
      omega
    · rcases List.mem_cons.1 mem with rfl | mem
      · have := covers.1
        omega
      · have := later other mem
        have := covers.1
        omega
  · obtain ⟨other, mem, covers⟩ := tiles.mem_iff.1 ⟨le, overlap⟩
    have in_before : 0 < before.countP fun other =>
        (node.leaves shape).first ∈ other.leaves shape :=
      List.countP_pos_iff.2 ⟨other, mem, decide_eq_true covers⟩
    have in_after : 0 < (node :: after).countP fun other =>
        (node.leaves shape).first ∈ other.leaves shape :=
      List.countP_pos_iff.2
        ⟨node, List.mem_cons_self, decide_eq_true (LeafRange.first_mem (node.leaves shape))⟩
    rw [List.countP_append]
    omega

end SeedNode

namespace Share

open SeedNode

variable {shape : Shape} {nodes others : List SeedNode}

theorem partition (share : Share shape) :
    LeafRange.Partition (share.nodes.map (leaves shape)) share.interval :=
  share.tiles.partition

/-- The nodes of a share determine its interval. -/
theorem eq_of_nodes_eq {a b : Share shape} (h : a.nodes = b.nodes) : a = b := by
  have interval_eq : a.interval = b.interval := by
    have := a.partition
    rw [h] at this
    exact this.eq_whole b.partition
  cases a
  cases b
  cases h
  cases interval_eq
  rfl

theorem ofNodes_eq_ok_iff {share : Share shape} :
    ofNodes shape nodes = .ok share ↔
      (∀ node ∈ nodes, node.position.Exists shape) ∧ share.nodes = sortByLeaf shape nodes := by
  have faultless_iff : nodes.findSome? (·.fault? shape) = none ↔
      ∀ node ∈ nodes, node.position.Exists shape := by
    simp only [List.findSome?_eq_none_iff, fault?_eq_none_iff]
  constructor
  · intro h
    unfold ofNodes at h
    split at h
    · cases h
    · rename_i faultless
      split at h
      · cases h
      · rename_i head tail sorted
        dsimp only at h
        split at h
        · cases h
        · injection h with h
          subst h
          exact ⟨faultless_iff.1 faultless, sorted.symm⟩
  · intro h
    rcases h with ⟨exist, nodes_eq⟩
    have faultless := faultless_iff.2 exist
    have tiles := share.tiles
    rw [nodes_eq] at tiles
    unfold ofNodes
    split
    · rename_i faulty
      rw [faultless] at faulty
      cases faulty
    · split
      · rename_i empty
        exact absurd (nodes_eq.trans empty) fun h => share.partition.ne_nil (by rw [h]; rfl)
      · rename_i head tail sorted
        rw [sorted] at tiles
        have joined := lastLeaf_eq_ok_iff.2 tiles.2
        dsimp only
        split
        · rename_i broken
          rw [joined] at broken
          cases broken
        · exact congrArg Except.ok (eq_of_nodes_eq (nodes_eq.trans sorted).symm)

/-- Nodes make a share exactly if all are in the tree and their leaves partition an interval. -/
theorem exists_ofNodes_iff :
    (∃ share, ofNodes shape nodes = .ok share) ↔
      (∀ node ∈ nodes, node.position.Exists shape) ∧
        ∃ interval, LeafRange.Partition (nodes.map (leaves shape)) interval := by
  have perm := perm_sortByLeaf shape nodes
  constructor
  · intro h
    rcases h with ⟨share, h⟩
    obtain ⟨exist, nodes_eq⟩ := ofNodes_eq_ok_iff.1 h
    have partition := share.partition
    rw [nodes_eq] at partition
    exact ⟨exist, share.interval, partition.perm (perm.map _)⟩
  · intro h
    rcases h with ⟨exist, interval, partition⟩
    have sorted_partition := partition.perm (perm.map (leaves shape)).symm
    refine ⟨⟨sortByLeaf shape nodes, interval, fun node mem => exist node (perm.mem_iff.1 mem),
      tiles_of_partition (sorted_sortByLeaf shape nodes) sorted_partition⟩, ?_⟩
    exact ofNodes_eq_ok_iff.2 ⟨exist, rfl⟩

/-- The order in which the nodes are given does not change the share. -/
theorem ofNodes_perm {share : Share shape} (h : ofNodes shape nodes = .ok share)
    (p : others.Perm nodes) : ofNodes shape others = .ok share := by
  obtain ⟨exist, interval, partition⟩ := exists_ofNodes_iff.1 ⟨share, h⟩
  obtain ⟨share', h'⟩ := exists_ofNodes_iff.2 ⟨fun node mem => exist node (p.mem_iff.1 mem),
    interval, partition.perm (p.map (leaves shape)).symm⟩
  have nodes_eq := (ofNodes_eq_ok_iff.1 h).2
  have nodes_eq' := (ofNodes_eq_ok_iff.1 h').2
  have perm : share'.nodes.Perm share.nodes := by
    rw [nodes_eq, nodes_eq']
    exact ((perm_sortByLeaf shape others).trans p).trans (perm_sortByLeaf shape nodes).symm
  have asymm : ∀ a b, a ∈ share'.nodes → b ∈ share.nodes → Before shape a b →
      Before shape b a → a = b := by
    intro a b _ _ ab ba
    have := (a.leaves shape).first_le_last
    have := (b.leaves shape).first_le_last
    unfold Before LeafRange.Before at ab ba
    omega
  have same := perm.eq_of_pairwise asymm share'.tiles.pairwise_before
    share.tiles.pairwise_before
  rw [h', eq_of_nodes_eq same]

theorem ofNodes_of_faulty {e : TreeError} (faulty : nodes.findSome? (·.fault? shape) = some e) :
    ofNodes shape nodes = .error e := by
  unfold ofNodes
  split
  · rename_i found
    exact congrArg Except.error (Option.some.inj (found.symm.trans faulty))
  · rename_i faultless
    rw [faultless] at faulty
    cases faulty

theorem ofNodes_nil (shape : Shape) : ofNodes shape [] = .error .emptyNodeSet := by
  have sorted_nil := (perm_sortByLeaf shape []).eq_nil
  unfold ofNodes
  split
  · rename_i found
    cases found
  · split
    · rfl
    · rename_i sorted
      rw [sorted_nil] at sorted
      cases sorted

theorem ofNodes_of_broken {e : TreeError} {head : SeedNode} {tail : List SeedNode}
    (faultless : nodes.findSome? (·.fault? shape) = none)
    (sorted : sortByLeaf shape nodes = head :: tail)
    (broken : lastLeaf shape (head.leaves shape).last tail = .error e) :
    ofNodes shape nodes = .error e := by
  unfold ofNodes
  split
  · rename_i found
    rw [found] at faultless
    cases faultless
  · split
    · rename_i empty
      rw [empty] at sorted
      cases sorted
    · rename_i sorted'
      obtain ⟨rfl, rfl⟩ := List.cons.inj (sorted'.symm.trans sorted)
      dsimp only
      split
      · rename_i broken'
        exact congrArg Except.error (Except.error.inj (broken'.symm.trans broken))
      · rename_i joined
        rw [joined] at broken
        cases broken

/-- Why nodes make no share: one of them is not in the tree, there is none, or in the order of their
leaves they are not joined. -/
theorem ofNodes_eq_error_iff {e : TreeError} :
    ofNodes shape nodes = .error e ↔
      nodes.findSome? (·.fault? shape) = some e ∨
      nodes = [] ∧ e = .emptyNodeSet ∨
      nodes.findSome? (·.fault? shape) = none ∧
        ∃ head tail, sortByLeaf shape nodes = head :: tail ∧
          lastLeaf shape (head.leaves shape).last tail = .error e := by
  constructor
  · intro h
    unfold ofNodes at h
    split at h
    · rename_i faulty
      injection h with h
      exact .inl (h ▸ faulty)
    · rename_i faultless
      split at h
      · rename_i empty
        injection h with h
        have perm := perm_sortByLeaf shape nodes
        rw [empty] at perm
        exact .inr (.inl ⟨perm.symm.eq_nil, h.symm⟩)
      · rename_i head tail sorted
        dsimp only at h
        split at h
        · rename_i broken
          injection h with h
          exact .inr (.inr ⟨faultless, head, tail, sorted, h ▸ broken⟩)
        · cases h
  · intro h
    rcases h with faulty | ⟨rfl, rfl⟩ | ⟨faultless, head, tail, sorted, broken⟩
    · exact ofNodes_of_faulty faulty
    · exact ofNodes_nil shape
    · exact ofNodes_of_broken faultless sorted broken

/-- Nodes of the tree that make no share are refused for a break in the order of their leaves. -/
theorem ofNodes_eq_error {e : TreeError} (nonempty : nodes ≠ [])
    (exist : ∀ node ∈ nodes, node.position.Exists shape) (h : ofNodes shape nodes = .error e) :
    ∃ expected actual, e = .nonContiguousNodes expected actual ∧
      Break shape nodes expected actual := by
  rcases ofNodes_eq_error_iff.1 h with
    faulty | ⟨empty, -⟩ | ⟨-, head, tail, sorted_eq, broken⟩
  · obtain ⟨node, mem, fault⟩ := List.exists_of_findSome?_eq_some faulty
    rw [fault?_eq_none_iff.2 (exist node mem)] at fault
    cases fault
  · exact absurd empty nonempty
  · have perm := perm_sortByLeaf shape nodes
    have sorted := sorted_sortByLeaf shape nodes
    rw [sorted_eq] at sorted perm
    obtain ⟨before, node, after, expected, rfl, tiles, differ, rfl⟩ := lastLeaf_eq_error broken
    have least := (List.pairwise_cons.1 sorted).1 node (by simp)
    have tiles' : Tiles shape (head.leaves shape).first (head :: before) expected :=
      ⟨rfl, tiles⟩
    exact ⟨_, _, rfl, (break_of_append sorted tiles' least differ).perm perm⟩

end Share

end RangeKeys
