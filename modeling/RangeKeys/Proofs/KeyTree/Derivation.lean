import RangeKeys.Proofs.Expansion.Levels
import RangeKeys.Proofs.KeyTree.Construction

/-!
# Keys of leaves

The key of a leaf is found at the end of the path from the one node that covers the leaf, and
keys of a range, derived together, are the keys of its leaves in order. Where the nodes held
carry the keys that stand at their places below a root, every leaf has the key at the end of its
path from that root.
-/

namespace RangeKeys

namespace Share

variable {shape : Shape} {leaf : Nat}

theorem mem_interval_of_mem (share : Share shape) {node : SeedNode} (mem : node ∈ share.nodes)
    (covers : leaf ∈ node.leaves shape) : leaf ∈ share.interval := by
  obtain ⟨first_le, lt_next⟩ := share.tiles.mem_iff.2 ⟨node, mem, covers⟩
  exact ⟨first_le, Nat.le_of_lt_succ lt_next⟩

/-- No two nodes of a share cover the same leaf. -/
theorem eq_of_mem_leaves (share : Share shape) {a b : SeedNode} (ha : a ∈ share.nodes)
    (hb : b ∈ share.nodes) (a_covers : leaf ∈ a.leaves shape) (b_covers : leaf ∈ b.leaves shape) :
    a = b := by
  have apart := share.tiles.pairwise_before.imp LeafRange.Before.not_meets
  have : Std.Symm fun a b : SeedNode => ¬ (a.leaves shape).Meets (b.leaves shape) :=
    ⟨fun _ _ => LeafRange.not_meets_symm⟩
  by_contra differ
  exact apart.forall ha hb differ (LeafRange.meets_iff.2 ⟨leaf, a_covers, b_covers⟩)

/-- The nodes of a share that end before a leaf come first, then the one that covers the leaf, and
those that begin after it come last. -/
theorem exists_split (share : Share shape) (held : leaf ∈ share.interval) :
    ∃ before node after, share.nodes = before ++ node :: after ∧
      (∀ other ∈ before, (other.leaves shape).last < leaf) ∧ leaf ∈ node.leaves shape ∧
      ∀ other ∈ after, leaf < (other.leaves shape).first := by
  obtain ⟨node, mem, covers⟩ := share.tiles.mem_iff.1 ⟨held.1, Nat.lt_succ_of_le held.2⟩
  obtain ⟨before, after, nodes_eq⟩ := List.append_of_mem mem
  have ordered := share.tiles.pairwise_before
  rw [nodes_eq] at ordered
  obtain ⟨-, ordered_after, across⟩ := List.pairwise_append.1 ordered
  refine ⟨before, node, after, nodes_eq, ?_, covers, ?_⟩
  · intro other other_mem
    exact Nat.lt_of_lt_of_le (across other other_mem node List.mem_cons_self) covers.1
  · intro other other_mem
    exact Nat.lt_of_le_of_lt covers.2 ((List.pairwise_cons.1 ordered_after).1 other other_mem)

/-- The nodes are in two parts, as a search by halving needs them. -/
theorem covering?_of_split {share : Share shape} {before after : List SeedNode} {node : SeedNode}
    (nodes_eq : share.nodes = before ++ node :: after)
    (left : ∀ other ∈ before, (other.leaves shape).last < leaf) (covers : leaf ∈ node.leaves shape)
    (right : ∀ other ∈ after, leaf < (other.leaves shape).first) :
    share.covering? leaf = some node := by
  rw [covering?, nodes_eq]
  apply getElem?_partitionPoint
  · intro other mem
    exact decide_eq_true (left other mem)
  · intro other mem passes
    apply Nat.not_le_of_lt (of_decide_eq_true passes : (other.leaves shape).last < leaf)
    obtain rfl | mem := List.mem_cons.1 mem
    · exact covers.2
    · exact Nat.le_trans (Nat.le_of_lt (right other mem)) (other.leaves shape).first_le_last

theorem covering?_eq_some (share : Share shape) {node : SeedNode} (mem : node ∈ share.nodes)
    (covers : leaf ∈ node.leaves shape) : share.covering? leaf = some node := by
  obtain ⟨before, other, after, nodes_eq, left, other_covers, right⟩ :=
    share.exists_split (share.mem_interval_of_mem mem covers)
  have other_mem : other ∈ share.nodes := by
    rw [nodes_eq]
    exact List.mem_append_right _ List.mem_cons_self
  rw [share.eq_of_mem_leaves mem other_mem covers other_covers]
  exact covering?_of_split nodes_eq left other_covers right

end Share

theorem Cipher.value_expand {shape : Shape} {p : Position} {part : LeafRange} (cipher : Cipher)
    (seed : Key) (within : part.Within (p.leaves shape)) :
    (cipher.expand shape.fanout
      ((digits shape.fanout (shape.depth - p.depth) part.first).zip
        (digits shape.fanout (shape.depth - p.depth) part.last)) [seed]).value =
      part.toList.map fun leaf => (cipher.descend seed (p.pathTo shape leaf)).value := by
  have first_eq : part.first / shape.fanout.pow (shape.depth - p.depth) = p.number :=
    Position.mem_leaves_iff.1 within.first_mem
  have last_eq : part.last / shape.fanout.pow (shape.depth - p.depth) = p.number :=
    Position.mem_leaves_iff.1 within.last_mem
  have levels := value_expand_levels cipher seed shape.fanout_pos part.first_le_last
    (shape.depth - p.depth) 0
  rw [first_eq, last_eq, Nat.sub_self, Nat.zero_add (shape.depth - p.depth)] at levels
  exact levels

namespace KeyTree

variable {tree : KeyTree}

theorem value_expandNode {range : LeafRange} {node : SeedNode}
    (meets : (node.leaves tree.shape).Meets range) :
    (tree.expandNode range node).value =
      ((node.leaves tree.shape).toList.filter (· ∈ range)).map fun leaf =>
        (tree.cipher.descend node.seed (node.position.pathTo tree.shape leaf)).value := by
  rw [LeafRange.filter_toList_of_meets meets]
  exact tree.cipher.value_expand node.seed (LeafRange.common_within meets)

/-- What depends on the keys of a range is found, leaf by leaf in order, from the key below the node
held that covers the leaf. -/
theorem map_value_expand {α : Type} {range : LeafRange} (within : range.Within tree.interval)
    (g : Key → α) (f : Nat → α)
    (f_eq : ∀ node ∈ tree.nodes, ∀ leaf ∈ node.leaves tree.shape,
      f leaf = g (tree.cipher.descend node.seed (node.position.pathTo tree.shape leaf)).value) :
    (tree.expand range).value.map g = range.toList.map f := by
  have node_keys : ∀ node ∈ tree.nodes.filter fun node => (node.leaves tree.shape).Meets range,
      (tree.expandNode range node).value.map g =
        ((node.leaves tree.shape).toList.filter (· ∈ range)).map f := by
    intro node mem
    obtain ⟨mem, meets⟩ := List.mem_filter.1 mem
    rw [value_expandNode (of_decide_eq_true meets), List.map_map]
    refine List.map_congr_left fun leaf wanted => ?_
    exact (f_eq node mem leaf (LeafRange.mem_toList.1 (List.mem_filter.1 wanted).1)).symm
  have parts := tree.partition_nodes.flatMap_wanted tree.pairwise_before_nodes range f
  rw [LeafRange.filter_toList_of_within within] at parts
  rw [← parts, List.flatMap_def, ← List.map_congr_left node_keys]
  simp [expand, List.map_flatten, Function.comp_def]

/-- The keys of a range are those of its leaves in order, each found below the node held that
covers the leaf. -/
theorem value_expand {range : LeafRange} (within : range.Within tree.interval) (keyOf : Nat → Key)
    (key_eq : ∀ node ∈ tree.nodes, ∀ leaf ∈ node.leaves tree.shape,
      keyOf leaf =
        (tree.cipher.descend node.seed (node.position.pathTo tree.shape leaf)).value) :
    (tree.expand range).value = range.toList.map keyOf := by
  have keys := map_value_expand within id keyOf key_eq
  rw [List.map_id] at keys
  exact keys

theorem lt_size_of_mem {leaf : Nat} (held : leaf ∈ tree.interval) : leaf < UInt64.size :=
  Nat.lt_trans (Nat.lt_of_le_of_lt held.2 tree.last_lt_leafCount) tree.shape.leafCount_lt

theorem toNat_ofNat_of_mem {leaf : Nat} (held : leaf ∈ tree.interval) :
    (UInt64.ofNat leaf).toNat = leaf :=
  UInt64.toNat_ofNat_of_lt' (lt_size_of_mem held)

theorem checkHeld_eq_ok {leaf : UInt64} (h : leaf.toNat ∈ tree.interval) :
    tree.checkHeld leaf = .ok () :=
  if_pos h

theorem checkHeld_eq_error {leaf : UInt64} (h : leaf.toNat ∉ tree.interval) :
    tree.checkHeld leaf = .error (tree.outOfRange leaf) :=
  if_neg h

theorem outcome_seed_of_mem {leaf : UInt64} {node : SeedNode} (mem : node ∈ tree.nodes)
    (covers : leaf.toNat ∈ node.leaves tree.shape) :
    (tree.seed leaf).outcome =
      .ok (tree.cipher.descend node.seed (node.position.pathTo tree.shape leaf.toNat)).value := by
  have held : leaf.toNat ∈ tree.interval := tree.share.mem_interval_of_mem mem covers
  rw [seed, Attempt.outcome_bind, Attempt.outcome_liftExcept, checkHeld_eq_ok held,
    tree.share.covering?_eq_some mem covers]
  rfl

theorem outcome_seed_of_not_mem {leaf : UInt64} (h : leaf.toNat ∉ tree.interval) :
    (tree.seed leaf).outcome = .error (tree.outOfRange leaf) := by
  rw [seed, Attempt.outcome_bind, Attempt.outcome_liftExcept, checkHeld_eq_error h]
  rfl

/-- No memory has room for 2⁵⁹ keys. -/
theorem Memory.hasRoom_eq_false {memory : Memory} {count : Nat} (many : 2 ^ 59 ≤ count) :
    memory.hasRoom count = false := by
  rw [Bool.eq_false_iff]
  intro room
  have few := memory.le_maxKeyCount count room
  unfold maxKeyCount at few
  omega

/-- Keys of a range that is held are refused only for want of memory. -/
theorem outcome_seedsIn {memory : Memory} {first last : UInt64} {range : LeafRange}
    (between : LeafRange.between first last = .ok range) (within : range.Within tree.interval) :
    (tree.seedsIn memory first last).outcome =
      if memory.hasRoom range.count then
        .ok (tree.expand range).value
      else
        .error (.rangeTooLarge range.first range.last) := by
  obtain ⟨first_eq, last_eq⟩ := LeafRange.between_eq_ok_iff.1 between
  have first_held : first.toNat ∈ tree.interval := first_eq ▸ within.first_mem
  have last_held : last.toNat ∈ tree.interval := last_eq ▸ within.last_mem
  simp only [seedsIn, Attempt.outcome_bind, Attempt.outcome_liftExcept, between,
    checkHeld_eq_ok first_held, checkHeld_eq_ok last_held, except_ok_bind]
  by_cases room : memory.hasRoom range.count = true
  · rw [if_pos room, if_pos room, Attempt.outcome_liftMetered]
  · rw [if_neg room, if_neg room, Attempt.outcome_throw]

/-- Keys of a range that is held are refused only if they are too many. -/
theorem outcome_seeds {first last : UInt64} {range : LeafRange}
    (between : LeafRange.between first last = .ok range) (within : range.Within tree.interval) :
    (tree.seeds first last).outcome =
      if maxKeyCount < range.count then
        .error (.rangeTooLarge range.first range.last)
      else
        .ok (tree.expand range).value := by
  rw [seeds, outcome_seedsIn between within]
  by_cases many : maxKeyCount < range.count
  · simp [Memory.addressable, many]
  · simp [Memory.addressable, Nat.le_of_not_lt many, many]

end KeyTree

end RangeKeys
