import Mathlib.Algebra.Group.Nat.Defs
import RangeKeys.Proofs.Share.Acceptance
import RangeKeys.Tree.KeyTree

/-!
# Making trees

An owner's tree needs a valid configuration and sixteen bytes for the root, a receiver's tree a
valid configuration and nodes whose leaves partition an interval. The order of the nodes does not
matter, and nodes that leave a gap or overlap are refused with a truthful report.
-/

namespace RangeKeys

theorem except_bind_eq_ok_iff {ε α β : Type} {x : Except ε α} {f : α → Except ε β} {b : β} :
    x >>= f = .ok b ↔ ∃ a, x = .ok a ∧ f a = .ok b := by
  cases x <;> simp [bind, Except.bind]

theorem except_eq_ok_or_error {ε α : Type} (x : Except ε α) :
    (∃ a, x = .ok a) ∨ ∃ e, x = .error e := by
  cases x with
  | ok a => exact .inl ⟨a, rfl⟩
  | error e => exact .inr ⟨e, rfl⟩

namespace TreeConfig

/-- The fanout is allowed and a word can count the leaves. -/
structure Valid (config : TreeConfig) : Prop where
  two_le_fanout : 2 ≤ config.fanout.toNat
  fanout_le : config.fanout.toNat ≤ 256
  leaves_fit : config.fanout.toNat ^ config.depth.toNat ≤ 2 ^ 64 - 1

/-- The tree that a valid configuration asks for. -/
def Valid.shape {config : TreeConfig} (valid : config.Valid) : Shape where
  depth := config.depth.toNat
  fanout := config.fanout.toNat
  two_le_fanout := valid.two_le_fanout
  fanout_le_max := valid.fanout_le
  leaves_fit := Nat.lt_of_le_of_lt valid.leaves_fit (by decide)

variable {config : TreeConfig}

theorem shape_eq_ok_iff {shape : Shape} :
    config.shape = .ok shape ↔ ∃ valid : config.Valid, shape = valid.shape := by
  constructor
  · intro h
    simp only [TreeConfig.shape] at h
    split at h
    · rename_i range
      split at h
      · rename_i fit
        injection h with h
        exact ⟨⟨range.1, range.2, Nat.le_sub_one_of_lt fit⟩, h.symm⟩
      · cases h
    · cases h
  · intro h
    rcases h with ⟨valid, rfl⟩
    have fit := valid.shape.leaves_fit
    simp only [Valid.shape] at fit
    simp only [TreeConfig.shape]
    rw [dif_pos ⟨valid.two_le_fanout, valid.fanout_le⟩, dif_pos fit]
    rfl

theorem Valid.shape_eq (valid : config.Valid) : config.shape = .ok valid.shape :=
  shape_eq_ok_iff.2 ⟨valid, rfl⟩

end TreeConfig

namespace Key

theorem ofBytes_eq_ok_iff {bytes : List UInt8} {key : Key} :
    ofBytes bytes = .ok key ↔ key.bytes.toList = bytes := by
  simp only [ofBytes, Part.check]
  constructor
  · intro h
    split at h
    · rename_i v sized
      injection h with h
      subst h
      exact Bytes.toList_of_sized? sized
    · cases h
  · intro h
    subst h
    have sized : Bytes.sized? Part.key.size key.bytes.toList = some key.bytes :=
      Bytes.sized?_toList key.bytes
    rw [sized]
    rfl

/-- Sixteen bytes are a key. -/
theorem exists_ofBytes {bytes : List UInt8} (h : bytes.length = 16) :
    ∃ key, ofBytes bytes = .ok key :=
  ⟨⟨bytes.toArray, by simpa using h⟩, ofBytes_eq_ok_iff.2 (by simp [Vector.toList])⟩

end Key

namespace KeyTree

variable {cipher : Cipher} {config : TreeConfig} {tree : KeyTree} {nodes : List SeedNode}

theorem owner_eq_ok_iff {root : List UInt8} :
    owner cipher config root = .ok tree ↔
      ∃ (valid : config.Valid) (seed : Key), Key.ofBytes root = .ok seed ∧
        tree = ⟨cipher, valid.shape, .root seed⟩ := by
  simp only [owner, except_bind_eq_ok_iff, TreeConfig.shape_eq_ok_iff]
  constructor
  · intro h
    rcases h with ⟨_, ⟨valid, rfl⟩, seed, h, tree_eq⟩
    refine ⟨valid, seed, ?_, ?_⟩
    · cases root_key : Key.ofBytes root with
      | ok key =>
        rw [root_key] at h
        injection h with h
        rw [h]
      | error e =>
        rw [root_key] at h
        cases h
    · injection tree_eq with tree_eq
      exact tree_eq.symm
  · intro h
    rcases h with ⟨valid, seed, h, rfl⟩
    exact ⟨valid.shape, ⟨valid, rfl⟩, seed, by rw [h]; rfl, rfl⟩

theorem receiver_eq_ok_iff :
    receiver cipher config nodes = .ok tree ↔
      ∃ (valid : config.Valid) (share : Share valid.shape),
        Share.ofNodes valid.shape nodes = .ok share ∧
          tree = ⟨cipher, valid.shape, .granted share⟩ := by
  simp only [receiver, except_bind_eq_ok_iff, TreeConfig.shape_eq_ok_iff]
  constructor
  · intro h
    rcases h with ⟨_, ⟨valid, rfl⟩, share, h, tree_eq⟩
    injection tree_eq with tree_eq
    exact ⟨valid, share, h, tree_eq.symm⟩
  · intro h
    rcases h with ⟨valid, share, h, rfl⟩
    exact ⟨valid.shape, ⟨valid, rfl⟩, share, h, rfl⟩

theorem receiver_eq_error_of_valid {e : TreeError} (valid : config.Valid)
    (h : receiver cipher config nodes = .error e) :
    Share.ofNodes valid.shape nodes = .error e := by
  rcases except_eq_ok_or_error (Share.ofNodes valid.shape nodes) with ⟨share, made⟩ | ⟨e', made⟩
  · rw [receiver_eq_ok_iff.2 ⟨valid, share, made, rfl⟩] at h
    cases h
  · simp only [receiver, valid.shape_eq, bind, Except.bind, made] at h
    injection h with h
    rw [made, h]

theorem exists_receiver_iff :
    (∃ tree, receiver cipher config nodes = .ok tree) ↔
      ∃ valid : config.Valid, (∀ node ∈ nodes, node.position.Exists valid.shape) ∧
        ∃ interval, LeafRange.Partition (nodes.map (SeedNode.leaves valid.shape)) interval := by
  simp only [receiver_eq_ok_iff, ← Share.exists_ofNodes_iff]
  constructor
  · intro h
    rcases h with ⟨_, valid, share, h, -⟩
    exact ⟨valid, share, h⟩
  · intro h
    rcases h with ⟨valid, share, h⟩
    exact ⟨_, valid, share, h, rfl⟩

theorem receiver_perm {others : List SeedNode} (h : receiver cipher config nodes = .ok tree)
    (p : others.Perm nodes) : receiver cipher config others = .ok tree := by
  obtain ⟨valid, share, made, rfl⟩ := receiver_eq_ok_iff.1 h
  exact receiver_eq_ok_iff.2 ⟨valid, share, Share.ofNodes_perm made p, rfl⟩

/-- The interval of a receiver is what the nodes given to it partition. -/
theorem partition_of_receiver (h : receiver cipher config nodes = .ok tree) :
    LeafRange.Partition (nodes.map (SeedNode.leaves tree.shape)) tree.interval := by
  obtain ⟨valid, share, made, rfl⟩ := receiver_eq_ok_iff.1 h
  have partition := share.partition
  have nodes_eq := (Share.ofNodes_eq_ok_iff.1 made).2
  have perm := SeedNode.perm_sortByLeaf valid.shape nodes
  rw [nodes_eq] at partition
  exact partition.perm (perm.map _)

theorem perm_nodes_of_receiver (h : receiver cipher config nodes = .ok tree) :
    tree.nodes.Perm nodes := by
  obtain ⟨valid, share, made, rfl⟩ := receiver_eq_ok_iff.1 h
  have nodes_eq := (Share.ofNodes_eq_ok_iff.1 made).2
  show share.nodes.Perm nodes
  rw [nodes_eq]
  exact SeedNode.perm_sortByLeaf ..

theorem partition_nodes (tree : KeyTree) :
    LeafRange.Partition (tree.nodes.map (SeedNode.leaves tree.shape)) tree.interval :=
  tree.share.partition

theorem last_lt_leafCount (tree : KeyTree) : tree.interval.last < tree.shape.leafCount := by
  obtain ⟨part, part_mem, covers⟩ := (tree.partition_nodes.holds _).1 tree.interval.last_mem
  obtain ⟨node, mem, rfl⟩ := List.mem_map.1 part_mem
  exact Nat.lt_of_le_of_lt covers.2 (tree.share.exist node mem).last_lt

theorem pairwise_before_nodes (tree : KeyTree) :
    tree.nodes.Pairwise (SeedNode.Before tree.shape) :=
  tree.share.tiles.pairwise_before

/-- A receiver's tree is made of nodes exactly if they exist in the tree and their leaves
partition an interval. It then covers that interval and holds the nodes in the order of their
leaves, whatever order they came in. Existing nodes that are refused leave a gap or overlap just
where the error says. -/
theorem receiver_accepts_exactly_partitions (cipher : Cipher) (config : TreeConfig)
    (nodes : List SeedNode) :
    ((∃ tree, receiver cipher config nodes = .ok tree) ↔
      ∃ valid : config.Valid, nodes ≠ [] ∧
        (∀ node ∈ nodes, node.position.Exists valid.shape) ∧
        ∃ interval, LeafRange.Partition (nodes.map (SeedNode.leaves valid.shape)) interval) ∧
    (∀ tree, receiver cipher config nodes = .ok tree →
      (tree.cipher = cipher ∧ tree.isOwner = false ∧
        ∃ valid : config.Valid, tree.shape = valid.shape) ∧
      IsLeast {leaf | ∃ node ∈ nodes, (node.leaves tree.shape).first = leaf}
        tree.interval.first ∧
      IsGreatest {leaf | ∃ node ∈ nodes, (node.leaves tree.shape).last = leaf}
        tree.interval.last ∧
      tree.nodes.Perm nodes ∧
      (tree.nodes.Pairwise fun a b =>
        (a.leaves tree.shape).first < (b.leaves tree.shape).first) ∧
      ∀ others : List SeedNode, others.Perm nodes →
        receiver cipher config others = .ok tree) ∧
    (∀ e, receiver cipher config nodes = .error e → ∀ others : List SeedNode,
      others.Perm nodes → ∃ e', receiver cipher config others = .error e') ∧
    (∀ (valid : config.Valid) (e : TreeError), nodes ≠ [] →
      (∀ node ∈ nodes, node.position.Exists valid.shape) →
      receiver cipher config nodes = .error e →
      ∃ expected actual, e = .nonContiguousNodes expected actual ∧ actual ≠ expected ∧
        (expected < actual → ∀ node ∈ nodes, expected ∉ node.leaves valid.shape) ∧
        (actual < expected →
          2 ≤ nodes.countP fun node => actual ∈ node.leaves valid.shape)) := by
  refine ⟨?_, fun tree h => ?_, fun e h others p => ?_, fun valid e nonempty exist h => ?_⟩
  · rw [exists_receiver_iff]
    constructor
    · intro h
      rcases h with ⟨valid, exist, interval, partition⟩
      refine ⟨valid, ?_, exist, interval, partition⟩
      intro h
      subst h
      exact partition.ne_nil rfl
    · intro h
      rcases h with ⟨valid, -, exist, partition⟩
      exact ⟨valid, exist, partition⟩
  · have partition := partition_of_receiver h
    refine ⟨?_, ?_, ?_, perm_nodes_of_receiver h, ?_, fun others p => receiver_perm h p⟩
    · obtain ⟨valid, share, -, rfl⟩ := receiver_eq_ok_iff.1 h
      exact ⟨rfl, rfl, valid, rfl⟩
    · simpa using partition.isLeast_first
    · simpa using partition.isGreatest_last
    · refine tree.pairwise_before_nodes.imp ?_
      intro a b before
      exact Nat.lt_of_le_of_lt (a.leaves tree.shape).first_le_last before
  · rcases except_eq_ok_or_error (receiver cipher config others) with ⟨tree, made⟩ | refused
    · rw [receiver_perm made p.symm] at h
      cases h
    · exact refused
  · exact Share.ofNodes_eq_error nonempty exist (receiver_eq_error_of_valid valid h)

end KeyTree

end RangeKeys
