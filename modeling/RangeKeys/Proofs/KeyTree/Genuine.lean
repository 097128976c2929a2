import RangeKeys.Proofs.KeyTree.Derivation

/-!
# Trees below one root

A node is genuine for a root if its seed is the key that stands at its place below that root. All
trees of genuine nodes agree, on whatever leaves they have in common, with the tree of the
root itself.
-/

namespace RangeKeys

variable {cipher : Cipher} {shape : Shape} {config : TreeConfig} {root : Key} {leaf : Nat}
  {node : SeedNode}

/-- The key of a leaf of the tree below `root`. -/
def Cipher.leafKey (cipher : Cipher) (shape : Shape) (root : Key) (leaf : Nat) : Key :=
  (cipher.descend root (Position.root.pathTo shape leaf)).value

namespace SeedNode

/-- The node has its place in the tree below `root` and carries the key that stands there. -/
structure Genuine (cipher : Cipher) (shape : Shape) (root : Key) (node : SeedNode) : Prop where
  inTree : node.position.Exists shape
  seed_eq : node.seed = (cipher.descend root (node.position.path shape)).value

theorem genuine_root (cipher : Cipher) (shape : Shape) (root : Key) :
    Genuine cipher shape root ⟨root, 0, 0⟩ where
  inTree := Position.exists_root
  seed_eq := rfl

theorem Genuine.value_descend (h : node.Genuine cipher shape root)
    (covers : leaf ∈ node.leaves shape) :
    (cipher.descend node.seed (node.position.pathTo shape leaf)).value =
      cipher.leafKey shape root leaf := by
  rw [h.seed_eq, ← Cipher.value_descend_append, Position.path_append_pathTo h.inTree.1 covers,
    Cipher.leafKey]

end SeedNode

namespace KeyTree

variable {tree : KeyTree} {nodes : List SeedNode}

/-- All nodes that are held are genuine. -/
def FromRoot (tree : KeyTree) (root : Key) : Prop :=
  ∀ node ∈ tree.nodes, node.Genuine tree.cipher tree.shape root

theorem fromRoot_owner (cipher : Cipher) (shape : Shape) (root : Key) :
    FromRoot ⟨cipher, shape, .root root⟩ root := by
  intro node mem
  obtain rfl := List.mem_singleton.1 mem
  exact SeedNode.genuine_root cipher shape root

theorem fromRoot_receiver (made : receiver cipher config nodes = .ok tree)
    (genuine : ∀ node ∈ nodes, node.Genuine cipher tree.shape root) : tree.FromRoot root := by
  intro node mem
  have mem_given := (perm_nodes_of_receiver made).mem_iff.1 mem
  have cipher_eq : tree.cipher = cipher := by
    obtain ⟨valid, share, -, rfl⟩ := receiver_eq_ok_iff.1 made
    rfl
  rw [cipher_eq]
  exact genuine node mem_given

theorem FromRoot.outcome_seed {leaf : UInt64} (h : tree.FromRoot root)
    (mem : leaf.toNat ∈ tree.interval) :
    (tree.seed leaf).outcome = .ok (tree.cipher.leafKey tree.shape root leaf.toNat) := by
  obtain ⟨range, range_mem, covers⟩ := (tree.partition_nodes.holds _).1 mem
  obtain ⟨node, node_mem, rfl⟩ := List.mem_map.1 range_mem
  rw [outcome_seed_of_mem node_mem covers, (h node node_mem).value_descend covers]

theorem FromRoot.outcome_seeds {first last : UInt64} {range : LeafRange} (h : tree.FromRoot root)
    (between : LeafRange.between first last = .ok range) (within : range.Within tree.interval) :
    (tree.seeds first last).outcome =
      if maxKeyCount < range.count then
        .error (.rangeTooLarge range.first range.last)
      else
        .ok (range.toList.map (tree.cipher.leafKey tree.shape root)) := by
  have keys := value_expand within (tree.cipher.leafKey tree.shape root)
    fun node mem leaf covers => ((h node mem).value_descend covers).symm
  rw [KeyTree.outcome_seeds between within, keys]

/-! ## Agreement with the owner -/

theorem mem_interval_owner (cipher : Cipher) (shape : Shape) (root : Key) :
    leaf ∈ interval ⟨cipher, shape, .root root⟩ ↔ leaf < shape.leafCount :=
  Position.mem_root_leaves_iff

theorem within_owner (tree : KeyTree) (root : Key) :
    tree.interval.Within (interval ⟨tree.cipher, tree.shape, .root root⟩) := by
  refine LeafRange.within_iff.2 fun leaf mem => ?_
  rw [mem_interval_owner]
  exact Nat.lt_of_le_of_lt mem.2 tree.last_lt_leafCount

theorem FromRoot.seed_agrees {leaf : UInt64} (h : tree.FromRoot root)
    (mem : leaf.toNat ∈ tree.interval) :
    ∃ key, (tree.seed leaf).outcome = .ok key ∧
      (seed ⟨tree.cipher, tree.shape, .root root⟩ leaf).outcome = .ok key := by
  have owner_genuine := fromRoot_owner tree.cipher tree.shape root
  have owned := LeafRange.within_iff.1 (tree.within_owner root) _ mem
  exact ⟨_, h.outcome_seed mem, owner_genuine.outcome_seed owned⟩

theorem FromRoot.seeds_agree {first last : UInt64} {range : LeafRange} (h : tree.FromRoot root)
    (between : LeafRange.between first last = .ok range) (within : range.Within tree.interval) :
    (tree.seeds first last).outcome =
      (seeds ⟨tree.cipher, tree.shape, .root root⟩ first last).outcome := by
  have owner_genuine := fromRoot_owner tree.cipher tree.shape root
  have owned := within.trans (tree.within_owner root)
  rw [h.outcome_seeds between within, owner_genuine.outcome_seeds between owned]

end KeyTree

end RangeKeys
