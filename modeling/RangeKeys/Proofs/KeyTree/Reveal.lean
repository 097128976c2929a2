import RangeKeys.Proofs.Cover.Size
import RangeKeys.Proofs.KeyTree.Genuine

/-!
# What an owner grants

The nodes revealed for a range stand at the places of its cover and are genuine, so their leaves
partition the range. No receiver of the same range can do with fewer nodes, and they are few: their
number is bounded by depth and fanout, whatever the range.
-/

namespace RangeKeys

variable {cipher : Cipher} {shape : Shape} {config : TreeConfig} {root : Key} {range : LeafRange}
  {node : SeedNode} {p : Position}

namespace KeyTree

variable {tree : KeyTree}

/-- Depth and number of a node of a tree fit their fields. -/
theorem position_nodeAt (inTree : p.Exists shape) :
    (nodeAt cipher shape root p).value.position = p := by
  have depth_eq := UInt16.toNat_ofNat_of_lt' inTree.depth_lt_size
  have number_eq := UInt64.toNat_ofNat_of_lt' inTree.number_lt_size
  simp [nodeAt, SeedNode.position, depth_eq, number_eq]

theorem genuine_nodeAt (inTree : p.Exists shape) :
    (nodeAt cipher shape root p).value.Genuine cipher shape root where
  inTree := by
    rw [position_nodeAt inTree]
    exact inTree
  seed_eq := by
    rw [position_nodeAt inTree]
    rfl

theorem map_position_coverNodes (cipher : Cipher) (root : Key)
    (fits : range.last < shape.leafCount) :
    (coverNodes cipher shape root range).value.map SeedNode.position =
      Cover.cover shape range := by
  rw [coverNodes, Metered.value_mapM, List.map_map]
  have same : ∀ p ∈ Cover.cover shape range,
      (SeedNode.position ∘ fun p => (nodeAt cipher shape root p).value) p = id p :=
    fun p mem => position_nodeAt ((Cover.mem_cover_iff fits).1 mem).inTree
  rw [List.map_congr_left same, List.map_id]

theorem genuine_of_mem_coverNodes (fits : range.last < shape.leafCount)
    (mem : node ∈ (coverNodes cipher shape root range).value) :
    node.Genuine cipher shape root := by
  rw [coverNodes, Metered.value_mapM] at mem
  obtain ⟨p, p_mem, rfl⟩ := List.mem_map.1 mem
  exact genuine_nodeAt ((Cover.mem_cover_iff fits).1 p_mem).inTree

theorem pairwise_before_coverNodes (cipher : Cipher) (root : Key)
    (fits : range.last < shape.leafCount) :
    (coverNodes cipher shape root range).value.Pairwise (SeedNode.Before shape) := by
  have ordered := Cover.pairwise_cover fits
  rw [← map_position_coverNodes cipher root fits, List.pairwise_map] at ordered
  exact ordered

theorem partition_coverNodes (fits : range.last < shape.leafCount) :
    LeafRange.Partition
      ((coverNodes cipher shape root range).value.map (SeedNode.leaves shape)) range := by
  rw [SeedNode.map_leaves, map_position_coverNodes cipher root fits]
  exact Cover.partition_cover fits

theorem coverNodes_ne_nil (cipher : Cipher) (root : Key) (fits : range.last < shape.leafCount) :
    (coverNodes cipher shape root range).value ≠ [] := fun empty =>
  (partition_coverNodes fits).ne_nil (congrArg (List.map (SeedNode.leaves shape)) empty)

/-- An owner grants every range of its leaves. -/
theorem outcome_reveal {first last : UInt64}
    (between : LeafRange.between first last = .ok range) (fits : range.last < shape.leafCount) :
    (reveal ⟨cipher, shape, .root root⟩ first last).outcome =
      .ok (coverNodes cipher shape root range).value := by
  obtain ⟨-, last_eq⟩ := LeafRange.between_eq_ok_iff.1 between
  have held : checkHeld ⟨cipher, shape, .root root⟩ last = .ok () := by
    apply checkHeld_eq_ok
    rw [mem_interval_owner, ← last_eq]
    exact fits
  simp only [reveal, Attempt.outcome_bind, Attempt.outcome_liftExcept, between, held]
  exact Attempt.outcome_liftMetered _

/-- A receiver holds at least as many nodes as the cover of its interval. -/
theorem length_cover_le_of_receiver {nodes : List SeedNode}
    (made : receiver cipher config nodes = .ok tree) :
    (Cover.cover tree.shape tree.interval).length ≤ nodes.length := by
  have partition := partition_of_receiver made
  have inTree : ∀ p ∈ nodes.map SeedNode.position, p.Exists tree.shape := by
    intro p mem
    obtain ⟨node, node_mem, rfl⟩ := List.mem_map.1 mem
    exact tree.share.exist node ((perm_nodes_of_receiver made).mem_iff.2 node_mem)
  rw [SeedNode.map_leaves] at partition
  have shortest := Cover.length_cover_le tree.last_lt_leafCount inTree partition
  rwa [List.length_map] at shortest

/-- The nodes that an owner reveals for a range are, from left to right, those at the topmost
places whose leaves all lie in the range, with the keys that stand there. Any other nodes from
which a receiver of the range can be made are at least as many. -/
theorem reveal_grants_exactly_topmost {root : List UInt8} {first last : UInt64}
    (made : owner cipher config root = .ok tree) (le : first.toNat ≤ last.toNat)
    (fits : last.toNat < config.fanout.toNat ^ config.depth.toNat) :
    ∃ granted, (tree.reveal first last).outcome = .ok granted ∧
      (granted.map SeedNode.position).Nodup ∧
      (granted.Pairwise fun a b => (a.leaves tree.shape).first < (b.leaves tree.shape).first) ∧
      (∀ p, p ∈ granted.map SeedNode.position ↔
        p.Topmost tree.shape ⟨first.toNat, last.toNat, le⟩) ∧
      SeedNode.Tiles tree.shape first.toNat granted (last.toNat + 1) ∧
      (∀ node ∈ granted,
        (cipher.descendFromBytes root (node.position.path tree.shape)).outcome =
          .ok node.seed) ∧
      ∀ nodes other, receiver cipher config nodes = .ok other →
        other.interval.first = first.toNat → other.interval.last = last.toNat →
          granted.length ≤ nodes.length := by
  obtain ⟨valid, seed, root_key, rfl⟩ := owner_eq_ok_iff.1 made
  let range : LeafRange := ⟨first.toNat, last.toNat, le⟩
  have range_fits : range.last < valid.shape.leafCount := fits
  have positions := map_position_coverNodes cipher seed range_fits
  have ordered := pairwise_before_coverNodes cipher seed range_fits
  have increasing := ordered.imp fun {a b} before =>
    Nat.lt_of_le_of_lt (a.leaves valid.shape).first_le_last before
  refine ⟨_, outcome_reveal (LeafRange.between_eq_ok_iff.2 ⟨rfl, rfl⟩) range_fits, ?_, increasing,
    ?_, ?_, ?_, ?_⟩
  · refine List.pairwise_map.2 (increasing.imp ?_)
    intro a b lt same
    simp only [SeedNode.leaves, same] at lt
    exact Nat.lt_irrefl _ lt
  · intro p
    rw [positions]
    exact Cover.mem_cover_iff range_fits
  · have sorted := increasing.imp fun {a b} lt => Nat.le_of_lt lt
    exact SeedNode.tiles_of_partition sorted (partition_coverNodes range_fits)
  · intro node mem
    rw [(genuine_of_mem_coverNodes range_fits mem).seed_eq, Cipher.descendFromBytes, root_key]
    rfl
  · intro nodes other accepted first_eq last_eq
    have shortest := length_cover_le_of_receiver accepted
    obtain ⟨valid, share, -, rfl⟩ := receiver_eq_ok_iff.1 accepted
    have interval_eq : share.interval = range := LeafRange.ext first_eq last_eq
    simp only [interval, KeyTree.share, interval_eq] at shortest
    rw [← positions, List.length_map] at shortest
    exact shortest

/-- Of eight leaves, those from the third to the sixth are granted by two pairs. -/
theorem reveal_middle_of_eight_leaves :
    ∃ tree granted, owner .aes ⟨3, 2⟩ (List.replicate 16 7) = .ok tree ∧
      (tree.reveal 2 5).outcome = .ok granted ∧
      ⟨2, 1⟩ ∈ granted.map SeedNode.position ∧ ⟨2, 2⟩ ∈ granted.map SeedNode.position := by
  have made : owner .aes ⟨3, 2⟩ (List.replicate 16 7) =
      .ok ⟨.aes, ⟨3, 2, by decide, by decide, by decide⟩, .root ⟨.replicate 16 7⟩⟩ := rfl
  obtain ⟨granted, revealed, -, -, topmost, -⟩ := reveal_grants_exactly_topmost made
    (show (2 : UInt64).toNat ≤ (5 : UInt64).toNat by decide) (by decide)
  refine ⟨_, granted, made, revealed, (topmost _).2 ?_, (topmost _).2 ?_⟩
  · exact ⟨by decide, by decide, .inr (by decide)⟩
  · exact ⟨by decide, by decide, .inr (by decide)⟩

/-- For no range does an owner reveal more nodes of one depth than two families of siblings have that
lack a member each, or more nodes in all than so many for every level below the root. The root is
revealed for the range of all leaves only, and then nothing else is. -/
theorem reveal_grants_few_nodes {root : List UInt8} {first last : UInt64}
    (made : owner cipher config root = .ok tree) (le : first.toNat ≤ last.toNat)
    (fits : last.toNat < config.fanout.toNat ^ config.depth.toNat) :
    ∃ granted, (tree.reveal first last).outcome = .ok granted ∧
      (∀ depth, (granted.countP fun node => node.depth.toNat = depth) ≤
        2 * (config.fanout.toNat - 1)) ∧
      ((∃ node ∈ granted, node.depth = 0) ↔
        first.toNat = 0 ∧ last.toNat + 1 = config.fanout.toNat ^ config.depth.toNat) ∧
      (∀ node ∈ granted, node.depth = 0 → granted = [node]) ∧
      granted.length ≤ max 1 (2 * (config.fanout.toNat - 1) * config.depth.toNat) := by
  obtain ⟨valid, seed, -, rfl⟩ := owner_eq_ok_iff.1 made
  let range : LeafRange := ⟨first.toNat, last.toNat, le⟩
  have range_fits : range.last < valid.shape.leafCount := fits
  have positions := map_position_coverNodes cipher seed range_fits
  -- a node at depth zero stands at the place of the root, which is then topmost
  have root_topmost : ∀ node ∈ (coverNodes cipher valid.shape seed range).value, node.depth = 0 →
      Position.root.Topmost valid.shape range := by
    intro node mem depth_eq
    have covers := List.mem_map_of_mem (f := SeedNode.position) mem
    rw [positions, Cover.mem_cover_iff range_fits] at covers
    exact covers.eq_root (congrArg UInt16.toNat depth_eq) ▸ covers
  refine ⟨_, outcome_reveal (LeafRange.between_eq_ok_iff.2 ⟨rfl, rfl⟩) range_fits, ?_, ⟨?_, ?_⟩,
    ?_, ?_⟩
  · intro depth
    have few := Cover.countP_level_le range_fits depth
    rw [← positions, List.countP_map] at few
    exact few
  · intro ⟨node, mem, depth_eq⟩
    exact (Position.topmost_root_iff range_fits).1 (root_topmost node mem depth_eq)
  · intro whole
    have covers := (Cover.mem_cover_iff range_fits).2
      ((Position.topmost_root_iff range_fits).2 whole)
    rw [← positions] at covers
    obtain ⟨node, mem, position_eq⟩ := List.mem_map.1 covers
    exact ⟨node, mem, UInt16.toNat_inj.1 (congrArg Position.depth position_eq)⟩
  · intro node mem depth_eq
    have alone := Cover.cover_eq_root range_fits (root_topmost node mem depth_eq)
    rw [← positions, List.map_eq_singleton_iff] at alone
    obtain ⟨other, granted_eq, -⟩ := alone
    rw [granted_eq, List.mem_singleton] at mem
    rw [granted_eq, mem]
  · have few := Cover.length_cover_le_of_levels range_fits
    rw [← positions, List.length_map] at few
    exact few

/-- Of eight leaves, all but the outer two are granted by two nodes of each of two levels. -/
theorem reveal_inner_six_of_eight_leaves :
    ∃ tree granted, owner .aes ⟨3, 2⟩ (List.replicate 16 7) = .ok tree ∧
      (tree.reveal 1 6).outcome = .ok granted ∧
      (granted.countP fun node => node.depth.toNat = 3) ≤ 2 ∧
      (∀ node ∈ granted, node.depth ≠ 0) ∧ granted.length ≤ 6 := by
  have made : owner .aes ⟨3, 2⟩ (List.replicate 16 7) =
      .ok ⟨.aes, ⟨3, 2, by decide, by decide, by decide⟩, .root ⟨.replicate 16 7⟩⟩ := rfl
  obtain ⟨granted, revealed, level, whole, -, total⟩ := reveal_grants_few_nodes made
    (show (1 : UInt64).toNat ≤ (6 : UInt64).toNat by decide) (by decide)
  refine ⟨_, granted, made, revealed, level 3, ?_, total⟩
  intro node mem depth_eq
  exact absurd (whole.1 ⟨node, mem, depth_eq⟩).1 (by decide)

end KeyTree

end RangeKeys
