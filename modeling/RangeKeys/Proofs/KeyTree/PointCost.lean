import RangeKeys.Proofs.KeyTree.RangeCost
import RangeKeys.Proofs.KeyTree.Reveal
import RangeKeys.Proofs.Metered.Cost

/-!
# What single keys and grants cost

The key of a leaf costs one call for each level between the leaf and the node held that covers it,
and nothing if no node does. Every node that an owner grants is derived from the root anew, so a
grant costs as many calls as its nodes are deep.
-/

namespace RangeKeys

open Attempt (Costs)

namespace KeyTree

variable {tree : KeyTree} {leaf : UInt64}

/-- The levels between the leaf and the node held that covers it; none if there is no such node. -/
def levelsTo (tree : KeyTree) (leaf : Nat) : Nat :=
  match tree.nodes.find? fun node => leaf ∈ node.leaves tree.shape with
  | some node => tree.shape.depth - node.depth.toNat
  | none => 0

theorem levelsTo_eq {leaf : Nat} {node : SeedNode} (mem : node ∈ tree.nodes)
    (covers : leaf ∈ node.leaves tree.shape) :
    tree.levelsTo leaf = tree.shape.depth - node.depth.toNat := by
  have found : (tree.nodes.find? fun node => leaf ∈ node.leaves tree.shape).isSome :=
    List.find?_isSome.2 ⟨node, mem, decide_eq_true covers⟩
  obtain ⟨first, first_eq⟩ := Option.isSome_iff_exists.1 found
  have first_covers : leaf ∈ first.leaves tree.shape := by
    simpa using List.find?_some first_eq
  have same := tree.share.eq_of_mem_leaves mem (List.mem_of_find?_eq_some first_eq) covers
    first_covers
  rw [levelsTo, first_eq, same]

theorem levelsTo_of_not_mem {leaf : Nat} (outside : leaf ∉ tree.interval) :
    tree.levelsTo leaf = 0 := by
  have none : (tree.nodes.find? fun node => leaf ∈ node.leaves tree.shape) = none := by
    refine List.find?_eq_none.2 fun node mem covers => outside ?_
    exact tree.share.mem_interval_of_mem mem (of_decide_eq_true covers)
  rw [levelsTo, none]

/-- The root covers every leaf. -/
theorem levelsTo_owner (cipher : Cipher) (shape : Shape) (root : Key) {leaf : Nat}
    (lt : leaf < shape.leafCount) : levelsTo ⟨cipher, shape, .root root⟩ leaf = shape.depth := by
  have mem : ⟨root, 0, 0⟩ ∈ nodes ⟨cipher, shape, .root root⟩ := List.mem_cons_self
  rw [levelsTo_eq mem (Position.mem_root_leaves_iff.2 lt)]
  rfl

/-- A key costs the way down to its leaf, and what is refused costs nothing. -/
theorem calls_seed (tree : KeyTree) (leaf : UInt64) :
    (tree.seed leaf).calls = .ofEncryptions (tree.levelsTo leaf.toNat) := by
  by_cases held : leaf.toNat ∈ tree.interval
  · obtain ⟨range, range_mem, covers⟩ := (tree.partition_nodes.holds _).1 held
    obtain ⟨node, mem, rfl⟩ := List.mem_map.1 range_mem
    rw [calls_seed_of_mem mem covers, levelsTo_eq mem covers]
  · rw [seed, checkHeld_eq_error held, levelsTo_of_not_mem held]
    rfl

theorem costs_seed (tree : KeyTree) (leaf : UInt64) :
    Costs (tree.seed leaf) (fun _ => tree.levelsTo leaf.toNat) 0 := by
  refine ⟨fun _ _ => tree.calls_seed leaf, fun e failed => ?_⟩
  rw [calls_seed, levelsTo_of_not_mem]
  intro held
  obtain ⟨key, derived⟩ := exists_key_of_mem held
  rw [derived] at failed
  cases failed

/-- Each node of a cover is reached by one call for each level above it. -/
theorem calls_coverNodes (cipher : Cipher) {shape : Shape} (root : Key) {range : LeafRange}
    (fits : range.last < shape.leafCount) :
    (coverNodes cipher shape root range).calls =
      .ofEncryptions ((coverNodes cipher shape root range).value.map fun node =>
        node.depth.toNat).sum := by
  have each : ∀ p ∈ Cover.cover shape range,
      (nodeAt cipher shape root p).calls = .ofEncryptions p.depth := by
    intro p _
    have way := cipher.calls_descend root (p.path shape)
    rw [Position.path, List.length_map, length_digits] at way
    simp only [nodeAt, Metered.calls_bind, Metered.calls_pure, Calls.add_none]
    exact way
  rw [coverNodes, Metered.calls_mapM each, ← coverNodes, ← map_position_coverNodes cipher root fits,
    List.map_map]
  rfl

theorem costs_reveal (tree : KeyTree) (first last : UInt64) :
    Costs (tree.reveal first last) (fun granted => (granted.map fun node => node.depth.toNat).sum)
      0 := by
  obtain ⟨cipher, shape, holdings⟩ := tree
  cases holdings with
  | granted share => exact .throw _
  | root top =>
    refine .bind_check fun range between => .bind_check fun _ held => ?_
    obtain ⟨-, last_eq⟩ := LeafRange.between_eq_ok_iff.1 between
    have fits : range.last < shape.leafCount := by
      by_contra past
      rw [last_eq, ← mem_interval_owner cipher shape top] at past
      rw [checkHeld_eq_error past] at held
      cases held
    refine ⟨fun granted given => ?_, nofun⟩
    obtain rfl : (coverNodes cipher shape top range).value = granted := Except.ok.inj given
    exact (Attempt.calls_liftMetered _).trans (calls_coverNodes cipher top fits)

end KeyTree

end RangeKeys
