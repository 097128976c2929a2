import RangeKeys.Proofs.Derivation.Steps
import RangeKeys.Proofs.KeyTree.Genuine

/-!
# What a tree answers for its leaves

Whatever nodes a tree was made of, the key of a leaf is had exactly if the leaf lies in the interval
of the tree. One node covers it then, and the key is found below that node at the digits of the
distance from the first leaf there. Asking for the keys of a range, if there is memory for them,
gives the same keys in the order of their leaves.
-/

namespace RangeKeys.KeyTree

variable {tree : KeyTree}

/-! ## One leaf -/

/-- The key of a leaf that is held comes from the node where a search by halving ends. -/
theorem exists_outcome_seed {leaf : UInt64} (held : leaf.toNat ∈ tree.interval) :
    ∃ before node after, tree.nodes = before ++ node :: after ∧
      (∀ other ∈ before, (other.leaves tree.shape).last < leaf.toNat) ∧
      leaf.toNat ∈ node.leaves tree.shape ∧
      (∀ other ∈ after, leaf.toNat < (other.leaves tree.shape).first) ∧
      (tree.seed leaf).outcome =
        .ok (tree.cipher.descend node.seed
          (node.position.pathTo tree.shape leaf.toNat)).value := by
  obtain ⟨before, node, after, nodes_eq, left, covers, right⟩ := tree.share.exists_split held
  have mem : node ∈ tree.nodes := by
    rw [nodes, nodes_eq]
    exact List.mem_append_right _ List.mem_cons_self
  exact ⟨before, node, after, nodes_eq, left, covers, right, outcome_seed_of_mem mem covers⟩

theorem exists_key_of_mem {leaf : UInt64} (held : leaf.toNat ∈ tree.interval) :
    ∃ key, (tree.seed leaf).outcome = .ok key := by
  obtain ⟨_, _, _, -, -, -, -, derived⟩ := exists_outcome_seed held
  exact ⟨_, derived⟩

/-- The key of a leaf in the tree of an owner stands at the digits of the leaf below the root. -/
theorem outcome_seed_owner {cipher : Cipher} {config : TreeConfig} {root : List UInt8}
    {leaf : UInt64} {key : Key} (made : owner cipher config root = .ok tree)
    (derived : (tree.seed leaf).outcome = .ok key) :
    (cipher.descendFromBytes root
      ((digits tree.shape.fanout tree.shape.depth leaf.toNat).map UInt32.ofNat)).outcome =
        .ok key := by
  obtain ⟨valid, top, root_key, rfl⟩ := owner_eq_ok_iff.1 made
  by_cases held : leaf.toNat ∈ interval ⟨cipher, valid.shape, .root top⟩
  · rw [(fromRoot_owner cipher valid.shape top).outcome_seed held] at derived
    injection derived with key_eq
    rw [← Key.ofBytes_eq_ok_iff.1 root_key, Cipher.outcome_descendFromBytes, ← key_eq]
    rfl
  · rw [outcome_seed_of_not_mem held] at derived
    cases derived

/-- A leaf has a key exactly in the interval of the tree. The nodes that end before the leaf come
first, those that begin after it last, and the key is found below the one node between them that
covers the leaf, at the digits of the distance from its first leaf. They are branches that single
steps accept, so the key is reached by single steps as well. For an owner it stands at the digits
of the leaf below the root. -/
theorem seed_descends_from_covering_node (tree : KeyTree) (leaf : UInt64) :
    ((∃ key, (tree.seed leaf).outcome = .ok key) ↔
      tree.interval.first ≤ leaf.toNat ∧ leaf.toNat ≤ tree.interval.last) ∧
    (¬ (tree.interval.first ≤ leaf.toNat ∧ leaf.toNat ≤ tree.interval.last) →
      (tree.seed leaf).outcome =
        .error (.keyOutOfRange leaf.toNat tree.interval.first tree.interval.last)) ∧
    ∀ key, (tree.seed leaf).outcome = .ok key →
      ∃ before node after, tree.nodes = before ++ node :: after ∧
        (∀ other ∈ before, (other.leaves tree.shape).last < leaf.toNat) ∧
        leaf.toNat ∈ node.leaves tree.shape ∧
        (∀ other ∈ after, leaf.toNat < (other.leaves tree.shape).first) ∧
        let path := (digits tree.shape.fanout (tree.shape.depth - node.depth.toNat)
          (leaf.toNat - (node.leaves tree.shape).first)).map UInt32.ofNat
        (tree.cipher.descendFromBytes node.seed.bytes.toList path).outcome = .ok key ∧
        (∀ branch ∈ path, branch.toNat ≤ 255) ∧
        (path.foldlM (fun key branch => tree.cipher.childOfBytes key.bytes.toList branch)
          node.seed).outcome = .ok key ∧
        ∀ config root, owner tree.cipher config root = .ok tree →
          (tree.cipher.descendFromBytes root
            ((digits tree.shape.fanout tree.shape.depth leaf.toNat).map UInt32.ofNat)).outcome =
              .ok key := by
  refine ⟨⟨?_, ?_⟩, ?_, ?_⟩
  · intro ⟨key, derived⟩
    by_contra outside
    rw [outcome_seed_of_not_mem outside] at derived
    cases derived
  · intro held
    obtain ⟨_, _, _, -, -, -, -, derived⟩ := exists_outcome_seed held
    exact ⟨_, derived⟩
  · intro outside
    exact outcome_seed_of_not_mem outside
  · intro key derived
    by_cases held : leaf.toNat ∈ tree.interval
    · obtain ⟨before, node, after, nodes_eq, left, covers, right, found⟩ :=
        exists_outcome_seed held
      have steps : ∀ branch ∈ node.position.pathTo tree.shape leaf.toNat, branch.toNat ≤ 255 :=
        fun branch mem => Position.toNat_le_of_mem_pathTo mem
      rw [derived, Except.ok.injEq, Position.pathTo_eq_digits_sub covers] at found
      rw [Position.pathTo_eq_digits_sub covers] at steps
      refine ⟨before, node, after, nodes_eq, left, covers, right, ?_, steps, ?_, ?_⟩
      · rw [found]
        exact tree.cipher.outcome_descendFromBytes ..
      · rw [found]
        exact tree.cipher.outcome_steps node.seed steps
      · intro config root made
        exact outcome_seed_owner made derived
    · rw [outcome_seed_of_not_mem held] at derived
      cases derived

/-! ## A range of leaves -/

section Ranges

variable {memory : Memory} {first last : UInt64}

theorem outcome_seedsIn_of_lt (lt : last.toNat < first.toNat) :
    (tree.seedsIn memory first last).outcome =
      .error (.invalidRange first.toNat last.toNat) := by
  rw [seedsIn, Attempt.outcome_bind, Attempt.outcome_liftExcept, LeafRange.between_of_lt lt,
    except_error_bind]

theorem outcome_seedsIn_of_first_not_mem (le : first.toNat ≤ last.toNat)
    (outside : first.toNat ∉ tree.interval) :
    (tree.seedsIn memory first last).outcome = .error (tree.outOfRange first) := by
  simp only [seedsIn, Attempt.outcome_bind, Attempt.outcome_liftExcept,
    LeafRange.between_of_le le, checkHeld_eq_error outside, except_ok_bind, except_error_bind]

theorem outcome_seedsIn_of_last_not_mem (le : first.toNat ≤ last.toNat)
    (held : first.toNat ∈ tree.interval) (outside : last.toNat ∉ tree.interval) :
    (tree.seedsIn memory first last).outcome = .error (tree.outOfRange last) := by
  simp only [seedsIn, Attempt.outcome_bind, Attempt.outcome_liftExcept,
    LeafRange.between_of_le le, checkHeld_eq_ok held, checkHeld_eq_error outside, except_ok_bind,
    except_error_bind]

/-- The keys of a range are what is answered for its leaves one by one. -/
theorem map_outcome_seed {range : LeafRange} (within : range.Within tree.interval) :
    (range.toList.map fun leaf => (tree.seed (.ofNat leaf)).outcome) =
      (tree.expand range).value.map .ok := by
  refine (map_value_expand within Except.ok _ ?_).symm
  intro node mem leaf covers
  have leaf_eq := toNat_ofNat_of_mem (tree.share.mem_interval_of_mem mem covers)
  have covers' : (UInt64.ofNat leaf).toNat ∈ node.leaves tree.shape := by
    rw [leaf_eq]
    exact covers
  rw [outcome_seed_of_mem mem covers', leaf_eq]

end Ranges

/-- The keys of a range are refused if it ends before it begins, if its first or else its last leaf
is not held, or if there is no room for them. Else they are the keys that are had for its leaves
one by one, in order. There is never room for 2⁵⁹ keys. -/
theorem seedsIn_lists_every_seed (tree : KeyTree) (memory : Memory) (first last : UInt64) :
    (last.toNat < first.toNat →
      (tree.seedsIn memory first last).outcome =
        .error (.invalidRange first.toNat last.toNat)) ∧
    (first.toNat ≤ last.toNat → first.toNat ∉ tree.interval →
      (tree.seedsIn memory first last).outcome =
        .error (.keyOutOfRange first.toNat tree.interval.first tree.interval.last)) ∧
    (first.toNat ≤ last.toNat → first.toNat ∈ tree.interval → last.toNat ∉ tree.interval →
      (tree.seedsIn memory first last).outcome =
        .error (.keyOutOfRange last.toNat tree.interval.first tree.interval.last)) ∧
    (first.toNat ≤ last.toNat → first.toNat ∈ tree.interval → last.toNat ∈ tree.interval →
      let count := last.toNat - first.toNat + 1
      (2 ^ 59 ≤ count → memory.hasRoom count = false) ∧
      (memory.hasRoom count = false →
        (tree.seedsIn memory first last).outcome =
          .error (.rangeTooLarge first.toNat last.toNat)) ∧
      (memory.hasRoom count = true →
        ∃ keys, (tree.seedsIn memory first last).outcome = .ok keys ∧ keys.length = count ∧
          (List.range' first.toNat count).map (fun leaf => (tree.seed (.ofNat leaf)).outcome) =
            keys.map .ok)) := by
  refine ⟨outcome_seedsIn_of_lt, outcome_seedsIn_of_first_not_mem,
    outcome_seedsIn_of_last_not_mem, ?_⟩
  intro le first_held last_held count
  let range : LeafRange := ⟨first.toNat, last.toNat, le⟩
  have within : range.Within tree.interval := ⟨first_held.1, last_held.2⟩
  have answer : (tree.seedsIn memory first last).outcome = _ :=
    outcome_seedsIn (LeafRange.between_of_le le) within
  refine ⟨Memory.hasRoom_eq_false, ?_, ?_⟩
  · intro full
    exact answer.trans (if_neg (Bool.eq_false_iff.1 full))
  · intro room
    have listed := map_outcome_seed within
    refine ⟨_, answer.trans (if_pos room), ?_, listed⟩
    have lengths := congrArg List.length listed
    rw [List.length_map, List.length_map, LeafRange.toList, List.length_range'] at lengths
    exact lengths.symm

end RangeKeys.KeyTree
