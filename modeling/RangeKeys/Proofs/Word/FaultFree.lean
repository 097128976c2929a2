import RangeKeys.Proofs.Word.Construction

/-!
# No fault cuts a tree off

Owner and receiver get the stored form of a tree whatever they bring, or are refused. Every request
to what they got is answered or refused as by the tree itself, so nowhere on the way did
a result leave the words, was a divisor zero, or was a list read beyond its end.
-/

namespace RangeKeys.WordTree

open Checked Attempt

variable {cipher : Cipher} {config : TreeConfig} {stored : WordTree}

/-- The stored tree is one that an owner or a receiver made. -/
inductive Made (cipher : Cipher) (config : TreeConfig) (stored : WordTree) : Prop
  | owner (root : List UInt8) (made : ofRoot cipher config root = .ok stored)
  | receiver (nodes : List SeedNode) (made : ofNodes cipher config nodes = .ok stored)

/-- The counts of nodes and leaves around a node are exact, and so are the first and the last leaf
below it, which are leaves of the tree. -/
structure Counted (config : TreeConfig) (node : SeedNode) : Prop where
  depth_le : node.depth.toNat ≤ config.depth.toNat
  width : ∃ width, config.width node.depth = .ok width ∧
    width.toNat = config.fanout.toNat ^ node.depth.toNat
  span : ∃ span, config.span node.depth = .ok span ∧
    span.toNat = config.fanout.toNat ^ (config.depth.toNat - node.depth.toNat)
  firstLeaf : ∃ first, config.firstLeaf node = .ok first ∧ first.toNat =
    node.number.toNat * config.fanout.toNat ^ (config.depth.toNat - node.depth.toNat)
  lastLeaf : ∃ last, config.lastLeaf node = .ok last ∧ last.toNat =
    node.number.toNat * config.fanout.toNat ^ (config.depth.toNat - node.depth.toNat) +
      (config.fanout.toNat ^ (config.depth.toNat - node.depth.toNat) - 1) ∧
        last.toNat < config.fanout.toNat ^ config.depth.toNat

theorem counted_config {shape : Shape} {node : SeedNode} (inTree : node.position.Exists shape) :
    Counted shape.config node := by
  have first_le := (node.leaves shape).first_le_last
  have last_lt : (node.leaves shape).last < shape.leafCount := inTree.last_lt
  have last_lt_size := Nat.lt_trans last_lt shape.leafCount_lt
  have depth := shape.toNat_depth_config
  have fanout := shape.toNat_fanout_config
  constructor
  · rw [depth]
    exact inTree.1
  · rw [fanout]
    exact ⟨_, TreeConfig.width_eq inTree.1, toNat_of_lt (shape.descendants_lt_size inTree.1)⟩
  · rw [depth, fanout]
    exact ⟨_, TreeConfig.span_eq inTree.1, toNat_of_lt (shape.descendants_lt_size (Nat.sub_le ..))⟩
  · rw [depth, fanout]
    exact ⟨_, TreeConfig.firstLeaf_eq inTree,
      toNat_of_lt (Nat.lt_of_le_of_lt first_le last_lt_size)⟩
  · rw [depth, fanout]
    have last_eq := toNat_of_lt last_lt_size
    refine ⟨_, TreeConfig.lastLeaf_eq inTree, last_eq, ?_⟩
    rw [last_eq]
    exact last_lt

/-- What was made is the stored form of a tree. -/
theorem Made.exists_words (made : Made cipher config stored) :
    ∃ tree : KeyTree, stored = tree.words ∧ tree.words.config = config := by
  have of_lifted {x : Except TreeError KeyTree}
      (lifted : (liftM (x.map KeyTree.words) : Except Stop WordTree) = .ok stored) :
      ∃ tree, x = .ok tree ∧ stored = tree.words := by
    cases x with
    | error e => cases lifted
    | ok tree =>
      injection lifted with lifted
      exact ⟨tree, rfl, lifted.symm⟩
  cases made with
  | owner root made =>
    rw [ofRoot_eq] at made
    obtain ⟨tree, made, stored_eq⟩ := of_lifted made
    obtain ⟨valid, seed, -, rfl⟩ := KeyTree.owner_eq_ok_iff.1 made
    exact ⟨_, stored_eq, valid.config_shape⟩
  | receiver nodes made =>
    rw [ofNodes_eq] at made
    obtain ⟨tree, made, stored_eq⟩ := of_lifted made
    obtain ⟨valid, share, -, rfl⟩ := KeyTree.receiver_eq_ok_iff.1 made
    exact ⟨_, stored_eq, valid.config_shape⟩

theorem liftM_ne_fault {α : Type} (x : Except TreeError α) (fault : Fault) :
    (liftM x : Except Stop α) ≠ .error (.fault fault) := by
  intro cut
  cases x <;> cases cut

/-- Every computation on words is exact. The number of leaves is found exactly for the
configurations with a fanout from 2 to 256 whose leaves a word can count, and all others are refused
as configurations. Making a tree is not cut off, whatever the root or the nodes. In a tree that was
made the numbers of leaves below each node are exact, and every request, with whatever words, ends
in the answer or error that it has in numbers, after the same calls, and not in a fault. -/
theorem arithmetic_never_cuts_off (cipher : Cipher) (config : TreeConfig) :
    (∀ count, config.leafCount = .ok count ↔
      (2 ≤ config.fanout.toNat ∧ config.fanout.toNat ≤ 256 ∧
        config.fanout.toNat ^ config.depth.toNat ≤ 2 ^ 64 - 1) ∧
          count.toNat = config.fanout.toNat ^ config.depth.toNat) ∧
    ((∃ reason, config.leafCount = .error (.invalidConfig reason)) ↔
      ¬ (2 ≤ config.fanout.toNat ∧ config.fanout.toNat ≤ 256 ∧
        config.fanout.toNat ^ config.depth.toNat ≤ 2 ^ 64 - 1)) ∧
    (∀ root, (∀ fault, ofRoot cipher config root ≠ .error (.fault fault)) ∧
      ofRoot cipher config root =
        ((KeyTree.owner cipher config root).map KeyTree.words).mapError .refused) ∧
    (∀ nodes, (∀ fault, ofNodes cipher config nodes ≠ .error (.fault fault)) ∧
      ofNodes cipher config nodes =
        ((KeyTree.receiver cipher config nodes).map KeyTree.words).mapError .refused) ∧
    ∀ stored, Made cipher config stored →
      (∀ node ∈ stored.nodes, Counted config node) ∧
      ∃ tree : KeyTree, stored = tree.words ∧
        (∀ leaf, (stored.seed leaf).GoesAs (tree.seed leaf)) ∧
        (∀ memory first last,
          (stored.seedsIn memory first last).GoesAs (tree.seedsIn memory first last)) ∧
        (∀ first last, (stored.reveal first last).GoesAs (tree.reveal first last)) ∧
        (∀ series value time,
          (stored.encrypt series value time).GoesAs (tree.encrypt series value time)) ∧
        (∀ series masked first last,
          (stored.decrypt series masked first last).GoesAs
            (tree.decrypt series masked first last)) ∧
        (∀ values time,
          (stored.encryptBatch values time).GoesAs (tree.encryptBatch values time)) ∧
        (∀ values first last,
          (stored.decryptBatch values first last).GoesAs
            (tree.decryptBatch values first last)) := by
  have valid_iff : config.Valid ↔ 2 ≤ config.fanout.toNat ∧ config.fanout.toNat ≤ 256 ∧
      config.fanout.toNat ^ config.depth.toNat ≤ 2 ^ 64 - 1 :=
    ⟨fun valid => ⟨valid.1, valid.2, valid.3⟩, fun valid => ⟨valid.1, valid.2.1, valid.2.2⟩⟩
  have goesAs {α : Type} {x : Attempt Stop α} {y : Attempt TreeError α} (same : x = refusing y) :
      x.GoesAs y := same ▸ goesAs_refusing y
  refine ⟨fun count => ?_, ?_, fun root => ⟨fun fault => ?_, ofRoot_eq ..⟩,
    fun nodes => ⟨fun fault => ?_, ofNodes_eq ..⟩, fun stored made => ?_⟩
  · rw [TreeConfig.leafCount_eq_ok_iff, valid_iff]
  · rw [← valid_iff]
    refine ⟨fun refused valid => ?_, TreeConfig.exists_leafCount_eq_error⟩
    obtain ⟨reason, refused⟩ := refused
    rw [TreeConfig.leafCount_eq, valid.shape_eq] at refused
    cases refused
  · rw [ofRoot_eq]
    exact liftM_ne_fault _ fault
  · rw [ofNodes_eq]
    exact liftM_ne_fault _ fault
  · obtain ⟨tree, rfl, config_eq⟩ := made.exists_words
    refine ⟨fun node mem => ?_, tree, rfl, fun leaf => goesAs (tree.seed_words leaf),
      fun memory first last => goesAs (tree.seedsIn_words memory first last),
      fun first last => goesAs (tree.reveal_words first last),
      fun series value time => goesAs (tree.encrypt_words series value time),
      fun series masked first last => goesAs (tree.decrypt_words series masked first last),
      fun values time => goesAs (tree.encryptBatch_words values time),
      fun values first last => goesAs (tree.decryptBatch_words values first last)⟩
    rw [← config_eq]
    exact counted_config (tree.exists_of_mem mem)

/-- The owner of a tree with more than 2⁶³ leaves, eight levels of 255 children each. -/
theorem widest_tree_never_cuts_off :
    ∃ stored, ofRoot .aes ⟨8, 255⟩ (List.replicate 16 0) = .ok stored ∧
      stored.last = 17878103347812890624 ∧
      (∀ fault, (stored.reveal 1 17878103347812890623).outcome ≠ .error (.fault fault)) ∧
      ∀ fault, (stored.encrypt .leaf 5 0xffffffffffffffff).outcome ≠ .error (.fault fault) := by
  refine ⟨⟨.aes, ⟨8, 255⟩, [⟨⟨Vector.replicate 16 0⟩, 0, 0⟩], 0, 17878103347812890624, true⟩,
    rfl, rfl, ?_⟩
  obtain ⟨-, -, -, -, made⟩ := arithmetic_never_cuts_off .aes ⟨8, 255⟩
  obtain ⟨-, tree, -, -, -, reveal, encrypt, -⟩ := made _ (.owner (List.replicate 16 0) rfl)
  exact ⟨(reveal _ _).not_fault, (encrypt _ _ _).not_fault⟩

end RangeKeys.WordTree
