import RangeKeys.Proofs.KeyTree.Derivation
import RangeKeys.Proofs.Word.Climb
import RangeKeys.Proofs.Word.Refusing

/-!
# Trees in words do what trees in numbers do

The stored form of a tree answers every request as the tree itself does, after the same calls of the
cipher, and is refused with the same errors. What keeps the computation from being cut off are
the bounds of the interval, the existence of the nodes held and, in an expansion, that no level of
keys is empty.
-/

namespace RangeKeys.KeyTree

open Checked Attempt

variable (tree : KeyTree)

/-! ## Bounds -/

theorem toNat_first_words : tree.words.first.toNat = tree.interval.first :=
  toNat_ofNat_of_mem ⟨Nat.le_refl _, tree.interval.first_le_last⟩

theorem toNat_last_words : tree.words.last.toNat = tree.interval.last :=
  toNat_ofNat_of_mem ⟨tree.interval.first_le_last, Nat.le_refl _⟩

theorem outOfRange_words (leaf : UInt64) : tree.words.outOfRange leaf = tree.outOfRange leaf := by
  rw [WordTree.outOfRange, toNat_first_words, toNat_last_words, outOfRange]

theorem checkHeld_words (leaf : UInt64) : tree.words.checkHeld leaf = tree.checkHeld leaf := by
  have held_iff : ¬ (leaf < tree.words.first ∨ tree.words.last < leaf) ↔
      leaf.toNat ∈ tree.interval := by
    rw [UInt64.lt_iff_toNat_lt, UInt64.lt_iff_toNat_lt, toNat_first_words, toNat_last_words,
      LeafRange.mem_def]
    omega
  by_cases held : leaf.toNat ∈ tree.interval
  · rw [checkHeld_eq_ok held, WordTree.checkHeld, if_neg (held_iff.2 held)]
  · rw [checkHeld_eq_error held, WordTree.checkHeld, if_pos (not_not.1 (mt held_iff.1 held)),
      outOfRange_words]

/-- What is done in words when the bounds are in order is done with the range in numbers, and
otherwise both are refused. -/
theorem between_words {α : Type} {first last : UInt64} {x : Attempt Stop α}
    {f : LeafRange → Attempt Stop α} (inside : ∀ le, x = f ⟨first.toNat, last.toNat, le⟩) :
    (if last < first then throw (.refused (.invalidRange first.toNat last.toNat)) else x) =
      (liftM (LeafRange.between first last) >>= f) := by
  by_cases lt : last.toNat < first.toNat
  · rw [if_pos (UInt64.lt_iff_toNat_lt.2 lt), LeafRange.between_of_lt lt]
    rfl
  · have le := Nat.le_of_not_lt lt
    rw [if_neg (mt UInt64.lt_iff_toNat_lt.1 lt), LeafRange.between_of_le le, liftExcept_ok_bind]
    exact inside le

theorem exists_of_mem {node : SeedNode} (mem : node ∈ tree.nodes) :
    node.position.Exists tree.shape :=
  tree.share.exist node mem

/-! ## One leaf key -/

theorem coveringNode_words (leaf : UInt64) :
    tree.words.coveringNode leaf =
      match tree.share.covering? leaf.toNat with
      | some node => pure node
      | none => throw (.refused (tree.outOfRange leaf)) := by
  have place : partitionPointM (m := Checked)
      (fun node => return decide ((← tree.words.config.lastLeaf node) < leaf)) tree.words.nodes =
        .ok (partitionPoint (fun node => (node.leaves tree.shape).last < leaf.toNat)
          tree.share.nodes) := by
    refine partitionPointM_eq_pure fun node mem => ?_
    have inTree := tree.exists_of_mem mem
    have last_lt : (node.leaves tree.shape).last < UInt64.size :=
      Nat.lt_trans inTree.last_lt tree.shape.leafCount_lt
    have test : (UInt64.ofNat (node.leaves tree.shape).last < leaf) ↔
        (node.leaves tree.shape).last < leaf.toNat := by
      rw [UInt64.lt_iff_toNat_lt, toNat_of_lt last_lt]
    have ends : tree.words.config.lastLeaf node = _ := TreeConfig.lastLeaf_eq inTree
    rw [ends, except_ok_bind, decide_eq_decide.2 test]
  rw [WordTree.coveringNode, outOfRange_words]
  simp only [place, liftChecked_ok_bind]
  rfl

/-- The path from a node held to a leaf is found in words. -/
theorem exists_path_words {node : SeedNode} (mem : node ∈ tree.nodes) :
    ∃ levels, sub tree.words.config.depth node.depth = .ok levels ∧
      ∀ leaf, tree.words.config.baseDigits leaf levels =
        .ok (node.position.pathTo tree.shape leaf.toNat) := by
  obtain ⟨levels, subtracted, levels_eq⟩ := TreeConfig.sub_depth_config (tree.exists_of_mem mem).1
  refine ⟨levels, subtracted, fun leaf => ?_⟩
  rw [Position.pathTo, SeedNode.position, ← levels_eq]
  exact TreeConfig.baseDigits_eq ..

/-- The stored form derives the same key of a leaf. -/
theorem seed_words (leaf : UInt64) : tree.words.seed leaf = refusing (tree.seed leaf) := by
  rw [WordTree.seed, seed, refusing_bind, refusing_liftExcept, checkHeld_words]
  refine congrArg _ (funext fun _ => ?_)
  rw [coveringNode_words]
  cases found : tree.share.covering? leaf.toNat with
  | none => rfl
  | some node =>
    obtain ⟨levels, subtracted, path⟩ := tree.exists_path_words (List.mem_of_getElem? found)
    rw [pure_bind, subtracted, liftChecked_ok_bind, path, liftChecked_ok_bind,
      refusing_liftMetered]
    rfl

/-! ## The keys of a range -/

theorem sub_fanout_words :
    sub tree.words.config.fanout 1 = .ok (tree.words.config.fanout - 1) ∧
      (tree.words.config.fanout - 1).toNat = tree.shape.fanout - 1 := by
  have one_le : 1 ≤ tree.words.config.fanout := by
    rw [UInt32.le_iff_toNat_le]
    exact Nat.le_of_lt (tree.shape.toNat_fanout_config ▸ tree.shape.two_le_fanout)
  refine ⟨sub_eq_ok one_le, ?_⟩
  rw [UInt32.toNat_sub_of_le _ _ one_le]
  exact congrArg (· - 1) tree.shape.toNat_fanout_config

theorem childrenAt_words_last (first last : UInt32) (seed : Key) (place : Nat) :
    tree.words.childrenAt first last place (seed, place) =
      liftM (tree.cipher.childRun seed (if place = 0 then first else 0).toNat last.toNat) := by
  rw [WordTree.childrenAt, if_pos rfl, pure_bind]
  rfl

theorem childrenAt_words_inner (first last : UInt32) (seed : Key) {place final : Nat}
    (ne : place ≠ final) :
    tree.words.childrenAt first last final (seed, place) =
      liftM (tree.cipher.childRun seed (if place = 0 then first else 0).toNat
        (tree.shape.fanout - 1)) := by
  obtain ⟨subtracted, greatest⟩ := tree.sub_fanout_words
  rw [WordTree.childrenAt, if_neg ne, subtracted, liftChecked_ok_bind, ← greatest]
  rfl

/-- The children of a level that is not empty, with `place` keys to the left of it. -/
theorem mapM_childrenAt_words (first last : UInt32) {level : List Key} (place : Nat)
    (nonempty : level ≠ []) :
    List.flatten <$> (level.zipIdx place).mapM
        (tree.words.childrenAt first last (place + (level.length - 1))) =
      liftM (tree.cipher.nextLevel tree.shape.fanout last.toNat
        (if place = 0 then first else 0).toNat level) := by
  induction level generalizing place with
  | nil => exact absurd rfl nonempty
  | cons seed level ih =>
    cases level with
    | nil =>
      have only : place + ([seed].length - 1) = place := rfl
      rw [only, List.zipIdx_singleton, List.mapM_cons, childrenAt_words_last, Cipher.nextLevel]
      simp
    | cons next level =>
      have inner : place ≠ place + ((seed :: next :: level).length - 1) := by
        rw [List.length_cons, List.length_cons]
        omega
      have final_eq : place + ((seed :: next :: level).length - 1) =
          place + 1 + ((next :: level).length - 1) := by
        rw [List.length_cons, List.length_cons]
        omega
      have rest := ih (place + 1) (List.cons_ne_nil next level)
      rw [if_neg (Nat.succ_ne_zero place), ← final_eq] at rest
      rw [List.zipIdx_cons, flatten_mapM_cons, rest,
        tree.childrenAt_words_inner first last seed inner]
      show _ = liftM (_ >>= fun children => _ >>= fun keys => pure (children ++ keys))
      rw [liftMetered_bind]
      refine congrArg _ (funext fun children => ?_)
      rw [liftMetered_bind]
      rfl

/-- The next level of a level that is not empty. -/
theorem nextLevel_words (first last : UInt32) {level : List Key} (nonempty : level ≠ []) :
    tree.words.nextLevel first last level =
      liftM (tree.cipher.nextLevel tree.shape.fanout last.toNat first.toNat level) := by
  have final : sub level.length 1 = .ok (level.length - 1) :=
    sub_eq_ok (List.length_pos_of_ne_nil nonempty)
  have children := tree.mapM_childrenAt_words first last 0 nonempty
  rw [if_pos rfl, Nat.zero_add] at children
  rw [WordTree.nextLevel, final, liftChecked_ok_bind, ← children, map_eq_pure_bind]

/-- From level to level the keys are those above the leaves from `first` to `last`, so there is
always one. -/
theorem expandLevels_words (seed : Key) {first last : Nat} (le : first ≤ last)
    (levels done : Nat) :
    let branches := digits tree.shape.fanout levels
    let level := (List.range' (first / tree.shape.fanout.pow levels)
      (last / tree.shape.fanout.pow levels - first / tree.shape.fanout.pow levels + 1)).map
        (tree.cipher.keyBelow tree.shape.fanout seed done)
    tree.words.expandLevels
        (((branches first).map UInt32.ofNat).zip ((branches last).map UInt32.ofNat)) level =
      liftM (tree.cipher.expand tree.shape.fanout ((branches first).zip (branches last)) level) := by
  intro branches level
  have pos := tree.shape.fanout_pos
  induction levels generalizing done with
  | zero => rfl
  | succ levels ih =>
    have small (leaf : Nat) : (UInt32.ofNat (leaf / tree.shape.fanout.pow levels %
        tree.shape.fanout)).toNat = leaf / tree.shape.fanout.pow levels % tree.shape.fanout :=
      UInt32.toNat_ofNat_of_lt' (Nat.lt_trans (Nat.mod_lt _ pos)
        (Nat.lt_of_le_of_lt tree.shape.fanout_le_max (by decide)))
    have nonempty : level ≠ [] := by simp [level]
    have next := tree.nextLevel_words (UInt32.ofNat (first / tree.shape.fanout.pow levels %
      tree.shape.fanout)) (UInt32.ofNat (last / tree.shape.fanout.pow levels %
        tree.shape.fanout)) nonempty
    rw [small, small] at next
    show (tree.words.nextLevel _ _ level >>= tree.words.expandLevels _) = liftM (_ >>= _)
    rw [next, liftMetered_bind]
    refine liftMetered_bind_congr ?_
    rw [Cipher.value_nextLevel_digits tree.cipher seed pos le]
    exact ih (done + 1)

/-- The part of a range below a node held is expanded in words, and nothing is if there is none. -/
theorem expandNode_words {first last : UInt64} {range : LeafRange} {node : SeedNode}
    (first_eq : first.toNat = range.first) (last_eq : last.toNat = range.last)
    (mem : node ∈ tree.nodes) :
    tree.words.expandNode first last node =
      liftM (if (node.leaves tree.shape).Meets range then tree.expandNode range node
        else pure []) := by
  have inTree := tree.exists_of_mem mem
  have first_le := (node.leaves tree.shape).first_le_last
  have last_lt : (node.leaves tree.shape).last < UInt64.size :=
    Nat.lt_trans inTree.last_lt tree.shape.leafCount_lt
  have exact_first := toNat_of_lt (Nat.lt_of_le_of_lt first_le last_lt)
  have exact_last := toNat_of_lt last_lt
  have firstLeaf : tree.words.config.firstLeaf node = _ := TreeConfig.firstLeaf_eq inTree
  have lastLeaf : tree.words.config.lastLeaf node = _ := TreeConfig.lastLeaf_eq inTree
  have missed_iff : (UInt64.ofNat (node.leaves tree.shape).last < first ∨
      last < UInt64.ofNat (node.leaves tree.shape).first) ↔
        ¬ (node.leaves tree.shape).Meets range := by
    rw [UInt64.lt_iff_toNat_lt, UInt64.lt_iff_toNat_lt, exact_first, exact_last, first_eq, last_eq,
      LeafRange.Meets]
    omega
  rw [WordTree.expandNode, firstLeaf, liftChecked_ok_bind, lastLeaf, liftChecked_ok_bind]
  by_cases meets : (node.leaves tree.shape).Meets range
  · obtain ⟨levels, subtracted, path⟩ := tree.exists_path_words mem
    have within := LeafRange.common_within meets
    -- The node itself is the only key above the part, all levels up.
    have expanded := tree.expandLevels_words node.seed (LeafRange.common meets).first_le_last
      (tree.shape.depth - node.depth.toNat) 0
    have first_number : (LeafRange.common meets).first /
        tree.shape.fanout.pow (tree.shape.depth - node.depth.toNat) = node.number.toNat :=
      Position.mem_leaves_iff.1 within.first_mem
    have last_number : (LeafRange.common meets).last /
        tree.shape.fanout.pow (tree.shape.depth - node.depth.toNat) = node.number.toNat :=
      Position.mem_leaves_iff.1 within.last_mem
    rw [first_number, last_number, Nat.sub_self] at expanded
    rw [if_neg (not_not.2 meets ∘ missed_iff.1), if_pos meets, subtracted, liftChecked_ok_bind,
      path, liftChecked_ok_bind, path, liftChecked_ok_bind, toNat_max, toNat_min, exact_first,
      exact_last, first_eq, last_eq]
    exact expanded
  · rw [if_pos (missed_iff.2 meets), if_neg meets]
    rfl

/-- Items that are passed over contribute nothing. -/
theorem flatten_mapM_ite {α : Type} (wanted : α → Prop) [DecidablePred wanted]
    (keys : α → Metered (List Key)) (items : List α) :
    List.flatten <$> items.mapM (fun item => if wanted item then keys item else pure []) =
      List.flatten <$> (items.filter fun item => wanted item).mapM keys := by
  induction items with
  | nil => rfl
  | cons item items ih =>
    rw [flatten_mapM_cons, ih, List.filter_cons]
    by_cases h : wanted item
    · rw [if_pos h, if_pos (decide_eq_true h), flatten_mapM_cons]
    · rw [if_neg h, if_neg (mt of_decide_eq_true h), pure_bind]
      simp

/-- The stored form derives the same keys of a range. -/
theorem expand_words {first last : UInt64} {range : LeafRange} (first_eq : first.toNat = range.first)
    (last_eq : last.toNat = range.last) :
    (do return (← tree.words.nodes.mapM (tree.words.expandNode first last)).flatten) =
      (liftM (tree.expand range) : Attempt Stop (List Key)) := by
  have each := mapM_congr fun node mem => tree.expandNode_words first_eq last_eq mem
  have joined := flatten_mapM_ite (fun node => (node.leaves tree.shape).Meets range)
    (tree.expandNode range) tree.nodes
  rw [map_eq_pure_bind, map_eq_pure_bind] at joined
  have expanded : tree.expand range = _ := joined.symm
  show (tree.nodes.mapM (tree.words.expandNode first last) >>= _) = _
  rw [each, ← liftMetered_mapM, expanded, liftMetered_bind]
  rfl

theorem hasRoom_words {memory : Memory} {first last : UInt64} (range : LeafRange)
    (first_eq : first.toNat = range.first) (last_eq : last.toNat = range.last) :
    WordTree.hasRoom memory first last = .ok (memory.hasRoom range.count) := by
  have le : first ≤ last := by
    rw [UInt64.le_iff_toNat_le, first_eq, last_eq]
    exact range.first_le_last
  have count_eq : (last - first).toNat + (1 : UInt64).toNat = range.count := by
    rw [UInt64.toNat_sub_of_le _ _ le, first_eq, last_eq, LeafRange.count]
    rfl
  rw [WordTree.hasRoom, sub_eq_ok le, except_ok_bind, add?, count_eq]
  by_cases fits : range.count < UInt64.size
  · rw [if_pos fits]
    have exact_count : (last - first + 1).toNat = range.count := by
      rw [UInt64.toNat_add, count_eq]
      exact Nat.mod_eq_of_lt fits
    show Except.ok (memory.hasRoom (last - first + 1).toNat) = _
    rw [exact_count]
  · rw [if_neg fits, Memory.hasRoom_eq_false (Nat.le_trans (by decide) (Nat.le_of_not_lt fits))]
    rfl

/-- The stored form derives the keys of a range, or refuses them, as the tree does. -/
theorem seedsIn_words (memory : Memory) (first last : UInt64) :
    tree.words.seedsIn memory first last = refusing (tree.seedsIn memory first last) := by
  rw [WordTree.seedsIn, seedsIn, refusing_bind, refusing_liftExcept]
  refine between_words fun le => ?_
  rw [checkHeld_words, checkHeld_words, refusing_bind, refusing_liftExcept]
  refine congrArg _ (funext fun _ => ?_)
  rw [refusing_bind, refusing_liftExcept]
  refine congrArg _ (funext fun _ => ?_)
  have room : WordTree.hasRoom memory first last = _ :=
    hasRoom_words ⟨first.toNat, last.toNat, le⟩ rfl rfl
  rw [room, liftChecked_ok_bind]
  by_cases fits : memory.hasRoom (LeafRange.count ⟨first.toNat, last.toNat, le⟩)
  · rw [if_pos fits, if_pos fits, refusing_liftMetered]
    exact tree.expand_words rfl rfl
  · rw [if_neg fits, if_neg fits]
    rfl

/-! ## Granting -/

/-- The node at a place of the cover is derived along the path in words. -/
theorem nodeAt_words (root : Key) (node : UInt16 × UInt64) :
    (do
      let path ← tree.words.config.baseDigits node.2 node.1
      return ⟨← tree.words.cipher.descend root path, node.1, node.2⟩ : Attempt Stop SeedNode) =
      liftM (nodeAt tree.cipher tree.shape root (Position.ofWords node)) := by
  have path : tree.words.config.baseDigits node.2 node.1 =
      .ok ((Position.ofWords node).path tree.shape) := TreeConfig.baseDigits_eq ..
  have depth_eq : UInt16.ofNat (Position.ofWords node).depth = node.1 := UInt16.ofNat_toNat
  have number_eq : UInt64.ofNat (Position.ofWords node).number = node.2 := UInt64.ofNat_toNat
  rw [path, liftChecked_ok_bind, nodeAt, depth_eq, number_eq, liftMetered_bind]
  rfl

/-- The stored form reveals the same nodes, or refuses to, as the tree does. -/
theorem reveal_words (first last : UInt64) :
    tree.words.reveal first last = refusing (tree.reveal first last) := by
  cases held : tree.holdings with
  | granted share =>
    have owner : tree.words.owner = false := by
      show tree.isOwner = false
      rw [isOwner, held]
    rw [WordTree.reveal, owner, reveal, held]
    rfl
  | root root =>
    have owner : tree.words.owner = true := by
      show tree.isOwner = true
      rw [isOwner, held]
    have nodes : tree.words.nodes = [⟨root, 0, 0⟩] := by
      show tree.share.nodes = _
      rw [share, held]
      rfl
    rw [WordTree.reveal, owner, if_pos rfl, reveal, held, refusing_bind, refusing_liftExcept]
    refine between_words fun le => ?_
    rw [checkHeld_words, refusing_bind, refusing_liftExcept]
    by_cases last_held : last.toNat ∈ tree.interval
    · have fits := Nat.lt_of_le_of_lt last_held.2 tree.last_lt_leafCount
      obtain ⟨cover, covered, cover_eq⟩ := TreeConfig.exists_cover_eq
        ⟨first.toNat, last.toNat, le⟩ rfl rfl fits
      have covered : tree.words.config.cover first last = .ok cover := covered
      rw [checkHeld_eq_ok last_held, liftExcept_ok_bind, liftExcept_ok_bind, covered,
        liftChecked_ok_bind, nodes, item_cons_zero, liftChecked_ok_bind, refusing_liftMetered,
        coverNodes, ← cover_eq, List.mapM_map, liftMetered_mapM]
      exact mapM_congr fun node _ => tree.nodeAt_words root node
    · rw [checkHeld_eq_error last_held]
      rfl

/-! ## Masking -/

theorem boundarySeeds_words (first last : UInt64) :
    tree.words.boundarySeeds first last = refusing (tree.boundarySeeds first last) := by
  rw [WordTree.boundarySeeds, boundarySeeds, refusing_bind, refusing_liftExcept]
  refine between_words fun le => ?_
  have last_lt := last.toNat_lt_size
  by_cases greatest : last.toNat + 1 = UInt64.size
  · have none : add? last 1 = none := if_neg (by show ¬ last.toNat + 1 < _; omega)
    rw [none, if_pos greatest, outOfRange_words]
    rfl
  · have next : add? last 1 = some (last + 1) := if_pos (by show last.toNat + 1 < _; omega)
    rw [next, if_neg greatest]
    show (tree.words.seed first >>= fun left => tree.words.seed (last + 1) >>= fun right =>
      pure (left, right)) = _
    rw [seed_words, seed_words, refusing_bind]
    refine congrArg _ (funext fun left => ?_)
    rw [refusing_bind]
    rfl

theorem encrypt_words (series : Series) (value time : UInt64) :
    tree.words.encrypt series value time = refusing (tree.encrypt series value time) := by
  rw [WordTree.encrypt, encrypt, boundarySeeds_words, refusing_bind]
  rfl

theorem decrypt_words (series : Series) (masked first last : UInt64) :
    tree.words.decrypt series masked first last =
      refusing (tree.decrypt series masked first last) := by
  rw [WordTree.decrypt, decrypt, boundarySeeds_words, refusing_bind]
  rfl

theorem encryptBatch_words (values : List (UInt64 × UInt64)) (time : UInt64) :
    tree.words.encryptBatch values time = refusing (tree.encryptBatch values time) := by
  rw [WordTree.encryptBatch, encryptBatch, boundarySeeds_words, refusing_bind]
  rfl

theorem decryptBatch_words (values : List (UInt64 × UInt64)) (first last : UInt64) :
    tree.words.decryptBatch values first last = refusing (tree.decryptBatch values first last) := by
  rw [WordTree.decryptBatch, decryptBatch, boundarySeeds_words, refusing_bind]
  rfl

end RangeKeys.KeyTree
