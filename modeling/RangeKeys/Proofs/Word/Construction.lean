import RangeKeys.Proofs.Word.Agreement

/-!
# Trees are made in words

An owner or a receiver gets the stored form of the tree that is made in numbers, and is refused with
the same errors. Nodes are put in order only after all of them are known to be in the tree, so
their leaf numbers fit in words, and the leaf after the last one of a node is not zero.
-/

namespace RangeKeys

open Checked

variable {cipher : Cipher} {config : TreeConfig} {shape : Shape} {nodes : List SeedNode}

/-! ## The owner -/

theorem KeyTree.words_owner (cipher : Cipher) (valid : config.Valid) (seed : Key) :
    KeyTree.words ⟨cipher, valid.shape, .root seed⟩ =
      ⟨cipher, config, [⟨seed, 0, 0⟩], 0, UInt64.ofNat valid.shape.leafCount - 1, true⟩ := by
  have first_eq : (Position.root.leaves valid.shape).first = 0 := Nat.zero_mul _
  have last_eq : (Position.root.leaves valid.shape).last = valid.shape.leafCount - 1 :=
    (congrArg (· + (valid.shape.leafCount - 1)) first_eq).trans (Nat.zero_add _)
  show WordTree.mk cipher valid.shape.config [⟨seed, 0, 0⟩]
    (UInt64.ofNat (Position.root.leaves valid.shape).first)
    (UInt64.ofNat (Position.root.leaves valid.shape).last) true = _
  rw [valid.config_shape, first_eq, last_eq, UInt64.ofNat_sub valid.shape.leafCount_pos]
  rfl

/-- An owner's tree is made in words as it is in numbers. -/
theorem WordTree.ofRoot_eq (cipher : Cipher) (config : TreeConfig) (root : List UInt8) :
    WordTree.ofRoot cipher config root =
      liftM ((KeyTree.owner cipher config root).map KeyTree.words) := by
  rw [ofRoot, KeyTree.owner, TreeConfig.leafCount_eq]
  cases shaped : config.shape with
  | error e => rfl
  | ok shape =>
    obtain ⟨valid, rfl⟩ := TreeConfig.shape_eq_ok_iff.1 shaped
    cases key : Key.ofBytes root with
    | error e => rfl
    | ok seed =>
      have one_le : (1 : UInt64) ≤ UInt64.ofNat valid.shape.leafCount := by
        rw [UInt64.le_iff_toNat_le, toNat_of_lt valid.shape.leafCount_lt]
        exact valid.shape.leafCount_pos
      show (liftM (sub (UInt64.ofNat valid.shape.leafCount) 1) >>= _) =
        (.ok (KeyTree.words ⟨cipher, valid.shape, .root seed⟩) : Except Stop WordTree)
      rw [sub_eq_ok one_le, KeyTree.words_owner]
      rfl

/-! ## The nodes of a receiver -/

namespace WordTree

theorem checkNode_eq (shape : Shape) (node : SeedNode) :
    checkNode shape.config node =
      match node.fault? shape with
      | some e => .error (.refused e)
      | none => .ok () := by
  have deeper_iff : shape.config.depth < node.depth ↔ shape.depth < node.position.depth := by
    rw [UInt16.lt_iff_toNat_lt, shape.toNat_depth_config]
    rfl
  rw [checkNode, SeedNode.fault?]
  by_cases deeper : shape.depth < node.position.depth
  · rw [if_pos (deeper_iff.2 deeper), if_pos deeper, shape.toNat_depth_config]
    rfl
  · have le : node.depth.toNat ≤ shape.depth := Nat.le_of_not_lt deeper
    have outside_iff : UInt64.ofNat (shape.descendants node.depth.toNat) ≤ node.number ↔
        shape.descendants node.position.depth ≤ node.position.number := by
      rw [UInt64.le_iff_toNat_le, toNat_of_lt (shape.descendants_lt_size le)]
      rfl
    rw [if_neg (mt deeper_iff.1 deeper), if_neg deeper, TreeConfig.width_eq le]
    by_cases outside : shape.descendants node.position.depth ≤ node.position.number
    · rw [if_pos outside]
      exact if_pos (outside_iff.2 outside)
    · rw [if_neg outside]
      exact if_neg (mt outside_iff.1 outside)

theorem forM_checkNode_eq (shape : Shape) (nodes : List SeedNode) :
    nodes.forM (checkNode shape.config) =
      match nodes.findSome? (·.fault? shape) with
      | some e => .error (.refused e)
      | none => .ok () := by
  induction nodes with
  | nil => rfl
  | cons node nodes ih =>
    rw [List.findSome?_cons]
    show (checkNode shape.config node >>= fun _ => nodes.forM (checkNode shape.config)) = _
    rw [checkNode_eq, ih]
    cases node.fault? shape <;> rfl

/-- From a leaf that the words can count, neighbours are checked in words as they are in
numbers. -/
theorem checkJoined_eq {last : Nat} {start : UInt64} (start_eq : start.toNat = last + 1)
    (exist : ∀ node ∈ nodes, node.position.Exists shape) :
    checkJoined shape.config start nodes =
      liftM ((SeedNode.lastLeaf shape last nodes).map fun _ => ()) := by
  induction nodes generalizing last start with
  | nil => rfl
  | cons node nodes ih =>
    have inTree := exist node (List.mem_cons_self ..)
    have first_lt : (node.leaves shape).first < UInt64.size :=
      Nat.lt_of_le_of_lt (node.leaves shape).first_le_last
        (Nat.lt_trans inTree.last_lt shape.leafCount_lt)
    have joins_iff : UInt64.ofNat (node.leaves shape).first = start ↔
        (node.leaves shape).first = last + 1 := by
      rw [← UInt64.toNat_inj, toNat_of_lt first_lt, start_eq]
    rw [checkJoined, TreeConfig.firstLeaf_eq inTree, liftM_checked_ok, except_ok_bind,
      SeedNode.lastLeaf]
    by_cases joins : (node.leaves shape).first = last + 1
    · rw [if_pos (joins_iff.2 joins), if_pos joins, TreeConfig.lastLeaf_eq inTree,
        liftM_checked_ok, except_ok_bind]
      exact ih (TreeConfig.toNat_succ_lastLeaf inTree) fun other mem =>
        exist other (List.mem_cons_of_mem _ mem)
    · rw [if_neg (mt joins_iff.1 joins), if_neg joins, start_eq, toNat_of_lt first_lt]
      rfl

end WordTree

/-! ## The receiver -/

namespace WordTree

/-- Nodes of the tree are put in order in words. -/
theorem sortByFirstLeaf_nodes (exist : ∀ node ∈ nodes, node.position.Exists shape) :
    TreeConfig.sortByFirstLeaf shape.config.firstLeaf nodes =
      .ok (SeedNode.sortByLeaf shape nodes) :=
  TreeConfig.sortByFirstLeaf_eq (fun node mem => TreeConfig.firstLeaf_eq (exist node mem))
    fun node mem => Nat.lt_of_le_of_lt (node.leaves shape).first_le_last
      (Nat.lt_trans (exist node mem).last_lt shape.leafCount_lt)

/-- Of nodes in order, the first is where they are joined from and the last is where they end. -/
theorem checkJoined_cons {head : SeedNode}
    (exist : ∀ node ∈ head :: nodes, node.position.Exists shape) :
    checkJoined shape.config (UInt64.ofNat (head.leaves shape).first) (head :: nodes) =
      liftM ((SeedNode.lastLeaf shape (head.leaves shape).last nodes).map fun _ => ()) := by
  have inTree := exist head (List.mem_cons_self ..)
  rw [checkJoined, TreeConfig.firstLeaf_eq inTree, liftM_checked_ok, except_ok_bind, if_pos rfl,
    TreeConfig.lastLeaf_eq inTree, liftM_checked_ok, except_ok_bind]
  exact checkJoined_eq (TreeConfig.toNat_succ_lastLeaf inTree) fun node mem =>
    exist node (List.mem_cons_of_mem _ mem)

/-- The last leaf of joined nodes is that below the node at the last place. -/
theorem exists_item_last {head : SeedNode} {final : Nat}
    (exist : ∀ node ∈ head :: nodes, node.position.Exists shape)
    (joined : SeedNode.lastLeaf shape (head.leaves shape).last nodes = .ok final) :
    ∃ node, item (head :: nodes) ((head :: nodes).length - 1) = .ok node ∧
      shape.config.lastLeaf node = .ok (UInt64.ofNat final) := by
  induction nodes generalizing head with
  | nil =>
    injection joined with last_eq
    rw [← last_eq]
    exact ⟨head, rfl, TreeConfig.lastLeaf_eq (exist head (List.mem_cons_self ..))⟩
  | cons next nodes ih =>
    rw [SeedNode.lastLeaf] at joined
    split at joined
    · obtain ⟨node, found, last_eq⟩ :=
        ih (fun node mem => exist node (List.mem_cons_of_mem _ mem)) joined
      rw [item_eq_ok_iff] at found
      exact ⟨node, item_eq_ok_iff.2 found, last_eq⟩
    · cases joined

section Receiver

variable {count : UInt64} (cipher : Cipher) (counted : shape.config.leafCount = .ok count)
include counted

/-- Nodes of which one is not in the tree are refused in words as they are in numbers. -/
theorem ofNodes_of_faulty {e : TreeError} (faulty : nodes.findSome? (·.fault? shape) = some e) :
    ofNodes cipher shape.config nodes = .error (.refused e) := by
  have nonempty : ¬ nodes.isEmpty := by
    intro empty
    rw [List.isEmpty_iff.1 empty] at faulty
    cases faulty
  have checks := forM_checkNode_eq shape nodes
  rw [faulty] at checks
  rw [ofNodes, counted, liftM_tree_ok, except_ok_bind, if_neg nonempty, checks]
  rfl

/-- Nodes of the tree are put in order, and then accepted if they are joined. -/
theorem ofNodes_of_sorted {head : SeedNode} {tail : List SeedNode}
    (faultless : nodes.findSome? (·.fault? shape) = none)
    (sorted : SeedNode.sortByLeaf shape nodes = head :: tail) :
    ofNodes cipher shape.config nodes =
      liftM ((SeedNode.lastLeaf shape (head.leaves shape).last tail).map fun last =>
        (⟨cipher, shape.config, head :: tail, UInt64.ofNat (head.leaves shape).first,
          UInt64.ofNat last, false⟩ : WordTree)) := by
  have perm := SeedNode.perm_sortByLeaf shape nodes
  rw [sorted] at perm
  have nonempty : ¬ nodes.isEmpty := by
    intro empty
    rw [List.isEmpty_iff.1 empty] at perm
    exact List.cons_ne_nil _ _ perm.eq_nil
  have exist : ∀ node ∈ nodes, node.position.Exists shape := fun node mem =>
    SeedNode.fault?_eq_none_iff.1 (List.findSome?_eq_none_iff.1 faultless node mem)
  have exist_sorted : ∀ node ∈ head :: tail, node.position.Exists shape := fun node mem =>
    exist node (perm.mem_iff.1 mem)
  have checks := forM_checkNode_eq shape nodes
  rw [faultless] at checks
  rw [ofNodes, counted, liftM_tree_ok, except_ok_bind, if_neg nonempty, checks, except_ok_bind,
    sortByFirstLeaf_nodes exist, sorted, liftM_checked_ok, except_ok_bind, item_cons_zero,
    liftM_checked_ok, except_ok_bind,
    TreeConfig.firstLeaf_eq (exist_sorted head (List.mem_cons_self ..)), liftM_checked_ok,
    except_ok_bind, checkJoined_cons exist_sorted]
  cases joined : SeedNode.lastLeaf shape (head.leaves shape).last tail with
  | error e => rfl
  | ok last =>
    obtain ⟨node, found, last_eq⟩ := exists_item_last exist_sorted joined
    have places : sub (head :: tail).length 1 = .ok ((head :: tail).length - 1) :=
      sub_eq_ok (Nat.succ_le_succ (Nat.zero_le tail.length))
    rw [places, liftM_checked_ok, except_ok_bind, found, liftM_checked_ok, except_ok_bind, last_eq]
    rfl

/-- Nodes of a tree that has a number of leaves are accepted and refused in words as they are in
numbers. -/
theorem ofNodes_config_eq (nodes : List SeedNode) :
    ofNodes cipher shape.config nodes =
      liftM ((Share.ofNodes shape nodes).map fun share =>
        KeyTree.words ⟨cipher, shape, .granted share⟩) := by
  cases made : Share.ofNodes shape nodes with
  | error e =>
    rcases Share.ofNodes_eq_error_iff.1 made with
      faulty | ⟨rfl, rfl⟩ | ⟨faultless, head, tail, sorted, broken⟩
    · exact ofNodes_of_faulty cipher counted faulty
    · rw [ofNodes, counted]
      rfl
    · rw [ofNodes_of_sorted cipher counted faultless sorted, broken]
      rfl
  | ok share =>
    obtain ⟨exist, nodes_eq⟩ := Share.ofNodes_eq_ok_iff.1 made
    have faultless : nodes.findSome? (·.fault? shape) = none :=
      List.findSome?_eq_none_iff.2 fun node mem => SeedNode.fault?_eq_none_iff.2 (exist node mem)
    have tiles := share.tiles
    cases sorted : share.nodes with
    | nil => exact absurd (congrArg (List.map _) sorted) share.partition.ne_nil
    | cons head tail =>
      rw [sorted] at tiles nodes_eq
      rw [ofNodes_of_sorted cipher counted faultless nodes_eq.symm,
        SeedNode.lastLeaf_eq_ok_iff.2 tiles.2, tiles.1, ← sorted]
      rfl

end Receiver

/-- A receiver's tree is made in words as it is in numbers. -/
theorem ofNodes_eq (cipher : Cipher) (config : TreeConfig) (nodes : List SeedNode) :
    ofNodes cipher config nodes =
      liftM ((KeyTree.receiver cipher config nodes).map KeyTree.words) := by
  cases shaped : config.shape with
  | error e =>
    rw [ofNodes, KeyTree.receiver, TreeConfig.leafCount_eq, shaped]
    rfl
  | ok shape =>
    obtain ⟨valid, rfl⟩ := TreeConfig.shape_eq_ok_iff.1 shaped
    have counted : valid.shape.config.leafCount = _ :=
      (congrArg TreeConfig.leafCount valid.config_shape).trans (TreeConfig.leafCount_eq config)
    rw [shaped] at counted
    have made := ofNodes_config_eq cipher counted nodes
    rw [valid.config_shape] at made
    rw [made, KeyTree.receiver, shaped, except_ok_bind]
    cases Share.ofNodes valid.shape nodes <;> rfl

end WordTree

end RangeKeys
