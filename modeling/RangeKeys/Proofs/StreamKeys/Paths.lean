import RangeKeys.Proofs.Derivation.Steps
import RangeKeys.Proofs.KeyTree.Reveal
import RangeKeys.Proofs.Position.Notation
import RangeKeys.StreamKeys

/-!
# Every key of a stream has a path of its own

Each key of a stream is found at the end of one path below the master, through however many trees
it was derived. The path begins with the use of the key and ends with the digits of its place in
the tree of that use. No path of one use goes on from a path of another, and within a tree
different leaves have different paths.
-/

namespace RangeKeys

/-- What a key that is derived from the master of a stream is used for. -/
inductive KeyUse where
  /-- The leaves of the key tree and the nodes that grant them. -/
  | chunks
  /-- The authentication of chunks. -/
  | mac
  /-- The leaves and nodes of the sharing tree of a precision. -/
  | sharing (precision : UInt32)
deriving DecidableEq

/-- The path from the master to the leaf of the role. -/
def StreamRole.path : StreamRole → List UInt32
  | data => [0, 1]
  | mac => [1, 0]
  | sharing => [1, 1]

theorem StreamRole.leaf_lt (role : StreamRole) : role.leaf.toNat < 4 := by
  cases role <;> decide

theorem StreamRole.digits_leaf (role : StreamRole) :
    (digits 2 2 role.leaf.toNat).map UInt32.ofNat = role.path := by
  cases role <;> decide

namespace KeyUse

/-- The path to the key of the use, or to the root of its tree. -/
def path : KeyUse → List UInt32
  | chunks => [0, 1]
  | mac => [1, 0]
  | sharing precision => [1, 1, precision]

/-- The path to a node of the binary tree of the use. -/
def nodePath (use : KeyUse) (depth number : Nat) : List UInt32 :=
  use.path ++ (digits 2 depth number).map UInt32.ofNat

theorem not_nodePath_prefix {a b : KeyUse} (differ : a ≠ b) (depth number depth' number' : Nat) :
    ¬ a.nodePath depth number <+: b.nodePath depth' number' := by
  cases a <;> cases b <;> simp_all [nodePath, path, List.cons_prefix_cons]

end KeyUse

theorem KeyUse.eq_of_nodePath_eq {use : KeyUse} {depth a b : Nat} (ha : a < 2 ^ depth)
    (hb : b < 2 ^ depth) (h : use.nodePath depth a = use.nodePath depth b) : a = b := by
  have same := congrArg (spelled 2) (List.append_cancel_left h)
  rw [spelled_digits (by decide) (by decide), spelled_digits (by decide) (by decide),
    Nat.mod_eq_of_lt ha, Nat.mod_eq_of_lt hb] at same
  exact same

theorem TreeConfig.valid_of_depth_le {depth : UInt16} (le : depth.toNat ≤ 63) :
    Valid { depth := depth } where
  two_le_fanout := Nat.le_refl 2
  fanout_le := show 2 ≤ 256 by decide
  leaves_fit := Nat.le_trans (Nat.pow_le_pow_right Nat.two_pos le) (show 2 ^ 63 ≤ 2 ^ 64 - 1 by decide)

/-- What is derived in the tree and granted of it stands at the paths of a use: every leaf has a
key, every range is granted, and all of it comes from the master. -/
structure KeyTree.OfUse (cipher : Cipher) (master : List UInt8) (use : KeyUse) (depth : Nat)
    (tree : KeyTree) : Prop where
  seed : ∀ leaf : UInt64, leaf.toNat < 2 ^ depth → ∃ key, (tree.seed leaf).outcome = .ok key ∧
    (cipher.descendFromBytes master (use.nodePath depth leaf.toNat)).outcome = .ok key
  grants : ∀ first last : UInt64, first.toNat ≤ last.toNat → last.toNat < 2 ^ depth →
    ∃ granted, (tree.reveal first last).outcome = .ok granted
  reveal : ∀ first last granted, (tree.reveal first last).outcome = .ok granted →
    ∀ node ∈ granted,
      (cipher.descendFromBytes master
        (use.nodePath node.depth.toNat node.number.toNat)).outcome = .ok node.seed

namespace KeyTree

variable {cipher : Cipher} {depth : UInt16} {master : List UInt8} {top : Key}

/-- A range that is granted lies in the tree. -/
theorem exists_range_of_reveal {shape : Shape} {first last : UInt64} {granted : List SeedNode}
    (revealed : (reveal ⟨cipher, shape, .root top⟩ first last).outcome = .ok granted) :
    ∃ range : LeafRange, range.last < shape.leafCount ∧
      granted = (coverNodes cipher shape top range).value := by
  by_cases le : first.toNat ≤ last.toNat
  · have between := LeafRange.between_of_le le
    by_cases fits : last.toNat < shape.leafCount
    · rw [outcome_reveal between fits] at revealed
      injection revealed with granted_eq
      exact ⟨_, fits, granted_eq.symm⟩
    · have outside := mt (mem_interval_owner cipher shape top).1 fits
      simp only [reveal, Attempt.outcome_bind, Attempt.outcome_liftExcept, between,
        checkHeld_eq_error outside, except_ok_bind, except_error_bind] at revealed
      cases revealed
  · have between := LeafRange.between_of_lt (Nat.lt_of_not_le le)
    simp only [reveal, Attempt.outcome_bind, Attempt.outcome_liftExcept, between,
      except_error_bind] at revealed
    cases revealed

/-- The tree whose root stands at the path of a use is a tree of that use. -/
theorem ofUse_of_root (top_key : top.bytes.toList = master) (use : KeyUse)
    (valid : TreeConfig.Valid { depth := depth }) :
    OfUse cipher master use depth.toNat
      ⟨cipher, valid.shape, .root (cipher.descend top use.path).value⟩ := by
  have found (rest : List UInt32) :
      (cipher.descendFromBytes master (use.path ++ rest)).outcome =
        .ok (cipher.descend (cipher.descend top use.path).value rest).value := by
    rw [← top_key, Cipher.outcome_descendFromBytes, Cipher.value_descend_append]
  have genuine := fromRoot_owner cipher valid.shape (cipher.descend top use.path).value
  refine ⟨fun leaf lt => ?_, fun first last le lt => ?_, fun first last granted revealed => ?_⟩
  · have held := (mem_interval_owner cipher valid.shape (cipher.descend top use.path).value).2 lt
    exact ⟨_, genuine.outcome_seed held, found _⟩
  · exact ⟨_, outcome_reveal (LeafRange.between_of_le le) lt⟩
  · obtain ⟨range, fits, rfl⟩ := exists_range_of_reveal revealed
    intro node mem
    rw [(genuine_of_mem_coverNodes fits mem).seed_eq]
    exact found _

end KeyTree

namespace StreamKeys

variable {cipher : Cipher} {depth : UInt16} {master : List UInt8} {top : Key}

/-- The tree that splits the master has four leaves. -/
theorem valid_split : TreeConfig.Valid { depth := 2 } :=
  TreeConfig.valid_of_depth_le (by decide)

theorem owner_split (cipher : Cipher) (top_key : top.bytes.toList = master) :
    KeyTree.owner cipher { depth := 2 } master = .ok ⟨cipher, valid_split.shape, .root top⟩ :=
  KeyTree.owner_eq_ok_iff.2 ⟨valid_split, top, Key.ofBytes_eq_ok_iff.2 top_key, rfl⟩

theorem outcome_seed_split (cipher : Cipher) (top : Key) (role : StreamRole) :
    (KeyTree.seed ⟨cipher, valid_split.shape, .root top⟩ role.leaf).outcome =
      .ok (cipher.descend top role.path).value := by
  have held := (KeyTree.mem_interval_owner cipher valid_split.shape top).2 role.leaf_lt
  rw [(KeyTree.fromRoot_owner cipher valid_split.shape top).outcome_seed held, ← role.digits_leaf]
  rfl

theorem outcome_owner (top_key : top.bytes.toList = master)
    (valid : TreeConfig.Valid { depth := depth }) :
    (owner cipher depth master).outcome =
      .ok ⟨⟨cipher, valid.shape, .root (cipher.descend top KeyUse.chunks.path).value⟩,
        (cipher.descend top KeyUse.mac.path).value, some (cipher.descend top [1, 1]).value⟩ := by
  have tree (root : Key) : KeyTree.owner cipher { depth := depth } root.bytes.toList =
      .ok ⟨cipher, valid.shape, .root root⟩ :=
    KeyTree.owner_eq_ok_iff.2 ⟨valid, root, root.ofBytes_toList, rfl⟩
  simp only [owner, owner_split cipher top_key, Attempt.outcome_bind, Attempt.outcome_liftExcept,
    except_ok_bind, outcome_seed_split, tree]
  rfl

theorem outcome_sharingTree (tree : KeyTree) (macKey master : Key) {precision : UInt32}
    (within : precision.toNat ≤ 255) (valid : TreeConfig.Valid { depth := depth }) :
    (sharingTree ⟨tree, macKey, some master⟩ precision depth).outcome =
      .ok ⟨tree.cipher, valid.shape, .root (tree.cipher.child master precision).value⟩ := by
  have made (root : Key) : KeyTree.owner tree.cipher { depth := depth } root.bytes.toList =
      .ok ⟨tree.cipher, valid.shape, .root root⟩ :=
    KeyTree.owner_eq_ok_iff.2 ⟨valid, root, root.ofBytes_toList, rfl⟩
  simp only [sharingTree, Attempt.outcome_bind, Attempt.outcome_adapt,
    tree.cipher.outcome_childOfBytes master within, Attempt.outcome_liftExcept, Except.mapError,
    except_ok_bind, made]

/-- From a master of sixteen bytes and depths of at most 63 an owner has all keys of a stream: the
key for authentication at the branches 1, 0, a key tree below 0, 1, and below 1, 1 and its
precision a sharing tree for every precision of one byte. What these trees derive and grant stands
at the binary digits of its place. So no key of one use lies at or below a key of another use,
nor two leaves of one tree at the same path. -/
theorem every_key_has_its_own_path (cipher : Cipher) {depth : UInt16} {master : List UInt8}
    (depth_le : depth.toNat ≤ 63) (master_size : master.length = 16) :
    (∃ keys, (owner cipher depth master).outcome = .ok keys ∧
      (cipher.descendFromBytes master [1, 0]).outcome = .ok keys.macKey ∧
      keys.tree.OfUse cipher master .chunks depth.toNat ∧
      ∀ (precision : UInt32) (sharing_depth : UInt16), precision.toNat ≤ 255 →
        sharing_depth.toNat ≤ 63 → ∃ tree,
          (keys.sharingTree precision sharing_depth).outcome = .ok tree ∧
          tree.OfUse cipher master (.sharing precision) sharing_depth.toNat) ∧
    (∀ a b : KeyUse, a ≠ b → ∀ depth number depth' number',
      ¬ a.nodePath depth number <+: b.nodePath depth' number') ∧
    ∀ (use : KeyUse) (depth a b : Nat), a < 2 ^ depth → b < 2 ^ depth → a ≠ b →
      use.nodePath depth a ≠ use.nodePath depth b := by
  obtain ⟨top, root_key⟩ := Key.exists_ofBytes master_size
  have top_key := Key.ofBytes_eq_ok_iff.1 root_key
  have valid := TreeConfig.valid_of_depth_le depth_le
  refine ⟨⟨_, outcome_owner top_key valid, ?_, KeyTree.ofUse_of_root top_key .chunks valid, ?_⟩,
    fun a b => KeyUse.not_nodePath_prefix, fun use depth a b ha hb => mt ?_⟩
  · rw [← top_key, Cipher.outcome_descendFromBytes]
    rfl
  · intro precision sharing_depth within sharing_depth_le
    have sharing_valid := TreeConfig.valid_of_depth_le sharing_depth_le
    exact ⟨_, outcome_sharingTree _ _ _ within sharing_valid,
      KeyTree.ofUse_of_root top_key (.sharing precision) sharing_valid⟩
  · exact KeyUse.eq_of_nodePath_eq ha hb

/-- The deepest stream there can be, and its sharing tree at the greatest precision. -/
theorem paths_of_deepest_stream :
    ∃ keys tree, (owner .aes 63 (List.replicate 16 7)).outcome = .ok keys ∧
      (Cipher.aes.descendFromBytes (List.replicate 16 7) [1, 0]).outcome = .ok keys.macKey ∧
      (keys.sharingTree 255 63).outcome = .ok tree ∧
      (∃ key, (tree.seed 0x7fffffffffffffff).outcome = .ok key ∧
        (Cipher.aes.descendFromBytes (List.replicate 16 7)
          ([1, 1, 255] ++ List.replicate 63 1)).outcome = .ok key) ∧
      ¬ KeyUse.nodePath .chunks 0 0 <+: KeyUse.nodePath (.sharing 255) 63 0x7fffffffffffffff := by
  obtain ⟨⟨keys, made, mac, -, sharing⟩, apart, -⟩ := every_key_has_its_own_path .aes
    (show (63 : UInt16).toNat ≤ 63 by decide)
    (show (List.replicate 16 (7 : UInt8)).length = 16 by decide)
  obtain ⟨tree, shared, ofUse⟩ := sharing 255 63 (by decide) (by decide)
  obtain ⟨key, derived, found⟩ := ofUse.seed 0x7fffffffffffffff (by decide)
  refine ⟨keys, tree, made, mac, shared, ⟨key, derived, ?_⟩,
    apart .chunks (.sharing 255) (by decide) _ _ _ _⟩
  have path : KeyUse.nodePath (.sharing 255) 63 0x7fffffffffffffff =
      [1, 1, 255] ++ List.replicate 63 1 := by decide +kernel
  rw [← path]
  exact found

end StreamKeys

end RangeKeys
