import RangeKeys.Proofs.Aes.Permutation
import RangeKeys.Proofs.Derivation.Inputs
import RangeKeys.Proofs.StreamKeys.Paths

/-!
# Siblings have different keys

Under one key a block cipher encrypts different blocks differently, and the blocks of different
child indices are different. So two steps from one key never lead to the same child, neither to the
leaves of a tree that have their parent in common nor to keys of a stream that are derived from
one master.
-/

namespace RangeKeys

namespace Cipher

/-- Different blocks are encrypted differently. -/
def Permutes (cipher : Cipher) : Prop :=
  ∀ key, Function.Injective (cipher.encrypt key)

theorem aes_permutes : Permutes .aes :=
  fun key => Aes.encrypt_injective key.bytes

variable {cipher : Cipher} {seed : Key} {i j : UInt32}

theorem Permutes.child_inj (permutes : cipher.Permutes) :
    (cipher.child seed i).value = (cipher.child seed j).value ↔ i = j := by
  constructor
  · intro same
    have encrypted : cipher.encrypt seed (indexBlock i) = cipher.encrypt seed (indexBlock j) :=
      congrArg Key.bytes same
    exact indexBlock_inj.1 (permutes seed encrypted)
  · rintro rfl
    rfl

/-- Paths that part at the last step lead to different keys. -/
theorem Permutes.descend_concat_inj (permutes : cipher.Permutes) (path : List UInt32) :
    (cipher.descend seed (path ++ [i])).value = (cipher.descend seed (path ++ [j])).value ↔
      i = j := by
  rw [value_descend_append, value_descend_append]
  exact permutes.child_inj

end Cipher

/-! ## Leaves and keys of streams -/

namespace Cipher

variable {cipher : Cipher} {shape : Shape} {root : Key} {a b : Nat}

/-- The last step to a leaf is its number among the leaves of its parent. -/
theorem leafKey_eq_child {above : Nat} (levels : shape.depth = above + 1) (leaf : Nat) :
    cipher.leafKey shape root leaf =
      (cipher.child (cipher.keyBelow shape.fanout root above (leaf / shape.fanout))
        (UInt32.ofNat (leaf % shape.fanout))).value := by
  have last_step := cipher.keyBelow_child root (Nat.mod_lt leaf shape.fanout_pos) above
    (leaf / shape.fanout)
  rw [Nat.div_add_mod', ← levels] at last_step
  exact last_step

theorem Permutes.leafKey_ne (permutes : cipher.Permutes) (ha : a < shape.leafCount)
    (hb : b < shape.leafCount) (siblings : a / shape.fanout = b / shape.fanout) (differ : a ≠ b) :
    cipher.leafKey shape root a ≠ cipher.leafKey shape root b := by
  cases levels : shape.depth with
  | zero =>
    -- the root is the only leaf
    have one : shape.leafCount = 1 := by
      rw [Shape.leafCount, levels]
      rfl
    omega
  | succ above =>
    intro same
    rw [leafKey_eq_child levels, leafKey_eq_child levels, siblings, permutes.child_inj] at same
    have small (leaf : Nat) : leaf % shape.fanout < UInt32.size :=
      Nat.lt_of_lt_of_le (Nat.mod_lt leaf shape.fanout_pos)
        (Nat.le_trans shape.fanout_le_max (by decide))
    have rest : a % shape.fanout = b % shape.fanout := by
      rw [← UInt32.toNat_ofNat_of_lt' (small a), same, UInt32.toNat_ofNat_of_lt' (small b)]
    exact differ (by rw [← Nat.div_add_mod a shape.fanout, siblings, rest, Nat.div_add_mod])

end Cipher

namespace KeyTree

variable {cipher : Cipher} {config : TreeConfig} {root : List UInt8} {tree : KeyTree}
  {a b : UInt64}

/-- In the tree of an owner two leaves with the same parent have different keys. -/
theorem seeds_of_siblings_ne (permutes : cipher.Permutes)
    (made : owner cipher config root = .ok tree) (ha : a.toNat < tree.shape.leafCount)
    (hb : b.toNat < tree.shape.leafCount)
    (siblings : Position.parent tree.shape ⟨tree.shape.depth, a.toNat⟩ =
      Position.parent tree.shape ⟨tree.shape.depth, b.toNat⟩) (differ : a ≠ b) :
    ∃ x y, (tree.seed a).outcome = .ok x ∧ (tree.seed b).outcome = .ok y ∧ x ≠ y := by
  obtain ⟨valid, top, -, rfl⟩ := owner_eq_ok_iff.1 made
  have genuine := fromRoot_owner cipher valid.shape top
  have held {leaf : UInt64} (lt : leaf.toNat < valid.shape.leafCount) :=
    genuine.outcome_seed ((mem_interval_owner cipher valid.shape top).2 lt)
  have same_parent := congrArg Position.number siblings
  refine ⟨_, _, held ha, held hb, ?_⟩
  exact permutes.leafKey_ne ha hb same_parent fun same => differ (UInt64.toNat_inj.1 same)

end KeyTree

namespace StreamKeys

variable {cipher : Cipher} {depth : UInt16} {master : List UInt8}

/-- The key for authentication and the master of the sharing trees are siblings, two steps below the
master of the stream. -/
theorem macKey_ne_sharingMaster (permutes : cipher.Permutes) (depth_le : depth.toNat ≤ 63)
    (master_size : master.length = 16) :
    ∃ keys sharing, (owner cipher depth master).outcome = .ok keys ∧
      keys.tree.cipher = cipher ∧ keys.sharingMaster = some sharing ∧ keys.macKey ≠ sharing := by
  obtain ⟨top, root_key⟩ := Key.exists_ofBytes master_size
  have top_key := Key.ofBytes_eq_ok_iff.1 root_key
  have parted : (cipher.descend top ([1] ++ [0])).value ≠ (cipher.descend top ([1] ++ [1])).value :=
    mt (permutes.descend_concat_inj [1]).1 (by decide)
  exact ⟨_, _, outcome_owner top_key (TreeConfig.valid_of_depth_le depth_le), rfl, rfl, parted⟩

/-- The roots of sharing trees are siblings. -/
theorem sharing_roots_ne {keys : StreamKeys} {sharing : Key} (permutes : keys.tree.cipher.Permutes)
    (owned : keys.sharingMaster = some sharing) {p q : UInt32} {d e : UInt16}
    (p_le : p.toNat ≤ 255) (q_le : q.toNat ≤ 255) (differ : p ≠ q) (d_le : d.toNat ≤ 63)
    (e_le : e.toNat ≤ 63) :
    ∃ (t u : KeyTree) (x y : Key), (keys.sharingTree p d).outcome = .ok t ∧
      (keys.sharingTree q e).outcome = .ok u ∧
      t.holdings = .root x ∧ u.holdings = .root y ∧ x ≠ y := by
  obtain ⟨tree, macKey, sharingMaster⟩ := keys
  obtain rfl : sharingMaster = some sharing := owned
  have d_valid := TreeConfig.valid_of_depth_le d_le
  have e_valid := TreeConfig.valid_of_depth_le e_le
  refine ⟨_, _, _, _, outcome_sharingTree tree macKey sharing p_le d_valid,
    outcome_sharingTree tree macKey sharing q_le e_valid, rfl, rfl, ?_⟩
  exact mt permutes.child_inj.1 differ

/-- With AES, paths that part at the last step lead to different keys. So leaves of a tree that
have the same parent have different keys, and so have the roots of sharing trees of different
precisions, and the key for authentication is not the master of the sharing trees. -/
theorem siblings_have_different_keys :
    (∀ (seed : List UInt8) (path : List UInt32) (i j : UInt32), seed.length = 16 → i ≠ j →
      ∃ x y, (Cipher.aes.descendFromBytes seed (path ++ [i])).outcome = .ok x ∧
        (Cipher.aes.descendFromBytes seed (path ++ [j])).outcome = .ok y ∧ x ≠ y) ∧
    (∀ (config : TreeConfig) (root : List UInt8) (tree : KeyTree) (a b : UInt64),
      KeyTree.owner .aes config root = .ok tree →
      a.toNat < tree.shape.leafCount → b.toNat < tree.shape.leafCount →
      Position.parent tree.shape ⟨tree.shape.depth, a.toNat⟩ =
        Position.parent tree.shape ⟨tree.shape.depth, b.toNat⟩ → a ≠ b →
      ∃ x y, (tree.seed a).outcome = .ok x ∧ (tree.seed b).outcome = .ok y ∧ x ≠ y) ∧
    ∀ (depth : UInt16) (master : List UInt8), depth.toNat ≤ 63 → master.length = 16 →
      ∃ keys sharing, (owner .aes depth master).outcome = .ok keys ∧
        keys.sharingMaster = some sharing ∧ keys.macKey ≠ sharing ∧
        ∀ (p q : UInt32) (d e : UInt16), p.toNat ≤ 255 → q.toNat ≤ 255 → p ≠ q →
          d.toNat ≤ 63 → e.toNat ≤ 63 →
          ∃ (t u : KeyTree) (x y : Key), (keys.sharingTree p d).outcome = .ok t ∧
            (keys.sharingTree q e).outcome = .ok u ∧
            t.holdings = .root x ∧ u.holdings = .root y ∧ x ≠ y := by
  have permutes := Cipher.aes_permutes
  refine ⟨fun seed path i j size differ => ?_, ?_, fun depth master depth_le size => ?_⟩
  · obtain ⟨top, root_key⟩ := Key.exists_ofBytes size
    rw [← Key.ofBytes_eq_ok_iff.1 root_key]
    refine ⟨_, _, Cipher.outcome_descendFromBytes .., Cipher.outcome_descendFromBytes .., ?_⟩
    exact mt (permutes.descend_concat_inj path).1 differ
  · intro config root tree a b made ha hb siblings differ
    exact KeyTree.seeds_of_siblings_ne permutes made ha hb siblings differ
  · obtain ⟨keys, sharing, made, cipher_eq, owned, differ⟩ :=
      macKey_ne_sharingMaster permutes depth_le size
    refine ⟨keys, sharing, made, owned, differ, ?_⟩
    rw [← cipher_eq] at permutes
    intro p q d e p_le q_le p_ne d_le e_le
    exact sharing_roots_ne permutes owned p_le q_le p_ne d_le e_le

/-- The last two of eight leaves are siblings, and so are the indices 7 and 2³² - 1 of any path. -/
theorem last_two_of_eight_leaves_have_different_keys :
    let tree : KeyTree :=
      ⟨.aes, ⟨3, 2, by decide, by decide, by decide⟩, .root ⟨.replicate 16 7⟩⟩
    (∃ x y, (tree.seed 6).outcome = .ok x ∧ (tree.seed 7).outcome = .ok y ∧ x ≠ y) ∧
      (Cipher.aes.descendFromBytes (List.replicate 16 7) [1, 0xffffffff]).outcome ≠
        (Cipher.aes.descendFromBytes (List.replicate 16 7) [1, 7]).outcome := by
  intro tree
  obtain ⟨paths, leaves, -⟩ := siblings_have_different_keys
  obtain ⟨x, y, left, right, differ⟩ :=
    paths (List.replicate 16 7) [1] 0xffffffff 7 (by decide) (by decide)
  have made : KeyTree.owner .aes { depth := 3 } (List.replicate 16 7) = .ok tree := rfl
  refine ⟨leaves _ _ tree 6 7 made (by decide) (by decide) (by decide) (by decide), ?_⟩
  rw [List.singleton_append] at left right
  rw [left, right]
  exact fun same => differ (Except.ok.inj same)

end StreamKeys

end RangeKeys
