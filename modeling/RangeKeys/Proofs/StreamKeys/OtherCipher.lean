import RangeKeys.Proofs.KeyTree.Construction
import RangeKeys.StreamKeys

/-!
# The same keys under another cipher

Trees are made from a root or from nodes without asking the cipher, so under another cipher they
are the same, save for the cipher they carry. Keys are derived by encrypting the blocks of child
indices and no others, so two ciphers that encrypt these alike derive the same keys, with the same
calls.
-/

namespace RangeKeys

/-- Both encrypt the blocks of child indices alike. -/
def Cipher.SameChildren (a b : Cipher) : Prop :=
  ∀ key index, a.encrypt key (indexBlock index) = b.encrypt key (indexBlock index)

namespace Cipher.SameChildren

variable {a b : Cipher}

theorem child_eq (same : SameChildren a b) : a.child = b.child := by
  funext seed index
  simp only [child, blockKey, meteredEncrypt, same seed index]

theorem descend_eq (same : SameChildren a b) : a.descend = b.descend := by
  funext seed path
  induction path generalizing seed with
  | nil => rfl
  | cons index path ih => simp only [descend, same.child_eq, ih]

theorem childOfBytes_eq (same : SameChildren a b) : a.childOfBytes = b.childOfBytes := by
  funext seed index
  simp only [childOfBytes, limitedChild, same.child_eq]

theorem descendFromBytes_eq (same : SameChildren a b) :
    a.descendFromBytes = b.descendFromBytes := by
  funext seed path
  simp only [descendFromBytes, same.descend_eq]

theorem nextLevel_eq (same : SameChildren a b) : a.nextLevel = b.nextLevel := by
  have run : a.childRun = b.childRun := by
    funext seed first last
    simp only [childRun, same.child_eq]
  funext fanout last first level
  induction level generalizing first with
  | nil => rfl
  | cons seed seeds ih =>
    cases seeds with
    | nil => simp only [nextLevel, run]
    | cons => simp only [nextLevel, run, ih]

theorem expand_eq (same : SameChildren a b) : a.expand = b.expand := by
  funext fanout branches level
  induction branches generalizing level with
  | nil => rfl
  | cons branch branches ih => simp only [expand, same.nextLevel_eq, ih]

end Cipher.SameChildren

namespace KeyTree

/-- The tree with another cipher in place of its own. -/
def withCipher (tree : KeyTree) (cipher : Cipher) : KeyTree :=
  { tree with cipher := cipher }

theorem owner_withCipher (a b : Cipher) (config : TreeConfig) (root : List UInt8) :
    owner b config root = (owner a config root).map (·.withCipher b) := by
  simp only [owner]
  cases config.shape with
  | error e => rfl
  | ok shape => cases Key.ofBytes root <;> rfl

theorem receiver_withCipher (a b : Cipher) (config : TreeConfig) (nodes : List SeedNode) :
    receiver b config nodes = (receiver a config nodes).map (·.withCipher b) := by
  simp only [receiver]
  cases config.shape with
  | error e => rfl
  | ok shape =>
    rw [except_ok_bind, except_ok_bind]
    cases Share.ofNodes shape nodes <;> rfl

variable {tree : KeyTree} {other : Cipher}

theorem seed_withCipher (same : tree.cipher.SameChildren other) (leaf : UInt64) :
    (tree.withCipher other).seed leaf = tree.seed leaf := by
  obtain ⟨own, shape, holdings⟩ := tree
  simp only [seed, withCipher, same.descend_eq]
  cases holdings <;> rfl

theorem expand_withCipher (same : tree.cipher.SameChildren other) (range : LeafRange) :
    (tree.withCipher other).expand range = tree.expand range := by
  have below : (tree.withCipher other).expandNode = tree.expandNode := by
    funext range node
    simp only [expandNode, withCipher, same.expand_eq]
  rw [expand, below]
  obtain ⟨own, shape, holdings⟩ := tree
  cases holdings <;> rfl

theorem seedsIn_withCipher (same : tree.cipher.SameChildren other) (memory : Memory)
    (first last : UInt64) :
    (tree.withCipher other).seedsIn memory first last = tree.seedsIn memory first last := by
  simp only [seedsIn, expand_withCipher same]
  obtain ⟨own, shape, holdings⟩ := tree
  cases holdings <;> rfl

theorem reveal_withCipher (same : tree.cipher.SameChildren other) (first last : UInt64) :
    (tree.withCipher other).reveal first last = tree.reveal first last := by
  have node_eq : nodeAt other = nodeAt tree.cipher := by
    funext shape root p
    simp only [nodeAt, same.descend_eq]
  obtain ⟨own, shape, holdings⟩ := tree
  cases holdings with
  | granted share => rfl
  | root root =>
    simp only [reveal, withCipher, coverNodes, node_eq]
    rfl

end KeyTree

namespace StreamKeys

/-- The keys with another cipher in place of that of their tree. -/
def withCipher (keys : StreamKeys) (cipher : Cipher) : StreamKeys :=
  { keys with tree := keys.tree.withCipher cipher }

theorem receiver_withCipher (a b : Cipher) (depth : UInt16) (nodes : List SeedNode)
    (macKey : List UInt8) :
    receiver b depth nodes macKey = (receiver a depth nodes macKey).map (·.withCipher b) := by
  simp only [receiver, KeyTree.receiver_withCipher a b]
  cases Key.ofBytes macKey with
  | error e => rfl
  | ok key => cases KeyTree.receiver a { depth := depth } nodes <;> rfl

theorem owner_withCipher {a b : Cipher} (same : a.SameChildren b) (depth : UInt16)
    (master : List UInt8) : owner b depth master = (·.withCipher b) <$> owner a depth master := by
  simp only [owner, KeyTree.owner_withCipher a b { depth := 2 } master]
  cases made : KeyTree.owner a { depth := 2 } master with
  | error e => rfl
  | ok split =>
    obtain ⟨valid, top, -, rfl⟩ := KeyTree.owner_eq_ok_iff.1 made
    have derived (leaf : UInt64) :
        (KeyTree.withCipher ⟨a, valid.shape, .root top⟩ b).seed leaf =
          KeyTree.seed ⟨a, valid.shape, .root top⟩ leaf :=
      KeyTree.seed_withCipher same leaf
    simp only [Except.map, Attempt.ok_bind, derived, map_bind]
    refine bind_congr fun root => bind_congr fun macKey => bind_congr fun sharingMaster => ?_
    rw [KeyTree.owner_withCipher a b]
    cases KeyTree.owner a { depth := depth } root.bytes.toList <;> rfl

theorem sharingTree_withCipher {keys : StreamKeys} {other : Cipher}
    (same : keys.tree.cipher.SameChildren other) (precision : UInt32) (depth : UInt16) :
    (keys.withCipher other).sharingTree precision depth =
      (·.withCipher other) <$> keys.sharingTree precision depth := by
  obtain ⟨tree, macKey, sharingMaster⟩ := keys
  cases sharingMaster with
  | none => rfl
  | some master =>
    simp only [sharingTree, withCipher, KeyTree.withCipher, ← same.childOfBytes_eq, map_bind]
    refine bind_congr fun root => ?_
    rw [KeyTree.owner_withCipher tree.cipher other]
    cases KeyTree.owner tree.cipher { depth := depth } root.bytes.toList <;> rfl

end StreamKeys

end RangeKeys
