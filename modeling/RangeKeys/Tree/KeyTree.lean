import RangeKeys.Tree.Cover
import RangeKeys.Tree.Expansion
import RangeKeys.Tree.Share

/-!
# Key trees

The owner of a tree holds the key of its root and can derive the key of every leaf. A
receiver holds a share and can derive the keys of the leaves that it covers. The owner
grants a range of leaves by revealing the nodes of its cover.
-/

namespace RangeKeys

/-- What is held of a tree. -/
inductive Holdings (shape : Shape) where
  /-- The key of the root. -/
  | root (seed : Key)
  /-- Nodes that were granted. -/
  | granted (share : Share shape)

/-- A tree of keys as it is known to its owner or to a receiver (`KeyTree`). -/
structure KeyTree where
  cipher : Cipher
  shape : Shape
  holdings : Holdings shape

namespace KeyTree

/-- The tree with the given root (`owner`). -/
def owner (cipher : Cipher) (config : TreeConfig) (root : List UInt8) :
    Except TreeError KeyTree := do
  let shape ← config.shape
  let seed ← (Key.ofBytes root).mapError .cipher
  return ⟨cipher, shape, .root seed⟩

/-- The tree of which the nodes are known (`receiver`). -/
def receiver (cipher : Cipher) (config : TreeConfig) (nodes : List SeedNode) :
    Except TreeError KeyTree := do
  let shape ← config.shape
  let share ← Share.ofNodes shape nodes
  return ⟨cipher, shape, .granted share⟩

/-- Whether the key of the root is held (`is_owner`). -/
def isOwner (tree : KeyTree) : Bool :=
  match tree.holdings with
  | .root _ => true
  | .granted _ => false

/-- The nodes held and the leaves they cover. -/
def share (tree : KeyTree) : Share tree.shape :=
  match tree.holdings with
  | .root seed => .whole tree.shape seed
  | .granted share => share

/-- The nodes from which keys are derived. -/
def nodes (tree : KeyTree) : List SeedNode := tree.share.nodes

/-- The leaves whose keys can be derived (`key_interval`). -/
def interval (tree : KeyTree) : LeafRange := tree.share.interval

/-- The error for a leaf whose key cannot be derived. -/
def outOfRange (tree : KeyTree) (leaf : UInt64) : TreeError :=
  .keyOutOfRange leaf.toNat tree.interval.first tree.interval.last

/-- Fails for a leaf whose key cannot be derived (`check_access`). -/
def checkHeld (tree : KeyTree) (leaf : UInt64) : Except TreeError Unit :=
  if leaf.toNat ∈ tree.interval then .ok () else .error (tree.outOfRange leaf)

/-- The key of a leaf, derived from the node that covers it (`seed`). -/
def seed (tree : KeyTree) (leaf : UInt64) : Attempt TreeError Key := do
  tree.checkHeld leaf
  match tree.share.covering? leaf.toNat with
  | some node => tree.cipher.descend node.seed (node.position.pathTo tree.shape leaf.toNat)
  | none => throw (tree.outOfRange leaf)

/-- The most keys in one answer: the memory they occupy, 16 bytes each, must be less than
2⁶³ bytes. -/
def maxKeyCount : Nat := 0x7fffffffffffffff / 16

/-- The memory that can be had for an answer: for which numbers of keys there is room. -/
structure Memory where
  hasRoom : Nat → Bool
  le_maxKeyCount : ∀ count, hasRoom count = true → count ≤ maxKeyCount

/-- As much memory as can be addressed. -/
def Memory.addressable : Memory where
  hasRoom count := decide (count ≤ maxKeyCount)
  le_maxKeyCount _ room := of_decide_eq_true room

/-- The keys of the leaves of a range that lie below one node (`expand`). -/
def expandNode (tree : KeyTree) (range : LeafRange) (node : SeedNode) : Metered (List Key) :=
  let leaves := node.leaves tree.shape
  let branches := digits tree.shape.fanout (tree.shape.depth - node.position.depth)
  let first := branches (max range.first leaves.first)
  let last := branches (min range.last leaves.last)
  tree.cipher.expand tree.shape.fanout (first.zip last) [node.seed]

/-- The keys of the leaves of a range, below each node that meets it. -/
def expand (tree : KeyTree) (range : LeafRange) : Metered (List Key) := do
  let meeting := tree.nodes.filter fun node => (node.leaves tree.shape).Meets range
  let keys ← meeting.mapM (tree.expandNode range)
  return keys.flatten

/-- The keys of the leaves from `first` to `last`, if the memory has room for them (`seeds`). -/
def seedsIn (tree : KeyTree) (memory : Memory) (first last : UInt64) :
    Attempt TreeError (List Key) := do
  let range ← LeafRange.between first last
  tree.checkHeld first
  tree.checkHeld last
  if memory.hasRoom range.count then
    tree.expand range
  else
    throw (.rangeTooLarge range.first range.last)

/-- The keys of the leaves from `first` to `last`, in as much memory as can be addressed. -/
def seeds (tree : KeyTree) (first last : UInt64) : Attempt TreeError (List Key) :=
  tree.seedsIn .addressable first last

/-- The node at a position of the tree below `root`. -/
def nodeAt (cipher : Cipher) (shape : Shape) (root : Key) (p : Position) : Metered SeedNode :=
  return ⟨← cipher.descend root (p.path shape), UInt16.ofNat p.depth, UInt64.ofNat p.number⟩

/-- The nodes that cover a range of the tree below `root`. -/
def coverNodes (cipher : Cipher) (shape : Shape) (root : Key) (range : LeafRange) :
    Metered (List SeedNode) :=
  (Cover.cover shape range).mapM (nodeAt cipher shape root)

/-- The nodes that grant exactly the leaves from `first` to `last` (`reveal_seeds`). -/
def reveal (tree : KeyTree) (first last : UInt64) : Attempt TreeError (List SeedNode) :=
  match tree.holdings with
  | .granted _ => throw .notOwner
  | .root root => do
    let range ← LeafRange.between first last
    tree.checkHeld last
    coverNodes tree.cipher tree.shape root range

/-- The tree as a record; no key is shown. -/
def description (tree : KeyTree) : String :=
  Text.record "KeyTree"
    [("prf", Text.record "Prf" [("backend", tree.cipher.description)]),
      ("config", tree.shape.description),
      ("nodes", Text.list (tree.nodes.map SeedNode.description)),
      ("first", toString tree.interval.first),
      ("last", toString tree.interval.last),
      ("owner", toString tree.isOwner)]

end KeyTree

end RangeKeys
