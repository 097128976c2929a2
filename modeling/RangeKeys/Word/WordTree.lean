import RangeKeys.Masking
import RangeKeys.Word.Cover

/-!
# Key trees in words

A key tree as it is stored: with its configuration, its nodes in the order of their leaves and the
bounds of its interval in words. Every number on the way to an answer is computed in words, and a
list is read only at places that are checked. So an operation ends in an answer, is refused with
an error, or is cut off by a fault.
-/

namespace RangeKeys

instance : MonadLift (Except TreeError) (Attempt Stop) :=
  ⟨fun x => liftM (x.mapError Stop.refused)⟩

instance : MonadLift Checked (Attempt Stop) :=
  ⟨fun x => liftM (x.mapError Stop.fault)⟩

/-- A stored tree. -/
structure WordTree where
  cipher : Cipher
  config : TreeConfig
  nodes : List SeedNode
  first : UInt64
  last : UInt64
  owner : Bool

/-- The tree as it is stored. -/
def KeyTree.words (tree : KeyTree) : WordTree where
  cipher := tree.cipher
  config := tree.shape.config
  nodes := tree.nodes
  first := UInt64.ofNat tree.interval.first
  last := UInt64.ofNat tree.interval.last
  owner := tree.isOwner

namespace WordTree

/-! ## Construction -/

/-- The tree with the given root (`owner`). -/
def ofRoot (cipher : Cipher) (config : TreeConfig) (root : List UInt8) : Except Stop WordTree := do
  let leaves ← config.leafCount
  let seed ← ((Key.ofBytes root).mapError .cipher : Except TreeError Key)
  let last ← Checked.sub leaves 1
  return ⟨cipher, config, [⟨seed, 0, 0⟩], 0, last, true⟩

/-- Fails for a node that the tree does not have. -/
def checkNode (config : TreeConfig) (node : SeedNode) : Except Stop Unit := do
  if config.depth < node.depth then
    throw (.refused (.nodeTooDeep node.depth.toNat config.depth.toNat))
  else if (← config.width node.depth) ≤ node.number then
    throw (.refused (.nodeOutOfTree node.depth.toNat node.number.toNat))

/-- Fails unless the nodes go on from a leaf, each starting at the leaf after the node before it. The
leaf after the last one of all is zero. -/
def checkJoined (config : TreeConfig) : (start : UInt64) → List SeedNode → Except Stop Unit
  | _, [] => return ()
  | start, node :: nodes => do
    let first ← config.firstLeaf node
    if first = start then
      checkJoined config ((← config.lastLeaf node) + 1) nodes
    else
      throw (.refused (.nonContiguousNodes start.toNat first.toNat))

/-- The tree of which the nodes are known (`receiver`). -/
def ofNodes (cipher : Cipher) (config : TreeConfig) (nodes : List SeedNode) :
    Except Stop WordTree := do
  let _ ← config.leafCount
  if nodes.isEmpty then
    throw (.refused .emptyNodeSet)
  else
    nodes.forM (checkNode config)
    let nodes ← TreeConfig.sortByFirstLeaf config.firstLeaf nodes
    let first ← config.firstLeaf (← Checked.item nodes 0)
    checkJoined config first nodes
    let last ← config.lastLeaf (← Checked.item nodes (← Checked.sub nodes.length 1))
    return ⟨cipher, config, nodes, first, last, false⟩

/-! ## Leaf keys -/

/-- The error for a leaf whose key cannot be derived. -/
def outOfRange (tree : WordTree) (leaf : UInt64) : TreeError :=
  .keyOutOfRange leaf.toNat tree.first.toNat tree.last.toNat

/-- Fails for a leaf whose key cannot be derived (`check_access`). -/
def checkHeld (tree : WordTree) (leaf : UInt64) : Except TreeError Unit :=
  if leaf < tree.first ∨ tree.last < leaf then .error (tree.outOfRange leaf) else .ok ()

/-- The first node that does not end before the leaf, found by halving (`covering_node`). -/
def coveringNode (tree : WordTree) (leaf : UInt64) : Attempt Stop SeedNode := do
  let place ← partitionPointM (m := Checked)
    (fun node => return decide ((← tree.config.lastLeaf node) < leaf)) tree.nodes
  match tree.nodes[place]? with
  | some node => return node
  | none => throw (.refused (tree.outOfRange leaf))

/-- The key of a leaf, derived from the node that covers it (`seed`). -/
def seed (tree : WordTree) (leaf : UInt64) : Attempt Stop Key := do
  tree.checkHeld leaf
  let node ← tree.coveringNode leaf
  let levels ← Checked.sub tree.config.depth node.depth
  let path ← tree.config.baseDigits leaf levels
  tree.cipher.descend node.seed path

/-- The children of the key at a place of a level, of which `final` is the last place. The first
key has them from the branch `first` on and the last key up to the branch `last`. -/
def childrenAt (tree : WordTree) (first last : UInt32) (final : Nat) (item : Key × Nat) :
    Attempt Stop (List Key) := do
  let start := if item.2 = 0 then first else 0
  let stop ← if item.2 = final then pure last else liftM (Checked.sub tree.config.fanout 1)
  tree.cipher.childRun item.1 start.toNat stop.toNat

/-- The children of the keys of a level, clipped on both sides. -/
def nextLevel (tree : WordTree) (first last : UInt32) (level : List Key) :
    Attempt Stop (List Key) := do
  let final ← Checked.sub level.length 1
  let children ← level.zipIdx.mapM (tree.childrenAt first last final)
  return children.flatten

/-- The keys that are reached from those of a level, given the branches to the first and to the
last of them. -/
def expandLevels (tree : WordTree) :
    (branches : List (UInt32 × UInt32)) → (level : List Key) → Attempt Stop (List Key)
  | [], level => return level
  | (first, last) :: branches, level => do
    tree.expandLevels branches (← tree.nextLevel first last level)

/-- The keys of the leaves from `first` to `last` that lie below one node (`expand`). -/
def expandNode (tree : WordTree) (first last : UInt64) (node : SeedNode) :
    Attempt Stop (List Key) := do
  let nodeFirst ← tree.config.firstLeaf node
  let nodeLast ← tree.config.lastLeaf node
  if nodeLast < first ∨ last < nodeFirst then
    return []
  else
    let levels ← Checked.sub tree.config.depth node.depth
    let branchesFirst ← tree.config.baseDigits (max first nodeFirst) levels
    let branchesLast ← tree.config.baseDigits (min last nodeLast) levels
    tree.expandLevels (branchesFirst.zip branchesLast) [node.seed]

/-- Whether there is room for the keys of the leaves from `first` to `last`. -/
def hasRoom (memory : KeyTree.Memory) (first last : UInt64) : Checked Bool := do
  match Checked.add? (← Checked.sub last first) 1 with
  | some count => return memory.hasRoom count.toNat
  | none => return false

/-- The keys of the leaves from `first` to `last`, if the memory has room for them (`seeds`). -/
def seedsIn (tree : WordTree) (memory : KeyTree.Memory) (first last : UInt64) :
    Attempt Stop (List Key) := do
  if last < first then
    throw (.refused (.invalidRange first.toNat last.toNat))
  else
    tree.checkHeld first
    tree.checkHeld last
    if ← hasRoom memory first last then
      let keys ← tree.nodes.mapM (tree.expandNode first last)
      return keys.flatten
    else
      throw (.refused (.rangeTooLarge first.toNat last.toNat))

/-! ## Granting -/

/-- The nodes that grant exactly the leaves from `first` to `last` (`reveal_seeds`). -/
def reveal (tree : WordTree) (first last : UInt64) : Attempt Stop (List SeedNode) := do
  if tree.owner then
    if last < first then
      throw (.refused (.invalidRange first.toNat last.toNat))
    else
      tree.checkHeld last
      let cover ← tree.config.cover first last
      let root ← Checked.item tree.nodes 0
      cover.mapM fun (depth, number) => do
        let path ← tree.config.baseDigits number depth
        return ⟨← tree.cipher.descend root.seed path, depth, number⟩
  else
    throw (.refused .notOwner)

/-! ## Masking -/

/-- The keys of leaf `first` and of the leaf after `last` (`boundary_seeds`). -/
def boundarySeeds (tree : WordTree) (first last : UInt64) : Attempt Stop (Key × Key) := do
  if last < first then
    throw (.refused (.invalidRange first.toNat last.toNat))
  else
    match Checked.add? last 1 with
    | none => throw (.refused (tree.outOfRange last))
    | some next => return (← tree.seed first, ← tree.seed next)

/-- The value masked for a time (`encrypt`, `encrypt_metadata`). -/
def encrypt (tree : WordTree) (series : Series) (value time : UInt64) : Attempt Stop UInt64 := do
  let boundary ← tree.boundarySeeds time time
  (tree.cipher.withWords mask boundary series value).adapt Stop.refused

/-- The sum of the values masked for the times from `first` to `last`, given the sum of the masked
values (`decrypt`, `decrypt_metadata`). -/
def decrypt (tree : WordTree) (series : Series) (masked first last : UInt64) :
    Attempt Stop UInt64 := do
  let boundary ← tree.boundarySeeds first last
  (tree.cipher.withWords unmask boundary series masked).adapt Stop.refused

/-- Values of several metadata ids, each masked for the time (`encrypt_metadata_batch`). -/
def encryptBatch (tree : WordTree) (values : List (UInt64 × UInt64)) (time : UInt64) :
    Attempt Stop (List UInt64) := do
  let boundary ← tree.boundarySeeds time time
  (tree.cipher.withWordsBatch mask boundary values).adapt Stop.refused

/-- Sums of several metadata ids, each unmasked for the times from `first` to `last`
(`decrypt_metadata_batch`). -/
def decryptBatch (tree : WordTree) (values : List (UInt64 × UInt64)) (first last : UInt64) :
    Attempt Stop (List UInt64) := do
  let boundary ← tree.boundarySeeds first last
  (tree.cipher.withWordsBatch unmask boundary values).adapt Stop.refused

end WordTree

end RangeKeys
