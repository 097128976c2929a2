import RangeKeys.Tree.KeyTree

/-!
# The keys of a stream

From one master key the owner of a stream derives the root of its key tree, a key for
authentication, and a master key for trees at reduced precision. The three are leaves of a binary
tree of depth two below the master, so no two of them share a path.
-/

namespace RangeKeys

/-- What a leaf of the tree below the master of a stream is for. The first leaf has no use. -/
inductive StreamRole where
  /-- The root of the key tree. -/
  | data
  /-- The authentication of chunks. -/
  | mac
  /-- The master of the sharing trees. -/
  | sharing
deriving DecidableEq

/-- The leaf where the key stands (`METADATA_LEAF`, `MAC_LEAF`, `SHARING_LEAF`). -/
def StreamRole.leaf : StreamRole → UInt64
  | .data => 1
  | .mac => 2
  | .sharing => 3

/-- The keys of a stream as its owner or a receiver holds them (`StreamKeys`). -/
structure StreamKeys where
  tree : KeyTree
  macKey : Key
  /-- Only the owner has it. -/
  sharingMaster : Option Key

namespace StreamKeys

/-- All keys of the stream, from its master (`owner`). -/
def owner (cipher : Cipher) (depth : UInt16) (master : List UInt8) :
    Attempt TreeError StreamKeys := do
  let split ← KeyTree.owner cipher { depth := 2 } master
  let root ← split.seed StreamRole.data.leaf
  let macKey ← split.seed StreamRole.mac.leaf
  let sharingMaster ← split.seed StreamRole.sharing.leaf
  let tree ← KeyTree.owner cipher { depth := depth } root.bytes.toList
  return ⟨tree, macKey, some sharingMaster⟩

/-- The keys that were granted (`receiver`). -/
def receiver (cipher : Cipher) (depth : UInt16) (nodes : List SeedNode) (macKey : List UInt8) :
    Except TreeError StreamKeys := do
  let macKey ← (Key.ofBytes macKey).mapError TreeError.cipher
  let tree ← KeyTree.receiver cipher { depth := depth } nodes
  return ⟨tree, macKey, none⟩

/-- Whether all keys of the stream are held (`is_owner`). -/
def isOwner (keys : StreamKeys) : Bool :=
  keys.sharingMaster.isSome

/-- The tree for sharing at a precision, with keys of its own for every precision
(`sharing_tree`). -/
def sharingTree (keys : StreamKeys) (precision : UInt32) (depth : UInt16) :
    Attempt TreeError KeyTree :=
  match keys.sharingMaster with
  | none => throw .notOwner
  | some master => do
    let cipher := keys.tree.cipher
    let root ← (cipher.childOfBytes master.bytes.toList precision).adapt TreeError.cipher
    KeyTree.owner cipher { depth := depth } root.bytes.toList

/-- The keys as a record; no key is shown. -/
def description (keys : StreamKeys) : String :=
  Text.record "StreamKeys"
    [("key_tree", keys.tree.description),
      ("mac_key", keys.macKey.description),
      ("sharing_master", Text.optional (keys.sharingMaster.map Key.description))]

end StreamKeys

end RangeKeys
