import RangeKeys.BigEndian
import RangeKeys.Cipher
import RangeKeys.Tree.Position

/-!
# Seed nodes and their encoding

A seed node is a node of a tree together with its key, from which every key below it can be
derived. It is encoded in 26 bytes: depth, number and seed, the numbers big-endian. A list
of nodes is encoded as the encodings one after the other.
-/

namespace RangeKeys

/-- A node with the key that stands there (`SeedNode`). -/
structure SeedNode where
  seed : Key
  depth : UInt16
  number : UInt64
deriving DecidableEq

namespace SeedNode

/-- The place of the node. -/
def position (node : SeedNode) : Position :=
  ⟨node.depth.toNat, node.number.toNat⟩

/-- The number of bytes that encode a node (`NODE_ENCODED_SIZE`). -/
def encodedSize : Nat := 26

/-- The encoding of a node (`encode`). -/
def encode (node : SeedNode) : Vector UInt8 encodedSize :=
  BigEndian.encode 2 node.depth.toNat ++ BigEndian.encode 8 node.number.toNat ++ node.seed.bytes

/-- The node whose encoding is given. What follows the two numbers is taken as a key. -/
def ofEncoding (bytes : Vector UInt8 encodedSize) : Except TreeError SeedNode := do
  let seed ← (Key.ofBytes (bytes.toList.drop 10)).mapError .cipher
  return {
    seed := seed
    depth := UInt16.ofNat (BigEndian.decode (Bytes.window bytes 0 2 (by decide)).toList)
    number := UInt64.ofNat (BigEndian.decode (Bytes.window bytes 2 8 (by decide)).toList)
  }

/-- The node at the start of the bytes (`decode`). -/
def decode (bytes : List UInt8) : Except TreeError SeedNode :=
  match Bytes.sized? encodedSize (bytes.take encodedSize) with
  | some encoding => ofEncoding encoding
  | none => .error (.invalidNodeEncoding encodedSize bytes.length)

/-- The encoding of a list of nodes (`encode_nodes`). -/
def encodeList (nodes : List SeedNode) : List UInt8 :=
  nodes.flatMap fun node => node.encode.toList

/-- The first `count` nodes of the bytes. -/
def decodeCount : (count : Nat) → (bytes : List UInt8) → Except TreeError (List SeedNode)
  | 0, _ => .ok []
  | n + 1, bytes => do
    let node ← decode bytes
    return node :: (← decodeCount n (bytes.drop encodedSize))

/-- The nodes that the bytes encode, if they are whole encodings (`decode_nodes`). -/
def decodeList (bytes : List UInt8) : Except TreeError (List SeedNode) :=
  if bytes.length % encodedSize = 0 then
    decodeCount (bytes.length / encodedSize) bytes
  else
    .error (.trailingNodeBytes (bytes.length % encodedSize))

/-- The node as a record; its seed is not shown. -/
def description (node : SeedNode) : String :=
  Text.record "SeedNode"
    [("seed", node.seed.description), ("depth", toString node.depth.toNat),
      ("node_nr", toString node.number.toNat)]

end SeedNode

end RangeKeys
