import RangeKeys.Masking
import RangeKeys.StreamKeys

/-!
# Sessions

A session is a sequence of operations on trees, nodes, streams and masked values. A step takes what
the client brings or what earlier steps left behind. All that decides which operation is done on
which leaf stands in the session itself; byte strings that serve as secrets, encodings that were
received and messages are brought by the client.
-/

namespace RangeKeys.Session

/-- What the client brings, each item under a number. -/
structure Inputs where
  secret : Nat → List UInt8
  received : Nat → List UInt8
  message : Nat → UInt64

/-- What a step leaves behind. -/
inductive Item where
  | tree (tree : KeyTree)
  | stream (keys : StreamKeys)
  | nodes (nodes : List SeedNode)
  | keys (keys : List Key)
  | words (words : List UInt64)
  | encoding (bytes : List UInt8)

namespace Item

/-- The tree, on its own or in a stream. -/
def tree? : Item → Option KeyTree
  | .tree t => some t
  | .stream s => some s.tree
  | _ => none

/-- The keys of a stream. -/
def stream? : Item → Option StreamKeys
  | .stream s => some s
  | _ => none

/-- The nodes, on their own or of a tree. -/
def nodes? : Item → Option (List SeedNode)
  | .nodes list => some list
  | .tree t => some t.nodes
  | .stream s => some s.tree.nodes
  | _ => none

/-- The derived keys. -/
def keys? : Item → Option (List Key)
  | .keys list => some list
  | _ => none

/-- The computed words. -/
def words? : Item → Option (List UInt64)
  | .words list => some list
  | _ => none

/-- The encoding. -/
def encoding? : Item → Option (List UInt8)
  | .encoding bytes => some bytes
  | _ => none

end Item

/-- What the steps so far have left behind, in their order. A step that failed left nothing. -/
abbrev Kept := List (Option Item)

/-- The part of what a step left behind, if it left an item with that part. -/
def Kept.get? {α : Type} (kept : Kept) (part : Item → Option α) (step : Nat) : Option α := do
  part (← (← kept[step]?))

/-! ## Operands -/

/-- A byte string for a secret. -/
inductive SecretTerm where
  | input (number : Nat)
  /-- A key that a step derived. -/
  | key (step place : Nat)
  /-- The seed of a node that a step left behind. -/
  | seed (step place : Nat)
  /-- The key for authentication of a stream. -/
  | mac (step : Nat)

/-- The bytes that the term stands for, if there are such. -/
def SecretTerm.bytes? (inputs : Inputs) (kept : Kept) : SecretTerm → Option (List UInt8)
  | .input number => some (inputs.secret number)
  | .key step place => do return (← (← kept.get? Item.keys? step)[place]?).bytes.toList
  | .seed step place => do return (← (← kept.get? Item.nodes? step)[place]?).seed.bytes.toList
  | .mac step => do return (← kept.get? Item.stream? step).macKey.bytes.toList

/-- Nodes that a step left behind. -/
inductive NodesTerm where
  | all (step : Nat)
  | one (step place : Nat)

/-- The nodes that the term stands for, if there are such. -/
def NodesTerm.nodes? (kept : Kept) : NodesTerm → Option (List SeedNode)
  | .all step => kept.get? Item.nodes? step
  | .one step place => do return [← (← kept.get? Item.nodes? step)[place]?]

/-- The nodes that several terms stand for, one after the other. -/
def nodesOf? (kept : Kept) (terms : List NodesTerm) : Option (List SeedNode) := do
  return (← terms.mapM (NodesTerm.nodes? kept)).flatten

/-- A word that is masked or unmasked. -/
inductive WordTerm where
  | message (number : Nat)
  /-- A word that a step computed. -/
  | word (step place : Nat)
  | sum (left right : WordTerm)

/-- The word that the term stands for, if there is such. -/
def WordTerm.word? (inputs : Inputs) (kept : Kept) : WordTerm → Option UInt64
  | .message number => some (inputs.message number)
  | .word step place => do (← kept.get? Item.words? step)[place]?
  | .sum left right => do return (← left.word? inputs kept) + (← right.word? inputs kept)

/-- Bytes that are decoded: encodings of steps, and at their end what was received. -/
structure EncodingTerm where
  encodings : List Nat
  received : Option Nat

/-- The bytes that the term stands for, if there are such. -/
def EncodingTerm.bytes? (inputs : Inputs) (kept : Kept) (term : EncodingTerm) :
    Option (List UInt8) := do
  let encodings ← term.encodings.mapM (kept.get? Item.encoding?)
  return encodings.flatten ++ term.received.elim [] inputs.received

/-! ## Operations -/

/-- An operation with its operands. -/
inductive Operation where
  | owner (cipher : Cipher) (config : TreeConfig) (root : SecretTerm)
  | receiver (cipher : Cipher) (config : TreeConfig) (nodes : List NodesTerm)
  | streamOwner (cipher : Cipher) (depth : UInt16) (master : SecretTerm)
  | streamReceiver (cipher : Cipher) (depth : UInt16) (nodes : List NodesTerm) (mac : SecretTerm)
  | sharingTree (stream : Nat) (precision : UInt32) (depth : UInt16)
  | node (seed : SecretTerm) (depth : UInt16) (number : UInt64)
  | encode (step place : Nat)
  | encodeList (nodes : List NodesTerm)
  | decode (encoding : EncodingTerm)
  | decodeList (encoding : EncodingTerm)
  | seed (tree : Nat) (leaf : UInt64)
  | seeds (tree : Nat) (memory : KeyTree.Memory) (first last : UInt64)
  | reveal (tree : Nat) (first last : UInt64)
  | encrypt (tree : Nat) (series : Series) (value : WordTerm) (time : UInt64)
  | decrypt (tree : Nat) (series : Series) (masked : WordTerm) (first last : UInt64)
  | encryptBatch (tree : Nat) (values : List (UInt64 × WordTerm)) (time : UInt64)
  | decryptBatch (tree : Nat) (values : List (UInt64 × WordTerm)) (first last : UInt64)

/-- The words of a batch, with the metadata ids as they are. -/
def batchOf? (inputs : Inputs) (kept : Kept) (values : List (UInt64 × WordTerm)) :
    Option (List (UInt64 × UInt64)) :=
  values.mapM fun (id, value) => do return (id, ← value.word? inputs kept)

/-- The attempt that the operation makes, if there are all its operands. -/
def attempt? (inputs : Inputs) (kept : Kept) :
    Operation → Option (Attempt TreeError Item)
  | .owner cipher config root => do
    return .tree <$> KeyTree.owner cipher config (← root.bytes? inputs kept)
  | .receiver cipher config nodes => do
    return .tree <$> KeyTree.receiver cipher config (← nodesOf? kept nodes)
  | .streamOwner cipher depth master => do
    return .stream <$> StreamKeys.owner cipher depth (← master.bytes? inputs kept)
  | .streamReceiver cipher depth nodes mac => do
    return .stream <$> StreamKeys.receiver cipher depth (← nodesOf? kept nodes)
      (← mac.bytes? inputs kept)
  | .sharingTree stream precision depth => do
    return .tree <$> (← kept.get? Item.stream? stream).sharingTree precision depth
  | .node seed depth number => do
    let key := (Key.ofBytes (← seed.bytes? inputs kept)).mapError TreeError.cipher
    return (fun key => .nodes [⟨key, depth, number⟩]) <$> key
  | .encode step place => do
    return pure (.encoding (← (← kept.get? Item.nodes? step)[place]?).encode.toList)
  | .encodeList nodes => do
    return pure (.encoding (SeedNode.encodeList (← nodesOf? kept nodes)))
  | .decode encoding => do
    return (fun node => .nodes [node]) <$> SeedNode.decode (← encoding.bytes? inputs kept)
  | .decodeList encoding => do
    return .nodes <$> SeedNode.decodeList (← encoding.bytes? inputs kept)
  | .seed tree leaf => do
    return (fun key => .keys [key]) <$> (← kept.get? Item.tree? tree).seed leaf
  | .seeds tree memory first last => do
    return .keys <$> (← kept.get? Item.tree? tree).seedsIn memory first last
  | .reveal tree first last => do
    return .nodes <$> (← kept.get? Item.tree? tree).reveal first last
  | .encrypt tree series value time => do
    let value ← value.word? inputs kept
    let tree ← kept.get? Item.tree? tree
    return (fun word => .words [word]) <$> tree.encrypt series value time
  | .decrypt tree series masked first last => do
    let masked ← masked.word? inputs kept
    let tree ← kept.get? Item.tree? tree
    return (fun word => .words [word]) <$> tree.decrypt series masked first last
  | .encryptBatch tree values time => do
    let values ← batchOf? inputs kept values
    return .words <$> (← kept.get? Item.tree? tree).encryptBatch values time
  | .decryptBatch tree values first last => do
    let values ← batchOf? inputs kept values
    return .words <$> (← kept.get? Item.tree? tree).decryptBatch values first last

/-- What the attempt leaves behind. -/
def leftBehind (attempt : Option (Attempt TreeError Item)) : Option Item := do
  (← attempt).outcome.toOption

/-- The attempts of a session, one for each operation that has its operands. -/
def run (inputs : Inputs) : Kept → List Operation → List (Option (Attempt TreeError Item))
  | _, [] => []
  | kept, operation :: operations =>
    let attempt := attempt? inputs kept operation
    attempt :: run inputs (kept ++ [leftBehind attempt]) operations

/-! ## What is seen -/

/-- What is seen of an item without its keys and words. -/
inductive View where
  | tree (shape : Shape) (interval : LeafRange) (isOwner : Bool) (nodes : List Position)
    (text : String)
  | stream (isOwner : Bool) (tree : View) (text : String)
  | nodes (nodes : List Position) (text : String)
  | keys (count : Nat) (text : String)
  | words (count : Nat)
  | encoding (length : Nat)

/-- What is seen of a tree. -/
def View.ofTree (tree : KeyTree) : View :=
  .tree tree.shape tree.interval tree.isOwner (tree.nodes.map SeedNode.position) tree.description

/-- What is seen of an item. -/
def view : Item → View
  | .tree tree => .ofTree tree
  | .stream keys => .stream keys.isOwner (.ofTree keys.tree) keys.description
  | .nodes nodes =>
    .nodes (nodes.map SeedNode.position) (Text.list (nodes.map SeedNode.description))
  | .keys keys => .keys keys.length (Text.list (keys.map Key.description))
  | .words words => .words words.length
  | .encoding bytes => .encoding bytes.length

/-- What is seen of a step: what it ended in, and the calls that it made. Of a step without its
operands nothing is seen. -/
abbrev Observation := Option (Except TreeError View × Calls)

/-- What is seen of an attempt. -/
def observe (attempt : Option (Attempt TreeError Item)) : Observation :=
  attempt.map fun attempt => (attempt.outcome.map view, attempt.calls)

end RangeKeys.Session
