import RangeKeys.CipherError
import RangeKeys.Text.Quoted

/-!
# Errors of key trees

The causes for which a tree, a range or a shared list of nodes is refused. Those that only
a bad share can bring about are told apart from the rest.
-/

namespace RangeKeys

/-- Why an operation on a tree failed (`KeyTreeError`). -/
inductive TreeError where
  /-- No tree has the requested depth and fanout. -/
  | invalidConfig (reason : String)
  /-- The range ends before it begins. -/
  | invalidRange (first last : Nat)
  /-- The keys of the range are too many to hold. -/
  | rangeTooLarge (first last : Nat)
  /-- The leaf is not among those that the tree covers. -/
  | keyOutOfRange (leaf first last : Nat)
  /-- Only the owner of the tree can do this. -/
  | notOwner
  /-- The share has no node. -/
  | emptyNodeSet
  /-- The node lies below the leaves. -/
  | nodeTooDeep (depth max : Nat)
  /-- The level of the node has no node of that number. -/
  | nodeOutOfTree (depth number : Nat)
  /-- A node does not start at the leaf after the node before it. -/
  | nonContiguousNodes (expectedStart actualStart : Nat)
  /-- The bytes are too few for a node. -/
  | invalidNodeEncoding (expected actual : Nat)
  /-- Bytes are left over after the last whole node. -/
  | trailingNodeBytes (remainder : Nat)
  /-- A cipher operation failed. -/
  | cipher (e : CipherError)
deriving DecidableEq

namespace TreeError

/-- The name of the error. -/
def name : TreeError → String
  | invalidConfig _ => "InvalidConfig"
  | invalidRange .. => "InvalidRange"
  | rangeTooLarge .. => "RangeTooLarge"
  | keyOutOfRange .. => "KeyOutOfRange"
  | notOwner => "NotOwner"
  | emptyNodeSet => "EmptyNodeSet"
  | nodeTooDeep .. => "NodeTooDeep"
  | nodeOutOfTree .. => "NodeOutOfTree"
  | nonContiguousNodes .. => "NonContiguousNodes"
  | invalidNodeEncoding .. => "InvalidNodeEncoding"
  | trailingNodeBytes _ => "TrailingNodeBytes"
  | cipher e => Text.wrapped "Crypto" e.name

/-- The error in a sentence. -/
def message : TreeError → String
  | invalidConfig reason => s!"invalid key tree config: {reason}"
  | invalidRange first last => s!"invalid range: {first} > {last}"
  | rangeTooLarge first last => s!"range {first}..={last} too large to materialize"
  | keyOutOfRange leaf first last =>
    s!"key {leaf} not derivable: tree covers {first}..={last}"
  | notOwner => "operation requires the tree owner"
  | emptyNodeSet => "no seed nodes supplied"
  | nodeTooDeep depth max => s!"node depth {depth} exceeds tree depth {max}"
  | nodeOutOfTree depth number => s!"node {number} does not exist at depth {depth}"
  | nonContiguousNodes expected actual =>
    s!"seed nodes not contiguous: expected leaf {expected}, node starts at {actual}"
  | invalidNodeEncoding expected actual =>
    s!"invalid node encoding: expected {expected} bytes, got {actual}"
  | trailingNodeBytes remainder => s!"node list has {remainder} trailing bytes"
  | cipher e => e.message

/-- The fields of the error as they are described. -/
def fields : TreeError → List (String × String)
  | invalidConfig reason => [("reason", Text.quoted reason)]
  | invalidRange first last => [("from", toString first), ("to", toString last)]
  | rangeTooLarge first last => [("from", toString first), ("to", toString last)]
  | keyOutOfRange leaf first last =>
    [("id", toString leaf), ("first", toString first), ("last", toString last)]
  | notOwner => []
  | emptyNodeSet => []
  | nodeTooDeep depth max => [("depth", toString depth), ("max", toString max)]
  | nodeOutOfTree depth number => [("depth", toString depth), ("node_nr", toString number)]
  | nonContiguousNodes expected actual =>
    [("expected_start", toString expected), ("actual_start", toString actual)]
  | invalidNodeEncoding expected actual =>
    [("expected", toString expected), ("actual", toString actual)]
  | trailingNodeBytes remainder => [("remainder", toString remainder)]
  | cipher _ => []

/-- The error as a record. -/
def description : TreeError → String
  | cipher e => Text.wrapped "Crypto" e.description
  | e => Text.record e.name e.fields

/-- Whether shared nodes or their encoding are at fault (`is_bad_share`). -/
def isBadShare : TreeError → Bool
  | emptyNodeSet => true
  | nodeTooDeep .. => true
  | nodeOutOfTree .. => true
  | nonContiguousNodes .. => true
  | invalidNodeEncoding .. => true
  | trailingNodeBytes _ => true
  | _ => false

end TreeError

end RangeKeys
