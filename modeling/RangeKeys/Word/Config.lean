import RangeKeys.Tree.SeedNode
import RangeKeys.Word.Checked

/-!
# Leaf numbers in words

The number of leaves of a tree, of leaves below a node and of nodes of a level, the first and the
last leaf below a node and the digits of a number, all computed in words of 64 bits. Only the
number of leaves is guarded; the rest is exact for nodes of a tree that has been checked.
-/

namespace RangeKeys

/-- The configuration with which a tree of the shape is made. -/
def Shape.config (shape : Shape) : TreeConfig :=
  ⟨UInt16.ofNat shape.depth, UInt32.ofNat shape.fanout⟩

namespace TreeConfig

/-- The fanout as a word. -/
def base (config : TreeConfig) : UInt64 :=
  config.fanout.toUInt64

/-- The number of leaves, if there can be a tree with so many (`leaf_count`). -/
def leafCount (config : TreeConfig) : Except TreeError UInt64 :=
  if 2 ≤ config.fanout ∧ config.fanout ≤ 256 then
    match Checked.pow? config.base config.depth.toNat with
    | some count => .ok count
    | none => .error config.tooManyLeaves
  else
    .error config.badFanout

/-- The number of leaves below a node of a level (`span`). -/
def span (config : TreeConfig) (depth : UInt16) : Checked UInt64 := do
  let levels ← Checked.sub config.depth depth
  Checked.pow config.base levels.toNat

/-- The number of nodes of a level (`width`). -/
def width (config : TreeConfig) (depth : UInt16) : Checked UInt64 :=
  Checked.pow config.base depth.toNat

/-- The first leaf below the node of a level with the number. -/
def firstLeafAt (config : TreeConfig) (depth : UInt16) (number : UInt64) : Checked UInt64 := do
  Checked.mul number (← config.span depth)

/-- The first leaf below a node (`first_leaf`). -/
def firstLeaf (config : TreeConfig) (node : SeedNode) : Checked UInt64 :=
  config.firstLeafAt node.depth node.number

/-- The last leaf below a node (`last_leaf`). -/
def lastLeaf (config : TreeConfig) (node : SeedNode) : Checked UInt64 := do
  let first ← config.firstLeaf node
  Checked.add first (← Checked.sub (← config.span node.depth) 1)

/-- The lowest digits of a word in front of those that are already known. -/
def lowDigits (base : UInt64) :
    (count : Nat) → (rest : UInt64) → (known : List UInt32) → Checked (List UInt32)
  | 0, _, known => return known
  | n + 1, rest, known => do
    let digit ← Checked.mod rest base
    lowDigits base n (← Checked.div rest base) (digit.toUInt32 :: known)

/-- The lowest `count` digits of a word, most significant first (`base_digits`). -/
def baseDigits (config : TreeConfig) (value : UInt64) (count : UInt16) : Checked (List UInt32) :=
  lowDigits config.base count.toNat value []

end TreeConfig

end RangeKeys
