import RangeKeys.Tree.LeafRange

/-!
# The shape of a tree

A tree has a depth, the same for all its leaves, and a fanout, the same for all its inner
nodes. Its leaves are numbered from zero, and there must be fewer of them than a word can
count.
-/

namespace RangeKeys

/-- A requested depth and fanout (`KeyTreeConfig`). -/
structure TreeConfig where
  depth : UInt16 := 0
  fanout : UInt32 := 2
deriving DecidableEq

/-- The greatest fanout of a tree (`MAX_FANOUT`). -/
def maxFanout : Nat := 256

/-- A depth and a fanout that a tree can have: a `KeyTreeConfig` that has been judged. -/
structure Shape where
  depth : Nat
  fanout : Nat
  two_le_fanout : 2 ≤ fanout
  fanout_le_max : fanout ≤ maxFanout
  leaves_fit : fanout.pow depth < UInt64.size
deriving DecidableEq

namespace Shape

/-- The number of nodes that stand `levels` levels below a node. -/
def descendants (shape : Shape) (levels : Nat) : Nat :=
  shape.fanout.pow levels

/-- The number of leaves (`leaf_count`). -/
def leafCount (shape : Shape) : Nat :=
  shape.descendants shape.depth

theorem fanout_pos (shape : Shape) : 0 < shape.fanout :=
  Nat.lt_of_lt_of_le (by decide) shape.two_le_fanout

theorem descendants_pos (shape : Shape) (levels : Nat) : 0 < shape.descendants levels :=
  Nat.pow_pos shape.fanout_pos

/-- Already a binary tree of depth 64 has too many leaves. -/
theorem depth_lt (shape : Shape) : shape.depth < 64 := by
  have h : 2 ^ shape.depth < 2 ^ 64 :=
    Nat.lt_of_le_of_lt (Nat.pow_le_pow_left shape.two_le_fanout _) shape.leaves_fit
  exact (Nat.pow_lt_pow_iff_right (by decide)).1 h

/-- The shape as a record. -/
def description (shape : Shape) : String :=
  Text.record "KeyTreeConfig"
    [("depth", toString shape.depth), ("fanout", toString shape.fanout)]

end Shape

namespace TreeConfig

/-- The error for a fanout that no tree has. -/
def badFanout (config : TreeConfig) : TreeError :=
  .invalidConfig s!"fanout {config.fanout.toNat} outside 2..={maxFanout}"

/-- The error for a tree of more leaves than a word can count. -/
def tooManyLeaves (config : TreeConfig) : TreeError :=
  .invalidConfig s!"{config.fanout.toNat}^{config.depth.toNat} leaves overflow u64"

/-- The shape with the requested depth and fanout. The fanout is judged before the number of
leaves (`validate`). -/
def shape (config : TreeConfig) : Except TreeError Shape :=
  let depth := config.depth.toNat
  let fanout := config.fanout.toNat
  if range : 2 ≤ fanout ∧ fanout ≤ maxFanout then
    if fit : fanout.pow depth < UInt64.size then
      .ok ⟨depth, fanout, range.1, range.2, fit⟩
    else
      .error config.tooManyLeaves
  else
    .error config.badFanout

end TreeConfig

end RangeKeys
