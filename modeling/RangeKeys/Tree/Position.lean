import RangeKeys.Tree.Digits
import RangeKeys.Tree.Shape

/-!
# Positions in a tree

A node is addressed by its depth and its number within that level. Below it lies a run of
leaves, and the path that leads to it from the root spells its number at the base of the
fanout.
-/

namespace RangeKeys

/-- The place of a node. -/
structure Position where
  depth : Nat
  number : Nat
deriving DecidableEq

namespace Position

variable (shape : Shape)

/-- The place of the root. -/
def root : Position := ⟨0, 0⟩

/-- The tree has a node there. -/
def Exists (p : Position) : Prop :=
  p.depth ≤ shape.depth ∧ p.number < shape.descendants p.depth

instance (p : Position) : Decidable (p.Exists shape) :=
  inferInstanceAs (Decidable (_ ∧ _))

/-- The number of leaves below any node of that depth (`span`). -/
def width (p : Position) : Nat :=
  shape.descendants (shape.depth - p.depth)

theorem width_pos (p : Position) : 0 < p.width shape :=
  shape.descendants_pos _

/-- The leaves below the node (`first_leaf`, `last_leaf`). -/
def leaves (p : Position) : LeafRange :=
  let start := p.number * p.width shape
  ⟨start, start + (p.width shape - 1), Nat.le_add_right ..⟩

/-- The branches taken from the root. -/
def path (p : Position) : List UInt32 :=
  (digits shape.fanout p.depth p.number).map UInt32.ofNat

/-- The branches taken from the node to a leaf below it. -/
def pathTo (p : Position) (leaf : Nat) : List UInt32 :=
  (digits shape.fanout (shape.depth - p.depth) leaf).map UInt32.ofNat

end Position

end RangeKeys
