import RangeKeys.Tree.Position

/-!
# Covering a range by subtrees

The cover of a range holds the topmost nodes whose leaves all lie in the range, from left to
right. It is found by climbing from the leaves: on each level the nodes at both edges of what is
left are taken until complete families of siblings remain, and the climb goes on with their
parents.
-/

namespace RangeKeys.Cover

/-- Where the climb stands on a level: the first and the last node still to be covered, and the
nodes taken so far. -/
structure Climb where
  first : Nat
  last : Nat
  taken : List Position

namespace Climb

/-- One more node of the level is taken, unless it was before. -/
def take (depth number : Nat) (climb : Climb) : Climb :=
  { climb with taken := climb.taken.insert ⟨depth, number⟩ }

/-- Takes the node that is left if it is the only one. -/
def takeOnly (depth : Nat) (climb : Climb) : Climb :=
  if climb.first = climb.last then climb.take depth climb.first else climb

/-- Takes the first node unless a family of siblings begins there. -/
def takeFirst (fanout depth : Nat) (climb : Climb) : Climb :=
  if climb.first % fanout = 0 then
    climb
  else
    { climb.take depth climb.first with first := climb.first + 1 }

/-- Takes the last node unless a family of siblings ends there. Nothing is left of node zero. -/
def takeLast (fanout depth : Nat) (climb : Climb) : Except (List Position) Climb :=
  if climb.last % fanout = fanout - 1 then
    .ok climb
  else if climb.last = 0 then
    .error (climb.take depth climb.last).taken
  else
    .ok { climb.take depth climb.last with last := climb.last - 1 }

/-- Takes what must be taken at either edge. When nothing is left the climb is over, and ends in
all that was taken. -/
def round (fanout depth : Nat) (climb : Climb) : Except (List Position) Climb := do
  let climb ← ((climb.takeOnly depth).takeFirst fanout depth).takeLast fanout depth
  if climb.last < climb.first then
    throw climb.taken
  else
    return climb

/-- The given number of rounds on one level. -/
def rounds (fanout depth : Nat) : (count : Nat) → Climb → Except (List Position) Climb
  | 0, climb => .ok climb
  | n + 1, climb => do rounds fanout depth n (← climb.round fanout depth)

/-- The parents of the nodes that are left. -/
def up (fanout : Nat) (climb : Climb) : Climb :=
  { climb with first := climb.first / fanout, last := climb.last / fanout }

/-- The climb from the level at `depth` to the root. -/
def levels (fanout : Nat) : (depth : Nat) → Climb → Except (List Position) Climb
  | 0, climb => climb.rounds fanout 0 (fanout - 1)
  | depth + 1, climb => do
    let climb ← climb.rounds fanout (depth + 1) (fanout - 1)
    levels fanout depth (climb.up fanout)

end Climb

/-- The nodes taken on a climb from the leaves of the range. -/
def taken (shape : Shape) (range : LeafRange) : List Position :=
  match Climb.levels shape.fanout shape.depth ⟨range.first, range.last, []⟩ with
  | .ok climb => climb.taken
  | .error taken => taken

/-- The cover of the range, in the order of the leaves: the positions that `reveal_seeds` finds. -/
def cover (shape : Shape) (range : LeafRange) : List Position :=
  (taken shape range).mergeSort fun a b => (a.leaves shape).first ≤ (b.leaves shape).first

end RangeKeys.Cover
