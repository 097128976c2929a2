import RangeKeys.Word.Config

/-!
# Climbing in words

The climb that finds the cover of a range, with both edges of what is left kept in words. It ends
early in the nodes taken, or is cut off where an edge would leave the words.
-/

namespace RangeKeys

/-- Where the climb stands, with levels and numbers in words. -/
structure WordClimb where
  first : UInt64
  last : UInt64
  taken : List (UInt16 × UInt64)

namespace WordClimb

/-- A step of the climb, which may end it in the nodes that were taken. -/
abbrev Step (α : Type) := ExceptT (List (UInt16 × UInt64)) Checked α

/-- One more node of the level is taken, unless it was before. -/
def take (depth : UInt16) (number : UInt64) (climb : WordClimb) : WordClimb :=
  { climb with taken := climb.taken.insert (depth, number) }

/-- Takes the node that is left if it is the only one. -/
def takeOnly (depth : UInt16) (climb : WordClimb) : WordClimb :=
  if climb.first = climb.last then climb.take depth climb.first else climb

/-- Takes the first node unless a family of siblings begins there. -/
def takeFirst (base : UInt64) (depth : UInt16) (climb : WordClimb) : Checked WordClimb := do
  if (← Checked.mod climb.first base) = 0 then
    return climb
  else
    return { climb.take depth climb.first with first := ← Checked.add climb.first 1 }

/-- Takes the last node unless a family of siblings ends there. Nothing is left of node zero. -/
def takeLast (base : UInt64) (depth : UInt16) (climb : WordClimb) : Step WordClimb := do
  let greatest : UInt64 ← (Checked.sub base 1 : Checked UInt64)
  if (← Checked.mod climb.last base) = greatest then
    return climb
  else if climb.last = 0 then
    throw (climb.take depth climb.last).taken
  else
    let last : UInt64 ← (Checked.sub climb.last 1 : Checked UInt64)
    return { climb.take depth climb.last with last := last }

/-- Takes what must be taken at either edge, and ends the climb when nothing is left. -/
def round (base : UInt64) (depth : UInt16) (climb : WordClimb) : Step WordClimb := do
  let climb ← (climb.takeOnly depth).takeFirst base depth
  let climb ← climb.takeLast base depth
  if climb.last < climb.first then
    throw climb.taken
  else
    return climb

/-- The given number of rounds on one level. -/
def rounds (base : UInt64) (depth : UInt16) : (count : Nat) → WordClimb → Step WordClimb
  | 0, climb => return climb
  | n + 1, climb => do rounds base depth n (← climb.round base depth)

/-- The parents of the nodes that are left. -/
def up (base : UInt64) (climb : WordClimb) : Checked WordClimb := do
  return { climb with
    first := ← Checked.div climb.first base
    last := ← Checked.div climb.last base }

/-- All rounds on the level, and the parents of the nodes that are left. -/
def level (base : UInt64) (depth : Nat) (climb : WordClimb) : Step WordClimb := do
  let climb ← climb.rounds base (UInt16.ofNat depth) (base.toNat - 1)
  climb.up base

/-- The climb from the level at `depth` past the root. -/
def levels (base : UInt64) : (depth : Nat) → WordClimb → Step WordClimb
  | 0, climb => climb.level base 0
  | depth + 1, climb => do levels base depth (← climb.level base (depth + 1))

/-- All nodes taken until the climb is over. -/
def nodesTaken (climbing : Step WordClimb) : Checked (List (UInt16 × UInt64)) := do
  match ← climbing.run with
  | .ok climb => return climb.taken
  | .error taken => return taken

end WordClimb

namespace TreeConfig

/-- The nodes taken on a climb from the leaves of a range. -/
def taken (config : TreeConfig) (first last : UInt64) : Checked (List (UInt16 × UInt64)) :=
  WordClimb.nodesTaken (WordClimb.levels config.base config.depth.toNat ⟨first, last, []⟩)

/-- The nodes in the order of their first leaves. -/
def sortByFirstLeaf {α : Type} (firstLeaf : α → Checked UInt64) (items : List α) :
    Checked (List α) := do
  let keyed ← items.mapM fun item => return (← firstLeaf item, item)
  return (keyed.mergeSort fun a b => a.1 ≤ b.1).map Prod.snd

/-- The cover of a range, in the order of the leaves. -/
def cover (config : TreeConfig) (first last : UInt64) : Checked (List (UInt16 × UInt64)) := do
  sortByFirstLeaf (fun (depth, number) => config.firstLeafAt depth number)
    (← config.taken first last)

end TreeConfig

end RangeKeys
