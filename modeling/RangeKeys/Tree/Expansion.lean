import RangeKeys.Derivation

/-!
# Expanding a subtree

The keys of a run of leaves are derived level by level, so that a key on the way to several of
them is derived once. On each level all children are derived, save that the first key has none to
the left of the way to the first leaf, and the last key none to the right of the way to the last.
-/

namespace RangeKeys.Cipher

/-- The children of a key from one branch to another. -/
def childRun (cipher : Cipher) (seed : Key) (first last : Nat) : Metered (List Key) :=
  (List.range' first (last + 1 - first)).mapM fun branch =>
    cipher.child seed (UInt32.ofNat branch)

/-- The children of the keys of a level, those of the first key from the branch `first` on and
those of the last key up to the branch `last`. -/
def nextLevel (cipher : Cipher) (fanout last : Nat) :
    (first : Nat) → (level : List Key) → Metered (List Key)
  | _, [] => return []
  | first, [seed] => cipher.childRun seed first last
  | first, seed :: seeds => do
    let children ← cipher.childRun seed first (fanout - 1)
    return children ++ (← cipher.nextLevel fanout last 0 seeds)

/-- The keys that are reached from those of a level, given the branches to the first and to the
last of them (the levels of `expand`). -/
def expand (cipher : Cipher) (fanout : Nat) :
    (branches : List (Nat × Nat)) → (level : List Key) → Metered (List Key)
  | [], level => return level
  | (first, last) :: branches, level => do
    cipher.expand fanout branches (← cipher.nextLevel fanout last first level)

end RangeKeys.Cipher
