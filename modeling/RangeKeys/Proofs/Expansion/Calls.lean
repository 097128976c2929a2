import Mathlib.Algebra.BigOperators.Group.Finset.Basic
import RangeKeys.Proofs.Expansion.Levels
import RangeKeys.Proofs.Metered.Cost

/-!
# What the levels of an expansion cost

Every key of a level is the child of one key of the level above, so a level costs as many calls as
it holds keys. The whole expansion costs as many as all levels below the seed hold together.
-/

namespace RangeKeys.Cipher

theorem calls_childRun (cipher : Cipher) (seed : Key) (first last : Nat) :
    (cipher.childRun seed first last).calls =
      .ofEncryptions (cipher.childRun seed first last).value.length := by
  have each : ∀ branch ∈ List.range' first (last + 1 - first),
      (cipher.child seed (UInt32.ofNat branch)).calls = .ofEncryptions 1 :=
    fun branch _ => cipher.calls_child seed (UInt32.ofNat branch)
  rw [childRun, Metered.calls_mapM each, Metered.value_mapM, List.map_const', List.sum_replicate_nat,
    List.length_map, Nat.mul_one]

/-- No key of the next level is derived twice, and none is derived in vain. -/
theorem calls_nextLevel (cipher : Cipher) (fanout last first : Nat) (level : List Key) :
    (cipher.nextLevel fanout last first level).calls =
      .ofEncryptions (cipher.nextLevel fanout last first level).value.length := by
  fun_induction nextLevel cipher fanout last first level with
  | case1 first => rfl
  | case2 first seed => exact calls_childRun ..
  | case3 first seed seeds more ih =>
    simp only [Metered.calls_bind, Metered.value_bind, Metered.calls_pure, Metered.value_pure,
      Calls.add_none, calls_childRun, ih, Calls.ofEncryptions_add, List.length_append]

/-- The levels from the one below `first / fanout.pow levels` down to the leaves hold, each, the keys
above the leaves from `first` to `final`. -/
theorem calls_expand_levels (cipher : Cipher) (seed : Key) {fanout first final : Nat}
    (pos : 0 < fanout) (le : first ≤ final) (levels done : Nat) :
    (cipher.expand fanout ((digits fanout levels first).zip (digits fanout levels final))
      ((List.range' (first / fanout.pow levels)
        (final / fanout.pow levels - first / fanout.pow levels + 1)).map
          (cipher.keyBelow fanout seed done))).calls =
      .ofEncryptions (∑ level ∈ Finset.range levels,
        (final / fanout.pow level - first / fanout.pow level + 1)) := by
  induction levels generalizing done with
  | zero => rfl
  | succ levels ih =>
    rw [digits, digits, List.zip_cons_cons, expand, Metered.calls_bind, calls_nextLevel,
      value_nextLevel_digits cipher seed pos le, ih, List.length_map, List.length_range',
      Calls.ofEncryptions_add, Finset.sum_range_succ, Nat.add_comm]

end RangeKeys.Cipher
