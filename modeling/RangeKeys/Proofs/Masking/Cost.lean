import RangeKeys.Proofs.KeyTree.PointCost
import RangeKeys.Proofs.Masking.Boundary

/-!
# What masking and unmasking cost

The two keys of a boundary are derived once, one after the other, and each value takes one word
of either key. What is refused costs nothing, save where the first key is had before the second is
refused: the way to the first leaf was gone then in vain.
-/

namespace RangeKeys

open Attempt (Costs)

theorem Cipher.calls_withWords (cipher : Cipher)
    (operation : UInt64 → UInt64 → UInt64 → UInt64) (boundary : Key × Key) (series : Series)
    (value : UInt64) :
    (cipher.withWords operation boundary series value).calls = .ofEncryptions 2 := by
  rw [withWords, seriesWord_eq, seriesWord_eq]
  rfl

theorem Cipher.calls_withWordsBatch (cipher : Cipher)
    (operation : UInt64 → UInt64 → UInt64 → UInt64) (boundary : Key × Key)
    (values : List (UInt64 × UInt64)) :
    (cipher.withWordsBatch operation boundary values).calls =
      .ofEncryptions (2 * values.length) := by
  have total : (cipher.withWordsBatch operation boundary values).calls =
      .ofEncryptions (values.map fun _ => 2).sum :=
    Attempt.calls_mapM fun item _ =>
      ⟨cipher.outcome_withWords operation boundary (.metadata item.1) item.2,
        cipher.calls_withWords operation boundary (.metadata item.1) item.2⟩
  rw [total, List.map_const', List.sum_replicate_nat, Nat.mul_comm]

namespace KeyTree

variable {tree : KeyTree} {first last : UInt64}

/-- The calls that are lost on a boundary that is refused. -/
def lostCalls (tree : KeyTree) (first last : UInt64) : Nat :=
  if first.toNat ≤ last.toNat ∧ last.toNat + 1 < UInt64.size ∧ first.toNat ∈ tree.interval ∧
      last.toNat + 1 ∉ tree.interval then
    tree.levelsTo first.toNat
  else
    0

/-- The second key is asked for if the first is had. -/
theorem calls_boundarySeeds (le : first.toNat ≤ last.toNat)
    (next_lt : last.toNat + 1 < UInt64.size) :
    (tree.boundarySeeds first last).calls = .ofEncryptions (tree.levelsTo first.toNat +
      if first.toNat ∈ tree.interval then tree.levelsTo (last.toNat + 1) else 0) := by
  rw [boundarySeeds, LeafRange.between_of_le le, Attempt.ok_bind, if_neg (Nat.ne_of_lt next_lt)]
  by_cases held : first.toNat ∈ tree.interval
  · obtain ⟨key, derived⟩ := exists_key_of_mem held
    rw [Attempt.calls_bind_of_ok derived, ← map_eq_pure_bind, Attempt.calls_map, calls_seed,
      calls_seed, if_pos held, toNat_add_one next_lt, Calls.ofEncryptions_add]
  · rw [Attempt.calls_bind_of_error (outcome_seed_of_not_mem held), calls_seed, if_neg held,
      Nat.add_zero]

/-- A range that ends before it begins, or after which no leaf comes, is refused at once. -/
theorem calls_boundarySeeds_of_not
    (out_of_order : ¬ (first.toNat ≤ last.toNat ∧ last.toNat + 1 < UInt64.size)) :
    (tree.boundarySeeds first last).calls = .none := by
  rcases Nat.lt_or_ge last.toNat first.toNat with lt | le
  · rw [boundarySeeds, LeafRange.between_of_lt lt]
    rfl
  · have greatest : last.toNat + 1 = UInt64.size :=
      Nat.le_antisymm last.toNat_lt_size (Nat.not_lt.1 fun lt => out_of_order ⟨le, lt⟩)
    rw [boundarySeeds, LeafRange.between_of_le le, Attempt.ok_bind, if_pos greatest]
    rfl

theorem costs_boundarySeeds (tree : KeyTree) (first last : UInt64) :
    Costs (tree.boundarySeeds first last)
      (fun _ => tree.levelsTo first.toNat + tree.levelsTo (last.toNat + 1))
      (tree.lostCalls first last) := by
  have verdict := tree.verdict_boundarySeeds first last
  constructor
  · intro boundary given
    rw [Attempt.verdict_eq_ok_iff.2 ⟨boundary, given⟩, eq_comm,
      boundaryVerdict_eq_ok_iff] at verdict
    obtain ⟨first_le, le, next_le⟩ := verdict
    have held : first.toNat ∈ tree.interval :=
      ⟨first_le, Nat.le_trans le (Nat.le_of_succ_le next_le)⟩
    have next_held : last.toNat + 1 ∈ tree.interval :=
      ⟨Nat.le_succ_of_le (Nat.le_trans first_le le), next_le⟩
    rw [calls_boundarySeeds le (lt_size_of_mem next_held), if_pos held]
  · intro e failed
    by_cases order : first.toNat ≤ last.toNat ∧ last.toNat + 1 < UInt64.size
    · rw [calls_boundarySeeds order.1 order.2, lostCalls]
      by_cases held : first.toNat ∈ tree.interval
      · have next_lost : last.toNat + 1 ∉ tree.interval := by
          intro next_held
          rw [Attempt.verdict_eq_error_iff.2 failed, eq_comm,
            boundaryVerdict_eq_ok_iff.2 ⟨held.1, order.1, next_held.2⟩] at verdict
          cases verdict
        rw [if_pos held, if_pos ⟨order.1, order.2, held, next_lost⟩,
          levelsTo_of_not_mem next_lost, Nat.add_zero]
      · rw [if_neg held, if_neg fun lost => held lost.2.2.1, levelsTo_of_not_mem held]
    · rw [calls_boundarySeeds_of_not order, lostCalls,
        if_neg fun lost => order ⟨lost.1, lost.2.1⟩]
      rfl

section Operations

variable (tree : KeyTree) (series : Series) (values : List (UInt64 × UInt64))
  (value time first last : UInt64)

/-- One value takes two words. -/
theorem costs_encrypt :
    Costs (tree.encrypt series value time)
      (fun _ => tree.levelsTo time.toNat + tree.levelsTo (time.toNat + 1) + 2)
      (tree.lostCalls time time) :=
  (tree.costs_boundarySeeds time time).bind_total
    (fun boundary => ⟨_, tree.cipher.outcome_withWords mask boundary series value⟩)
    fun boundary => tree.cipher.calls_withWords mask boundary series value

theorem costs_decrypt :
    Costs (tree.decrypt series value first last)
      (fun _ => tree.levelsTo first.toNat + tree.levelsTo (last.toNat + 1) + 2)
      (tree.lostCalls first last) :=
  (tree.costs_boundarySeeds first last).bind_total
    (fun boundary => ⟨_, tree.cipher.outcome_withWords unmask boundary series value⟩)
    fun boundary => tree.cipher.calls_withWords unmask boundary series value

theorem costs_encryptBatch :
    Costs (tree.encryptBatch values time)
      (fun _ => tree.levelsTo time.toNat + tree.levelsTo (time.toNat + 1) + 2 * values.length)
      (tree.lostCalls time time) :=
  (tree.costs_boundarySeeds time time).bind_total
    (fun boundary => ⟨_, tree.cipher.outcome_withWordsBatch mask boundary values⟩)
    fun boundary => tree.cipher.calls_withWordsBatch mask boundary values

theorem costs_decryptBatch :
    Costs (tree.decryptBatch values first last)
      (fun _ => tree.levelsTo first.toNat + tree.levelsTo (last.toNat + 1) + 2 * values.length)
      (tree.lostCalls first last) :=
  (tree.costs_boundarySeeds first last).bind_total
    (fun boundary => ⟨_, tree.cipher.outcome_withWordsBatch unmask boundary values⟩)
    fun boundary => tree.cipher.calls_withWordsBatch unmask boundary values

end Operations

end KeyTree

end RangeKeys
