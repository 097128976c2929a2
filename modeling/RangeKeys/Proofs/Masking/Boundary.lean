import RangeKeys.Proofs.KeyTree.LeafKeys
import RangeKeys.Proofs.Masking.Aggregation

/-!
# Which ranges can be masked and unmasked

Masking and unmasking ask for the keys of two leaves, the first of the range and the one after its
last. Once these are had nothing can fail any more, so it depends on the range alone, and not on
the values or their ids, whether there is an answer and what is wrong otherwise.
-/

namespace RangeKeys

namespace Attempt

variable {ε α β : Type}

/-- How the attempt ended, without the value. -/
def verdict (x : Attempt ε α) : Except ε Unit :=
  x.outcome.map fun _ => ()

@[simp] theorem verdict_pure (a : α) : (pure a : Attempt ε α).verdict = .ok () := rfl

theorem verdict_eq_ok_iff {x : Attempt ε α} : x.verdict = .ok () ↔ ∃ a, x.outcome = .ok a := by
  rw [verdict]
  cases x.outcome <;> simp [Except.map]

theorem verdict_eq_error_iff {x : Attempt ε α} {e : ε} :
    x.verdict = .error e ↔ x.outcome = .error e := by
  rw [verdict]
  cases x.outcome <;> simp [Except.map]

/-- If what follows always ends in the same way, the value on which it goes on does not matter. -/
theorem verdict_bind {x : Attempt ε α} {f : α → Attempt ε β} {rest : Except ε Unit}
    (next : ∀ a, (f a).verdict = rest) : (x >>= f).verdict = x.verdict >>= fun _ => rest := by
  rw [verdict, outcome_bind, verdict]
  cases x.outcome with
  | ok a => exact next a
  | error e => rfl

end Attempt

theorem Cipher.verdict_withWords (cipher : Cipher)
    (operation : UInt64 → UInt64 → UInt64 → UInt64) (boundary : Key × Key) (series : Series)
    (value : UInt64) : (cipher.withWords operation boundary series value).verdict = .ok () :=
  Attempt.verdict_eq_ok_iff.2 ⟨_, cipher.outcome_withWords operation boundary series value⟩

theorem Cipher.verdict_withWordsBatch (cipher : Cipher)
    (operation : UInt64 → UInt64 → UInt64 → UInt64) (boundary : Key × Key)
    (values : List (UInt64 × UInt64)) :
    (cipher.withWordsBatch operation boundary values).verdict = .ok () :=
  Attempt.verdict_eq_ok_iff.2 ⟨_, cipher.outcome_withWordsBatch operation boundary values⟩

namespace KeyTree

variable {tree : KeyTree} {first last : UInt64}

/-- What is wrong with a range that is to be unmasked, the first of the reasons that apply: it ends
before it begins, no leaf comes after it, its first leaf is not held, the leaf after it is not
held. -/
def boundaryVerdict (tree : KeyTree) (first last : UInt64) : Except TreeError Unit :=
  if last.toNat < first.toNat then
    .error (.invalidRange first.toNat last.toNat)
  else if last.toNat + 1 = UInt64.size then
    .error (.keyOutOfRange last.toNat tree.interval.first tree.interval.last)
  else if first.toNat ∉ tree.interval then
    .error (.keyOutOfRange first.toNat tree.interval.first tree.interval.last)
  else if tree.interval.last < last.toNat + 1 then
    .error (.keyOutOfRange (last.toNat + 1) tree.interval.first tree.interval.last)
  else
    .ok ()

theorem boundaryVerdict_eq_ok_iff :
    tree.boundaryVerdict first last = .ok () ↔
      tree.interval.first ≤ first.toNat ∧ first.toNat ≤ last.toNat ∧
        last.toNat + 1 ≤ tree.interval.last := by
  have last_lt : tree.interval.last < UInt64.size :=
    Nat.lt_trans tree.last_lt_leafCount tree.shape.leafCount_lt
  rw [boundaryVerdict]
  split_ifs with lt greatest first_held past
  · exact iff_of_false nofun fun held => Nat.not_lt.2 held.2.1 lt
  · exact iff_of_false nofun fun held => by omega
  · exact iff_of_false nofun fun held => Nat.not_lt.2 held.2.2 past
  · exact iff_of_true rfl ⟨first_held.1, Nat.not_lt.1 lt, Nat.not_lt.1 past⟩
  · exact iff_of_false nofun fun held => first_held ⟨held.1, by omega⟩

theorem toNat_add_one (next_lt : last.toNat + 1 < UInt64.size) :
    (last + 1).toNat = last.toNat + 1 := by
  rw [UInt64.toNat_add]
  exact Nat.mod_eq_of_lt next_lt

/-- The key of a leaf is refused by the check at the start or not at all. -/
theorem verdict_seed (tree : KeyTree) (leaf : UInt64) :
    (tree.seed leaf).verdict = tree.checkHeld leaf := by
  by_cases held : leaf.toNat ∈ tree.interval
  · rw [Attempt.verdict_eq_ok_iff.2 (exists_key_of_mem held), checkHeld_eq_ok held]
  · rw [Attempt.verdict_eq_error_iff.2 (outcome_seed_of_not_mem held), checkHeld_eq_error held]

theorem verdict_two_seeds (tree : KeyTree) (a b : UInt64) :
    (do return (← tree.seed a, ← tree.seed b) : Attempt TreeError (Key × Key)).verdict =
      tree.checkHeld a >>= fun _ => tree.checkHeld b := by
  have second : ∀ left, (do return (left, ← tree.seed b) : Attempt TreeError (Key × Key)).verdict =
      tree.checkHeld b := by
    intro left
    rw [Attempt.verdict_bind fun _ => Attempt.verdict_pure _, verdict_seed]
    exact bind_pure_unit
  rw [Attempt.verdict_bind second, verdict_seed]

/-- The checks on the way to the two keys come in the order of the reasons. -/
theorem verdict_boundarySeeds (tree : KeyTree) (first last : UInt64) :
    (tree.boundarySeeds first last).verdict = tree.boundaryVerdict first last := by
  rw [boundarySeeds, boundaryVerdict]
  rcases Nat.lt_or_ge last.toNat first.toNat with lt | le
  · rw [LeafRange.between_of_lt lt, if_pos lt]
    rfl
  rw [LeafRange.between_of_le le, Attempt.ok_bind, if_neg (Nat.not_lt.2 le)]
  by_cases greatest : last.toNat + 1 = UInt64.size
  · rw [if_pos greatest, if_pos greatest]
    rfl
  -- no wrap from here on, so the second key asked for is that of the leaf after the last
  have next_eq := toNat_add_one (Nat.lt_of_le_of_ne last.toNat_lt_size greatest)
  rw [if_neg greatest, if_neg greatest, verdict_two_seeds]
  by_cases held : first.toNat ∈ tree.interval
  · rw [if_neg (not_not_intro held), checkHeld_eq_ok held, except_ok_bind, checkHeld, outOfRange,
      next_eq]
    by_cases fits : last.toNat + 1 ≤ tree.interval.last
    · rw [if_neg (Nat.not_lt.2 fits), if_pos ⟨Nat.le_trans held.1 (Nat.le_succ_of_le le), fits⟩]
    · rw [if_pos (Nat.not_le.1 fits), if_neg fun next_held => fits next_held.2]
  · rw [if_pos held, checkHeld_eq_error held]
    rfl

/-- What never fails, given the keys of a boundary, ends as the search for these keys does. -/
theorem verdict_of_boundary {α : Type} {f : Key × Key → Attempt TreeError α}
    (never_fails : ∀ boundary, (f boundary).verdict = .ok ()) :
    (tree.boundarySeeds first last >>= f).verdict = tree.boundaryVerdict first last := by
  rw [Attempt.verdict_bind never_fails, verdict_boundarySeeds]
  exact bind_pure_unit

section Operations

variable (tree : KeyTree) (series : Series) (values : List (UInt64 × UInt64))
  (value time first last : UInt64)

theorem verdict_encrypt :
    (tree.encrypt series value time).verdict = tree.boundaryVerdict time time :=
  verdict_of_boundary fun boundary => tree.cipher.verdict_withWords mask boundary series value

theorem verdict_decrypt :
    (tree.decrypt series value first last).verdict = tree.boundaryVerdict first last :=
  verdict_of_boundary fun boundary => tree.cipher.verdict_withWords unmask boundary series value

theorem verdict_encryptBatch :
    (tree.encryptBatch values time).verdict = tree.boundaryVerdict time time :=
  verdict_of_boundary fun boundary => tree.cipher.verdict_withWordsBatch mask boundary values

theorem verdict_decryptBatch :
    (tree.decryptBatch values first last).verdict = tree.boundaryVerdict first last :=
  verdict_of_boundary fun boundary => tree.cipher.verdict_withWordsBatch unmask boundary values

end Operations

/-- Who is granted the leaves of some times and the next one has the boundaries of the ranges of
these times and no others. -/
theorem exists_receiver_of_times {cipher : Cipher} {config : TreeConfig} {root : List UInt8}
    (made : owner cipher config root = .ok tree) {a b : UInt64} (le : a.toNat ≤ b.toNat + 1)
    (fits : b.toNat + 1 ≤ tree.interval.last) :
    ∃ granted, (tree.reveal a (b + 1)).outcome = .ok granted ∧
      ∀ shared : List SeedNode, shared.Perm granted → ∃ other,
        receiver cipher config shared = .ok other ∧
        ∀ first last, other.boundaryVerdict first last = .ok () ↔
          a.toNat ≤ first.toNat ∧ first.toNat ≤ last.toNat ∧ last.toNat ≤ b.toNat := by
  obtain ⟨valid, top, -, rfl⟩ := owner_eq_ok_iff.1 made
  let range : LeafRange := ⟨a.toNat, b.toNat + 1, le⟩
  have range_fits : range.last < valid.shape.leafCount :=
    Nat.lt_of_le_of_lt fits (last_lt_leafCount _)
  have next_eq := toNat_add_one (Nat.lt_trans range_fits valid.shape.leafCount_lt)
  have between : LeafRange.between a (b + 1) = .ok range :=
    LeafRange.between_eq_ok_iff.2 ⟨rfl, next_eq.symm⟩
  refine ⟨_, outcome_reveal between range_fits, fun shared p => ?_⟩
  obtain ⟨share, accepted, interval_eq, -⟩ := exists_receiver_of_grant valid range_fits p
  refine ⟨_, accepted, fun first last => ?_⟩
  rw [boundaryVerdict_eq_ok_iff, interval, KeyTree.share, interval_eq]
  exact and_congr_right fun _ => and_congr_right fun _ => Nat.succ_le_succ_iff

/-- Masking a value for a time, and unmasking one for a range, ends as the boundary of the range
says, whatever the value, its series and the length of a batch are. So what an owner grants for some
times and the next one serves to unmask exactly the ranges of these times, and a single leaf serves
to unmask nothing. -/
theorem masking_needs_just_its_boundary (tree : KeyTree) :
    (∀ series value time,
      (tree.encrypt series value time).verdict = tree.boundaryVerdict time time) ∧
    (∀ values time, (tree.encryptBatch values time).verdict = tree.boundaryVerdict time time) ∧
    (∀ series masked first last,
      (tree.decrypt series masked first last).verdict = tree.boundaryVerdict first last) ∧
    (∀ values first last,
      (tree.decryptBatch values first last).verdict = tree.boundaryVerdict first last) ∧
    (∀ config root, owner tree.cipher config root = .ok tree →
      ∀ a b : UInt64, a.toNat ≤ b.toNat + 1 → b.toNat + 1 ≤ tree.interval.last →
        ∃ granted, (tree.reveal a (b + 1)).outcome = .ok granted ∧
          ∀ shared : List SeedNode, shared.Perm granted → ∃ other,
            receiver tree.cipher config shared = .ok other ∧
            ∀ first last : UInt64,
              let inside :=
                a.toNat ≤ first.toNat ∧ first.toNat ≤ last.toNat ∧ last.toNat ≤ b.toNat
              (∀ series masked,
                (∃ value, (other.decrypt series masked first last).outcome = .ok value) ↔
                  inside) ∧
              ∀ values,
                (∃ sums, (other.decryptBatch values first last).outcome = .ok sums) ↔ inside) ∧
    (tree.interval.first = tree.interval.last → ∀ first last,
      (∀ series masked value, (tree.decrypt series masked first last).outcome ≠ .ok value) ∧
      ∀ values sums, (tree.decryptBatch values first last).outcome ≠ .ok sums) := by
  refine ⟨tree.verdict_encrypt, tree.verdict_encryptBatch, tree.verdict_decrypt,
    tree.verdict_decryptBatch, ?_, ?_⟩
  · intro config root made a b le fits
    obtain ⟨granted, revealed, received⟩ := exists_receiver_of_times made le fits
    refine ⟨granted, revealed, fun shared p => ?_⟩
    obtain ⟨other, accepted, unmaskable_iff⟩ := received shared p
    refine ⟨other, accepted, fun first last => ⟨fun series masked => ?_, fun values => ?_⟩⟩
    · rw [← Attempt.verdict_eq_ok_iff, verdict_decrypt]
      exact unmaskable_iff first last
    · rw [← Attempt.verdict_eq_ok_iff, verdict_decryptBatch]
      exact unmaskable_iff first last
  · intro single first last
    have refused : tree.boundaryVerdict first last ≠ .ok () := by
      rw [Ne, boundaryVerdict_eq_ok_iff]
      omega
    constructor
    · intro series masked value unmasked
      rw [← tree.verdict_decrypt series masked] at refused
      exact refused (Attempt.verdict_eq_ok_iff.2 ⟨value, unmasked⟩)
    · intro values sums unmasked
      rw [← tree.verdict_decryptBatch values] at refused
      exact refused (Attempt.verdict_eq_ok_iff.2 ⟨sums, unmasked⟩)

/-- Of eight leaves the last has no next one to mask with. Who is granted the five from the second
on has the boundaries of ranges of the first four of these, which even an empty batch needs. -/
theorem boundaries_in_eight_leaves :
    ∃ tree granted other, owner .aes ⟨3, 2⟩ (List.replicate 16 7) = .ok tree ∧
      (tree.encrypt .leaf 20 7).verdict = .error (.keyOutOfRange 8 0 7) ∧
      (tree.reveal 1 5).outcome = .ok granted ∧ receiver .aes ⟨3, 2⟩ granted = .ok other ∧
      (∃ sum, (other.decrypt (.metadata 9) 20 1 4).outcome = .ok sum) ∧
      ¬ ∃ sums, (other.decryptBatch [] 1 5).outcome = .ok sums := by
  let tree : KeyTree :=
    ⟨.aes, ⟨3, 2, by decide, by decide, by decide⟩, .root ⟨.replicate 16 7⟩⟩
  have made : owner .aes ⟨3, 2⟩ (List.replicate 16 7) = .ok tree := rfl
  obtain ⟨encrypts, -, -, -, grants, -⟩ := masking_needs_just_its_boundary tree
  obtain ⟨granted, revealed, received⟩ := grants ⟨3, 2⟩ _ made 1 4 (by decide) (by decide)
  obtain ⟨other, accepted, unmasks⟩ := received granted (.refl _)
  refine ⟨tree, granted, other, made, encrypts .leaf 20 7, revealed, accepted, ?_, ?_⟩
  · exact ((unmasks 1 4).1 (.metadata 9) 20).2 (by decide)
  · exact fun answered => absurd (((unmasks 1 5).2 []).1 answered) (by decide)

end KeyTree

end RangeKeys
