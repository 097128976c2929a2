import Mathlib.Data.UInt
import RangeKeys.Masking
import RangeKeys.Proofs.KeyTree.Sharing

/-!
# Sums of masked values

In the sum of values masked for consecutive times every inner word is subtracted once and added
once, so only the words of the two outer leaves remain. Whoever can derive these two, the owner or
a receiver, unmasks the sum of the values.
-/

namespace RangeKeys

theorem unmask_mask (value left right : UInt64) :
    unmask (mask value left right) left right = value := by
  simp only [mask, unmask]
  grind

/-- Masks that follow one another join to one. -/
theorem mask_add_mask (a b left middle right : UInt64) :
    mask a left middle + mask b middle right = mask (a + b) left right := by
  simp only [mask]
  grind

namespace LeafRange

/-- The leaves of the range and the one after it. -/
def withNext (range : LeafRange) : LeafRange :=
  ⟨range.first, range.last + 1, Nat.le_succ_of_le range.first_le_last⟩

theorem Within.withNext {a b : LeafRange} (h : a.Within b) : a.withNext.Within b.withNext :=
  ⟨h.1, Nat.succ_le_succ h.2⟩

/-- The sum of what stands at the leaves of the range. -/
def sum (range : LeafRange) (f : Nat → UInt64) : UInt64 :=
  (range.toList.map f).sum

theorem sum_range'_mask (value word : Nat → UInt64) (first more : Nat) :
    ((List.range' first (more + 1)).map fun time =>
      mask (value time) (word time) (word (time + 1))).sum =
        mask ((List.range' first (more + 1)).map value).sum (word first)
          (word (first + more + 1)) := by
  induction more generalizing first with
  | zero => simp
  | succ more ih =>
    have next : first + (more + 1) + 1 = first + 1 + more + 1 := by omega
    rw [List.range'_succ, List.map_cons, List.map_cons, List.sum_cons, List.sum_cons, ih,
      mask_add_mask, next]

theorem sum_mask (range : LeafRange) (value word : Nat → UInt64) :
    (range.sum fun time => mask (value time) (word time) (word (time + 1))) =
      mask (range.sum value) (word range.first) (word (range.last + 1)) := by
  have joined := sum_range'_mask value word range.first (range.last - range.first)
  rw [Nat.add_sub_cancel' range.first_le_last] at joined
  exact joined

theorem sum_congr {range : LeafRange} {f g : Nat → UInt64} (h : ∀ leaf ∈ range, f leaf = g leaf) :
    range.sum f = range.sum g := by
  rw [sum, sum, List.map_congr_left fun leaf mem => h leaf (mem_toList.1 mem)]

end LeafRange

/-- Given the keys of the boundary, nothing can fail. -/
theorem Cipher.outcome_withWords (cipher : Cipher)
    (operation : UInt64 → UInt64 → UInt64 → UInt64) (boundary : Key × Key) (series : Series)
    (value : UInt64) :
    (cipher.withWords operation boundary series value).outcome =
      .ok (operation value (cipher.word boundary.1 series.block).value
        (cipher.word boundary.2 series.block).value) := by
  rw [withWords, seriesWord_eq, seriesWord_eq]
  rfl

/-- Nor can anything fail for a list of values, whatever their ids are. -/
theorem Cipher.outcome_withWordsBatch (cipher : Cipher)
    (operation : UInt64 → UInt64 → UInt64 → UInt64) (boundary : Key × Key)
    (values : List (UInt64 × UInt64)) :
    (cipher.withWordsBatch operation boundary values).outcome =
      .ok (values.map fun (id, value) =>
        operation value (cipher.word boundary.1 (Series.metadata id).block).value
          (cipher.word boundary.2 (Series.metadata id).block).value) :=
  Attempt.outcome_mapM fun (id, value) _ =>
    cipher.outcome_withWords operation boundary (.metadata id) value

/-- The words of a series along the leaves, given the keys of these. -/
def Cipher.wordAt (cipher : Cipher) (series : Series) (keyOf : Nat → Key) (leaf : Nat) : UInt64 :=
  (cipher.word (keyOf leaf) series.block).value

namespace KeyTree

variable {cipher : Cipher} {config : TreeConfig} {tree : KeyTree} {keyOf : Nat → Key}
  {range : LeafRange}

/-- The function gives the key of every leaf that is held. -/
def Derives (tree : KeyTree) (keyOf : Nat → Key) : Prop :=
  ∀ leaf : UInt64, leaf.toNat ∈ tree.interval →
    (tree.seed leaf).outcome = .ok (keyOf leaf.toNat)

theorem FromRoot.derives {root : Key} (h : tree.FromRoot root) :
    tree.Derives (tree.cipher.leafKey tree.shape root) :=
  fun _ held => h.outcome_seed held

theorem Derives.outcome_seed_ofNat {leaf : Nat} (h : tree.Derives keyOf)
    (held : leaf ∈ tree.interval) : (tree.seed (.ofNat leaf)).outcome = .ok (keyOf leaf) := by
  have found := h (.ofNat leaf)
  rw [toNat_ofNat_of_mem held] at found
  exact found held

/-- The boundary of a range has the keys of its first leaf and of the one after its last. -/
theorem Derives.outcome_boundarySeeds (h : tree.Derives keyOf)
    (held : range.withNext.Within tree.interval) :
    (tree.boundarySeeds (.ofNat range.first) (.ofNat range.last)).outcome =
      .ok (keyOf range.first, keyOf (range.last + 1)) := by
  have next_lt : range.last + 1 < UInt64.size := lt_size_of_mem held.last_mem
  have between := LeafRange.between_ofNat (Nat.lt_of_succ_lt next_lt)
  have next_eq : UInt64.ofNat range.last + 1 = .ofNat (range.last + 1) := by
    rw [UInt64.ofNat_add]
    rfl
  have left := h.outcome_seed_ofNat held.first_mem
  have right := h.outcome_seed_ofNat held.last_mem
  simp only [LeafRange.withNext] at left right
  rw [boundarySeeds, Attempt.outcome_bind, Attempt.outcome_liftExcept, between, except_ok_bind,
    if_neg (Nat.ne_of_lt next_lt), next_eq]
  simp only [Attempt.outcome_bind, left, right, Attempt.outcome_pure, except_ok_bind]

theorem Derives.outcome_encrypt {time : Nat} (h : tree.Derives keyOf)
    (held : time ∈ tree.interval) (next_held : time + 1 ∈ tree.interval) (series : Series)
    (value : UInt64) :
    (tree.encrypt series value (.ofNat time)).outcome =
      .ok (mask value (tree.cipher.wordAt series keyOf time)
        (tree.cipher.wordAt series keyOf (time + 1))) := by
  let single : LeafRange := ⟨time, time, Nat.le_refl time⟩
  have within : single.withNext.Within tree.interval := ⟨held.1, next_held.2⟩
  have boundary := h.outcome_boundarySeeds within
  rw [encrypt, Attempt.outcome_bind, boundary]
  exact Cipher.outcome_withWords ..

theorem Derives.outcome_decrypt (h : tree.Derives keyOf)
    (held : range.withNext.Within tree.interval) (series : Series) (masked : UInt64) :
    (tree.decrypt series masked (.ofNat range.first) (.ofNat range.last)).outcome =
      .ok (unmask masked (tree.cipher.wordAt series keyOf range.first)
        (tree.cipher.wordAt series keyOf (range.last + 1))) := by
  rw [decrypt, Attempt.outcome_bind, h.outcome_boundarySeeds held]
  exact Cipher.outcome_withWords ..

/-- The sum of values masked with the words of the leaves is unmasked with the outer two of them. -/
theorem Derives.outcome_decrypt_sum {series : Series} {masked values : Nat → UInt64}
    (h : tree.Derives keyOf) (held : range.withNext.Within tree.interval)
    (masked_eq : ∀ time ∈ range, masked time =
      mask (values time) (tree.cipher.wordAt series keyOf time)
        (tree.cipher.wordAt series keyOf (time + 1))) :
    (tree.decrypt series (range.sum masked) (.ofNat range.first) (.ofNat range.last)).outcome =
      .ok (range.sum values) := by
  rw [h.outcome_decrypt held, LeafRange.sum_congr masked_eq, LeafRange.sum_mask, unmask_mask]

/-- Values that an owner masks for consecutive times can be summed up over any part of the range:
a receiver of what the owner grants for these times and the next one, and the owner as well, gets
the sum of the values from that of the masked values. This holds of the values of the leaves and
of those of each metadata id. -/
theorem receiver_unmasks_sums_of_range {root : List UInt8}
    (made : owner cipher config root = .ok tree) (fits : range.last + 1 ≤ tree.interval.last)
    (values : Nat → UInt64) :
    ∃ granted,
      (tree.reveal (.ofNat range.first) (.ofNat (range.last + 1))).outcome = .ok granted ∧
      ∀ shared : List SeedNode, shared.Perm granted → ∃ other,
        receiver cipher config shared = .ok other ∧
        ∀ series, ∃ masked : Nat → UInt64,
          (∀ time ∈ range,
            (tree.encrypt series (values time) (.ofNat time)).outcome = .ok (masked time)) ∧
          ∀ part : LeafRange, part.Within range →
            (other.decrypt series (part.sum masked) (.ofNat part.first)
              (.ofNat part.last)).outcome = .ok (part.sum values) ∧
            (tree.decrypt series (part.sum masked) (.ofNat part.first)
              (.ofNat part.last)).outcome = .ok (part.sum values) := by
  obtain ⟨valid, top, -, rfl⟩ := owner_eq_ok_iff.1 made
  have next_fits : range.withNext.last < valid.shape.leafCount :=
    Nat.lt_of_le_of_lt fits (last_lt_leafCount _)
  have next_lt : range.withNext.last < UInt64.size :=
    Nat.lt_trans next_fits valid.shape.leafCount_lt
  refine ⟨_, outcome_reveal (LeafRange.between_ofNat next_lt) next_fits, fun shared p => ?_⟩
  obtain ⟨share, accepted, interval_eq, fromRoot⟩ := exists_receiver_of_grant valid next_fits p
  have received : range.withNext.Within (interval ⟨cipher, valid.shape, .granted share⟩) := by
    rw [← interval_eq]
    exact ⟨Nat.le_refl _, Nat.le_refl _⟩
  have owned := received.trans (within_owner ⟨cipher, valid.shape, .granted share⟩ top)
  have owner_derives := (fromRoot_owner cipher valid.shape top).derives
  -- The receiver's nodes are genuine, so both trees give the keys of the same root.
  refine ⟨_, accepted, fun series => ?_⟩
  let word := cipher.wordAt series (cipher.leafKey valid.shape top)
  refine ⟨fun time => mask (values time) (word time) (word (time + 1)), ?_, ?_⟩
  · intro time mem
    have held := LeafRange.within_iff.1 owned time ⟨mem.1, Nat.le_succ_of_le mem.2⟩
    have next_held := LeafRange.within_iff.1 owned (time + 1)
      ⟨Nat.le_succ_of_le mem.1, Nat.succ_le_succ mem.2⟩
    exact owner_derives.outcome_encrypt held next_held series (values time)
  · intro part within
    constructor
    · exact fromRoot.derives.outcome_decrypt_sum (within.withNext.trans received) fun _ _ => rfl
    · exact owner_derives.outcome_decrypt_sum (within.withNext.trans owned) fun _ _ => rfl

/-- Of eight leaves, the values of two times in the middle are summed up; one of them is the
greatest word, so the sum wraps. -/
theorem receiver_unmasks_pair_of_eight_leaves :
    ∃ tree granted other, owner .aes ⟨3, 2⟩ (List.replicate 16 7) = .ok tree ∧
      (tree.reveal 1 5).outcome = .ok granted ∧ receiver .aes ⟨3, 2⟩ granted = .ok other ∧
      ∃ a b, (tree.encrypt .leaf 20 2).outcome = .ok a ∧
        (tree.encrypt .leaf 0xffffffffffffffff 3).outcome = .ok b ∧
        (other.decrypt .leaf (a + b) 2 3).outcome = .ok 19 := by
  have made : owner .aes ⟨3, 2⟩ (List.replicate 16 7) =
      .ok ⟨.aes, ⟨3, 2, by decide, by decide, by decide⟩, .root ⟨.replicate 16 7⟩⟩ := rfl
  let times : LeafRange := ⟨1, 4, by decide⟩
  let middle : LeafRange := ⟨2, 3, by decide⟩
  let values (time : Nat) : UInt64 := if time = 2 then 20 else 0xffffffffffffffff
  obtain ⟨granted, revealed, shared⟩ := receiver_unmasks_sums_of_range made
    (show times.last + 1 ≤ _ by decide) values
  obtain ⟨other, accepted, unmasks⟩ := shared granted (.refl _)
  obtain ⟨masked, encrypted, decrypted⟩ := unmasks .leaf
  have summed := (decrypted middle (by decide)).1
  have masked_sum : middle.sum masked = masked 2 + masked 3 := by
    simp [LeafRange.sum, LeafRange.toList, LeafRange.count, middle, List.range']
  have values_sum : middle.sum values = 19 := by decide
  rw [masked_sum, values_sum] at summed
  exact ⟨_, granted, other, made, revealed, accepted, masked 2, masked 3,
    encrypted 2 (by decide), encrypted 3 (by decide), summed⟩

end KeyTree

end RangeKeys
