import Mathlib.Algebra.BigOperators.Group.List.Basic
import RangeKeys.Proofs.KeyTree.LeafKeys
import RangeKeys.Proofs.Masking.Aggregation

/-!
# Sums of sums

A sum over a range may be unmasked as a whole or chunk by chunk, however the range is split and
whatever words are given for the chunks: at every place where two chunks meet, the word that the
left one returns is the word that the right one takes away. A range of one leaf shows that masking
and unmasking undo each other.
-/

namespace RangeKeys

theorem mask_unmask (masked left right : UInt64) :
    mask (unmask masked left right) left right = masked := by
  simp only [mask, unmask]
  grind

/-- Masking with two words, which unmasking with the same words undoes. -/
def masking (left right : UInt64) : Equiv.Perm UInt64 where
  toFun value := mask value left right
  invFun masked := unmask masked left right
  left_inv value := unmask_mask value left right
  right_inv masked := mask_unmask masked left right

namespace LeafRange

/-- What stands at the leaves of a range adds up part by part. -/
theorem Partition.sum_parts {parts : List LeafRange} {whole : LeafRange}
    (h : Partition parts whole) (f : Nat → UInt64) :
    (parts.map fun part => part.sum f).sum = whole.sum f := by
  let ordered := parts.mergeSort fun a b => a.first ≤ b.first
  have perm : ordered.Perm parts := List.mergeSort_perm ..
  have partition : Partition ordered whole := h.perm perm.symm
  have before : ordered.Pairwise Before := by
    refine ((sorted_by_first id parts).and partition.disjoint).imp ?_
    intro a b apart
    exact before_of_not_meets apart.2 apart.1
  rw [← (perm.map _).sum_eq, sum, ← partition.flatMap_toList before, List.map_flatMap,
    List.flatMap_def, List.sum_flatten, List.map_map]
  rfl

/-- Over a range, unmasking takes away what masking with the words along the leaves adds. -/
theorem unmask_add_sum (range : LeafRange) (masked : UInt64) (word : Nat → UInt64) :
    unmask masked (word range.first) (word (range.last + 1)) +
      (range.sum fun time => mask 0 (word time) (word (time + 1))) = masked := by
  have nothing : (range.sum fun _ => 0) = 0 := by simp [sum]
  rw [sum_mask, nothing]
  simp only [mask, unmask]
  grind

/-- Unmasking the parts of a range one by one unmasks the whole. -/
theorem Partition.sum_unmask {chunks : List (LeafRange × UInt64)} {whole : LeafRange}
    (h : Partition (chunks.map Prod.fst) whole) (word : Nat → UInt64) :
    (chunks.map fun chunk =>
      unmask chunk.2 (word chunk.1.first) (word (chunk.1.last + 1))).sum =
        unmask (chunks.map Prod.snd).sum (word whole.first) (word (whole.last + 1)) := by
  have along := h.sum_parts fun time => mask 0 (word time) (word (time + 1))
  rw [List.map_map] at along
  apply add_right_cancel (b := whole.sum fun time => mask 0 (word time) (word (time + 1)))
  rw [unmask_add_sum, ← along, ← List.sum_map_add]
  refine congrArg List.sum (List.map_congr_left fun chunk _ => ?_)
  exact unmask_add_sum chunk.1 chunk.2 word

end LeafRange

namespace KeyTree

variable {tree : KeyTree} {keyOf : Nat → Key}

/-- Whatever nodes a tree holds, each leaf has one key. -/
theorem exists_derives (tree : KeyTree) : ∃ keyOf, tree.Derives keyOf := by
  have : Nonempty Key := ⟨⟨.replicate 16 0⟩⟩
  have each : ∀ leaf : UInt64, leaf.toNat ∈ tree.interval →
      ∃ key, (tree.seed leaf).outcome = .ok key := fun _ held => exists_key_of_mem held
  choose! keyOf derives using each
  refine ⟨fun leaf => keyOf (.ofNat leaf), fun leaf held => ?_⟩
  show (tree.seed leaf).outcome = .ok (keyOf (.ofNat leaf.toNat))
  rw [UInt64.ofNat_toNat]
  exact derives leaf held

/-- The sum of chunks is unmasked to the sum of the unmasked chunks, whatever words the chunks are
and however they split the range. At one leaf masking is a bijection of words, and unmasking is
its inverse. This holds of the values of the leaves and of those of each metadata id. -/
theorem decrypt_adds_up_over_splits (tree : KeyTree) (series : Series) :
    (∀ (whole : LeafRange) (chunks : List (LeafRange × UInt64)),
      tree.interval.first ≤ whole.first → whole.last + 1 ≤ tree.interval.last →
      LeafRange.Partition (chunks.map Prod.fst) whole →
      ∃ parts : List UInt64,
        (chunks.map fun (chunk, masked) =>
          (tree.decrypt series masked (.ofNat chunk.first) (.ofNat chunk.last)).outcome) =
            parts.map .ok ∧
        (tree.decrypt series (chunks.map Prod.snd).sum (.ofNat whole.first)
          (.ofNat whole.last)).outcome = .ok parts.sum) ∧
    ∀ time : UInt64, tree.interval.first ≤ time.toNat → time.toNat < tree.interval.last →
      ∃ bijection : Equiv.Perm UInt64,
        (∀ value, (tree.encrypt series value time).outcome = .ok (bijection value)) ∧
        ∀ masked, (tree.decrypt series masked time time).outcome =
          .ok (bijection.symm masked) := by
  obtain ⟨keyOf, derives⟩ := tree.exists_derives
  let word := tree.cipher.wordAt series keyOf
  constructor
  · intro whole chunks first_le last_le partition
    have held : whole.withNext.Within tree.interval := ⟨first_le, last_le⟩
    refine ⟨chunks.map fun chunk =>
      unmask chunk.2 (word chunk.1.first) (word (chunk.1.last + 1)), ?_, ?_⟩
    · rw [List.map_map]
      refine List.map_congr_left fun chunk mem => ?_
      have within := partition.within (List.mem_map_of_mem mem)
      exact derives.outcome_decrypt (within.withNext.trans held) series chunk.2
    · rw [derives.outcome_decrypt held, partition.sum_unmask word]
  · intro time first_le lt
    let single : LeafRange := ⟨time.toNat, time.toNat, Nat.le_refl _⟩
    have within : single.withNext.Within tree.interval := ⟨first_le, lt⟩
    have held : time.toNat ∈ tree.interval := ⟨first_le, Nat.le_of_lt lt⟩
    have next_held : time.toNat + 1 ∈ tree.interval := ⟨Nat.le_succ_of_le first_le, lt⟩
    refine ⟨masking (word time.toNat) (word (time.toNat + 1)), fun value => ?_, fun masked => ?_⟩
    · have masked := derives.outcome_encrypt held next_held series value
      rw [UInt64.ofNat_toNat] at masked
      exact masked
    · have unmasked := derives.outcome_decrypt within series masked
      rw [UInt64.ofNat_toNat] at unmasked
      exact unmasked

/-- Of eight leaves, the chunks of two and of three times add up to that of all five, whichever is
given first; their sum wraps. -/
theorem two_chunks_of_five_times_add_up :
    let tree : KeyTree :=
      ⟨.aes, ⟨3, 2, by decide, by decide, by decide⟩, .root ⟨.replicate 16 7⟩⟩
    ∃ a b, (tree.decrypt .leaf 7 4 5).outcome = .ok a ∧
      (tree.decrypt .leaf 0xffffffffffffffff 1 3).outcome = .ok b ∧
      (tree.decrypt .leaf 6 1 5).outcome = .ok (a + b) := by
  intro tree
  let whole : LeafRange := ⟨1, 5, by decide⟩
  let chunks : List (LeafRange × UInt64) :=
    [(⟨4, 5, by decide⟩, 7), (⟨1, 3, by decide⟩, 0xffffffffffffffff)]
  have partition : LeafRange.Partition (chunks.map Prod.fst) whole := by
    refine ⟨by decide, fun leaf => ?_⟩
    simp only [chunks, whole, List.map_cons, List.map_nil, List.mem_cons, List.not_mem_nil,
      or_false, exists_eq_or_imp, exists_eq_left, LeafRange.mem_def]
    omega
  obtain ⟨parts, each, total⟩ := (decrypt_adds_up_over_splits tree .leaf).1 whole chunks
    (by decide) (by decide) partition
  obtain ⟨a, _, rfl, left, each⟩ := List.map_eq_cons_iff.1 each.symm
  obtain ⟨b, _, rfl, right, each⟩ := List.map_eq_cons_iff.1 each
  obtain rfl := List.map_eq_nil_iff.1 each
  rw [List.sum_cons, List.sum_singleton] at total
  exact ⟨a, b, left.symm, right.symm, total⟩

end KeyTree

end RangeKeys
