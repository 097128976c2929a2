import RangeKeys.Proofs.Masking.Boundary
import RangeKeys.Proofs.Masking.Regrouping

/-!
# Batches of values

The boundary of a batch is derived once for all of its values. Nothing can fail after it, so a batch
ends as its values do one by one. Batches of the same ids are added position by position, and at
each position the inner words of the id cancel as they do for a single series.
-/

namespace RangeKeys

namespace Attempt

variable {ε α β γ : Type}

/-- The batch ends in the results of the single attempts, in their order, or else in an error in
which each of them ends. -/
def EndsAsEach (batch : Attempt ε (List α)) (singles : List (Attempt ε α)) : Prop :=
  (∃ results, batch.outcome = .ok results ∧ singles.map outcome = results.map .ok) ∨
    ∃ e, batch.outcome = .error e ∧ ∀ single ∈ singles, single.outcome = .error e

/-- What comes first may be done once for all items, if nothing fails after it. -/
theorem endsAsEach_bind_mapM {x : Attempt ε β} {f : β → γ → Attempt ε α} {g : β → γ → α}
    (items : List γ) (never_fails : ∀ b item, (f b item).outcome = .ok (g b item)) :
    EndsAsEach (x >>= fun b => items.mapM (f b))
      (items.map fun item => x >>= fun b => f b item) := by
  cases started : x.outcome with
  | ok b =>
    refine .inl ⟨items.map (g b), ?_, ?_⟩
    · rw [outcome_bind, started]
      exact outcome_mapM fun item _ => never_fails b item
    · rw [List.map_map, List.map_map]
      refine List.map_congr_left fun item _ => ?_
      show (x >>= fun b => f b item).outcome = .ok (g b item)
      rw [outcome_bind, started]
      exact never_fails b item
  | error e =>
    refine .inr ⟨e, ?_, fun single mem => ?_⟩
    · rw [outcome_bind, started]
      rfl
    · obtain ⟨item, -, rfl⟩ := List.mem_map.1 mem
      rw [outcome_bind, started]
      rfl

end Attempt

/-! ## Lists of words, position by position -/

/-- The sums of what stands at the same position. -/
def addEach : List (List UInt64) → List UInt64
  | [] => []
  | [row] => row
  | row :: next :: rows => List.zipWith (· + ·) row (addEach (next :: rows))

theorem length_addEach {count : Nat} {rows : List (List UInt64)} (nonempty : rows ≠ [])
    (each : ∀ row ∈ rows, row.length = count) : (addEach rows).length = count := by
  fun_induction addEach rows with
  | case1 => exact absurd rfl nonempty
  | case2 row => exact each row List.mem_cons_self
  | case3 row next rows ih =>
    have rest := ih (List.cons_ne_nil next rows) fun other mem =>
      each other (List.mem_cons_of_mem _ mem)
    rw [List.length_zipWith, each row List.mem_cons_self, rest, Nat.min_self]

/-- Each value masked with the two words of the id at its position. -/
def maskEach (left right : UInt64 → UInt64) (ids values : List UInt64) : List UInt64 :=
  List.zipWith (fun id value => mask value (left id) (right id)) ids values

theorem add_maskEach (left middle right : UInt64 → UInt64) (ids a b : List UInt64) :
    List.zipWith (· + ·) (maskEach left middle ids a) (maskEach middle right ids b) =
      maskEach left right ids (List.zipWith (· + ·) a b) := by
  induction ids generalizing a b with
  | nil => rfl
  | cons id ids ih =>
    cases a with
    | nil => rfl
    | cons value a =>
      cases b with
      | nil => rfl
      | cons other b => exact congrArg₂ List.cons (mask_add_mask ..) (ih a b)

/-- The words of the inner times cancel at every position. -/
theorem addEach_range'_mask (word : UInt64 → Nat → UInt64) (ids : List UInt64)
    (values : Nat → List UInt64) (first more : Nat) :
    addEach ((List.range' first (more + 1)).map fun time =>
      maskEach (word · time) (word · (time + 1)) ids (values time)) =
        maskEach (word · first) (word · (first + more + 1)) ids
          (addEach ((List.range' first (more + 1)).map values)) := by
  induction more generalizing first with
  | zero => rfl
  | succ more ih =>
    have next : first + (more + 1) + 1 = first + 1 + more + 1 := by omega
    have rest := ih (first + 1)
    rw [List.range'_succ, List.map_cons, List.map_cons] at rest
    rw [List.range'_succ, List.range'_succ]
    simp only [List.map_cons, addEach]
    rw [rest, add_maskEach, next]

/-- Unmasking gives back values that have an id each. -/
theorem map_unmask_zip_maskEach (left right : UInt64 → UInt64) {ids values : List UInt64}
    (same_length : values.length = ids.length) :
    ((ids.zip (maskEach left right ids values)).map fun (id, masked) =>
      unmask masked (left id) (right id)) = values := by
  induction ids generalizing values with
  | nil => exact (List.eq_nil_of_length_eq_zero same_length).symm
  | cons id ids ih =>
    cases values with
    | nil => cases same_length
    | cons value values =>
      exact congrArg₂ List.cons (unmask_mask ..) (ih (Nat.succ.inj same_length))

namespace LeafRange

/-- The sums, position by position, of what stands at the leaves of the range. -/
def sumEach (range : LeafRange) (f : Nat → List UInt64) : List UInt64 :=
  addEach (range.toList.map f)

theorem sumEach_congr {range : LeafRange} {f g : Nat → List UInt64}
    (h : ∀ leaf ∈ range, f leaf = g leaf) : range.sumEach f = range.sumEach g := by
  rw [sumEach, sumEach, List.map_congr_left fun leaf mem => h leaf (mem_toList.1 mem)]

theorem sumEach_mask (range : LeafRange) (word : UInt64 → Nat → UInt64) (ids : List UInt64)
    (values : Nat → List UInt64) :
    (range.sumEach fun time => maskEach (word · time) (word · (time + 1)) ids (values time)) =
      maskEach (word · range.first) (word · (range.last + 1)) ids (range.sumEach values) := by
  have joined := addEach_range'_mask word ids values range.first (range.last - range.first)
  rw [Nat.add_sub_cancel' range.first_le_last] at joined
  exact joined

theorem length_sumEach {range : LeafRange} {count : Nat} {f : Nat → List UInt64}
    (each : ∀ leaf ∈ range, (f leaf).length = count) : (range.sumEach f).length = count := by
  apply length_addEach
  · intro empty
    have none := List.map_eq_nil_iff.1 empty
    exact List.not_mem_nil (none ▸ mem_toList.2 range.first_mem)
  · intro row mem
    obtain ⟨leaf, leaf_mem, rfl⟩ := List.mem_map.1 mem
    exact each leaf (mem_toList.1 leaf_mem)

end LeafRange

namespace KeyTree

variable {tree : KeyTree} {keyOf : Nat → Key} {range : LeafRange}

theorem Derives.outcome_encryptBatch {time : Nat} (h : tree.Derives keyOf)
    (held : time ∈ tree.interval) (next_held : time + 1 ∈ tree.interval)
    (values : List (UInt64 × UInt64)) :
    (tree.encryptBatch values (.ofNat time)).outcome =
      .ok (maskEach (fun id => tree.cipher.wordAt (.metadata id) keyOf time)
        (fun id => tree.cipher.wordAt (.metadata id) keyOf (time + 1))
        (values.map Prod.fst) (values.map Prod.snd)) := by
  let single : LeafRange := ⟨time, time, Nat.le_refl time⟩
  have within : single.withNext.Within tree.interval := ⟨held.1, next_held.2⟩
  have boundary := h.outcome_boundarySeeds within
  rw [encryptBatch, Attempt.outcome_bind, boundary, maskEach, List.zipWith_map, List.zipWith_self]
  exact Cipher.outcome_withWordsBatch ..

theorem Derives.outcome_decryptBatch (h : tree.Derives keyOf)
    (held : range.withNext.Within tree.interval) (values : List (UInt64 × UInt64)) :
    (tree.decryptBatch values (.ofNat range.first) (.ofNat range.last)).outcome =
      .ok (values.map fun (id, masked) =>
        unmask masked (tree.cipher.wordAt (.metadata id) keyOf range.first)
          (tree.cipher.wordAt (.metadata id) keyOf (range.last + 1))) := by
  rw [decryptBatch, Attempt.outcome_bind, h.outcome_boundarySeeds held]
  exact Cipher.outcome_withWordsBatch ..

/-- Where a batch could be masked, the leaf and the next one are held. -/
theorem held_of_encryptBatch {values : List (UInt64 × UInt64)} {time : Nat} {masked : List UInt64}
    (time_lt : time < UInt64.size)
    (ended : (tree.encryptBatch values (.ofNat time)).outcome = .ok masked) :
    tree.interval.first ≤ time ∧ time + 1 ≤ tree.interval.last := by
  have accepted := Attempt.verdict_eq_ok_iff.2 ⟨masked, ended⟩
  rw [verdict_encryptBatch, boundaryVerdict_eq_ok_iff,
    UInt64.toNat_ofNat_of_lt' time_lt] at accepted
  exact ⟨accepted.1, accepted.2.2⟩

/-- Batches with the same ids, masked for consecutive times and added position by position, are
unmasked to the sums of their values. -/
theorem outcome_decryptBatch_sums {ids : List UInt64} {batch : Nat → List (UInt64 × UInt64)}
    {masked : Nat → List UInt64} (last_lt : range.last < UInt64.size)
    (same_ids : ∀ time ∈ range, (batch time).map Prod.fst = ids)
    (ended : ∀ time ∈ range,
      (tree.encryptBatch (batch time) (.ofNat time)).outcome = .ok (masked time)) :
    (tree.decryptBatch (ids.zip (range.sumEach masked)) (.ofNat range.first)
      (.ofNat range.last)).outcome =
        .ok (range.sumEach fun time => (batch time).map Prod.snd) := by
  obtain ⟨keyOf, derives⟩ := tree.exists_derives
  let word (id : UInt64) (time : Nat) : UInt64 := tree.cipher.wordAt (.metadata id) keyOf time
  have lt_size (time : Nat) (mem : time ∈ range) : time < UInt64.size :=
    Nat.lt_of_le_of_lt mem.2 last_lt
  have boundary (time : Nat) (mem : time ∈ range) :=
    held_of_encryptBatch (lt_size time mem) (ended time mem)
  have held : range.withNext.Within tree.interval :=
    ⟨(boundary _ range.first_mem).1, (boundary _ range.last_mem).2⟩
  have masked_eq : ∀ time ∈ range, masked time =
      maskEach (word · time) (word · (time + 1)) ids ((batch time).map Prod.snd) := by
    intro time mem
    obtain ⟨first_le, le_last⟩ := boundary time mem
    have masks := derives.outcome_encryptBatch ⟨first_le, Nat.le_of_succ_le le_last⟩
      ⟨Nat.le_succ_of_le first_le, le_last⟩ (batch time)
    rw [ended time mem, same_ids time mem] at masks
    exact Except.ok.inj masks
  have counts : (range.sumEach fun time => (batch time).map Prod.snd).length = ids.length := by
    refine LeafRange.length_sumEach fun time mem => ?_
    rw [List.length_map, ← same_ids time mem, List.length_map]
  rw [derives.outcome_decryptBatch held, LeafRange.sumEach_congr masked_eq, LeafRange.sumEach_mask]
  exact congrArg Except.ok
    (map_unmask_zip_maskEach (word · range.first) (word · (range.last + 1)) counts)

/-- A batch is masked and unmasked as its values are one by one, and fails as each of them does.
What a batch was masked to is unmasked to its values. Batches with the same ids in the same order,
one for each of consecutive times, can be added position by position: their sum is unmasked over
all these times to the sums of the values. -/
theorem batches_end_as_single_values (tree : KeyTree) :
    (∀ values time, (tree.encryptBatch values time).EndsAsEach
      (values.map fun (id, value) => tree.encrypt (.metadata id) value time)) ∧
    (∀ values first last, (tree.decryptBatch values first last).EndsAsEach
      (values.map fun (id, masked) => tree.decrypt (.metadata id) masked first last)) ∧
    (∀ values time masked, (tree.encryptBatch values time).outcome = .ok masked →
      (tree.decryptBatch ((values.map Prod.fst).zip masked) time time).outcome =
        .ok (values.map Prod.snd)) ∧
    ∀ (ids : List UInt64) (range : LeafRange) (batch : Nat → List (UInt64 × UInt64))
      (masked : Nat → List UInt64), range.last < UInt64.size →
      (∀ time ∈ range, (batch time).map Prod.fst = ids) →
      (∀ time ∈ range,
        (tree.encryptBatch (batch time) (.ofNat time)).outcome = .ok (masked time)) →
      (tree.decryptBatch (ids.zip (range.sumEach masked)) (.ofNat range.first)
        (.ofNat range.last)).outcome =
          .ok (range.sumEach fun time => (batch time).map Prod.snd) := by
  refine ⟨fun values time => ?_, fun values first last => ?_, fun values time masked ended => ?_,
    fun ids range batch masked => outcome_decryptBatch_sums⟩
  · exact Attempt.endsAsEach_bind_mapM values fun boundary item =>
      tree.cipher.outcome_withWords mask boundary (.metadata item.1) item.2
  · exact Attempt.endsAsEach_bind_mapM values fun boundary item =>
      tree.cipher.outcome_withWords unmask boundary (.metadata item.1) item.2
  · -- a single time is a range of one
    let single : LeafRange := ⟨time.toNat, time.toNat, Nat.le_refl _⟩
    have summed : (tree.decryptBatch ((values.map Prod.fst).zip (single.sumEach fun _ => masked))
        (.ofNat single.first) (.ofNat single.last)).outcome =
          .ok (single.sumEach fun _ => values.map Prod.snd) := by
      refine outcome_decryptBatch_sums time.toNat_lt_size (fun _ _ => rfl) fun other mem => ?_
      have other_eq : other = time.toNat := Nat.le_antisymm mem.2 mem.1
      rw [other_eq, UInt64.ofNat_toNat]
      exact ended
    have alone (row : List UInt64) : (single.sumEach fun _ => row) = row := by
      simp [LeafRange.sumEach, LeafRange.toList, LeafRange.count, single, addEach]
    rw [alone, alone] at summed
    simp only [single, UInt64.ofNat_toNat] at summed
    exact summed

/-- Of eight leaves, two values of one id and one of the greatest id are summed up over two times;
one of the sums wraps. -/
theorem two_batches_of_three_values_add_up :
    let tree : KeyTree :=
      ⟨.aes, ⟨3, 2, by decide, by decide, by decide⟩, .root ⟨.replicate 16 7⟩⟩
    let greatest : UInt64 := 0xffffffffffffffff
    ∃ a b, (tree.encryptBatch [(9, 20), (9, 1), (greatest, 5)] 2).outcome = .ok a ∧
      (tree.encryptBatch [(9, greatest), (9, 2), (greatest, 6)] 3).outcome = .ok b ∧
      (tree.decryptBatch ([9, 9, greatest].zip (List.zipWith (· + ·) a b)) 2 3).outcome =
        .ok [19, 3, 11] := by
  intro tree greatest
  let range : LeafRange := ⟨2, 3, by decide⟩
  let batch (time : Nat) : List (UInt64 × UInt64) :=
    if time = 2 then [(9, 20), (9, 1), (greatest, 5)] else [(9, greatest), (9, 2), (greatest, 6)]
  have masks (values : List (UInt64 × UInt64)) (time : UInt64)
      (held : tree.boundaryVerdict time time = .ok ()) :
      ∃ masked, (tree.encryptBatch values time).outcome = .ok masked :=
    Attempt.verdict_eq_ok_iff.1 ((tree.verdict_encryptBatch values time).trans held)
  obtain ⟨a, left⟩ := masks (batch 2) 2 (by decide)
  obtain ⟨b, right⟩ := masks (batch 3) 3 (by decide)
  have times (time : Nat) (mem : time ∈ range) : time = 2 ∨ time = 3 :=
    (Nat.lt_or_eq_of_le mem.2).imp_left fun lt => Nat.le_antisymm (Nat.le_of_lt_succ lt) mem.1
  obtain ⟨-, -, -, adds⟩ := batches_end_as_single_values tree
  have summed := adds [9, 9, greatest] range batch (fun time => if time = 2 then a else b)
    (by decide) ?_ ?_
  · have masked_sum : (range.sumEach fun time => if time = 2 then a else b) =
        List.zipWith (· + ·) a b := rfl
    have values_sum : (range.sumEach fun time => (batch time).map Prod.snd) = [19, 3, 11] := by
      decide
    rw [masked_sum, values_sum] at summed
    exact ⟨a, b, left, right, summed⟩
  · intro time mem
    obtain rfl | rfl := times time mem <;> rfl
  · intro time mem
    obtain rfl | rfl := times time mem
    · exact left
    · exact right

end KeyTree

end RangeKeys
