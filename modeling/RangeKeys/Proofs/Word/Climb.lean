import RangeKeys.Proofs.Cover.Exactness
import RangeKeys.Proofs.Word.Exactness
import RangeKeys.Word.Cover

/-!
# The climb stays within words

Whenever a round of the climb begins, the edges of what is left are in order and the last one is
not the greatest word. So the first edge can move on by one; the last one moves back only if it is
not zero, and is met by the end of the climb otherwise. The parents of the edges are again in order.
By this invariant the climb in words takes the nodes that the climb in numbers takes.
-/

namespace RangeKeys

open Cover Checked

/-- The place of the node of a level with a number, both given in words. -/
def Position.ofWords (node : UInt16 × UInt64) : Position :=
  ⟨node.1.toNat, node.2.toNat⟩

theorem Position.ofWords_injective : Function.Injective Position.ofWords := by
  rintro ⟨depth, number⟩ ⟨depth', number'⟩ same
  injection same with depth_eq number_eq
  exact Prod.ext (UInt16.toNat_inj.1 depth_eq) (UInt64.toNat_inj.1 number_eq)

namespace WordClimb

variable {base : UInt64} {depth : UInt16} {climb : WordClimb}

/-- The climb in numbers. -/
def numbers (climb : WordClimb) : Climb :=
  ⟨climb.first.toNat, climb.last.toNat, climb.taken.map Position.ofWords⟩

/-- What is left on a level when a round begins. -/
structure InOrder (climb : WordClimb) : Prop where
  first_le_last : climb.first.toNat ≤ climb.last.toNat
  succ_last_lt : climb.last.toNat + 1 < UInt64.size

/-- The step in words goes as the one in numbers: it goes on from a climb for which `Inv` holds, or
the climb is over with the same nodes taken. -/
inductive Follows (Inv : WordClimb → Prop) : Step WordClimb → Except (List Position) Climb → Prop
  | goesOn {climb : WordClimb} (inv : Inv climb) : Follows Inv (pure climb) (.ok climb.numbers)
  | done (taken : List (UInt16 × UInt64)) :
    Follows Inv (throw taken) (.error (taken.map Position.ofWords))

theorem Follows.bind {P Q : WordClimb → Prop} {x : Step WordClimb}
    {y : Except (List Position) Climb} {f : WordClimb → Step WordClimb}
    {g : Climb → Except (List Position) Climb} (h : Follows P x y)
    (next : ∀ climb, P climb → Follows Q (f climb) (g climb.numbers)) :
    Follows Q (x >>= f) (y >>= g) := by
  cases h with
  | goesOn inv => exact next _ inv
  | done taken => exact .done taken

/-! ## One round -/

theorem toNat_mod_base (word : UInt64) : (word % base).toNat = word.toNat % base.toNat :=
  UInt64.toNat_mod ..

theorem numbers_take (climb : WordClimb) (depth : UInt16) (number : UInt64) :
    (climb.take depth number).numbers = climb.numbers.take depth.toNat number.toNat := by
  have inserted : (climb.taken.insert (depth, number)).map Position.ofWords =
      (climb.taken.map Position.ofWords).insert (Position.ofWords (depth, number)) := by
    have mem_iff : Position.ofWords (depth, number) ∈ climb.taken.map Position.ofWords ↔
        (depth, number) ∈ climb.taken :=
      List.mem_map_of_injective Position.ofWords_injective
    by_cases mem : (depth, number) ∈ climb.taken
    · rw [List.insert_of_mem mem, List.insert_of_mem (mem_iff.2 mem)]
    · rw [List.insert_of_not_mem mem, List.insert_of_not_mem (mt mem_iff.1 mem)]
      rfl
  simp only [numbers, take, Climb.take, inserted]
  rfl

theorem numbers_takeOnly (climb : WordClimb) (depth : UInt16) :
    (climb.takeOnly depth).numbers = climb.numbers.takeOnly depth.toNat := by
  by_cases only : climb.first = climb.last
  · have only' : climb.numbers.first = climb.numbers.last := congrArg UInt64.toNat only
    rw [takeOnly, if_pos only, Climb.takeOnly, if_pos only', numbers_take]
    rfl
  · have only' : climb.numbers.first ≠ climb.numbers.last := mt UInt64.toNat_inj.1 only
    rw [takeOnly, if_neg only, Climb.takeOnly, if_neg only']

theorem InOrder.takeOnly (inOrder : climb.InOrder) (depth : UInt16) :
    (climb.takeOnly depth).InOrder := by
  unfold WordClimb.takeOnly
  split
  · exact ⟨inOrder.first_le_last, inOrder.succ_last_lt⟩
  · exact inOrder

/-- The first edge has room to move on, and leaves the last one where it is. -/
theorem exists_takeFirst (ne : base ≠ 0) (inOrder : climb.InOrder) (depth : UInt16) :
    ∃ next, climb.takeFirst base depth = .ok next ∧
      next.numbers = climb.numbers.takeFirst base.toNat depth.toNat ∧
        next.last.toNat + 1 < UInt64.size := by
  have first_iff : climb.first % base = 0 ↔ climb.numbers.first % base.toNat = 0 := by
    rw [← UInt64.toNat_inj, toNat_mod_base]
    rfl
  by_cases begins : climb.first % base = 0
  · refine ⟨climb, ?_, ?_, inOrder.succ_last_lt⟩
    · rw [takeFirst, mod_eq_ok ne, except_ok_bind, if_pos begins]
      rfl
    · rw [Climb.takeFirst, if_pos (first_iff.1 begins)]
  · have succ_lt : climb.first.toNat + 1 < UInt64.size :=
      Nat.lt_of_le_of_lt (Nat.succ_le_succ inOrder.first_le_last) inOrder.succ_last_lt
    have exact_succ : (climb.first + 1).toNat = climb.first.toNat + 1 := by
      rw [UInt64.toNat_add]
      exact Nat.mod_eq_of_lt succ_lt
    refine ⟨{ climb.take depth climb.first with first := climb.first + 1 }, ?_, ?_,
      inOrder.succ_last_lt⟩
    · rw [takeFirst, mod_eq_ok ne, except_ok_bind, if_neg begins, add_eq_ok_iff.2 exact_succ]
      rfl
    · rw [Climb.takeFirst, if_neg (mt first_iff.2 begins)]
      show { (climb.take depth climb.first).numbers with first := (climb.first + 1).toNat } = _
      rw [numbers_take, exact_succ]
      rfl

/-- The last edge moves back only if it is not zero. -/
theorem follows_takeLast (ne : base ≠ 0) (succ_lt : climb.last.toNat + 1 < UInt64.size) :
    Follows (fun next => next.last.toNat + 1 < UInt64.size) (climb.takeLast base depth)
      (climb.numbers.takeLast base.toNat depth.toNat) := by
  have one_le : (1 : UInt64) ≤ base := by
    rw [UInt64.le_iff_toNat_le]
    exact Nat.pos_of_ne_zero (mt (UInt64.toNat_inj (b := 0)).1 ne)
  have last_iff : climb.last % base = base - 1 ↔
      climb.numbers.last % base.toNat = base.toNat - 1 := by
    rw [← UInt64.toNat_inj, toNat_mod_base, UInt64.toNat_sub_of_le _ _ one_le]
    rfl
  have zero_iff : climb.last = 0 ↔ climb.numbers.last = 0 := (UInt64.toNat_inj (b := 0)).symm
  simp only [takeLast, sub_eq_ok one_le, mod_eq_ok ne]
  show Follows _ (if climb.last % base = base - 1 then _ else _) _
  by_cases complete : climb.last % base = base - 1
  · rw [if_pos complete, Climb.takeLast, if_pos (last_iff.1 complete)]
    exact .goesOn succ_lt
  · rw [if_neg complete, Climb.takeLast, if_neg (mt last_iff.2 complete)]
    by_cases zero : climb.last = 0
    · rw [if_pos zero, if_pos (zero_iff.1 zero)]
      show Follows _ _ (.error (climb.numbers.take depth.toNat climb.last.toNat).taken)
      rw [← numbers_take]
      exact .done _
    · have one_le_last : (1 : UInt64) ≤ climb.last := by
        rw [UInt64.le_iff_toNat_le]
        exact Nat.pos_of_ne_zero (mt zero_iff.2 zero)
      have exact_pred : (climb.last - 1).toNat = climb.last.toNat - 1 :=
        UInt64.toNat_sub_of_le _ _ one_le_last
      have numbers_eq : { climb.take depth climb.last with last := climb.last - 1 }.numbers =
          { climb.numbers.take depth.toNat climb.last.toNat with last := climb.last.toNat - 1 } := by
        rw [← numbers_take, ← exact_pred]
        rfl
      rw [if_neg zero, if_neg (mt zero_iff.2 zero), sub_eq_ok one_le_last]
      show Follows _ _ (.ok
        { climb.numbers.take depth.toNat climb.last.toNat with last := climb.last.toNat - 1 })
      rw [← numbers_eq]
      refine .goesOn ?_
      show (climb.last - 1).toNat + 1 < UInt64.size
      omega

theorem follows_round (ne : base ≠ 0) (inOrder : climb.InOrder) :
    Follows InOrder (climb.round base depth) (climb.numbers.round base.toNat depth.toNat) := by
  obtain ⟨next, tookFirst, next_eq, succ_lt⟩ :=
    exists_takeFirst ne (inOrder.takeOnly depth) depth
  rw [numbers_takeOnly] at next_eq
  rw [round, tookFirst, Climb.round, ← next_eq]
  refine (follows_takeLast ne succ_lt).bind fun climb succ_lt => ?_
  have lt_iff : climb.last < climb.first ↔ climb.numbers.last < climb.numbers.first :=
    UInt64.lt_iff_toNat_lt
  by_cases spent : climb.last < climb.first
  · rw [if_pos spent, if_pos (lt_iff.1 spent)]
    exact .done _
  · rw [if_neg spent, if_neg (mt lt_iff.2 spent)]
    exact .goesOn ⟨Nat.le_of_not_lt (mt lt_iff.2 spent), succ_lt⟩

/-! ## All levels -/

theorem follows_rounds (ne : base ≠ 0) (depth : UInt16) (count : Nat) (inOrder : climb.InOrder) :
    Follows InOrder (climb.rounds base depth count)
      (climb.numbers.rounds base.toNat depth.toNat count) := by
  induction count generalizing climb with
  | zero => exact .goesOn inOrder
  | succ n ih => exact (follows_round ne inOrder).bind fun next inOrder => ih inOrder

theorem exists_up (ne : base ≠ 0) (inOrder : climb.InOrder) :
    ∃ next, climb.up base = .ok next ∧ next.numbers = climb.numbers.up base.toNat ∧
      next.InOrder := by
  refine ⟨{ climb with first := climb.first / base, last := climb.last / base }, ?_, ?_, ?_⟩
  · rw [up, div_eq_ok ne, except_ok_bind, div_eq_ok ne]
    rfl
  · simp only [numbers, Climb.up, UInt64.toNat_div]
  · refine ⟨?_, ?_⟩
    · simp only [UInt64.toNat_div]
      exact Nat.div_le_div_right inOrder.first_le_last
    · simp only [UInt64.toNat_div]
      exact Nat.lt_of_le_of_lt (Nat.succ_le_succ (Nat.div_le_self ..)) inOrder.succ_last_lt

/-- All nodes taken until the climb in numbers is over. -/
def taken? : Except (List Position) Climb → List Position
  | .ok climb => climb.taken
  | .error taken => taken

/-- The climb in words is not cut off and takes the nodes that the one in numbers takes. -/
def TakesAs (x : Step WordClimb) (y : Except (List Position) Climb) : Prop :=
  ∃ taken, nodesTaken x = .ok taken ∧ taken.map Position.ofWords = taken? y

theorem Follows.takesAs {Inv : WordClimb → Prop} {x : Step WordClimb}
    {y : Except (List Position) Climb} {f : WordClimb → Step WordClimb}
    {g : Climb → Except (List Position) Climb} (h : Follows Inv x y)
    (next : ∀ climb, Inv climb → TakesAs (f climb) (g climb.numbers)) :
    TakesAs (x >>= f) (y >>= g) := by
  cases h with
  | goesOn inv => exact next _ inv
  | done taken => exact ⟨taken, rfl, rfl⟩

theorem takesAs_levels (ne : base ≠ 0) {depth : Nat} (small : depth < UInt16.size)
    (inOrder : climb.InOrder) :
    TakesAs (levels base depth climb) (climb.numbers.levels base.toNat depth) := by
  induction depth generalizing climb with
  | zero =>
    have rounds := follows_rounds ne 0 (base.toNat - 1) inOrder
    rw [levels, level, Climb.levels, ← bind_pure (climb.numbers.rounds ..)]
    refine rounds.takesAs fun climb inOrder => ?_
    obtain ⟨next, wentUp, next_eq, -⟩ := exists_up ne inOrder
    rw [wentUp]
    exact ⟨next.taken, rfl, congrArg Climb.taken next_eq⟩
  | succ depth ih =>
    have rounds := follows_rounds ne (UInt16.ofNat (depth + 1)) (base.toNat - 1) inOrder
    rw [UInt16.toNat_ofNat_of_lt' small] at rounds
    rw [levels, level, Climb.levels, bind_assoc]
    refine rounds.takesAs fun climb inOrder => ?_
    obtain ⟨next, wentUp, next_eq, nextInOrder⟩ := exists_up ne inOrder
    rw [wentUp, ← next_eq]
    exact ih (Nat.lt_of_succ_lt small) nextInOrder

end WordClimb

namespace TreeConfig

variable {shape : Shape}

/-- Sorting in words by a leaf number that fits is sorting by the number. -/
theorem sortByFirstLeaf_eq {α : Type} {firstLeaf : α → Checked UInt64} {key : α → Nat}
    {items : List α}
    (ends : ∀ item ∈ items, firstLeaf item = .ok (UInt64.ofNat (key item)))
    (fits : ∀ item ∈ items, key item < UInt64.size) :
    sortByFirstLeaf firstLeaf items = .ok (items.mergeSort fun a b => key a ≤ key b) := by
  have keyed : (items.mapM fun item => (do return (← firstLeaf item, item) : Checked _)) =
      .ok (items.map fun item => (UInt64.ofNat (key item), item)) := by
    rw [mapM_congr (g := fun item => pure (UInt64.ofNat (key item), item))
      fun item mem => by rw [ends item mem]; rfl]
    exact List.mapM_pure
  have sorted : ((items.map fun item => (UInt64.ofNat (key item), item)).mergeSort
      fun a b => a.1 ≤ b.1) =
        (items.mergeSort fun a b => key a ≤ key b).map fun item =>
          (UInt64.ofNat (key item), item) := by
    refine (List.map_mergeSort fun a a_mem b b_mem => ?_).symm
    simp only [UInt64.le_iff_toNat_le, toNat_of_lt (fits a a_mem), toNat_of_lt (fits b b_mem)]
  rw [sortByFirstLeaf, keyed, except_ok_bind, sorted, List.map_map]
  exact congrArg Except.ok (List.map_id _)

/-- The cover of a range of the tree is found in words. -/
theorem exists_cover_eq {first last : UInt64} (range : LeafRange)
    (first_eq : first.toNat = range.first) (last_eq : last.toNat = range.last)
    (fits : range.last < shape.leafCount) :
    ∃ nodes, shape.config.cover first last = .ok nodes ∧
      nodes.map Position.ofWords = Cover.cover shape range := by
  have inOrder : WordClimb.InOrder ⟨first, last, []⟩ := by
    have counted := shape.leafCount_lt
    refine ⟨?_, ?_⟩
    · show first.toNat ≤ last.toNat
      rw [first_eq, last_eq]
      exact range.first_le_last
    · show last.toNat + 1 < UInt64.size
      omega
  obtain ⟨nodes, took, nodes_eq⟩ := WordClimb.takesAs_levels shape.base_config_ne_zero
    (Nat.lt_trans shape.depth_lt (by decide)) inOrder
  have numbers_eq : WordClimb.numbers ⟨first, last, []⟩ = ⟨range.first, range.last, []⟩ := by
    rw [WordClimb.numbers, first_eq, last_eq]
    rfl
  rw [shape.toNat_base_config, numbers_eq] at nodes_eq
  have nodes_eq : nodes.map Position.ofWords = Cover.taken shape range := nodes_eq
  have inTree : ∀ node ∈ nodes, (Position.ofWords node).Exists shape := by
    intro node mem
    have taken_mem := List.mem_map_of_mem (f := Position.ofWords) mem
    rw [nodes_eq] at taken_mem
    exact (((Cover.complete_taken fits).mem_iff _).1 taken_mem).inTree
  rw [cover, taken, shape.toNat_depth_config, took, except_ok_bind, sortByFirstLeaf_eq
    (fun node mem => firstLeafAt_eq (inTree node mem)) fun node mem =>
      Nat.lt_of_le_of_lt (LeafRange.first_le_last _)
        (Nat.lt_trans (inTree node mem).last_lt shape.leafCount_lt)]
  refine ⟨_, rfl, ?_⟩
  rw [Cover.cover, ← nodes_eq]
  exact List.map_mergeSort fun _ _ _ _ => rfl

end TreeConfig

end RangeKeys
