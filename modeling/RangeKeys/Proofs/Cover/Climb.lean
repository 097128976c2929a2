import RangeKeys.Proofs.Cover.Topmost
import RangeKeys.Tree.Cover

/-!
# The climb takes the topmost nodes

On each level the climb knows which nodes lie in the range, and has taken the topmost ones of the
levels below. A round moves each edge of what is left towards a complete family of siblings, and
there are rounds enough to get there. So the nodes taken on a level are those whose family is
not complete, and if no complete family is left, no higher node lies in the range.
-/

namespace RangeKeys

theorem mod_eq_pred_iff {k n : Nat} (pos : 0 < k) : n % k = k - 1 ↔ k ∣ n + 1 := by
  have split := Nat.div_add_mod n k
  have lt := Nat.mod_lt n pos
  refine ⟨fun h => ⟨n / k + 1, by rw [Nat.mul_succ]; omega⟩, fun h => ?_⟩
  have dvd : k ∣ n % k + 1 := by
    rw [← split, Nat.add_assoc] at h
    exact (Nat.dvd_add_right (Nat.dvd_mul_right k (n / k))).1 h
  have := Nat.le_of_dvd (Nat.succ_pos _) dvd
  omega

theorem dvd_family_end {k : Nat} (pos : 0 < k) (n : Nat) : k ∣ n * k + (k - 1) + 1 := by
  rw [Nat.add_assoc, Nat.sub_add_cancel pos, ← Nat.succ_mul]
  exact Nat.dvd_mul_left ..

/-- A number lies between two edges of families exactly if its whole family does. -/
theorem family_between_iff {k a b n : Nat} (pos : 0 < k) (first_dvd : k ∣ a)
    (last_dvd : k ∣ b + 1) :
    a ≤ n / k * k ∧ n / k * k + (k - 1) ≤ b ↔ a ≤ n ∧ n ≤ b := by
  have split := Nat.div_add_mod' n k
  have lt := Nat.mod_lt n pos
  obtain ⟨c, rfl⟩ := first_dvd
  obtain ⟨e, last_eq⟩ := last_dvd
  refine ⟨fun h => by omega, fun h => ⟨?_, ?_⟩⟩
  · rw [Nat.mul_comm]
    exact Nat.mul_le_mul_right k ((Nat.le_div_iff_mul_le pos).2 (Nat.mul_comm k c ▸ h.1))
  · have below : n / k < e := by
      rw [Nat.div_lt_iff_lt_mul pos, Nat.mul_comm]
      omega
    have := Nat.mul_le_mul_right k below
    rw [Nat.succ_mul, Nat.mul_comm e] at this
    omega

namespace Cover.Climb

variable {k depth count : Nat} {start climb : Climb} {taken : List Position} {p : Position}

/-- What holds of the climb if it goes on, and of the nodes taken if it is over. -/
def Ends (GoesOn : Climb → Prop) (Over : List Position → Prop) :
    Except (List Position) Climb → Prop
  | .ok climb => GoesOn climb
  | .error taken => Over taken

theorem Ends.bind {P R : Climb → Prop} {Q : List Position → Prop}
    {x : Except (List Position) Climb} {f : Climb → Except (List Position) Climb}
    (h : Ends P Q x) (next : ∀ climb, P climb → Ends R Q (f climb)) : Ends R Q (x >>= f) := by
  cases x with
  | ok climb => exact next climb h
  | error taken => exact h

theorem Ends.and {P R : Climb → Prop} {Q : List Position → Prop}
    {x : Except (List Position) Climb} (h : Ends P Q x) (h' : Ends R (fun _ => True) x) :
    Ends (fun climb => P climb ∧ R climb) Q x := by
  cases x with
  | ok climb => exact ⟨h, h'⟩
  | error taken => exact h

theorem Ends.imp {P R : Climb → Prop} {Q S : List Position → Prop}
    {x : Except (List Position) Climb} (h : Ends P Q x) (goes : ∀ climb, P climb → R climb)
    (spent : ∀ taken, Q taken → S taken) : Ends R S x := by
  cases x with
  | ok climb => exact goes climb h
  | error taken => exact spent taken h

/-! ## One round -/

/-- Of the nodes that were left when the climb came to the level, those outside the two edges have
been taken. No family begins among the ones on the left and none ends among those on the
right. -/
structure Taking (k depth : Nat) (start climb : Climb) : Prop where
  first_le : start.first ≤ climb.first
  last_le : climb.last ≤ start.last
  left : ∀ n, start.first ≤ n → n < climb.first → ¬ k ∣ n
  right : ∀ n, climb.last < n → n ≤ start.last → ¬ k ∣ n + 1
  nodup : climb.taken.Nodup
  mem_iff : ∀ p, p ∈ climb.taken ↔ p ∈ start.taken ∨
    p.depth = depth ∧ start.first ≤ p.number ∧ p.number ≤ start.last ∧
      (p.number < climb.first ∨ climb.last < p.number)

/-- All nodes that were left have been taken, and there was no complete family among them. -/
structure Exhausted (k depth : Nat) (start : Climb) (taken : List Position) : Prop where
  broken : ∀ n, ¬ (start.first ≤ n * k ∧ n * k + (k - 1) ≤ start.last)
  nodup : taken.Nodup
  mem_iff : ∀ p, p ∈ taken ↔ p ∈ start.taken ∨
    p.depth = depth ∧ start.first ≤ p.number ∧ p.number ≤ start.last

@[simp] theorem first_take (number : Nat) : (climb.take depth number).first = climb.first := rfl

@[simp] theorem last_take (number : Nat) : (climb.take depth number).last = climb.last := rfl

theorem mem_take {number : Nat} :
    p ∈ (climb.take depth number).taken ↔
      (p.depth = depth ∧ p.number = number) ∨ p ∈ climb.taken := by
  cases p with
  | mk d n => simp [take]

theorem nodup_take {number : Nat} (h : climb.taken.Nodup) :
    (climb.take depth number).taken.Nodup :=
  List.Nodup.insert h

/-- The only node that is left would be taken at one of the edges anyway. -/
theorem round_eq (two_le : 2 ≤ k) (depth : Nat) (climb : Climb) :
    climb.round k depth = (climb.takeFirst k depth).takeLast k depth >>= fun climb =>
      if climb.last < climb.first then throw climb.taken else pure climb := by
  have same : ((climb.takeOnly depth).takeFirst k depth).takeLast k depth =
      (climb.takeFirst k depth).takeLast k depth := by
    by_cases only : climb.first = climb.last
    · by_cases begins : climb.first % k = 0
      · have inside : ¬ 0 = k - 1 := by omega
        simp [takeOnly, takeFirst, takeLast, take, only, inside, only ▸ begins]
      · simp [takeOnly, takeFirst, takeLast, take, only, only ▸ begins]
    · simp [takeOnly, only]
  rw [round, same]

theorem last_takeFirst (k depth : Nat) (climb : Climb) :
    (climb.takeFirst k depth).last = climb.last := by
  unfold Climb.takeFirst
  split <;> rfl

theorem Taking.takeFirst (h : Taking k depth start climb) (le : climb.first ≤ climb.last) :
    Taking k depth start (climb.takeFirst k depth) := by
  unfold Climb.takeFirst
  by_cases begins : climb.first % k = 0
  · rw [if_pos begins]
    exact h
  · rw [if_neg begins]
    refine ⟨Nat.le_succ_of_le h.first_le, h.last_le, ?_, h.right, nodup_take h.nodup, ?_⟩
    · intro n first_le lt
      rcases Nat.lt_succ_iff_lt_or_eq.1 lt with before | here
      · exact h.left n first_le before
      · exact fun dvd => begins (Nat.mod_eq_zero_of_dvd (here ▸ dvd))
    · intro p
      have := h.first_le
      have := h.last_le
      rw [mem_take, h.mem_iff]
      by_cases old : p ∈ start.taken
      · simp [old]
      · simp only [old, false_or, last_take]
        omega

theorem Taking.takeLast (two_le : 2 ≤ k) (h : Taking k depth start climb)
    (first_le_last : start.first ≤ climb.last) :
    Ends (Taking k depth start) (Exhausted k depth start) (climb.takeLast k depth) := by
  have pos : 0 < k := by omega
  have mem_iff (p : Position) : p ∈ (climb.take depth climb.last).taken ↔ p ∈ start.taken ∨
      p.depth = depth ∧ start.first ≤ p.number ∧ p.number ≤ start.last ∧
        (p.number < climb.first ∨ climb.last ≤ p.number) := by
    have := h.last_le
    rw [mem_take, h.mem_iff]
    by_cases old : p ∈ start.taken
    · simp [old]
    · simp only [old, false_or]
      omega
  unfold Climb.takeLast
  by_cases ends : climb.last % k = k - 1
  · rw [if_pos ends]
    exact h
  · rw [if_neg ends]
    rw [mod_eq_pred_iff pos] at ends
    by_cases zero : climb.last = 0
    · rw [if_pos zero]
      refine ⟨fun n family => ?_, nodup_take h.nodup, fun p => ?_⟩
      · exact h.right (n * k + (k - 1)) (by omega) family.2 (dvd_family_end pos n)
      · rw [mem_iff, zero]
        simp
    · rw [if_neg zero]
      refine ⟨h.first_le, Nat.le_trans (Nat.sub_le ..) h.last_le, h.left, ?_, nodup_take h.nodup,
        fun p => ?_⟩
      · intro n lt le
        rcases Nat.lt_or_ge climb.last n with after | here
        · exact h.right n after le
        · obtain rfl : n = climb.last := Nat.le_antisymm here (Nat.le_of_pred_lt lt)
          exact ends
      · have reached : climb.last - 1 < p.number ↔ climb.last ≤ p.number := by omega
        simp only [first_take, reached]
        exact mem_iff p

/-! ## The rounds of a level -/

/-- The first and the last edge of a family can be reached in so many rounds. -/
structure Reaches (k count : Nat) (climb : Climb) : Prop where
  first : ∃ a ≤ count, k ∣ climb.first + a
  last : ∃ b ≤ count, ∃ c, climb.last + 1 = b + k * c

theorem reaches_start (pos : 0 < k) (climb : Climb) : Reaches k (k - 1) climb where
  first := by
    have split := Nat.div_add_mod (climb.first + (k - 1)) k
    have lt := Nat.mod_lt (climb.first + (k - 1)) pos
    refine ⟨k - 1 - (climb.first + (k - 1)) % k, Nat.sub_le .., (climb.first + (k - 1)) / k, ?_⟩
    omega
  last := by
    have split := Nat.mod_add_div (climb.last + 1) k
    have lt := Nat.mod_lt (climb.last + 1) pos
    exact ⟨_, by omega, _, split.symm⟩

theorem Reaches.takeFirst (h : Reaches k (count + 1) climb) :
    ∃ a ≤ count, k ∣ (climb.takeFirst k depth).first + a := by
  unfold Climb.takeFirst
  by_cases begins : climb.first % k = 0
  · rw [if_pos begins]
    exact ⟨0, Nat.zero_le _, Nat.dvd_of_mod_eq_zero begins⟩
  · obtain ⟨a, le, dvd⟩ := h.first
    rw [if_neg begins]
    cases a with
    | zero => exact absurd (Nat.mod_eq_zero_of_dvd dvd) begins
    | succ a => exact ⟨a, Nat.le_of_succ_le_succ le, by rwa [Nat.add_right_comm]⟩

theorem Reaches.takeLast (pos : 0 < k)
    (h : ∃ b ≤ count + 1, ∃ c, climb.last + 1 = b + k * c) :
    Ends (fun next => next.first = climb.first ∧ ∃ b ≤ count, ∃ c, next.last + 1 = b + k * c)
      (fun _ => True) (climb.takeLast k depth) := by
  unfold Climb.takeLast
  by_cases ends : climb.last % k = k - 1
  · rw [if_pos ends]
    obtain ⟨c, split⟩ := (mod_eq_pred_iff pos).1 ends
    exact ⟨rfl, 0, Nat.zero_le _, c, by rw [split, Nat.zero_add]⟩
  · rw [if_neg ends]
    by_cases zero : climb.last = 0
    · rw [if_pos zero]
      trivial
    · rw [if_neg zero]
      obtain ⟨b, le, c, split⟩ := h
      cases b with
      | zero =>
        refine absurd ((mod_eq_pred_iff pos).2 ⟨c, ?_⟩) ends
        rw [split, Nat.zero_add]
      | succ b => exact ⟨rfl, b, Nat.le_of_succ_le_succ le, c, by simp only; omega⟩

/-- The climb is over when its edges have met. -/
theorem Taking.exhausted (pos : 0 < k) (h : Taking k depth start climb)
    (met : climb.last < climb.first) : Exhausted k depth start climb.taken where
  broken := by
    intro n family
    by_cases before : n * k < climb.first
    · exact h.left _ family.1 before (Nat.dvd_mul_left ..)
    · exact h.right _ (by omega) family.2 (dvd_family_end pos n)
  nodup := h.nodup
  mem_iff := by
    intro p
    have outside : p.number < climb.first ∨ climb.last < p.number := by omega
    simp only [h.mem_iff, outside, and_true]

theorem Taking.round (two_le : 2 ≤ k) (h : Taking k depth start climb)
    (le : climb.first ≤ climb.last) (reaches : Reaches k (count + 1) climb) :
    Ends (fun next => Taking k depth start next ∧ next.first ≤ next.last ∧ Reaches k count next)
      (Exhausted k depth start) (climb.round k depth) := by
  have pos : 0 < k := by omega
  have last_eq := last_takeFirst k depth climb
  have taking := (h.takeFirst le).takeLast two_le (last_eq ▸ Nat.le_trans h.first_le le)
  have edge : ∃ b ≤ count + 1, ∃ c, (climb.takeFirst k depth).last + 1 = b + k * c :=
    last_eq ▸ reaches.last
  rw [round_eq two_le]
  refine (taking.and (Reaches.takeLast pos edge)).bind ?_
  intro next h
  obtain ⟨taking, first_eq, last_edge⟩ := h
  by_cases met : next.last < next.first
  · rw [if_pos met]
    exact taking.exhausted pos met
  · rw [if_neg met]
    exact ⟨taking, Nat.le_of_not_lt met, first_eq ▸ reaches.takeFirst, last_edge⟩

/-- What is left after the rounds of a level, if anything, begins and ends with a family. -/
theorem Taking.rounds (two_le : 2 ≤ k) (h : Taking k depth start climb)
    (le : climb.first ≤ climb.last) (reaches : Reaches k count climb) :
    Ends (fun next => Taking k depth start next ∧ next.first ≤ next.last ∧
        k ∣ next.first ∧ k ∣ next.last + 1)
      (Exhausted k depth start) (climb.rounds k depth count) := by
  induction count generalizing climb with
  | zero =>
    obtain ⟨⟨a, a_le, first_dvd⟩, b, b_le, c, split⟩ := reaches
    obtain rfl := Nat.le_zero.1 a_le
    obtain rfl := Nat.le_zero.1 b_le
    exact ⟨h, le, first_dvd, c, by rw [split, Nat.zero_add]⟩
  | succ count ih =>
    refine (h.round two_le le reaches).bind ?_
    intro next h
    exact ih h.1 h.2.1 h.2.2

theorem taking_start (nodup : start.taken.Nodup) :
    Taking k depth start start where
  first_le := Nat.le_refl _
  last_le := Nat.le_refl _
  left := fun n first_le lt => absurd lt (Nat.not_lt.2 first_le)
  right := fun n lt le => absurd lt (Nat.not_lt.2 le)
  nodup := nodup
  mem_iff := by
    intro p
    have inside : ¬ (start.first ≤ p.number ∧ p.number ≤ start.last ∧
        (p.number < start.first ∨ start.last < p.number)) := by omega
    simp only [inside, and_false, or_false]

/-- The families that were left when the climb came to the level are still left. -/
theorem Taking.family_iff (pos : 0 < k) (h : Taking k depth start climb) (n : Nat) :
    start.first ≤ n * k ∧ n * k + (k - 1) ≤ start.last ↔
      climb.first ≤ n * k ∧ n * k + (k - 1) ≤ climb.last := by
  refine ⟨fun family => ⟨?_, ?_⟩, fun family => ?_⟩
  · by_contra before
    exact h.left _ family.1 (Nat.lt_of_not_le before) (Nat.dvd_mul_left ..)
  · by_contra after
    exact h.right _ (Nat.lt_of_not_le after) family.2 (dvd_family_end pos n)
  · exact ⟨Nat.le_trans h.first_le family.1, Nat.le_trans family.2 h.last_le⟩

/-! ## From level to level -/

variable {shape : Shape} {range : LeafRange}

/-- When the climb comes to a level, those nodes are left that lie in the range, and the topmost
ones below the level have been taken. -/
structure AtLevel (shape : Shape) (range : LeafRange) (depth : Nat) (climb : Climb) : Prop where
  depth_le : depth ≤ shape.depth
  first_le_last : climb.first ≤ climb.last
  within_iff : ∀ n, ((⟨depth, n⟩ : Position).leaves shape).Within range ↔
    climb.first ≤ n ∧ n ≤ climb.last
  nodup : climb.taken.Nodup
  mem_iff : ∀ p, p ∈ climb.taken ↔ depth < p.depth ∧ p.Topmost shape range

/-- The topmost nodes have all been taken, and nothing else. -/
structure Complete (shape : Shape) (range : LeafRange) (taken : List Position) : Prop where
  nodup : taken.Nodup
  mem_iff : ∀ p, p ∈ taken ↔ p.Topmost shape range

theorem AtLevel.family_iff (h : AtLevel shape range (depth + 1) start) (n : Nat) :
    ((⟨depth, n⟩ : Position).leaves shape).Within range ↔
      start.first ≤ n * shape.fanout ∧ n * shape.fanout + (shape.fanout - 1) ≤ start.last := by
  rw [Position.within_iff_family h.depth_le, h.within_iff, h.within_iff]
  omega

theorem AtLevel.topmost_iff (fits : range.last < shape.leafCount)
    (h : AtLevel shape range (depth + 1) start) (depth_eq : p.depth = depth + 1) :
    p.Topmost shape range ↔ (start.first ≤ p.number ∧ p.number ≤ start.last) ∧
      ¬ (start.first ≤ p.number / shape.fanout * shape.fanout ∧
        p.number / shape.fanout * shape.fanout + (shape.fanout - 1) ≤ start.last) := by
  obtain ⟨_, number⟩ := p
  obtain rfl := depth_eq
  rw [← h.within_iff, ← h.family_iff]
  refine ⟨fun top => ⟨top.within, ?_⟩, fun top => ?_⟩
  · exact top.maximal.resolve_left (Nat.succ_ne_zero _)
  · exact ⟨Position.exists_of_within fits h.depth_le top.1, top.1, .inr top.2⟩

theorem AtLevel.up (fits : range.last < shape.leafCount)
    (h : AtLevel shape range (depth + 1) start)
    (taking : Taking shape.fanout (depth + 1) start climb) (le : climb.first ≤ climb.last)
    (first_dvd : shape.fanout ∣ climb.first) (last_dvd : shape.fanout ∣ climb.last + 1) :
    AtLevel shape range depth (climb.up shape.fanout) where
  depth_le := Nat.le_of_succ_le h.depth_le
  first_le_last := Nat.div_le_div_right le
  within_iff := by
    intro n
    have pos := shape.fanout_pos
    have between := family_between_iff (n := n * shape.fanout) pos first_dvd last_dvd
    rw [Nat.mul_div_cancel _ pos] at between
    have first_iff : climb.first ≤ n * shape.fanout ↔ climb.first / shape.fanout ≤ n :=
      (Nat.div_le_iff_le_mul_of_dvd (Nat.ne_of_gt pos) first_dvd).symm
    rw [h.family_iff, taking.family_iff pos, between, ← Nat.le_div_iff_mul_le pos, first_iff]
    rfl
  nodup := taking.nodup
  mem_iff := by
    intro p
    have pos := shape.fanout_pos
    refine (taking.mem_iff p).trans ?_
    by_cases here : p.depth = depth + 1
    · rw [h.mem_iff, h.topmost_iff fits here, taking.family_iff pos,
        family_between_iff pos first_dvd last_dvd]
      omega
    · have level : depth + 1 < p.depth ↔ depth < p.depth := by omega
      simp only [h.mem_iff, here, false_and, or_false, level]

/-- If no complete family is left, no node above the level lies in the range. -/
theorem AtLevel.complete (fits : range.last < shape.leafCount)
    (h : AtLevel shape range (depth + 1) start)
    (spent : Exhausted shape.fanout (depth + 1) start taken) : Complete shape range taken where
  nodup := spent.nodup
  mem_iff := by
    intro p
    rw [spent.mem_iff, h.mem_iff]
    rcases Nat.lt_trichotomy p.depth (depth + 1) with higher | here | deeper
    · have outside : ¬ p.Topmost shape range := by
        intro top
        have first_p := LeafRange.first_mem (p.leaves shape)
        have le := Nat.le_of_succ_le h.depth_le
        have inner := Position.within_of_depth_le first_p (Position.mem_leaves_above depth)
          (Nat.le_of_lt_succ higher) le
        exact spent.broken _ ((h.family_iff _).1 (inner.trans top.within))
      simp only [outside, and_false, false_or, iff_false]
      omega
    · have broken := spent.broken (p.number / shape.fanout)
      rw [h.topmost_iff fits here]
      omega
    · have other : p.depth ≠ depth + 1 := Nat.ne_of_gt deeper
      simp only [deeper, other, true_and, false_and, or_false]

/-- On the level of the root only the root is left. -/
theorem AtLevel.last_eq_zero (fits : range.last < shape.leafCount)
    (h : AtLevel shape range 0 climb) : climb.last = 0 := by
  have within := (h.within_iff climb.last).2 ⟨h.first_le_last, Nat.le_refl _⟩
  have inTree := Position.exists_of_within fits h.depth_le within
  exact Nat.lt_one_iff.1 inTree.2

theorem AtLevel.complete_of_root (fits : range.last < shape.leafCount)
    (h : AtLevel shape range 0 start) (spent : Exhausted shape.fanout 0 start taken) :
    Complete shape range taken where
  nodup := spent.nodup
  mem_iff := by
    intro p
    rw [spent.mem_iff, h.mem_iff]
    by_cases deeper : 0 < p.depth
    · have other : p.depth ≠ 0 := Nat.ne_of_gt deeper
      simp only [deeper, other, true_and, false_and, or_false]
    · obtain ⟨_, number⟩ := p
      obtain rfl := Nat.eq_zero_of_not_pos deeper
      simp only [Nat.lt_irrefl, false_and, false_or, true_and, ← h.within_iff]
      refine ⟨fun within => ?_, Position.Topmost.within⟩
      exact ⟨Position.exists_of_within fits h.depth_le within, within, .inl rfl⟩

theorem AtLevel.rounds (h : AtLevel shape range depth climb) :
    Ends (fun next => Taking shape.fanout depth climb next ∧ next.first ≤ next.last ∧
        shape.fanout ∣ next.first ∧ shape.fanout ∣ next.last + 1)
      (Exhausted shape.fanout depth climb)
      (climb.rounds shape.fanout depth (shape.fanout - 1)) :=
  (taking_start h.nodup).rounds shape.two_le_fanout h.first_le_last
    (reaches_start shape.fanout_pos climb)

/-- From any level the climb ends in the topmost nodes. -/
theorem AtLevel.levels (fits : range.last < shape.leafCount)
    (h : AtLevel shape range depth climb) :
    Ends (fun _ => False) (Complete shape range) (climb.levels shape.fanout depth) := by
  induction depth generalizing climb with
  | zero =>
    refine h.rounds.imp (fun next left => ?_) fun taken spent => h.complete_of_root fits spent
    obtain ⟨taking, -, -, last_dvd⟩ := left
    -- a family ends at no node but the last of several
    have last_eq := Nat.le_zero.1 (h.last_eq_zero fits ▸ taking.last_le)
    rw [last_eq] at last_dvd
    have := Nat.le_of_dvd Nat.one_pos last_dvd
    have := shape.two_le_fanout
    omega
  | succ depth ih =>
    refine (h.rounds.imp (fun _ left => left) fun taken spent => h.complete fits spent).bind ?_
    intro next left
    obtain ⟨taking, le, first_dvd, last_dvd⟩ := left
    exact ih (h.up fits taking le first_dvd last_dvd)

theorem atLevel_leaves (shape : Shape) (range : LeafRange) :
    AtLevel shape range shape.depth ⟨range.first, range.last, []⟩ where
  depth_le := Nat.le_refl _
  first_le_last := range.first_le_last
  within_iff := by
    intro n
    have bottom := Position.leaves_of_bottom (p := ⟨shape.depth, n⟩) rfl
    rw [LeafRange.Within, bottom.1, bottom.2]
  nodup := List.nodup_nil
  mem_iff := by
    intro p
    simp only [List.not_mem_nil, false_iff, not_and]
    exact fun deeper top => Nat.not_lt.2 top.inTree.1 deeper

end Cover.Climb

end RangeKeys
