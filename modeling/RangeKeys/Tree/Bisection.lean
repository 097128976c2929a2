/-!
# Searching by halving

In a list where the items that pass a test come before those that fail it, the first that fails is
found by halving the part of the list where it can still be.
-/

namespace RangeKeys

variable {α : Type}

/-- The place of the first item that fails the test, searched from place `low` to place `high`. -/
def partitionPointBetween (passes : α → Bool) (items : List α) (low high : Nat)
    (fits : high ≤ items.length) : Nat :=
  if remaining : low < high then
    let middle := low + (high - low) / 2
    if passes items[middle] then
      partitionPointBetween passes items (middle + 1) high fits
    else
      partitionPointBetween passes items low middle (by omega)
  else
    low
termination_by high - low

/-- How many items pass the test, if these come first. -/
def partitionPoint (passes : α → Bool) (items : List α) : Nat :=
  partitionPointBetween passes items 0 items.length (Nat.le_refl _)

/-- The search with a test that is a computation. -/
def partitionPointBetweenM {m : Type → Type} [Monad m] (passes : α → m Bool) (items : List α)
    (low high : Nat) (fits : high ≤ items.length) : m Nat :=
  if remaining : low < high then do
    let middle := low + (high - low) / 2
    if ← passes items[middle] then
      partitionPointBetweenM passes items (middle + 1) high fits
    else
      partitionPointBetweenM passes items low middle (by omega)
  else
    return low
termination_by high - low

/-- How many items pass the test, if these come first. -/
def partitionPointM {m : Type → Type} [Monad m] (passes : α → m Bool) (items : List α) : m Nat :=
  partitionPointBetweenM passes items 0 items.length (Nat.le_refl _)

/-- Computations that end in the test are searched as the test is. -/
theorem partitionPointM_eq_pure {m : Type → Type} [Monad m] [LawfulMonad m] {passes : α → m Bool}
    {test : α → Bool} {items : List α} (ends : ∀ item ∈ items, passes item = pure (test item)) :
    partitionPointM passes items = pure (partitionPoint test items) := by
  suffices search : ∀ low high fits, partitionPointBetweenM passes items low high fits =
      pure (partitionPointBetween test items low high fits) from search _ _ _
  intro low high fits
  fun_induction partitionPointBetween test items low high fits with
  | case1 low high fits remaining middle passed ih =>
    rw [partitionPointBetweenM, dif_pos remaining]
    show (passes items[middle] >>= _) = _
    rw [ends _ (List.getElem_mem _), pure_bind]
    exact (if_pos passed).trans ih
  | case2 low high fits remaining middle failed ih =>
    rw [partitionPointBetweenM, dif_pos remaining]
    show (passes items[middle] >>= _) = _
    rw [ends _ (List.getElem_mem _), pure_bind]
    exact (if_neg failed).trans ih
  | case3 low high fits done =>
    rw [partitionPointBetweenM, dif_neg done]

/-- The search sees no more of the items than the test does. -/
theorem partitionPoint_map {β : Type} (f : α → β) (passes : β → Bool) (items : List α) :
    partitionPoint passes (items.map f) = partitionPoint (fun item => passes (f item)) items := by
  suffices search : ∀ low high fits fits', partitionPointBetween passes (items.map f) low high fits =
      partitionPointBetween (fun item => passes (f item)) items low high fits' by
    have same_length : (items.map f).length = items.length := List.length_map f
    rw [partitionPoint, search _ _ _ (Nat.le_of_eq same_length), partitionPoint]
    simp only [same_length]
  intro low high fits fits'
  fun_induction partitionPointBetween (fun item => passes (f item)) items low high fits' with
  | case1 low high fits' remaining middle passed ih =>
    rw [partitionPointBetween, dif_pos remaining]
    rw [← List.getElem_map f] at passed
    exact (if_pos passed).trans (ih _)
  | case2 low high fits' remaining middle failed ih =>
    rw [partitionPointBetween, dif_pos remaining]
    rw [← List.getElem_map f] at failed
    exact (if_neg failed).trans (ih _)
  | case3 low high fits' done =>
    rw [partitionPointBetween, dif_neg done]

theorem partitionPointBetween_eq {passes : α → Bool} {items : List α} {point low high : Nat}
    {fits : high ≤ items.length}
    (parted : ∀ place (h : place < items.length), passes items[place] ↔ place < point)
    (low_le : low ≤ point) (le_high : point ≤ high) :
    partitionPointBetween passes items low high fits = point := by
  -- The bounds enclose the point all along, so it is found when they meet.
  fun_induction partitionPointBetween passes items low high fits with
  | case1 low high fits remaining middle passed ih =>
    exact ih ((parted middle _).1 passed) le_high
  | case2 low high fits remaining middle failed ih =>
    exact ih low_le (Nat.le_of_not_lt fun before => failed ((parted middle _).2 before))
  | case3 low high fits done =>
    omega

theorem partitionPoint_append {passes : α → Bool} {before after : List α}
    (pass : ∀ item ∈ before, passes item) (fail : ∀ item ∈ after, ¬ passes item) :
    partitionPoint passes (before ++ after) = before.length := by
  apply partitionPointBetween_eq
  · intro place h
    by_cases early : place < before.length
    · rw [List.getElem_append_left early]
      exact iff_of_true (pass _ (List.getElem_mem early)) early
    · rw [List.getElem_append_right (Nat.le_of_not_lt early)]
      exact iff_of_false (fail _ (List.getElem_mem _)) early
  · exact Nat.zero_le _
  · rw [List.length_append]
    exact Nat.le_add_right ..

theorem getElem?_partitionPoint {passes : α → Bool} {before after : List α} {item : α}
    (pass : ∀ other ∈ before, passes other) (fail : ∀ other ∈ item :: after, ¬ passes other) :
    (before ++ item :: after)[partitionPoint passes (before ++ item :: after)]? = some item := by
  rw [partitionPoint_append pass fail, List.getElem?_append_right (Nat.le_refl _), Nat.sub_self,
    List.getElem?_cons_zero]

end RangeKeys
