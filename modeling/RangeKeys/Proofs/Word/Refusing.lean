import RangeKeys.Word.WordTree

/-!
# Attempts that no fault cuts off

An attempt whose only failures are errors is also an attempt that a fault might cut off, refused
with the same errors. Such attempts may be put in sequence on either side.
-/

namespace RangeKeys

variable {α β : Type}

namespace Attempt

/-- The attempt as one that a fault might cut off. -/
def refusing (x : Attempt TreeError α) : Attempt Stop α :=
  x.adapt Stop.refused

@[simp] theorem refusing_liftMetered (x : Metered α) :
    refusing (liftM x : Attempt TreeError α) = liftM x :=
  ext rfl (by simp [refusing])

@[simp] theorem refusing_liftExcept (x : Except TreeError α) :
    refusing (liftM x : Attempt TreeError α) = liftM x := rfl

theorem refusing_bind (x : Attempt TreeError α) (f : α → Attempt TreeError β) :
    refusing (x >>= f) = refusing x >>= fun a => refusing (f a) := by
  apply ext
  · simp only [refusing, outcome_adapt, outcome_bind]
    cases x.outcome <;> rfl
  · simp only [refusing, calls_adapt, calls_bind, outcome_adapt]
    cases x.outcome <;> rfl

/-- The attempt is not cut off: it ends as the other one does, after the same calls. -/
structure GoesAs (x : Attempt Stop α) (y : Attempt TreeError α) : Prop where
  not_fault : ∀ fault, x.outcome ≠ .error (.fault fault)
  outcome_eq : x.outcome = y.outcome.mapError .refused
  calls_eq : x.calls = y.calls

theorem goesAs_refusing (x : Attempt TreeError α) : GoesAs (refusing x) x where
  not_fault fault cut := by
    rw [refusing, outcome_adapt] at cut
    cases outcome : x.outcome <;> rw [outcome] at cut <;> cases cut
  outcome_eq := rfl
  calls_eq := calls_adapt ..

/-! ## Lifting -/

@[simp] theorem liftChecked_ok_bind (a : α) (f : α → Attempt Stop β) :
    ((liftM (.ok a : Checked α) : Attempt Stop α) >>= f) = f a :=
  pure_bind a f

@[simp] theorem liftExcept_ok_bind (a : α) (f : α → Attempt Stop β) :
    ((liftM (.ok a : Except TreeError α) : Attempt Stop α) >>= f) = f a :=
  pure_bind a f

end Attempt

end RangeKeys
