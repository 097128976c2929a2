import RangeKeys.Metered

/-!
# How attempts fail

Two statements about the errors an attempt can end in: that all of them have a property, and that
those with a property come before any call. In a sequence the first holds if it holds of every
part, the second if the errors with the property are all among those of the checks at the start.
-/

namespace RangeKeys.Attempt

variable {ε ε' α β : Type}

theorem outcome_bind_eq_error_iff {x : Attempt ε α} {f : α → Attempt ε β} {e : ε} :
    (x >>= f).outcome = .error e ↔
      x.outcome = .error e ∨ ∃ a, x.outcome = .ok a ∧ (f a).outcome = .error e := by
  rw [outcome_bind]
  cases x.outcome <;> simp

theorem exists_outcome_of_adapt {x : Attempt ε α} {g : ε → ε'} {e : ε'}
    (failed : outcome (x.adapt g) = .error e) :
    ∃ inner, x.outcome = .error inner ∧ g inner = e := by
  rw [outcome_adapt] at failed
  cases ended : x.outcome with
  | ok a =>
    rw [ended] at failed
    cases failed
  | error inner =>
    rw [ended] at failed
    exact ⟨inner, rfl, Except.error.inj failed⟩

/-- Every error in which the attempt ends has the property. -/
def FailsOnly (P : ε → Prop) (x : Attempt ε α) : Prop :=
  ∀ e, x.outcome = .error e → P e

namespace FailsOnly

variable {P Q : ε → Prop}

theorem pure (a : α) : FailsOnly P (Pure.pure a : Attempt ε α) :=
  nofun

theorem throw {e : ε} (h : P e) : FailsOnly P (MonadExcept.throw e : Attempt ε α) := by
  intro other same
  injection same with same
  exact same ▸ h

theorem liftExcept {x : Except ε α} (h : ∀ e, x = .error e → P e) :
    FailsOnly P (liftM x : Attempt ε α) :=
  h

theorem liftMetered (x : Metered α) : FailsOnly P (liftM x : Attempt ε α) :=
  nofun

theorem bind {x : Attempt ε α} {f : α → Attempt ε β} (h : FailsOnly P x)
    (next : ∀ a, FailsOnly P (f a)) : FailsOnly P (x >>= f) := by
  intro e failed
  rcases outcome_bind_eq_error_iff.1 failed with early | ⟨a, -, late⟩
  · exact h e early
  · exact next a e late

theorem mapM {items : List α} {f : α → Attempt ε β} (each : ∀ item, FailsOnly P (f item)) :
    FailsOnly P (items.mapM f) := by
  induction items with
  | nil => exact pure []
  | cons item items ih =>
    rw [List.mapM_cons]
    exact (each item).bind fun _ => ih.bind fun _ => pure _

theorem imp {x : Attempt ε α} (h : FailsOnly P x) (implies : ∀ e, P e → Q e) : FailsOnly Q x :=
  fun e failed => implies e (h e failed)

end FailsOnly

/-- Errors with the property come before any call. -/
def FailsFirst (P : ε → Prop) (x : Attempt ε α) : Prop :=
  ∀ e, x.outcome = .error e → P e → x.calls = .none

namespace FailsFirst

variable {P : ε → Prop}

theorem throw (e : ε) : FailsFirst P (MonadExcept.throw e : Attempt ε α) :=
  fun _ _ _ => rfl

theorem liftExcept (x : Except ε α) : FailsFirst P (liftM x : Attempt ε α) :=
  fun _ _ _ => rfl

theorem of_failsOnly {x : Attempt ε α} (h : FailsOnly (fun e => ¬ P e) x) : FailsFirst P x :=
  fun e failed holds => absurd holds (h e failed)

/-- After a check everything may go on as if it came first. -/
theorem bind_check {x : Except ε α} {f : α → Attempt ε β} (next : ∀ a, FailsFirst P (f a)) :
    FailsFirst P ((liftM x : Attempt ε α) >>= f) := by
  intro e failed holds
  rw [outcome_bind, outcome_liftExcept] at failed
  rw [calls_bind, outcome_liftExcept, calls_liftExcept, Calls.none_add]
  cases x with
  | error inner => rfl
  | ok a => exact next a e failed holds

/-- After anything else no error with the property may follow. -/
theorem bind {x : Attempt ε α} {f : α → Attempt ε β} (h : FailsFirst P x)
    (next : ∀ a, FailsOnly (fun e => ¬ P e) (f a)) : FailsFirst P (x >>= f) := by
  intro e failed holds
  rcases outcome_bind_eq_error_iff.1 failed with early | ⟨a, -, late⟩
  · rw [calls_bind, early, h e early holds]
    rfl
  · exact absurd holds (next a e late)

theorem adapt {P : ε' → Prop} {g : ε → ε'} {x : Attempt ε α}
    (h : FailsFirst (fun e => P (g e)) x) : FailsFirst P (x.adapt g : Attempt ε' α) := by
  intro e failed holds
  obtain ⟨inner, ended, rfl⟩ := exists_outcome_of_adapt failed
  rw [calls_adapt]
  exact h inner ended holds

end FailsFirst

end RangeKeys.Attempt
