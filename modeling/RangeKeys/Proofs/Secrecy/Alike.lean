import Mathlib.Data.List.Forall2
import RangeKeys.Metered

/-!
# Computations that go alike

Two computations go alike if both end in values that are related or both fail with the same error,
and make the same calls. A relation that says nothing about the values themselves, such as that of
any two keys, then still says that nothing else was decided by them. Going alike is kept by
sequencing and by passing over lists that are related item by item.
-/

namespace RangeKeys

variable {ε α β γ δ : Type} {R : α → β → Prop} {S : γ → δ → Prop}

/-- Any two values, as those of which nothing may be seen. -/
def Unseen (_ : α) (_ : β) : Prop :=
  True

/-! ## Results -/

/-- Both are related values, or both are the same error. -/
inductive EndsAlike (R : α → β → Prop) : Except ε α → Except ε β → Prop
  | ok {a : α} {b : β} (h : R a b) : EndsAlike R (.ok a) (.ok b)
  | error (e : ε) : EndsAlike R (.error e) (.error e)

namespace EndsAlike

variable {x : Except ε α} {y : Except ε β}

theorem bind {f : α → Except ε γ} {g : β → Except ε δ} (h : EndsAlike R x y)
    (next : ∀ a b, R a b → EndsAlike S (f a) (g b)) : EndsAlike S (x >>= f) (y >>= g) := by
  cases h with
  | ok related => exact next _ _ related
  | error e => exact .error e

/-- What both begin with cannot tell them apart. -/
theorem bind_same {x : Except ε α} {f : α → Except ε γ} {g : α → Except ε δ}
    (next : ∀ a, EndsAlike S (f a) (g a)) : EndsAlike S (x >>= f) (x >>= g) := by
  cases x with
  | ok a => exact next a
  | error e => exact .error e

theorem mapError {ε' : Type} (f : ε → ε') (h : EndsAlike R x y) :
    EndsAlike R (x.mapError f) (y.mapError f) := by
  cases h with
  | ok related => exact .ok related
  | error e => exact .error (f e)

theorem map_eq {f : α → γ} {g : β → γ} (h : EndsAlike R x y) (same : ∀ a b, R a b → f a = g b) :
    x.map f = y.map g := by
  cases h with
  | ok related => exact congrArg Except.ok (same _ _ related)
  | error e => rfl

theorem toOption (h : EndsAlike R x y) : Option.Rel R x.toOption y.toOption := by
  cases h with
  | ok related => exact .some related
  | error e => exact .none

theorem refl (x : Except ε α) : EndsAlike Eq x x := by
  cases x with
  | ok a => exact .ok rfl
  | error e => exact .error e

end EndsAlike

/-! ## Metered values -/

/-- The values are related, and the same calls were made. -/
structure Metered.Alike (R : α → β → Prop) (x : Metered α) (y : Metered β) : Prop where
  value : R x.value y.value
  calls : x.calls = y.calls

namespace Metered.Alike

theorem pure {a : α} {b : β} (h : R a b) : Alike R (Pure.pure a) (Pure.pure b) :=
  ⟨h, rfl⟩

theorem bind {x : Metered α} {y : Metered β} {f : α → Metered γ} {g : β → Metered δ}
    (h : Alike R x y) (next : ∀ a b, R a b → Alike S (f a) (g b)) :
    Alike S (x >>= f) (y >>= g) where
  value := (next _ _ h.value).value
  calls := by rw [calls_bind, calls_bind, h.calls, (next _ _ h.value).calls]

theorem mapM {xs : List α} {ys : List β} {f : α → Metered γ} {g : β → Metered δ}
    (h : List.Forall₂ R xs ys) (next : ∀ a b, R a b → Alike S (f a) (g b)) :
    Alike (List.Forall₂ S) (xs.mapM f) (ys.mapM g) := by
  induction h with
  | nil => exact pure .nil
  | cons related _ ih =>
    rw [List.mapM_cons, List.mapM_cons]
    exact (next _ _ related).bind fun c d h => ih.bind fun cs ds hs => pure (.cons h hs)

theorem mapM_same {xs : List α} {f : α → Metered γ} {g : α → Metered δ}
    (next : ∀ a, Alike S (f a) (g a)) : Alike (List.Forall₂ S) (xs.mapM f) (xs.mapM g) :=
  mapM (List.forall₂_same.2 fun _ _ => rfl) fun a _ same => same ▸ next a

end Metered.Alike

/-! ## Attempts -/

/-- The attempts end alike, after the same calls. -/
structure Attempt.Alike (R : α → β → Prop) (x : Attempt ε α) (y : Attempt ε β) : Prop where
  outcome : EndsAlike R x.outcome y.outcome
  calls : x.calls = y.calls

namespace Attempt.Alike

theorem pure {a : α} {b : β} (h : R a b) :
    Alike R (Pure.pure a : Attempt ε α) (Pure.pure b : Attempt ε β) :=
  ⟨.ok h, rfl⟩

theorem throw (e : ε) :
    Alike R (MonadExcept.throw e : Attempt ε α) (MonadExcept.throw e : Attempt ε β) :=
  ⟨.error e, rfl⟩

theorem liftExcept {x : Except ε α} {y : Except ε β} (h : EndsAlike R x y) :
    Alike R (liftM x : Attempt ε α) (liftM y : Attempt ε β) :=
  ⟨h, rfl⟩

theorem liftMetered {x : Metered α} {y : Metered β} (h : Metered.Alike R x y) :
    Alike R (liftM x : Attempt ε α) (liftM y : Attempt ε β) where
  outcome := by
    rw [outcome_liftMetered, outcome_liftMetered]
    exact .ok h.value
  calls := by rw [calls_liftMetered, calls_liftMetered, h.calls]

theorem bind {x : Attempt ε α} {y : Attempt ε β} {f : α → Attempt ε γ} {g : β → Attempt ε δ}
    (h : Alike R x y) (next : ∀ a b, R a b → Alike S (f a) (g b)) :
    Alike S (x >>= f) (y >>= g) := by
  have ends := h.outcome
  constructor
  · rw [outcome_bind, outcome_bind]
    exact ends.bind fun a b related => (next a b related).outcome
  · rw [calls_bind, calls_bind, h.calls]
    generalize x.outcome = p at ends ⊢
    generalize y.outcome = q at ends ⊢
    cases ends with
    | ok related => exact congrArg (y.calls + ·) (next _ _ related).calls
    | error e => rfl

theorem bind_same {x : Except ε α} {f : α → Attempt ε γ} {g : α → Attempt ε δ}
    (next : ∀ a, Alike S (f a) (g a)) :
    Alike S ((liftM x : Attempt ε α) >>= f) ((liftM x : Attempt ε α) >>= g) :=
  (liftExcept (.refl x)).bind fun a _ same => same ▸ next a

theorem map {x : Attempt ε α} {y : Attempt ε β} {f : α → γ} {g : β → δ} (h : Alike R x y)
    (next : ∀ a b, R a b → S (f a) (g b)) : Alike S (f <$> x) (g <$> y) := by
  rw [map_eq_pure_bind, map_eq_pure_bind]
  exact h.bind fun a b related => pure (next a b related)

theorem mapM {xs : List α} {ys : List β} {f : α → Attempt ε γ} {g : β → Attempt ε δ}
    (h : List.Forall₂ R xs ys) (next : ∀ a b, R a b → Alike S (f a) (g b)) :
    Alike (List.Forall₂ S) (xs.mapM f) (ys.mapM g) := by
  induction h with
  | nil => exact pure .nil
  | cons related _ ih =>
    rw [List.mapM_cons, List.mapM_cons]
    exact (next _ _ related).bind fun c d h => ih.bind fun cs ds hs => pure (.cons h hs)

theorem adapt {ε' : Type} {x : Attempt ε α} {y : Attempt ε β} (f : ε → ε') (h : Alike R x y) :
    Alike R (x.adapt f : Attempt ε' α) (y.adapt f : Attempt ε' β) where
  outcome := h.outcome.mapError f
  calls := by rw [calls_adapt, calls_adapt, h.calls]

end Attempt.Alike

/-! ## Operands -/

theorem optionRel_bind {x : Option α} {y : Option β} {f : α → Option γ} {g : β → Option δ}
    (h : Option.Rel R x y) (next : ∀ a b, R a b → Option.Rel S (f a) (g b)) :
    Option.Rel S (x >>= f) (y >>= g) := by
  cases h with
  | some related => exact next _ _ related
  | none => exact .none

theorem optionRel_mapM {xs : List α} {ys : List β} {f : α → Option γ} {g : β → Option δ}
    (h : List.Forall₂ R xs ys) (next : ∀ a b, R a b → Option.Rel S (f a) (g b)) :
    Option.Rel (List.Forall₂ S) (xs.mapM f) (ys.mapM g) := by
  induction h with
  | nil => exact .some .nil
  | cons related _ ih =>
    rw [List.mapM_cons, List.mapM_cons]
    exact optionRel_bind (next _ _ related) fun c d h =>
      optionRel_bind ih fun cs ds hs => .some (.cons h hs)

theorem optionRel_mapM_same {xs : List α} {f : α → Option γ} {g : α → Option δ}
    (next : ∀ a, Option.Rel S (f a) (g a)) : Option.Rel (List.Forall₂ S) (xs.mapM f) (xs.mapM g) :=
  optionRel_mapM (List.forall₂_same.2 fun _ _ => rfl) fun a _ same => same ▸ next a

theorem optionRel_getElem? {xs : List α} {ys : List β} (h : List.Forall₂ R xs ys) (place : Nat) :
    Option.Rel R xs[place]? ys[place]? := by
  induction h generalizing place with
  | nil => exact .none
  | cons related _ ih =>
    cases place with
    | zero => exact .some related
    | succ place => exact ih place

end RangeKeys
