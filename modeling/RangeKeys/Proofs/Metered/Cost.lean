import Mathlib.Algebra.GroupWithZero.Nat
import RangeKeys.Metered

/-!
# What sequences of computations cost

Where all calls are encryptions, they are counted by a number. It may depend on the value of an
attempt, and on whether the attempt fails. The numbers of all items of a list add up.
-/

namespace RangeKeys

/-- If only encryptions are made for each item, those of all items add up. -/
theorem Metered.calls_mapM {α β : Type} {f : α → Metered β} {cost : α → Nat}
    {xs : List α} (each : ∀ x ∈ xs, (f x).calls = .ofEncryptions (cost x)) :
    (xs.mapM f).calls = .ofEncryptions (xs.map cost).sum := by
  induction xs with
  | nil => rfl
  | cons x xs ih =>
    have rest := ih fun other mem => each other (List.mem_cons_of_mem _ mem)
    have head := each x List.mem_cons_self
    simp [rest, head]

namespace Attempt

variable {ε α β : Type} {x : Attempt ε α} {onOk : α → Nat} {onError : Nat}

/-- The attempt makes encryptions only, so many if it gives a value and so many if it fails. -/
structure Costs (x : Attempt ε α) (onOk : α → Nat) (onError : Nat) : Prop where
  ok : ∀ a, x.outcome = .ok a → x.calls = .ofEncryptions (onOk a)
  error : ∀ e, x.outcome = .error e → x.calls = .ofEncryptions onError

namespace Costs

theorem throw (e : ε) : Costs (MonadExcept.throw e : Attempt ε α) onOk 0 :=
  ⟨nofun, fun _ _ => rfl⟩

/-- A check is free, and nothing is called if it fails. -/
theorem bind_check {y : Except ε β} {f : β → Attempt ε α}
    (next : ∀ b, y = .ok b → Costs (f b) onOk 0) :
    Costs ((liftM y : Attempt ε β) >>= f) onOk 0 := by
  cases y with
  | ok b =>
    rw [ok_bind]
    exact next b rfl
  | error e => exact ⟨nofun, fun _ _ => rfl⟩

/-- What never fails adds its calls to those of an attempt that goes well. -/
theorem bind_total {f : α → Attempt ε β} {cost more : Nat} (h : Costs x (fun _ => cost) onError)
    (total : ∀ a, ∃ b, (f a).outcome = .ok b) (calls : ∀ a, (f a).calls = .ofEncryptions more) :
    Costs (x >>= f) (fun _ => cost + more) onError := by
  cases ended : x.outcome with
  | ok a =>
    obtain ⟨b, next⟩ := total a
    refine ⟨fun _ _ => ?_, fun e failed => ?_⟩
    · rw [calls_bind_of_ok ended, h.ok a ended, calls a, Calls.ofEncryptions_add]
    · rw [outcome_bind, ended, except_ok_bind, next] at failed
      cases failed
  | error e =>
    refine ⟨fun b given => ?_, fun _ _ => ?_⟩
    · rw [outcome_bind, ended] at given
      cases given
    · rw [calls_bind_of_error ended, h.error e ended]

end Costs

/-- Where nothing fails, the encryptions of all items add up. -/
theorem calls_mapM {f : α → Attempt ε β} {g : α → β} {cost : α → Nat} {items : List α}
    (each : ∀ item ∈ items, (f item).outcome = .ok (g item) ∧
      (f item).calls = .ofEncryptions (cost item)) :
    (items.mapM f).calls = .ofEncryptions (items.map cost).sum := by
  induction items with
  | nil => rfl
  | cons item items ih =>
    obtain ⟨head, head_calls⟩ := each item List.mem_cons_self
    have others := fun other mem => each other (List.mem_cons_of_mem item mem)
    have rest := outcome_mapM fun other mem => (others other mem).1
    rw [List.mapM_cons, calls_bind_of_ok head, head_calls, calls_bind_of_ok rest, ih others,
      calls_pure, Calls.add_none, Calls.ofEncryptions_add, List.map_cons, List.sum_cons]

end Attempt

end RangeKeys
