/-!
# Computations that count cipher calls

A metered value carries how often the block cipher was asked to encrypt, seal and open
while the value was computed. Computing in sequence adds the counts. An attempt may also
fail, and keeps the calls that it made before it failed.
-/

namespace RangeKeys

/-- How often each operation of a block cipher was used. -/
structure Calls where
  encryptions : Nat
  sealings : Nat
  openings : Nat
deriving DecidableEq

namespace Calls

/-- No call at all. -/
def none : Calls := ⟨0, 0, 0⟩

/-- The calls of both. -/
def add (a b : Calls) : Calls :=
  ⟨a.encryptions + b.encryptions, a.sealings + b.sealings, a.openings + b.openings⟩

instance : Add Calls := ⟨add⟩

theorem add_def (a b : Calls) :
    a + b = ⟨a.encryptions + b.encryptions, a.sealings + b.sealings, a.openings + b.openings⟩ :=
  rfl

@[simp] theorem none_add (a : Calls) : none + a = a := by
  simp [add_def, none]

@[simp] theorem add_none (a : Calls) : a + none = a := by
  simp [add_def, none]

theorem add_assoc (a b c : Calls) : a + b + c = a + (b + c) := by
  simp [add_def, Nat.add_assoc]

/-- The given number of encryptions and nothing else. -/
def ofEncryptions (n : Nat) : Calls := ⟨n, 0, 0⟩

@[simp] theorem ofEncryptions_zero : ofEncryptions 0 = none := rfl

@[simp] theorem ofEncryptions_add (m n : Nat) :
    ofEncryptions m + ofEncryptions n = ofEncryptions (m + n) := rfl

end Calls

/-- A value together with the calls made to compute it. -/
structure Metered (α : Type) where
  value : α
  calls : Calls

namespace Metered

variable {α β : Type}

instance : Monad Metered where
  pure value := ⟨value, .none⟩
  bind x f := ⟨(f x.value).value, x.calls + (f x.value).calls⟩

@[simp] theorem value_pure (a : α) : (pure a : Metered α).value = a := rfl

@[simp] theorem calls_pure (a : α) : (pure a : Metered α).calls = .none := rfl

@[simp] theorem value_bind (x : Metered α) (f : α → Metered β) :
    (x >>= f).value = (f x.value).value := rfl

@[simp] theorem calls_bind (x : Metered α) (f : α → Metered β) :
    (x >>= f).calls = x.calls + (f x.value).calls := rfl

instance : LawfulMonad Metered := LawfulMonad.mk' Metered
  (by intro α x; cases x; simp [Functor.map])
  (by intro α β x f; simp [bind, pure])
  (by intro α β γ x f g; simp [bind, Calls.add_assoc])

@[simp] theorem value_map (f : α → β) (x : Metered α) : (f <$> x).value = f x.value := rfl

@[simp] theorem calls_map (f : α → β) (x : Metered α) : (f <$> x).calls = x.calls := by
  simp [Functor.map]

@[simp] theorem value_mapM (f : α → Metered β) (xs : List α) :
    (xs.mapM f).value = xs.map fun x => (f x).value := by
  induction xs with
  | nil => rfl
  | cons x xs ih => simp [ih]

end Metered

theorem mapM_congr {m : Type → Type} [Monad m] [LawfulMonad m] {α β : Type} {f g : α → m β}
    {items : List α} (same : ∀ item ∈ items, f item = g item) : items.mapM f = items.mapM g := by
  induction items with
  | nil => rfl
  | cons item items ih =>
    rw [List.mapM_cons, List.mapM_cons, same item (List.mem_cons_self ..),
      ih fun other mem => same other (List.mem_cons_of_mem _ mem)]

theorem flatten_mapM_cons {m : Type → Type} [Monad m] [LawfulMonad m] {α β : Type}
    (f : α → m (List β)) (item : α) (items : List α) :
    List.flatten <$> (item :: items).mapM f =
      (do return (← f item) ++ (← List.flatten <$> items.mapM f)) := by
  simp only [List.mapM_cons, map_eq_pure_bind, bind_assoc, pure_bind, List.flatten_cons]

@[simp] theorem except_ok_bind {ε α β : Type} (a : α) (f : α → Except ε β) :
    (Except.ok a >>= f) = f a := rfl

@[simp] theorem except_error_bind {ε α β : Type} (e : ε) (f : α → Except ε β) :
    (Except.error e >>= f) = .error e := rfl

/-- A metered computation that ends in a value or an error. -/
abbrev Attempt (ε α : Type) := ExceptT ε Metered α

namespace Attempt

variable {ε α β : Type}

/-- What the attempt ended in. -/
def outcome (x : Attempt ε α) : Except ε α := x.run.value

/-- The calls made, also by an attempt that failed. -/
def calls (x : Attempt ε α) : Calls := x.run.calls

@[simp] theorem outcome_pure (a : α) : (pure a : Attempt ε α).outcome = .ok a := rfl

@[simp] theorem calls_pure (a : α) : (pure a : Attempt ε α).calls = .none := rfl

@[simp] theorem outcome_throw (e : ε) : (throw e : Attempt ε α).outcome = .error e := rfl

@[simp] theorem calls_throw (e : ε) : (throw e : Attempt ε α).calls = .none := rfl

@[simp] theorem outcome_liftExcept (x : Except ε α) : (liftM x : Attempt ε α).outcome = x := rfl

@[simp] theorem calls_liftExcept (x : Except ε α) : (liftM x : Attempt ε α).calls = .none := rfl

@[simp] theorem outcome_liftMetered (x : Metered α) :
    (liftM x : Attempt ε α).outcome = .ok x.value := rfl

@[simp] theorem calls_liftMetered (x : Metered α) : (liftM x : Attempt ε α).calls = x.calls := by
  show x.calls + Calls.none = x.calls
  simp

theorem outcome_bind (x : Attempt ε α) (f : α → Attempt ε β) :
    (x >>= f).outcome = x.outcome >>= fun a => (f a).outcome := by
  show (ExceptT.bindCont f x.run.value).value = x.run.value >>= fun a => (f a).run.value
  cases x.run.value <;> rfl

@[simp] theorem outcome_map (f : α → β) (x : Attempt ε α) :
    (f <$> x).outcome = f <$> x.outcome := by
  rw [map_eq_pure_bind, outcome_bind]
  cases x.outcome <;> rfl

/-- Where nothing fails, each item gives its value. -/
theorem outcome_mapM {f : α → Attempt ε β} {g : α → β} {items : List α}
    (each : ∀ item ∈ items, (f item).outcome = .ok (g item)) :
    (items.mapM f).outcome = .ok (items.map g) := by
  induction items with
  | nil => rfl
  | cons item items ih =>
    have head := each item List.mem_cons_self
    have rest := ih fun other mem => each other (List.mem_cons_of_mem _ mem)
    rw [List.mapM_cons, outcome_bind, head, except_ok_bind, outcome_bind, rest]
    rfl

@[simp] theorem outcome_adapt {ε' : Type} (f : ε → ε') (x : Attempt ε α) :
    outcome (x.adapt f) = x.outcome.mapError f := rfl

@[simp] theorem calls_adapt {ε' : Type} (f : ε → ε') (x : Attempt ε α) :
    calls (x.adapt f) = x.calls :=
  Metered.calls_map ..

theorem ok_bind (a : α) (f : α → Attempt ε β) :
    ((liftM (.ok a : Except ε α) : Attempt ε α) >>= f) = f a :=
  pure_bind a f

/-- After a failure nothing more is called. -/
theorem calls_bind (x : Attempt ε α) (f : α → Attempt ε β) :
    (x >>= f).calls = x.calls + match x.outcome with
      | .ok a => (f a).calls
      | .error _ => .none := by
  show x.run.calls + (ExceptT.bindCont f x.run.value).calls = x.run.calls +
    match x.run.value with
      | .ok a => (f a).run.calls
      | .error _ => .none
  cases x.run.value <;> rfl

/-- What is free adds nothing. -/
theorem calls_bind_of_none {x : Attempt ε α} {f : α → Attempt ε β}
    (free : ∀ a, (f a).calls = .none) : (x >>= f).calls = x.calls := by
  rw [calls_bind]
  cases x.outcome <;> simp [free]

@[simp] theorem calls_map (f : α → β) (x : Attempt ε α) : (f <$> x).calls = x.calls := by
  rw [map_eq_pure_bind]
  exact calls_bind_of_none fun _ => rfl

theorem calls_bind_of_ok {x : Attempt ε α} {f : α → Attempt ε β} {a : α} (h : x.outcome = .ok a) :
    (x >>= f).calls = x.calls + (f a).calls := by
  rw [calls_bind, h]

theorem calls_bind_of_error {x : Attempt ε α} {f : α → Attempt ε β} {e : ε}
    (h : x.outcome = .error e) : (x >>= f).calls = x.calls := by
  rw [calls_bind, h, Calls.add_none]

/-- An attempt is told by its outcome and its calls. -/
theorem ext {x y : Attempt ε α} (outcome_eq : x.outcome = y.outcome)
    (calls_eq : x.calls = y.calls) : x = y := by
  show (⟨x.outcome, x.calls⟩ : Metered (Except ε α)) = ⟨y.outcome, y.calls⟩
  rw [outcome_eq, calls_eq]

theorem liftMetered_bind (x : Metered α) (f : α → Metered β) :
    (liftM (x >>= f) : Attempt ε β) = (liftM x : Attempt ε α) >>= fun a => liftM (f a) :=
  ext (by simp [outcome_bind]) (by simp [calls_bind])

/-- Only what follows on the value that was computed matters. -/
theorem liftMetered_bind_congr {x : Metered α} {f g : α → Attempt ε β}
    (same : f x.value = g x.value) : (liftM x >>= f) = (liftM x >>= g) := by
  apply ext
  · simp only [outcome_bind, outcome_liftMetered, except_ok_bind, same]
  · simp only [calls_bind, outcome_liftMetered, same]

theorem liftMetered_mapM (f : α → Metered β) (items : List α) :
    (liftM (items.mapM f) : Attempt ε (List β)) = items.mapM fun item => liftM (f item) := by
  induction items with
  | nil => rfl
  | cons item items ih => simp only [List.mapM_cons, liftMetered_bind, ih]; rfl

end Attempt

end RangeKeys
