import RangeKeys.Tree.Error

/-!
# Arithmetic that is cut off

Words and lengths are computed with as long as the results are exact. Where a result does not fit,
where a divisor is zero or where a list has no item at a place, the computation is cut off by a
fault. A caller never sees a fault as an answer, only errors are.
-/

namespace RangeKeys

/-- What cuts a computation off. -/
inductive Fault where
  /-- The result of an operation does not fit. -/
  | overflow
  /-- The divisor is zero. -/
  | divisionByZero
  /-- The list has no item at the place. -/
  | outOfBounds (place size : Nat)
deriving DecidableEq

/-- A computation that a fault may cut off. -/
abbrev Checked (α : Type) := Except Fault α

/-- How an operation ends without a result. -/
inductive Stop where
  | fault (fault : Fault)
  | refused (e : TreeError)
deriving DecidableEq

instance : MonadLift Checked (Except Stop) :=
  ⟨fun x => x.mapError .fault⟩

instance : MonadLift (Except TreeError) (Except Stop) :=
  ⟨fun x => x.mapError .refused⟩

@[simp] theorem liftM_checked_ok {α : Type} (a : α) :
    (liftM (.ok a : Checked α) : Except Stop α) = .ok a := rfl

@[simp] theorem liftM_tree_ok {α : Type} (a : α) :
    (liftM (.ok a : Except TreeError α) : Except Stop α) = .ok a := rfl

namespace Checked

/-! ## Words -/

/-- The sum, if there is a word for it. -/
def add? (a b : UInt64) : Option UInt64 :=
  if a.toNat + b.toNat < UInt64.size then some (a + b) else none

/-- The power, if there is a word for it. -/
def pow? (a : UInt64) (exponent : Nat) : Option UInt64 :=
  if a.toNat.pow exponent < UInt64.size then some (UInt64.ofNat (a.toNat.pow exponent)) else none

/-- The result, if there is one that fits. -/
def fitting {α : Type} : Option α → Checked α
  | some a => .ok a
  | none => .error .overflow

def add (a b : UInt64) : Checked UInt64 :=
  fitting (add? a b)

def pow (a : UInt64) (exponent : Nat) : Checked UInt64 :=
  fitting (pow? a exponent)

def mul (a b : UInt64) : Checked UInt64 :=
  if a.toNat * b.toNat < UInt64.size then .ok (a * b) else .error .overflow

def div (a b : UInt64) : Checked UInt64 :=
  if b = 0 then .error .divisionByZero else .ok (a / b)

def mod (a b : UInt64) : Checked UInt64 :=
  if b = 0 then .error .divisionByZero else .ok (a % b)

/-- The difference of words or of lengths. -/
def sub {α : Type} [LE α] [DecidableLE α] [Sub α] (a b : α) : Checked α :=
  if b ≤ a then .ok (a - b) else .error .overflow

/-- The item at a place of a list. -/
def item {α : Type} (items : List α) (place : Nat) : Checked α :=
  match items[place]? with
  | some a => .ok a
  | none => .error (.outOfBounds place items.length)

/-! ## Exactness -/

theorem toNat_of_lt {n : Nat} (lt : n < UInt64.size) : (UInt64.ofNat n).toNat = n :=
  UInt64.toNat_ofNat_of_lt lt

theorem toNat_max (a b : UInt64) : (max a b).toNat = max a.toNat b.toNat :=
  apply_ite UInt64.toNat (a ≤ b) b a

theorem toNat_min (a b : UInt64) : (min a b).toNat = min a.toNat b.toNat :=
  apply_ite UInt64.toNat (a ≤ b) a b

theorem add_eq_ok_iff {a b c : UInt64} : add a b = .ok c ↔ c.toNat = a.toNat + b.toNat := by
  unfold add add?
  split
  · rename_i fits
    have exact : (a + b).toNat = a.toNat + b.toNat := by
      rw [UInt64.toNat_add]
      exact Nat.mod_eq_of_lt fits
    rw [fitting, Except.ok.injEq, ← UInt64.toNat_inj, exact, eq_comm]
  · have := c.toNat_lt_size
    simp only [fitting, reduceCtorEq, false_iff]
    omega

theorem pow_eq_ok_iff {a c : UInt64} {exponent : Nat} :
    pow a exponent = .ok c ↔ c.toNat = a.toNat.pow exponent := by
  unfold pow pow?
  split
  · rename_i fits
    rw [fitting, Except.ok.injEq, ← UInt64.toNat_inj, toNat_of_lt fits, eq_comm]
  · have := c.toNat_lt_size
    simp only [fitting, reduceCtorEq, false_iff]
    omega

theorem mul_eq_ok_iff {a b c : UInt64} : mul a b = .ok c ↔ c.toNat = a.toNat * b.toNat := by
  unfold mul
  split
  · rename_i fits
    have exact : (a * b).toNat = a.toNat * b.toNat := by
      rw [UInt64.toNat_mul]
      exact Nat.mod_eq_of_lt fits
    rw [Except.ok.injEq, ← UInt64.toNat_inj, exact, eq_comm]
  · have := c.toNat_lt_size
    simp only [reduceCtorEq, false_iff]
    omega

theorem sub_eq_ok {α : Type} [LE α] [DecidableLE α] [Sub α] {a b : α} (le : b ≤ a) :
    sub a b = .ok (a - b) :=
  if_pos le

theorem div_eq_ok {a b : UInt64} (ne : b ≠ 0) : div a b = .ok (a / b) :=
  if_neg ne

theorem mod_eq_ok {a b : UInt64} (ne : b ≠ 0) : mod a b = .ok (a % b) :=
  if_neg ne

@[simp] theorem item_cons_zero {α : Type} (a : α) (items : List α) :
    item (a :: items) 0 = .ok a := rfl

theorem item_eq_ok_iff {α : Type} {items : List α} {place : Nat} {a : α} :
    item items place = .ok a ↔ items[place]? = some a := by
  unfold item
  split <;> simp_all

end Checked

end RangeKeys
