import RangeKeys.Tree.Error

/-!
# Ranges of leaves

A range holds every leaf from its first to its last, both included, and is never empty.
-/

namespace RangeKeys

/-- The leaves from `first` to `last`. -/
structure LeafRange where
  first : Nat
  last : Nat
  first_le_last : first ≤ last
deriving DecidableEq

namespace LeafRange

/-- The range between two bounds, if they are in order. -/
def between (first last : UInt64) : Except TreeError LeafRange :=
  if h : first.toNat ≤ last.toNat then
    .ok ⟨first.toNat, last.toNat, h⟩
  else
    .error (.invalidRange first.toNat last.toNat)

instance : Membership Nat LeafRange where
  mem range leaf := range.first ≤ leaf ∧ leaf ≤ range.last

instance (leaf : Nat) (range : LeafRange) : Decidable (leaf ∈ range) :=
  inferInstanceAs (Decidable (_ ∧ _))

theorem mem_def {leaf : Nat} {range : LeafRange} :
    leaf ∈ range ↔ range.first ≤ leaf ∧ leaf ≤ range.last := Iff.rfl

/-- Every leaf of `a` is one of `b`. -/
def Within (a b : LeafRange) : Prop :=
  b.first ≤ a.first ∧ a.last ≤ b.last

instance (a b : LeafRange) : Decidable (a.Within b) :=
  inferInstanceAs (Decidable (_ ∧ _))

/-- The ranges have a leaf in common. -/
def Meets (a b : LeafRange) : Prop :=
  a.first ≤ b.last ∧ b.first ≤ a.last

instance (a b : LeafRange) : Decidable (a.Meets b) :=
  inferInstanceAs (Decidable (_ ∧ _))

/-- The number of leaves. -/
def count (range : LeafRange) : Nat :=
  range.last - range.first + 1

theorem within_iff {a b : LeafRange} : a.Within b ↔ ∀ leaf ∈ a, leaf ∈ b := by
  have hb := a.first_le_last
  constructor
  · intro h leaf hleaf
    exact ⟨Nat.le_trans h.1 hleaf.1, Nat.le_trans hleaf.2 h.2⟩
  · intro h
    exact ⟨(h a.first ⟨Nat.le_refl _, hb⟩).1, (h a.last ⟨hb, Nat.le_refl _⟩).2⟩

theorem meets_iff {a b : LeafRange} : a.Meets b ↔ ∃ leaf, leaf ∈ a ∧ leaf ∈ b := by
  have ha := a.first_le_last
  have hb := b.first_le_last
  constructor
  · intro h
    exact ⟨max a.first b.first, ⟨Nat.le_max_left .., Nat.max_le.2 ⟨ha, h.2⟩⟩,
      ⟨Nat.le_max_right .., Nat.max_le.2 ⟨h.1, hb⟩⟩⟩
  · rintro ⟨leaf, ⟨h₁, h₂⟩, h₃, h₄⟩
    exact ⟨Nat.le_trans h₁ h₄, Nat.le_trans h₃ h₂⟩

end LeafRange

end RangeKeys
