/-!
# Byte strings of a fixed size

Arguments arrive as lists of bytes; everything behind the length checks works on
vectors. A list is accepted at a size exactly when it has that length, and then
holds the same bytes.
-/

namespace RangeKeys

/-- The unit of the block cipher: sixteen bytes. -/
abbrev Block := Vector UInt8 16

namespace Bytes

/-- The list as a vector of `size` bytes, if it has that many. -/
def sized? (size : Nat) (bytes : List UInt8) : Option (Vector UInt8 size) :=
  if h : bytes.length = size then some ⟨bytes.toArray, by simpa using h⟩ else none

theorem sized?_toList {size : Nat} (v : Vector UInt8 size) : sized? size v.toList = some v := by
  have h : v.toList.length = size := by simp
  rw [sized?, dif_pos h]
  rfl

theorem toList_of_sized? {size : Nat} {bytes : List UInt8} {v : Vector UInt8 size}
    (h : sized? size bytes = some v) : v.toList = bytes := by
  unfold sized? at h
  split at h
  · injection h with h
    subst h
    simp [Vector.toList]
  · cases h

theorem sized?_eq_none_iff {size : Nat} {bytes : List UInt8} :
    sized? size bytes = none ↔ bytes.length ≠ size := by
  unfold sized?
  split <;> simp [*]

/-- The bytes of `v` from position `start` on, `size` of them. -/
def window {n : Nat} (v : Vector UInt8 n) (start size : Nat) (fits : start + size ≤ n) :
    Vector UInt8 size :=
  Vector.ofFn fun i => v[start + i.val]

section Append

variable {m n start size : Nat}

theorem window_append_left (u : Vector UInt8 m) (v : Vector UInt8 n) (fits : 0 + m ≤ m + n) :
    window (u ++ v) 0 m fits = u := by
  ext i hi : 1
  simp only [window, Vector.getElem_ofFn, Nat.zero_add]
  exact Vector.getElem_append_left hi

theorem window_append_right (u : Vector UInt8 m) (v : Vector UInt8 n) (fits : m + n ≤ m + n) :
    window (u ++ v) m n fits = v := by
  ext i hi : 1
  simp only [window, Vector.getElem_ofFn]
  rw [Vector.getElem_append_right (by omega) (Nat.le_add_right ..)]
  simp only [Nat.add_sub_cancel_left]

/-- A window that ends within the left part is a window of that part. -/
theorem window_append_of_le (u : Vector UInt8 m) (v : Vector UInt8 n) (within : start + size ≤ m)
    (fits : start + size ≤ m + n) :
    window (u ++ v) start size fits = window u start size within := by
  ext i hi : 1
  simp only [window, Vector.getElem_ofFn]
  exact Vector.getElem_append_left (by omega)

theorem append_windows (bytes : Vector UInt8 (m + n)) (left : 0 + m ≤ m + n)
    (right : m + n ≤ m + n) : window bytes 0 m left ++ window bytes m n right = bytes := by
  ext i hi : 1
  by_cases low : i < m
  · rw [Vector.getElem_append_left low]
    simp [window]
  · rw [Vector.getElem_append_right hi (Nat.le_of_not_lt low)]
    simp only [window, Vector.getElem_ofFn, Nat.add_sub_of_le (Nat.le_of_not_lt low)]

end Append

/-- Byte-wise exclusive or. -/
def xor {n : Nat} (a b : Vector UInt8 n) : Vector UInt8 n :=
  Vector.zipWith (· ^^^ ·) a b

theorem getElem_xor {n : Nat} (a b : Vector UInt8 n) (i : Nat) (h : i < n) :
    (xor a b)[i] = a[i] ^^^ b[i] := by
  simp [xor]

theorem xor_xor_cancel_right {n : Nat} (a b : Vector UInt8 n) : xor (xor a b) b = a := by
  ext i h : 1
  rw [getElem_xor, getElem_xor, UInt8.xor_assoc, UInt8.xor_self, UInt8.xor_zero]

theorem xor_comm {n : Nat} (a b : Vector UInt8 n) : xor a b = xor b a := by
  ext i h : 1
  rw [getElem_xor, getElem_xor, UInt8.xor_comm]

theorem xor_right_injective {n : Nat} (b : Vector UInt8 n) : Function.Injective (xor · b) := by
  intro a a' h
  have cancelled := congrArg (xor · b) h
  simpa only [xor_xor_cancel_right] using cancelled

theorem xor_left_injective {n : Nat} (a : Vector UInt8 n) : Function.Injective (xor a) := by
  intro b b' h
  rw [xor_comm a b, xor_comm a b'] at h
  exact xor_right_injective a h

end Bytes

end RangeKeys
