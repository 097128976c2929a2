import RangeKeys.Derivation

/-!
# Deriving from the bytes of a key

A key given as bytes is taken back as it was, so a path can be walked from the bytes of the key
where it starts, in one go or in single steps. Single steps are the path as long as every index is
within the limit of a single step, and stop at the first one that is not.
-/

namespace RangeKeys.Cipher

variable (cipher : Cipher)

/-- The end of a path that is walked in single steps, each from the bytes of the key before it. -/
def steps (start : Key) (path : List UInt32) : Attempt CipherError Key :=
  path.foldlM (fun key index => cipher.childOfBytes key.bytes.toList index) start

/-! ## From the bytes of a key -/

theorem childOfBytes_toList (key : Key) (index : UInt32) :
    cipher.childOfBytes key.bytes.toList index = cipher.limitedChild key index := by
  rw [childOfBytes, key.ofBytes_toList, Attempt.ok_bind]

theorem descendFromBytes_toList (key : Key) (path : List UInt32) :
    cipher.descendFromBytes key.bytes.toList path = liftM (cipher.descend key path) := by
  rw [descendFromBytes, key.ofBytes_toList, Attempt.ok_bind]

theorem blockKeyOfBytes_toList (key : Key) (block : Block) :
    cipher.blockKeyOfBytes key.bytes.toList block.toList = liftM (cipher.blockKey key block) := by
  have block_size : Part.block.check block.toList = .ok block := Part.check_toList .block block
  rw [blockKeyOfBytes, key.ofBytes_toList, Attempt.ok_bind, block_size]
  exact Attempt.ok_bind ..

theorem limitedChild_of_le (key : Key) {index : UInt32} (within : index.toNat ≤ maxChildIndex) :
    cipher.limitedChild key index = liftM (cipher.child key index) :=
  if_neg (Nat.not_lt.2 within)

theorem limitedChild_of_lt (key : Key) {index : UInt32} (beyond : maxChildIndex < index.toNat) :
    cipher.limitedChild key index = throw (.indexOutOfRange index.toNat maxChildIndex) :=
  if_pos beyond

theorem outcome_descendFromBytes (key : Key) (path : List UInt32) :
    (cipher.descendFromBytes key.bytes.toList path).outcome =
      .ok (cipher.descend key path).value := by
  rw [descendFromBytes_toList, Attempt.outcome_liftMetered]

theorem outcome_childOfBytes (key : Key) {index : UInt32} (within : index.toNat ≤ maxChildIndex) :
    (cipher.childOfBytes key.bytes.toList index).outcome =
      .ok (cipher.child key index).value := by
  rw [childOfBytes_toList, limitedChild_of_le _ _ within, Attempt.outcome_liftMetered]

/-! ## Single steps -/

theorem steps_cons (start : Key) (index : UInt32) (path : List UInt32) :
    cipher.steps start (index :: path) =
      cipher.limitedChild start index >>= fun key => cipher.steps key path := by
  rw [steps, List.foldlM_cons, childOfBytes_toList]
  rfl

/-- Single steps along indices within the limit go on as the path does. -/
theorem steps_append (start : Key) {path : List UInt32}
    (within : ∀ index ∈ path, index.toNat ≤ maxChildIndex) (rest : List UInt32) :
    cipher.steps start (path ++ rest) =
      (liftM (cipher.descend start path) : Attempt CipherError Key) >>= fun key =>
        cipher.steps key rest := by
  induction path generalizing start with
  | nil => exact (pure_bind start fun key => cipher.steps key rest).symm
  | cons index path ih =>
    have others : ∀ other ∈ path, other.toNat ≤ maxChildIndex :=
      fun other mem => within other (List.mem_cons_of_mem _ mem)
    rw [List.cons_append, steps_cons, limitedChild_of_le _ _ (within index List.mem_cons_self),
      descend, Attempt.liftMetered_bind, bind_assoc]
    exact congrArg _ (funext fun key => ih key others)

/-- Single steps lead where the whole path leads, and with the same calls. -/
theorem steps_eq_descend (start : Key) {path : List UInt32}
    (within : ∀ index ∈ path, index.toNat ≤ maxChildIndex) :
    cipher.steps start path = liftM (cipher.descend start path) := by
  have all := cipher.steps_append start within []
  rw [List.append_nil] at all
  rw [all]
  exact bind_pure _

/-- The first index beyond the limit ends the steps. -/
theorem steps_stop (start : Key) {before : List UInt32} {index : UInt32}
    (within : ∀ other ∈ before, other.toNat ≤ maxChildIndex)
    (beyond : maxChildIndex < index.toNat) (after : List UInt32) :
    cipher.steps start (before ++ index :: after) =
      (liftM (cipher.descend start before) : Attempt CipherError Key) >>= fun _ =>
        throw (.indexOutOfRange index.toNat maxChildIndex) := by
  rw [steps_append _ _ within]
  refine congrArg _ (funext fun key => ?_)
  rw [steps_cons, limitedChild_of_lt _ _ beyond]
  rfl

/-- Single steps lead where the whole path leads, and none of them fails. -/
theorem outcome_steps (seed : Key) {path : List UInt32}
    (within : ∀ index ∈ path, index.toNat ≤ maxChildIndex) :
    (cipher.steps seed path).outcome = .ok (cipher.descend seed path).value := by
  rw [steps_eq_descend _ _ within, Attempt.outcome_liftMetered]

end RangeKeys.Cipher
