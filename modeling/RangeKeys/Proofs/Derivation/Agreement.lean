import RangeKeys.Proofs.Derivation.Steps
import RangeKeys.Proofs.KeyTree.Construction

/-!
# Steps, paths and blocks derive the same keys

From bytes a key is derived by a single step, along a path or from a block. All three refuse a seed
of the wrong length alike. From a seed of sixteen bytes they lead to the same keys wherever more
than one of them can be used.
-/

namespace RangeKeys

/-- What begins by taking bytes as a key refuses them if they are not sixteen. -/
theorem Key.ofBytes_bind_of_length_ne {α : Type} {bytes : List UInt8} (size : bytes.length ≠ 16)
    (f : Key → Attempt CipherError α) :
    ((liftM (ofBytes bytes) : Attempt CipherError Key) >>= f) =
      throw (.wrongLength .key 16 bytes.length) := by
  have refused : Part.key.check bytes = .error (.wrongLength .key 16 bytes.length) :=
    Part.check_of_length_ne size
  rw [ofBytes, refused]
  rfl

namespace Cipher

variable (cipher : Cipher)

/-! ## Paths -/

/-- A path is walked by walking its parts one after the other. -/
theorem descendFromBytes_append (start : Key) (p q : List UInt32) :
    cipher.descendFromBytes start.bytes.toList (p ++ q) =
      cipher.descendFromBytes start.bytes.toList p >>= fun key =>
        cipher.descendFromBytes key.bytes.toList q := by
  simp only [descendFromBytes_toList, descend_append, Attempt.liftMetered_bind]

/-- A path of one index leads to the key of the block of the index. -/
theorem descendFromBytes_singleton (start : Key) (index : UInt32) :
    cipher.descendFromBytes start.bytes.toList [index] =
      cipher.blockKeyOfBytes start.bytes.toList (indexBlock index).toList := by
  rw [descendFromBytes_toList, blockKeyOfBytes_toList, descend]
  exact congrArg liftM (bind_pure (cipher.child start index))

/-! ## Single steps -/

theorem outcome_steps_stop (start : Key) {before : List UInt32} {index : UInt32}
    (within : ∀ other ∈ before, other.toNat ≤ maxChildIndex)
    (beyond : maxChildIndex < index.toNat) (after : List UInt32) :
    (cipher.steps start (before ++ index :: after)).outcome =
      .error (.indexOutOfRange index.toNat maxChildIndex) := by
  rw [steps_stop _ _ within beyond, Attempt.outcome_bind, Attempt.outcome_liftMetered]
  rfl

theorem calls_steps_stop (start : Key) {before : List UInt32} {index : UInt32}
    (within : ∀ other ∈ before, other.toNat ≤ maxChildIndex)
    (beyond : maxChildIndex < index.toNat) (after : List UInt32) :
    (cipher.steps start (before ++ index :: after)).calls = .ofEncryptions before.length := by
  rw [steps_stop _ _ within beyond, Attempt.calls_bind_of_none fun _ => Attempt.calls_throw _,
    Attempt.calls_liftMetered, calls_descend]

end Cipher

/-- A path on which not every index is within the limit has a first one that is not. -/
theorem exists_first_beyond {path : List UInt32}
    (beyond : ¬ ∀ index ∈ path, index.toNat ≤ maxChildIndex) :
    ∃ before index after, path = before ++ index :: after ∧
      (∀ other ∈ before, other.toNat ≤ maxChildIndex) ∧ maxChildIndex < index.toNat := by
  push Not at beyond
  obtain ⟨great, mem, great_gt⟩ := beyond
  have found : (path.find? fun index => maxChildIndex < index.toNat).isSome :=
    List.find?_isSome.2 ⟨great, mem, decide_eq_true great_gt⟩
  obtain ⟨index, first⟩ := Option.isSome_iff_exists.1 found
  obtain ⟨index_gt, before, after, path_eq, before_le⟩ := List.find?_eq_some_iff_append.1 first
  refine ⟨before, index, after, path_eq, fun other other_mem => ?_, of_decide_eq_true index_gt⟩
  simpa using before_le other other_mem

namespace Cipher

/-- A seed that does not have sixteen bytes is refused in the same words by single steps, by paths
and by blocks, whatever else they are given. A seed of sixteen bytes is a key, from which every path
leads to a key by as many calls as it has indices, in one go or in parts, and a path of one index
leads to the key of its block. Single steps come to the end of a path exactly if every index on it
is at most 255, and then do just what the path does; otherwise they stop at the first greater
index, which the error names. -/
theorem derivations_from_bytes_agree (cipher : Cipher) (seed : List UInt8) :
    (seed.length ≠ 16 →
      (∀ index,
        cipher.childOfBytes seed index = throw (.wrongLength .key 16 seed.length)) ∧
      (∀ path,
        cipher.descendFromBytes seed path = throw (.wrongLength .key 16 seed.length)) ∧
      ∀ input,
        cipher.blockKeyOfBytes seed input = throw (.wrongLength .key 16 seed.length)) ∧
    (seed.length = 16 →
      (∀ path, (∃ key, (cipher.descendFromBytes seed path).outcome = .ok key) ∧
        (cipher.descendFromBytes seed path).calls = .ofEncryptions path.length) ∧
      (∀ p q, cipher.descendFromBytes seed (p ++ q) =
        cipher.descendFromBytes seed p >>= fun key =>
          cipher.descendFromBytes key.bytes.toList q) ∧
      (∀ index, cipher.descendFromBytes seed [index] =
        cipher.blockKeyOfBytes seed (indexBlock index).toList) ∧
      ∃ start : Key, start.bytes.toList = seed ∧ ∀ path,
        ((∃ key, (cipher.steps start path).outcome = .ok key) ↔
          ∀ index ∈ path, index.toNat ≤ 255) ∧
        ((∀ index ∈ path, index.toNat ≤ 255) →
          cipher.steps start path = cipher.descendFromBytes seed path) ∧
        (¬ (∀ index ∈ path, index.toNat ≤ 255) →
          ∃ before index after, path = before ++ index :: after ∧
            (∀ other ∈ before, other.toNat ≤ 255) ∧ 255 < index.toNat ∧
            (cipher.steps start path).outcome = .error (.indexOutOfRange index.toNat 255) ∧
            (cipher.steps start path).calls = .ofEncryptions before.length)) := by
  refine ⟨fun size => ?_, fun size => ?_⟩
  · exact ⟨fun _ => Key.ofBytes_bind_of_length_ne size _,
      fun _ => Key.ofBytes_bind_of_length_ne size _, fun _ => Key.ofBytes_bind_of_length_ne size _⟩
  · obtain ⟨start, start_key⟩ := Key.exists_ofBytes size
    obtain rfl := Key.ofBytes_eq_ok_iff.1 start_key
    refine ⟨fun path => ⟨⟨_, cipher.outcome_descendFromBytes start path⟩, ?_⟩,
      cipher.descendFromBytes_append start, cipher.descendFromBytes_singleton start, start, rfl,
      fun path => ⟨⟨?_, ?_⟩, ?_, ?_⟩⟩
    · rw [descendFromBytes_toList, Attempt.calls_liftMetered, calls_descend]
    · rintro ⟨key, reached⟩
      by_contra beyond
      obtain ⟨before, index, after, rfl, before_le, index_gt⟩ := exists_first_beyond beyond
      rw [cipher.outcome_steps_stop start before_le index_gt] at reached
      cases reached
    · intro within
      exact ⟨_, cipher.outcome_steps start within⟩
    · intro within
      rw [descendFromBytes_toList]
      exact cipher.steps_eq_descend start within
    · intro beyond
      obtain ⟨before, index, after, rfl, before_le, index_gt⟩ := exists_first_beyond beyond
      exact ⟨before, index, after, rfl, before_le, index_gt,
        cipher.outcome_steps_stop start before_le index_gt after,
        cipher.calls_steps_stop start before_le index_gt after⟩

/-- A path with the index 300 is walked in one go, but single steps stop there. A seed of fifteen
bytes is refused before the index is looked at. -/
theorem derivations_along_one_great_index :
    (∃ key, (Cipher.aes.descendFromBytes (List.replicate 16 7) [1, 300, 2]).outcome = .ok key) ∧
      (∃ start : Key, start.bytes.toList = List.replicate 16 7 ∧
        (Cipher.aes.steps start [1, 300, 2]).outcome = .error (.indexOutOfRange 300 255) ∧
        Cipher.aes.steps start [1, 30, 2] =
          Cipher.aes.descendFromBytes (List.replicate 16 7) [1, 30, 2]) ∧
      Cipher.aes.childOfBytes (List.replicate 15 7) 300 = throw (.wrongLength .key 16 15) := by
  obtain ⟨-, sixteen⟩ := derivations_from_bytes_agree .aes (List.replicate 16 7)
  obtain ⟨fifteen, -⟩ := derivations_from_bytes_agree .aes (List.replicate 15 7)
  obtain ⟨paths, -, -, start, start_bytes, steps⟩ := sixteen rfl
  obtain ⟨steps_of_bytes, -⟩ := fifteen (by simp)
  obtain ⟨-, -, stop⟩ := steps [1, 300, 2]
  obtain ⟨before, index, after, path_eq, before_le, index_gt, failed, -⟩ := stop (by simp)
  have first : [1, 300, 2].find? (fun index : UInt32 => 255 < index.toNat) = some index :=
    List.find?_eq_some_iff_append.2 ⟨by simpa using index_gt, before, after, path_eq,
      fun other mem => by simpa using before_le other mem⟩
  obtain rfl : 300 = index := Option.some.inj first
  obtain ⟨-, same, -⟩ := steps [1, 30, 2]
  exact ⟨(paths [1, 300, 2]).1, ⟨start, start_bytes, failed, same (by simp)⟩, steps_of_bytes 300⟩

end Cipher

end RangeKeys
