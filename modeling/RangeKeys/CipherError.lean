import RangeKeys.Bytes
import RangeKeys.Text.Record

/-!
# Errors of the cipher operations

An argument of the wrong length and an index beyond the limit are faults of the input; a
failed sealing and a failed authentication are not.

Here and in the modules above, the name in parentheses in a docstring is the one that the rendered
operation has in TimeCrypt.
-/

namespace RangeKeys

/-- The arguments whose length is checked. -/
inductive Part where
  | key
  | block
  | nonce
  | header
  | sealed
deriving DecidableEq

namespace Part

/-- The length that the part must have (`KEY_SIZE`, `BLOCK_SIZE`, `NONCE_SIZE`, `AAD_SIZE`,
`SEALED_SIZE`). -/
def size : Part → Nat
  | key => 16
  | block => 16
  | nonce => 12
  | header => 4
  | sealed => 32

/-- The part as it is called in messages; a header is additional authenticated data. -/
def noun : Part → String
  | key => "key"
  | block => "block"
  | nonce => "nonce"
  | header => "aad"
  | sealed => "sealed block"

/-- The name of the error that a wrong length of the part is. -/
def lengthErrorName : Part → String
  | key => "InvalidKeyLength"
  | block => "InvalidBlockLength"
  | nonce => "InvalidNonceLength"
  | header => "InvalidAadLength"
  | sealed => "InvalidSealedLength"

end Part

/-- Why an operation on keys and blocks failed (`CryptoError`). -/
inductive CipherError where
  /-- An argument does not have the length its part must have. -/
  | wrongLength (part : Part) (expected actual : Nat)
  /-- A child index is beyond what a single step accepts. -/
  | indexOutOfRange (index max : Nat)
  /-- The cipher could not seal. -/
  | encryptionFailure
  /-- The tag does not belong to the sealed block. -/
  | authenticationFailure
deriving DecidableEq

namespace CipherError

/-- The name of the error. -/
def name : CipherError → String
  | wrongLength part _ _ => part.lengthErrorName
  | indexOutOfRange _ _ => "IndexOutOfRange"
  | encryptionFailure => "EncryptionFailure"
  | authenticationFailure => "AuthenticationFailure"

/-- The error in a sentence. -/
def message : CipherError → String
  | wrongLength part expected actual =>
    s!"invalid {part.noun} length: expected {expected}, got {actual}"
  | indexOutOfRange index max =>
    s!"index {index} out of range: single-step apply accepts at most {max}"
  | encryptionFailure => "encryption failed"
  | authenticationFailure => "authentication failed"

/-- The error as a record. -/
def description (e : CipherError) : String :=
  Text.record e.name <| match e with
    | wrongLength _ expected actual =>
      [("expected", toString expected), ("actual", toString actual)]
    | indexOutOfRange index max => [("index", toString index), ("max", toString max)]
    | encryptionFailure => []
    | authenticationFailure => []

/-- Whether the arguments alone are at fault (`is_input_error`). -/
def isInputError : CipherError → Bool
  | wrongLength .. => true
  | indexOutOfRange .. => true
  | encryptionFailure => false
  | authenticationFailure => false

end CipherError

/-- The bytes of a part, if they have its length (`to_array`). -/
def Part.check (part : Part) (bytes : List UInt8) : Except CipherError (Vector UInt8 part.size) :=
  match Bytes.sized? part.size bytes with
  | some v => .ok v
  | none => .error (.wrongLength part part.size bytes.length)

theorem Part.check_toList (part : Part) (bytes : Vector UInt8 part.size) :
    part.check bytes.toList = .ok bytes := by
  rw [check, Bytes.sized?_toList]

theorem Part.check_of_length_ne {part : Part} {bytes : List UInt8}
    (size : bytes.length ≠ part.size) :
    part.check bytes = .error (.wrongLength part part.size bytes.length) := by
  rw [check, Bytes.sized?_eq_none_iff.2 size]

end RangeKeys
