import RangeKeys.CipherError
import RangeKeys.Gcm.Sealing
import RangeKeys.Metered

/-!
# Keys and block ciphers

A cipher is whatever encrypts a block under a key, and seals and opens a block together
with a header. Everything above this module asks a cipher only through the metered
operations, so the calls of a computation are exactly those it made. Which errors a cipher
gives on its own account is up to the cipher; a contract says which it should give.
-/

namespace RangeKeys

/-- A key of the cipher, which is also a seed of the tree below it (`Key`). -/
structure Key where
  bytes : Vector UInt8 16
deriving DecidableEq

namespace Key

/-- The bytes as a key, if there are sixteen (`from_slice`). -/
def ofBytes (bytes : List UInt8) : Except CipherError Key :=
  return ⟨← Part.key.check bytes⟩

theorem ofBytes_toList (key : Key) : ofBytes key.bytes.toList = .ok key := by
  have checked : Part.key.check key.bytes.toList = .ok key.bytes := Part.check_toList .key key.bytes
  rw [ofBytes, checked]
  rfl

/-- A key is described without its bytes. -/
def description (_ : Key) : String :=
  Text.wrapped "Key" ".."

end Key

/-- The operations on one block that a cipher offers (`CipherBackend`). -/
structure Cipher where
  /-- The name by which the cipher is identified. -/
  name : String
  /-- The cipher as it appears in the description of what holds it. -/
  description : String
  /-- The encryption of a block (`block_encrypt`). -/
  encrypt : Key → Block → Block
  /-- The sealed block, or why there is none (`aead_seal`). -/
  sealBlock : Key → Nonce → Header → Block → Except CipherError SealedBlock
  /-- The plaintext of a sealed block, or why it is not opened (`aead_open`). -/
  openBlock : Key → Nonce → Header → SealedBlock → Except CipherError Block

namespace Cipher

/-- The cipher gives the error when it seals. -/
def SealingError (cipher : Cipher) (e : CipherError) : Prop :=
  ∃ key nonce header plaintext, cipher.sealBlock key nonce header plaintext = .error e

/-- The cipher gives the error when it opens. -/
def OpeningError (cipher : Cipher) (e : CipherError) : Prop :=
  ∃ key nonce header sealedBlock, cipher.openBlock key nonce header sealedBlock = .error e

/-- The contract of `CipherBackend` on errors: that the cipher cannot seal is the only failure of
sealing, and that the tag is wrong the only one of opening. -/
structure KeepsContract (cipher : Cipher) : Prop where
  sealing : ∀ e, cipher.SealingError e → e = .encryptionFailure
  opening : ∀ e, cipher.OpeningError e → e = .authenticationFailure

/-- AES with keys of 128 bits, sealing in Galois/counter mode (`AesBackend`). -/
def aes : Cipher where
  name := "rustcrypto-aes"
  description := "AesBackend"
  encrypt key := Aes.encrypt key.bytes
  sealBlock key nonce header plaintext := .ok (Gcm.sealBlock key.bytes nonce header plaintext)
  openBlock key nonce header sealedBlock :=
    match Gcm.openBlock? key.bytes nonce header sealedBlock with
    | some plaintext => .ok plaintext
    | none => .error .authenticationFailure

/-- With AES sealing never fails, and opening fails for the tag alone. -/
theorem keepsContract_aes : aes.KeepsContract where
  sealing := by
    rintro e ⟨key, nonce, header, plaintext, failed⟩
    cases failed
  opening := by
    rintro e ⟨key, nonce, header, sealedBlock, refused⟩
    simp only [aes] at refused
    split at refused
    · cases refused
    · exact (Except.error.inj refused).symm

/-- AES under a name of its own, for runs whose calls are counted. -/
def counting : Cipher :=
  { aes with name := "counting" }

/-- AES that never succeeds in sealing, for runs that meet that failure. -/
def failing : Cipher :=
  { aes with name := "failing", sealBlock := fun _ _ _ _ => .error .encryptionFailure }

/-- One encryption. -/
def meteredEncrypt (cipher : Cipher) (key : Key) (block : Block) : Metered Block :=
  ⟨cipher.encrypt key block, ⟨1, 0, 0⟩⟩

/-- One sealing. -/
def meteredSeal (cipher : Cipher) (key : Key) (nonce : Nonce) (header : Header)
    (plaintext : Block) : Attempt CipherError SealedBlock :=
  .mk ⟨cipher.sealBlock key nonce header plaintext, ⟨0, 1, 0⟩⟩

/-- One opening. -/
def meteredOpen (cipher : Cipher) (key : Key) (nonce : Nonce) (header : Header)
    (sealedBlock : SealedBlock) : Attempt CipherError Block :=
  .mk ⟨cipher.openBlock key nonce header sealedBlock, ⟨0, 0, 1⟩⟩

@[simp] theorem value_meteredEncrypt (cipher : Cipher) (key : Key) (block : Block) :
    (cipher.meteredEncrypt key block).value = cipher.encrypt key block := rfl

@[simp] theorem calls_meteredEncrypt (cipher : Cipher) (key : Key) (block : Block) :
    (cipher.meteredEncrypt key block).calls = .ofEncryptions 1 := rfl

end Cipher

end RangeKeys
