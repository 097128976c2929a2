import RangeKeys.Cipher

/-!
# Encrypting, sealing and opening blocks given as byte strings

The lengths are checked first, in the order key, block, nonce, header, and the first wrong
one is reported. With all lengths right exactly one call of the cipher is made, and what it
gives is the result.
-/

namespace RangeKeys.Cipher

/-- The encryption of one block (`encrypt_block`). -/
def encryptBytes (cipher : Cipher) (key plaintext : List UInt8) : Attempt CipherError Block := do
  let key ← Key.ofBytes key
  let plaintext ← Part.block.check plaintext
  cipher.meteredEncrypt key plaintext

/-- The block sealed under the key, nonce and header (`seal_block`). -/
def sealBytes (cipher : Cipher) (key header plaintext nonce : List UInt8) :
    Attempt CipherError SealedBlock := do
  let key ← Key.ofBytes key
  let plaintext ← Part.block.check plaintext
  let nonce ← Part.nonce.check nonce
  let header ← Part.header.check header
  cipher.meteredSeal key nonce header plaintext

/-- The plaintext of the sealed block, if key, nonce and header are those it was sealed under
(`open_block`). -/
def openBytes (cipher : Cipher) (key header sealedBytes nonce : List UInt8) :
    Attempt CipherError Block := do
  let key ← Key.ofBytes key
  let sealedBytes ← Part.sealed.check sealedBytes
  let nonce ← Part.nonce.check nonce
  let header ← Part.header.check header
  cipher.meteredOpen key nonce header (.ofBytes sealedBytes)

end RangeKeys.Cipher
