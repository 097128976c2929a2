import RangeKeys.Aes.Encryption
import RangeKeys.Gcm.Field

/-!
# Galois/counter mode for one block

AES in Galois/counter mode, restricted to messages of one block, headers of four bytes and
nonces of twelve. Counter one masks the tag and counter two the message. Opening recomputes
the tag first and releases the message only if it agrees.
-/

namespace RangeKeys

/-- The bytes that are authenticated with a sealed block but not part of it. -/
abbrev Header := Vector UInt8 4

/-- The number used once. -/
abbrev Nonce := Vector UInt8 12

/-- An encrypted block with the tag that authenticates it. -/
structure SealedBlock where
  ciphertext : Block
  tag : Block
deriving DecidableEq

namespace SealedBlock

/-- The ciphertext followed by the tag. -/
def toBytes (sealedBlock : SealedBlock) : Vector UInt8 32 :=
  sealedBlock.ciphertext ++ sealedBlock.tag

/-- The two halves as ciphertext and tag (`split_sealed`). -/
def ofBytes (bytes : Vector UInt8 32) : SealedBlock :=
  ⟨Bytes.window bytes 0 16 (by decide), Bytes.window bytes 16 16 (by decide)⟩

end SealedBlock

namespace Gcm

/-- The key stream at a counter. -/
def stream (key : Block) (nonce : Nonce) (counter : Nat) : Block :=
  Aes.encrypt key (nonce ++ BigEndian.encode 4 counter)

/-- The header as a whole block, zero bytes after it. -/
def headerBlock (header : Header) : Block :=
  header ++ Vector.replicate 12 (0 : UInt8)

/-- The lengths of header and ciphertext in bits. -/
def lengths : Block :=
  BigEndian.encode 8 32 ++ BigEndian.encode 8 128

/-- The key of the hash: the encryption of the zero block. -/
def subkey (key : Block) : Element :=
  .ofBlock (Aes.encrypt key (Vector.replicate 16 0))

/-- The tag of a ciphertext under a header. -/
def tag (key : Block) (nonce : Nonce) (header : Header) (ciphertext : Block) : Block :=
  let blocks := [headerBlock header, ciphertext, lengths].map Element.ofBlock
  Bytes.xor (hash (subkey key) blocks).toBlock (stream key nonce 1)

/-- Encrypts the block and authenticates it together with the header. -/
def sealBlock (key : Block) (nonce : Nonce) (header : Header) (plaintext : Block) : SealedBlock :=
  let ciphertext := Bytes.xor plaintext (stream key nonce 2)
  ⟨ciphertext, tag key nonce header ciphertext⟩

/-- The plaintext, if the tag is that of the ciphertext. -/
def openBlock? (key : Block) (nonce : Nonce) (header : Header) (sealedBlock : SealedBlock) :
    Option Block :=
  if sealedBlock.tag = tag key nonce header sealedBlock.ciphertext then
    some (Bytes.xor sealedBlock.ciphertext (stream key nonce 2))
  else
    none

end Gcm

end RangeKeys
