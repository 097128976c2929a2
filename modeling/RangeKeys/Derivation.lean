import RangeKeys.Cipher

/-!
# Deriving keys and words from a seed

The child of a key with a given index is the encryption of the index block under that key,
and a path of indices leads to the child of a child and so on. A word is derived by
encrypting one of the purpose blocks and folding the two halves of the result. Main fact:
the path of a concatenation is walked by walking its parts one after the other.
-/

namespace RangeKeys

/-- The block of a child index: the index in its last four bytes (`encode_index`). -/
def indexBlock (index : UInt32) : Block :=
  BigEndian.encode 16 index.toNat

/-- What a key for metadata is used for (`KeyPurpose`). -/
inductive Purpose where
  | encryption
  | mac
deriving DecidableEq

/-- The block of a metadata key: the id after eight bytes of ones for encryption, before them for
authentication (`metadata_input`). -/
def metadataBlock (purpose : Purpose) (id : UInt64) : Block :=
  let ones : Vector UInt8 8 := Vector.replicate 8 0xff
  match purpose with
  | .encryption => ones ++ BigEndian.encode 8 id.toNat
  | .mac => BigEndian.encode 8 id.toNat ++ ones

/-- The block of a leaf's own word: all ones. -/
def leafBlock : Block :=
  Vector.replicate 16 0xff

/-- The exclusive or of the two halves, as a number. -/
def foldWord (block : Block) : UInt64 :=
  let high := Bytes.window block 0 8 (by decide)
  let low := Bytes.window block 8 8 (by decide)
  UInt64.ofNat (BigEndian.decode (Bytes.xor high low).toList)

/-- The greatest index that a single step accepts (`MAX_APPLY_INDEX`). -/
def maxChildIndex : Nat := 255

namespace Cipher

/-- The encryption of a block, taken as a key. -/
def blockKey (cipher : Cipher) (seed : Key) (block : Block) : Metered Key :=
  return ⟨← cipher.meteredEncrypt seed block⟩

/-- The child of a key (`derive_child`). -/
def child (cipher : Cipher) (seed : Key) (index : UInt32) : Metered Key :=
  cipher.blockKey seed (indexBlock index)

/-- The key at the end of the path that starts at `seed` (`derive_path`). -/
def descend (cipher : Cipher) (seed : Key) : (path : List UInt32) → Metered Key
  | [] => return seed
  | index :: path => do cipher.descend (← cipher.child seed index) path

/-- The child of a key, for an index within the limit of a single step. -/
def limitedChild (cipher : Cipher) (seed : Key) (index : UInt32) : Attempt CipherError Key := do
  if maxChildIndex < index.toNat then
    throw (.indexOutOfRange index.toNat maxChildIndex)
  else
    cipher.child seed index

/-- The folded encryption of a block. -/
def word (cipher : Cipher) (seed : Key) (block : Block) : Metered UInt64 :=
  foldWord <$> cipher.meteredEncrypt seed block

/-! ## From byte strings -/

/-- The limited child of a seed given as bytes (`apply`). -/
def childOfBytes (cipher : Cipher) (seed : List UInt8) (index : UInt32) :
    Attempt CipherError Key := do
  cipher.limitedChild (← Key.ofBytes seed) index

/-- The key at the end of a path from a seed given as bytes (`multiapply`). -/
def descendFromBytes (cipher : Cipher) (seed : List UInt8) (path : List UInt32) :
    Attempt CipherError Key := do
  cipher.descend (← Key.ofBytes seed) path

/-- The key of a block, with seed and block given as bytes (`apply_block`). -/
def blockKeyOfBytes (cipher : Cipher) (seed input : List UInt8) : Attempt CipherError Key := do
  let seed ← Key.ofBytes seed
  cipher.blockKey seed (← Part.block.check input)

/-- The word of a block, with seed and block given as bytes (`derive_u64`). -/
def wordOfBytes (cipher : Cipher) (seed input : List UInt8) : Attempt CipherError UInt64 := do
  let seed ← Key.ofBytes seed
  cipher.word seed (← Part.block.check input)

/-- The word of a leaf with a seed given as bytes (`derive_leaf_u64`). -/
def leafWordOfBytes (cipher : Cipher) (seed : List UInt8) : Attempt CipherError UInt64 :=
  cipher.wordOfBytes seed leafBlock.toList

/-- The word of a metadata id with a seed given as bytes (`derive_metadata_u64`). -/
def metadataWordOfBytes (cipher : Cipher) (seed : List UInt8) (purpose : Purpose) (id : UInt64) :
    Attempt CipherError UInt64 :=
  cipher.wordOfBytes seed (metadataBlock purpose id).toList

/-- Of the right lengths, seed and block are accepted. -/
theorem wordOfBytes_toList (cipher : Cipher) (seed : Key) (block : Block) :
    cipher.wordOfBytes seed.bytes.toList block.toList = liftM (cipher.word seed block) := by
  have block_size : Part.block.check block.toList = .ok block := Part.check_toList .block block
  rw [wordOfBytes, seed.ofBytes_toList, Attempt.ok_bind, block_size]
  exact Attempt.ok_bind ..

/-! ## Laws of paths -/

@[simp] theorem descend_nil (cipher : Cipher) (seed : Key) :
    cipher.descend seed [] = pure seed := rfl

@[simp] theorem calls_child (cipher : Cipher) (seed : Key) (index : UInt32) :
    (cipher.child seed index).calls = .ofEncryptions 1 := rfl

theorem descend_append (cipher : Cipher) (seed : Key) (p q : List UInt32) :
    cipher.descend seed (p ++ q) = cipher.descend seed p >>= fun key => cipher.descend key q := by
  induction p generalizing seed with
  | nil => simp
  | cons index p ih => simp [descend, ih]

theorem calls_descend (cipher : Cipher) (seed : Key) (path : List UInt32) :
    (cipher.descend seed path).calls = .ofEncryptions path.length := by
  induction path generalizing seed with
  | nil => rfl
  | cons index path ih => simp [descend, ih, Nat.add_comm]

end Cipher

end RangeKeys
