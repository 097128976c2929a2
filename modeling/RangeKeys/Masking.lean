import RangeKeys.Tree.KeyTree

/-!
# Masking values for aggregation

The value at time `t` is masked by adding the word of leaf `t` and subtracting that of leaf
`t + 1`, modulo 2⁶⁴. In the sum of consecutive masked values all inner words cancel, so the
words of the two outer leaves unmask it. Each metadata id has words of its own, only the
greatest id has those of the leaves.
-/

namespace RangeKeys

/-- The value with the left word added and the right word subtracted (`encrypt_with_keys`). -/
def mask (value left right : UInt64) : UInt64 :=
  value + left - right

/-- The value from which the left word is taken away and to which the right word is returned
(`decrypt_with_keys`). -/
def unmask (masked left right : UInt64) : UInt64 :=
  masked - left + right

/-- A sequence of values with words of its own. An operation of `Heac` comes in two kinds, one for
each of them. -/
inductive Series where
  /-- The values of the leaves themselves. -/
  | leaf
  /-- The values of a metadata id. -/
  | metadata (id : UInt64)
deriving DecidableEq

/-- The block from which the words of the series are derived. -/
def Series.block : Series → Block
  | .leaf => leafBlock
  | .metadata id => metadataBlock .encryption id

namespace Cipher

/-- The word of the series below a seed (`leaf_key`, `metadata_keys`). -/
def seriesWord (cipher : Cipher) (seed : Key) : Series → Attempt CipherError UInt64
  | .leaf => cipher.leafWordOfBytes seed.bytes.toList
  | .metadata id => cipher.metadataWordOfBytes seed.bytes.toList .encryption id

/-- A seed and the block of a series have the lengths that are asked for. -/
theorem seriesWord_eq (cipher : Cipher) (seed : Key) (series : Series) :
    cipher.seriesWord seed series = liftM (cipher.word seed series.block) := by
  cases series with
  | leaf => exact cipher.wordOfBytes_toList seed leafBlock
  | metadata id => exact cipher.wordOfBytes_toList seed (metadataBlock .encryption id)

/-- The operation on a value and the two words of a series at the boundary: what every operation of
`Heac` does with the two seeds. -/
def withWords (cipher : Cipher) (operation : UInt64 → UInt64 → UInt64 → UInt64)
    (boundary : Key × Key) (series : Series) (value : UInt64) : Attempt TreeError UInt64 := do
  let left ← (cipher.seriesWord boundary.1 series).adapt TreeError.cipher
  let right ← (cipher.seriesWord boundary.2 series).adapt TreeError.cipher
  return operation value left right

/-- The operation on values of metadata ids, all at one boundary: what the batches of `Heac` do with
the two seeds. -/
def withWordsBatch (cipher : Cipher) (operation : UInt64 → UInt64 → UInt64 → UInt64)
    (boundary : Key × Key) (values : List (UInt64 × UInt64)) :
    Attempt TreeError (List UInt64) :=
  values.mapM fun (id, value) => cipher.withWords operation boundary (.metadata id) value

end Cipher

namespace KeyTree

/-- The keys of leaf `first` and of the leaf after `last` (`boundary_seeds`). -/
def boundarySeeds (tree : KeyTree) (first last : UInt64) : Attempt TreeError (Key × Key) := do
  let range ← LeafRange.between first last
  if range.last + 1 = UInt64.size then
    throw (tree.outOfRange last)
  else
    let left ← tree.seed first
    let right ← tree.seed (last + 1)
    return (left, right)

/-- The value masked for a time (`encrypt`, `encrypt_metadata`). -/
def encrypt (tree : KeyTree) (series : Series) (value time : UInt64) :
    Attempt TreeError UInt64 := do
  tree.cipher.withWords mask (← tree.boundarySeeds time time) series value

/-- The sum of the values masked for the times from `first` to `last`, given the sum of the masked
values (`decrypt`, `decrypt_metadata`). -/
def decrypt (tree : KeyTree) (series : Series) (masked first last : UInt64) :
    Attempt TreeError UInt64 := do
  tree.cipher.withWords unmask (← tree.boundarySeeds first last) series masked

/-- Values of several metadata ids, each masked for the time (`encrypt_metadata_batch`). -/
def encryptBatch (tree : KeyTree) (values : List (UInt64 × UInt64)) (time : UInt64) :
    Attempt TreeError (List UInt64) := do
  tree.cipher.withWordsBatch mask (← tree.boundarySeeds time time) values

/-- Sums of several metadata ids, each unmasked for the times from `first` to `last`
(`decrypt_metadata_batch`). -/
def decryptBatch (tree : KeyTree) (values : List (UInt64 × UInt64)) (first last : UInt64) :
    Attempt TreeError (List UInt64) := do
  tree.cipher.withWordsBatch unmask (← tree.boundarySeeds first last) values

end KeyTree

end RangeKeys
