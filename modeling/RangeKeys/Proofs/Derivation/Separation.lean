import RangeKeys.Masking
import RangeKeys.Proofs.Derivation.Inputs
import RangeKeys.Proofs.StreamKeys.OtherCipher

/-!
# Keys and words are derived apart

No step to a child encrypts a block of which a word is made. So whatever a cipher does with the
blocks of metadata and leaves, the keys of trees and streams are the same. The words of different
metadata ids, purposes and leaves come from different blocks too, save that the greatest metadata
id has the block of the leaf, and with it the words of the leaf.
-/

namespace RangeKeys

/-- Both encrypt every block alike that is not one of those from which words are derived. -/
def Cipher.SameApartFromWords (a b : Cipher) : Prop :=
  ∀ key block, block ≠ leafBlock → (∀ purpose id, block ≠ metadataBlock purpose id) →
    a.encrypt key block = b.encrypt key block

theorem Cipher.SameApartFromWords.sameChildren {a b : Cipher} (same : a.SameApartFromWords b) :
    a.SameChildren b :=
  fun key index => same key (indexBlock index) (indexBlock_ne_leafBlock index)
    (indexBlock_ne_metadataBlock index)

/-- The values of the greatest metadata id have the words of the leaves. -/
theorem Cipher.withWords_greatestId (cipher : Cipher)
    (operation : UInt64 → UInt64 → UInt64 → UInt64) (boundary : Key × Key) (value : UInt64) :
    cipher.withWords operation boundary (.metadata greatestId) value =
      cipher.withWords operation boundary .leaf value := by
  have block_eq : (Series.metadata greatestId).block = Series.leaf.block :=
    (leafBlock_eq .encryption).symm
  simp only [withWords, seriesWord_eq, block_eq]

/-- Among the blocks of all child indices, metadata ids and leaves, two are the same only if they
are those of the same input, or if both consist of ones, as those of the greatest metadata id and
of the leaf do. In particular no step to a child encrypts a block for words, so that the keys of
paths, trees and streams do not depend on what the cipher makes of these, and the purposes of
metadata have the block of the greatest id in common and no other. Under this id values are masked
just as under the leaf itself. -/
theorem keys_and_words_have_separate_inputs :
    (∀ x y : DerivationInput, x.block = y.block ↔ x = y ∨ x.AllOnes ∧ y.AllOnes) ∧
    (∀ index, indexBlock index ≠ leafBlock ∧
      ∀ purpose id, indexBlock index ≠ metadataBlock purpose id) ∧
    (∀ a b : Cipher, a.SameApartFromWords b →
      (∀ seed path, a.descendFromBytes seed path = b.descendFromBytes seed path) ∧
      (∀ seed index, a.childOfBytes seed index = b.childOfBytes seed index) ∧
      ∀ depth master, StreamKeys.owner b depth master =
        (·.withCipher b) <$> StreamKeys.owner a depth master) ∧
    (∀ (tree : KeyTree) (other : Cipher), tree.cipher.SameApartFromWords other →
      (∀ leaf, (tree.withCipher other).seed leaf = tree.seed leaf) ∧
      (∀ memory first last,
        (tree.withCipher other).seedsIn memory first last = tree.seedsIn memory first last) ∧
      ∀ first last, (tree.withCipher other).reveal first last = tree.reveal first last) ∧
    (∀ (keys : StreamKeys) (other : Cipher), keys.tree.cipher.SameApartFromWords other →
      ∀ precision depth, (keys.withCipher other).sharingTree precision depth =
        (·.withCipher other) <$> keys.sharingTree precision depth) ∧
    (∀ a b : UInt64, metadataBlock .encryption a = metadataBlock .mac b ↔
      a = greatestId ∧ b = greatestId) ∧
    ∀ (tree : KeyTree) (value time : UInt64),
      tree.encrypt (.metadata greatestId) value time = tree.encrypt .leaf value time := by
  refine ⟨fun x y => DerivationInput.block_eq_iff, fun index => ?_, fun a b same => ?_,
    fun tree other same => ?_, fun keys other same => ?_, fun a b => encryption_eq_mac_iff,
    fun tree value time => ?_⟩
  · exact ⟨indexBlock_ne_leafBlock index, indexBlock_ne_metadataBlock index⟩
  · have same := same.sameChildren
    exact ⟨fun seed path => by rw [same.descendFromBytes_eq],
      fun seed index => by rw [same.childOfBytes_eq], StreamKeys.owner_withCipher same⟩
  · have same := same.sameChildren
    exact ⟨KeyTree.seed_withCipher same, KeyTree.seedsIn_withCipher same,
      KeyTree.reveal_withCipher same⟩
  · exact StreamKeys.sharingTree_withCipher same.sameChildren
  · simp only [KeyTree.encrypt, Cipher.withWords_greatestId]

/-- A cipher that fails to hide the leaf block makes every word of a leaf zero, but no other keys.
-/
theorem keys_do_not_depend_on_words_of_leaves :
    let faulty : Cipher :=
      { Cipher.aes with
        encrypt := fun key block =>
          if block = leafBlock then leafBlock else Cipher.aes.encrypt key block }
    let tree : KeyTree :=
      ⟨.aes, ⟨3, 2, by decide, by decide, by decide⟩, .root ⟨.replicate 16 7⟩⟩
    (faulty.word ⟨.replicate 16 7⟩ leafBlock).value = 0 ∧
      (tree.withCipher faulty).seed 5 = tree.seed 5 ∧
      (tree.withCipher faulty).reveal 2 6 = tree.reveal 2 6 := by
  intro faulty tree
  obtain ⟨-, -, -, trees, -⟩ := keys_and_words_have_separate_inputs
  have same : tree.cipher.SameApartFromWords faulty :=
    fun key block other _ => (if_neg other).symm
  obtain ⟨seeds, -, grants⟩ := trees tree faulty same
  have encrypted : faulty.encrypt ⟨.replicate 16 7⟩ leafBlock = leafBlock := by
    simp [faulty]
  have word_eq : (faulty.word ⟨.replicate 16 7⟩ leafBlock).value = foldWord leafBlock :=
    congrArg foldWord encrypted
  exact ⟨word_eq.trans (by decide +kernel), seeds 5, grants 2 6⟩

end RangeKeys
