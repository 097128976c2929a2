import RangeKeys.Proofs.Aes.Permutation
import RangeKeys.Proofs.BlockEncryption.RoundTrip
import RangeKeys.Proofs.Gcm.Field

/-!
# Changed parts of a sealed block are refused

A tag is the hash of header and ciphertext, masked by the encryption of the nonce. The mask
determines the nonce, since encryption permutes the blocks. The hash determines either of its two
inputs by the other one, unless the subkey is zero; under the subkey zero it says nothing at all.
-/

namespace RangeKeys

namespace Gcm

variable {key : Block}

theorem subkey_eq_zero_iff :
    subkey key = 0 ↔ Aes.encrypt key (Vector.replicate 16 0) = Vector.replicate 16 0 := by
  have zero : Element.ofBlock (Vector.replicate 16 0) = 0 := by decide +kernel
  constructor
  · intro h
    exact Element.ofBlock_injective (h.trans zero.symm)
  · intro h
    rw [subkey, h, zero]

theorem stream_injective {nonce other : Nonce} {counter : ℕ}
    (h : stream key nonce counter = stream key other counter) : nonce = other :=
  (Vector.append_inj (Aes.encrypt_injective key h)).1

/-- The tag of a ciphertext under a header depends on the nonce. -/
theorem nonce_eq_of_tag_eq {nonce other : Nonce} {header : Header} {ciphertext : Block}
    (h : tag key nonce header ciphertext = tag key other header ciphertext) : nonce = other :=
  stream_injective (Bytes.xor_left_injective _ h)

theorem hash_eq_of_tag_eq {nonce : Nonce} {header other : Header} {ciphertext changed : Block}
    (h : tag key nonce header ciphertext = tag key nonce other changed) :
    hash (subkey key) ([headerBlock header, ciphertext, lengths].map Element.ofBlock) =
      hash (subkey key) ([headerBlock other, changed, lengths].map Element.ofBlock) :=
  Element.toBlock_injective (Bytes.xor_right_injective _ h)

theorem ciphertext_eq_of_tag_eq (ne : subkey key ≠ 0) {nonce : Nonce} {header : Header}
    {ciphertext changed : Block}
    (h : tag key nonce header ciphertext = tag key nonce header changed) : ciphertext = changed :=
  Element.ofBlock_injective
    (hash_injective ne [Element.ofBlock (headerBlock header)] (hash_eq_of_tag_eq h))

theorem header_eq_of_tag_eq (ne : subkey key ≠ 0) {nonce : Nonce} {header other : Header}
    {ciphertext : Block}
    (h : tag key nonce header ciphertext = tag key nonce other ciphertext) : header = other :=
  (Vector.append_inj
    (Element.ofBlock_injective (hash_injective ne [] (hash_eq_of_tag_eq h)))).1

theorem tag_of_subkey_eq_zero (zero : subkey key = 0) (nonce : Nonce) (header other : Header)
    (ciphertext changed : Block) :
    tag key nonce header ciphertext = tag key nonce other changed := by
  simp only [tag, zero, hash_zero]

end Gcm

namespace Cipher

/-- With AES a block whose tag is another than that of its ciphertext is refused. -/
theorem outcome_aes_openBytes_of_tag_ne (key : Key) (header : Header) (nonce : Nonce)
    {ciphertext tag : Block} (ne : tag ≠ Gcm.tag key.bytes nonce header ciphertext) :
    (aes.openBytes key.bytes.toList header.toList (ciphertext ++ tag).toList nonce.toList).outcome =
      .error .authenticationFailure := by
  apply keepsContract_aes.outcome_openBytes_eq_error key header nonce
  intro plaintext opened
  exact ne ((exists_outcome_aes_openBytes_iff key header nonce).1 ⟨plaintext, opened⟩)

/-- With AES a sealed block is refused under every nonce but its own. -/
theorem aes_refuses_other_nonce (key : Key) (header : Header) (plaintext : Block)
    {nonce other : Nonce} (differ : nonce ≠ other) :
    ∃ bytes, (SealedBlock.toBytes <$>
        aes.sealBytes key.bytes.toList header.toList plaintext.toList nonce.toList).outcome =
          .ok bytes ∧
      (aes.openBytes key.bytes.toList header.toList bytes.toList other.toList).outcome =
        .error .authenticationFailure := by
  refine ⟨_, outcome_aes_sealBytes key header nonce plaintext, ?_⟩
  apply outcome_aes_openBytes_of_tag_ne
  intro same
  exact differ (Gcm.nonce_eq_of_tag_eq same)

theorem aes_refuses_nonce_of_ones :
    let zeros (size : ℕ) : Vector UInt8 size := Vector.replicate size 0
    let ones : Nonce := Vector.replicate 12 1
    zeros 12 ≠ ones ∧
    ∃ bytes, (SealedBlock.toBytes <$> aes.sealBytes (zeros 16).toList (zeros 4).toList
        (zeros 16).toList (zeros 12).toList).outcome = .ok bytes ∧
      (aes.openBytes (zeros 16).toList (zeros 4).toList bytes.toList ones.toList).outcome =
        .error .authenticationFailure := by
  intro zeros ones
  have differ : zeros 12 ≠ ones := by decide
  exact ⟨differ, aes_refuses_other_nonce ⟨zeros 16⟩ (zeros 4) (zeros 16) differ⟩

section Changes

variable (key : Key) (header : Header) (nonce : Nonce) (plaintext : Block)

/-- Sealing as it is seen from outside, in the two halves of the result. -/
theorem outcome_aes_sealBytes_eq_append :
    (SealedBlock.toBytes <$>
      aes.sealBytes key.bytes.toList header.toList plaintext.toList nonce.toList).outcome =
        .ok (Bytes.xor plaintext (Gcm.stream key.bytes nonce 2) ++
          Gcm.tag key.bytes nonce header (Bytes.xor plaintext (Gcm.stream key.bytes nonce 2))) :=
  outcome_aes_sealBytes key header nonce plaintext

/-- Under the subkey zero every ciphertext has the same tag, so any other one is accepted with it. -/
theorem exists_outcome_aes_openBytes_of_subkey_eq_zero (zero : Gcm.subkey key.bytes = 0)
    (ciphertext changed : Block) :
    ∃ opened, (aes.openBytes key.bytes.toList header.toList
        (changed ++ Gcm.tag key.bytes nonce header ciphertext).toList nonce.toList).outcome =
      .ok opened :=
  (exists_outcome_aes_openBytes_iff key header nonce).2
    (Gcm.tag_of_subkey_eq_zero zero nonce header header ciphertext changed)

/-- With AES and a subkey other than zero, and with no other, a sealed block is refused if only its
ciphertext is changed, or for any other header. A header does not affect the ciphertext, but then
no two headers give one tag. -/
theorem aes_refuses_changes_iff :
    let seals (header : Header) (nonce : Nonce) (plaintext : Block) := (SealedBlock.toBytes <$>
      aes.sealBytes key.bytes.toList header.toList plaintext.toList nonce.toList).outcome
    let opens (header : Header) (nonce : Nonce) (bytes : Vector UInt8 32) :=
      (aes.openBytes key.bytes.toList header.toList bytes.toList nonce.toList).outcome
    aes.encrypt key (Vector.replicate 16 0) ≠ Vector.replicate 16 0 ↔
      ∀ header nonce plaintext, ∃ ciphertext tag : Block,
        seals header nonce plaintext = .ok (ciphertext ++ tag) ∧
        (∀ changed : Block, changed ≠ ciphertext →
          opens header nonce (changed ++ tag) = .error .authenticationFailure) ∧
        ∀ other, other ≠ header →
          opens other nonce (ciphertext ++ tag) = .error .authenticationFailure ∧
          ∃ otherTag : Block, seals other nonce plaintext = .ok (ciphertext ++ otherTag) ∧
            otherTag ≠ tag := by
  intro seals opens
  constructor
  · intro ne header nonce plaintext
    have subkey_ne : Gcm.subkey key.bytes ≠ 0 := fun zero => ne (Gcm.subkey_eq_zero_iff.1 zero)
    refine ⟨_, _, outcome_aes_sealBytes_eq_append key header nonce plaintext, ?_, ?_⟩
    · intro changed differ
      apply outcome_aes_openBytes_of_tag_ne
      intro same
      exact differ (Gcm.ciphertext_eq_of_tag_eq subkey_ne same).symm
    · intro other differ
      constructor
      · apply outcome_aes_openBytes_of_tag_ne
        intro same
        exact differ (Gcm.header_eq_of_tag_eq subkey_ne same).symm
      · refine ⟨_, outcome_aes_sealBytes_eq_append key other nonce plaintext, ?_⟩
        intro same
        exact differ (Gcm.header_eq_of_tag_eq subkey_ne same)
  · intro refuses zero_encrypted
    have zero : Gcm.subkey key.bytes = 0 := Gcm.subkey_eq_zero_iff.2 zero_encrypted
    let header : Header := Vector.replicate 4 0
    let nonce : Nonce := Vector.replicate 12 0
    obtain ⟨ciphertext, tag, sealed, refused, -⟩ := refuses header nonce (Vector.replicate 16 0)
    have sealed_eq := (outcome_aes_sealBytes_eq_append key header nonce _).symm.trans sealed
    have tag_eq := (Vector.append_inj (Except.ok.inj sealed_eq)).2
    obtain ⟨changed, differ⟩ : ∃ changed : Block, changed ≠ ciphertext := by
      by_cases h : ciphertext = Vector.replicate 16 0
      · exact ⟨Vector.replicate 16 1, by rw [h]; decide⟩
      · exact ⟨Vector.replicate 16 0, fun same => h same.symm⟩
    obtain ⟨opened, accepted⟩ :=
      exists_outcome_aes_openBytes_of_subkey_eq_zero key header nonce zero _ changed
    rw [tag_eq] at accepted
    cases (refused changed differ).symm.trans accepted

end Changes

theorem aes_refuses_changed_ciphertext_under_zero :
    let zeros (size : ℕ) : Vector UInt8 size := Vector.replicate size 0
    aes.encrypt ⟨zeros 16⟩ (zeros 16) ≠ zeros 16 ∧
    ∃ ciphertext tag : Block, (SealedBlock.toBytes <$> aes.sealBytes (zeros 16).toList
        (zeros 4).toList (zeros 16).toList (zeros 12).toList).outcome = .ok (ciphertext ++ tag) ∧
      ∀ changed : Block, changed ≠ ciphertext →
        (aes.openBytes (zeros 16).toList (zeros 4).toList (changed ++ tag).toList
          (zeros 12).toList).outcome = .error .authenticationFailure := by
  intro zeros
  have subkey_ne : aes.encrypt ⟨zeros 16⟩ (zeros 16) ≠ zeros 16 := by decide +kernel
  obtain ⟨ciphertext, tag, sealed, refused, -⟩ :=
    (aes_refuses_changes_iff ⟨zeros 16⟩).1 subkey_ne (zeros 4) (zeros 12) (zeros 16)
  exact ⟨subkey_ne, ciphertext, tag, sealed, refused⟩

end Cipher

end RangeKeys
