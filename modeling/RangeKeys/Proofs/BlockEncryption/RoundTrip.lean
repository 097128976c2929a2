import Mathlib.Logic.ExistsUnique
import RangeKeys.BlockEncryption

/-!
# Opening undoes sealing and nothing else

A block of bytes is opened exactly if it is what sealing some plaintext gives, and that plaintext
comes out. Whatever else has the right size is refused for its tag. The bytes of a sealed block
determine it, so the two operations are inverse to each other on bytes as well.
-/

namespace RangeKeys

namespace SealedBlock

theorem ofBytes_toBytes (sealedBlock : SealedBlock) : ofBytes sealedBlock.toBytes = sealedBlock := by
  obtain ⟨ciphertext, tag⟩ := sealedBlock
  have left : Bytes.window (toBytes ⟨ciphertext, tag⟩) 0 16 (by decide) = ciphertext :=
    Bytes.window_append_left ..
  have right : Bytes.window (toBytes ⟨ciphertext, tag⟩) 16 16 (by decide) = tag :=
    Bytes.window_append_right ..
  rw [ofBytes, left, right]

theorem toBytes_ofBytes (bytes : Vector UInt8 32) : (ofBytes bytes).toBytes = bytes :=
  Bytes.append_windows (m := 16) (n := 16) bytes (by decide) (by decide)

theorem toBytes_eq_iff {sealedBlock : SealedBlock} {bytes : Vector UInt8 32} :
    sealedBlock.toBytes = bytes ↔ sealedBlock = ofBytes bytes := by
  constructor
  · intro h
    rw [← h, ofBytes_toBytes]
  · intro h
    rw [h, toBytes_ofBytes]

end SealedBlock

namespace Gcm

variable {key plaintext : Block} {nonce : Nonce} {header : Header} {sealedBlock : SealedBlock}

/-- What is opened has the tag of its ciphertext. -/
theorem exists_openBlock?_iff :
    (∃ plaintext, openBlock? key nonce header sealedBlock = some plaintext) ↔
      sealedBlock.tag = tag key nonce header sealedBlock.ciphertext := by
  unfold openBlock?
  split <;> simp [*]

theorem openBlock?_eq_some_iff :
    openBlock? key nonce header sealedBlock = some plaintext ↔
      sealBlock key nonce header plaintext = sealedBlock := by
  constructor
  · intro opened
    have genuine := exists_openBlock?_iff.1 ⟨plaintext, opened⟩
    rw [openBlock?, if_pos genuine] at opened
    injection opened with opened
    subst opened
    rw [sealBlock, Bytes.xor_xor_cancel_right, ← genuine]
  · intro h
    subst h
    rw [openBlock?, sealBlock, if_pos rfl, Bytes.xor_xor_cancel_right]

end Gcm

namespace Cipher

variable (cipher : Cipher) (key : Key) (header : Header) (nonce : Nonce)

/-- With every part of the right size the result is what the cipher gives. -/
theorem outcome_sealBytes (plaintext : Block) :
    (cipher.sealBytes key.bytes.toList header.toList plaintext.toList nonce.toList).outcome =
      cipher.sealBlock key nonce header plaintext := by
  have plaintext_size : Part.block.check plaintext.toList = .ok plaintext :=
    Part.check_toList .block plaintext
  have nonce_size : Part.nonce.check nonce.toList = .ok nonce := Part.check_toList .nonce nonce
  have header_size : Part.header.check header.toList = .ok header :=
    Part.check_toList .header header
  simp only [sealBytes, Attempt.outcome_bind, Attempt.outcome_liftExcept, key.ofBytes_toList,
    plaintext_size, nonce_size, header_size]
  rfl

/-- With every part of the right size the result is what the cipher gives. -/
theorem outcome_openBytes (bytes : Vector UInt8 32) :
    (cipher.openBytes key.bytes.toList header.toList bytes.toList nonce.toList).outcome =
      cipher.openBlock key nonce header (.ofBytes bytes) := by
  have bytes_size : Part.sealed.check bytes.toList = .ok bytes := Part.check_toList .sealed bytes
  have nonce_size : Part.nonce.check nonce.toList = .ok nonce := Part.check_toList .nonce nonce
  have header_size : Part.header.check header.toList = .ok header :=
    Part.check_toList .header header
  simp only [openBytes, Attempt.outcome_bind, Attempt.outcome_liftExcept, key.ofBytes_toList,
    bytes_size, nonce_size, header_size]
  rfl

variable {cipher} in
/-- A cipher that keeps its contract blames the tag whenever it does not open. -/
theorem KeepsContract.outcome_openBytes_eq_error (contract : cipher.KeepsContract)
    {bytes : Vector UInt8 32} (refused : ∀ plaintext,
      (cipher.openBytes key.bytes.toList header.toList bytes.toList nonce.toList).outcome ≠
        .ok plaintext) :
    (cipher.openBytes key.bytes.toList header.toList bytes.toList nonce.toList).outcome =
      .error .authenticationFailure := by
  rw [outcome_openBytes] at refused ⊢
  cases opened : cipher.openBlock key nonce header (.ofBytes bytes) with
  | ok plaintext => exact absurd opened (refused plaintext)
  | error e => rw [contract.opening e ⟨key, nonce, header, .ofBytes bytes, opened⟩]

/-! ## AES in Galois/counter mode -/

theorem aes_openBlock_eq_ok_iff {sealedBlock : SealedBlock} {plaintext : Block} :
    aes.openBlock key nonce header sealedBlock = .ok plaintext ↔
      Gcm.openBlock? key.bytes nonce header sealedBlock = some plaintext := by
  simp only [aes]
  cases Gcm.openBlock? key.bytes nonce header sealedBlock <;> simp

theorem outcome_aes_sealBytes (plaintext : Block) :
    (SealedBlock.toBytes <$>
      aes.sealBytes key.bytes.toList header.toList plaintext.toList nonce.toList).outcome =
        .ok (Gcm.sealBlock key.bytes nonce header plaintext).toBytes := by
  rw [Attempt.outcome_map, outcome_sealBytes]
  rfl

theorem outcome_aes_openBytes_eq_ok_iff {bytes : Vector UInt8 32} {plaintext : Block} :
    (aes.openBytes key.bytes.toList header.toList bytes.toList nonce.toList).outcome =
        .ok plaintext ↔
      (Gcm.sealBlock key.bytes nonce header plaintext).toBytes = bytes := by
  rw [outcome_openBytes, aes_openBlock_eq_ok_iff, SealedBlock.toBytes_eq_iff,
    Gcm.openBlock?_eq_some_iff]

theorem exists_outcome_aes_openBytes_iff {ciphertext tag : Block} :
    (∃ plaintext, (aes.openBytes key.bytes.toList header.toList (ciphertext ++ tag).toList
        nonce.toList).outcome = .ok plaintext) ↔
      tag = Gcm.tag key.bytes nonce header ciphertext := by
  have halves : SealedBlock.ofBytes (ciphertext ++ tag) = ⟨ciphertext, tag⟩ :=
    SealedBlock.ofBytes_toBytes ⟨ciphertext, tag⟩
  simp only [outcome_openBytes, aes_openBlock_eq_ok_iff, halves]
  exact Gcm.exists_openBlock?_iff

/-- With AES a block of bytes is opened exactly if it is sealed from the plaintext that comes out,
and is refused otherwise. So sealing never fails and never gives one result for two plaintexts, and
with each ciphertext one tag alone is accepted. -/
theorem open_eq_ok_iff_seal_eq_ok (key : Key) (header : Header) (nonce : Nonce) :
    let seals (plaintext : Block) := (SealedBlock.toBytes <$>
      aes.sealBytes key.bytes.toList header.toList plaintext.toList nonce.toList).outcome
    let opens (bytes : Vector UInt8 32) :=
      (aes.openBytes key.bytes.toList header.toList bytes.toList nonce.toList).outcome
    (∀ plaintext bytes, opens bytes = .ok plaintext ↔ seals plaintext = .ok bytes) ∧
    (∀ bytes, (∀ plaintext, seals plaintext ≠ .ok bytes) →
      opens bytes = .error .authenticationFailure) ∧
    (∀ plaintext, ∃ bytes, seals plaintext = .ok bytes) ∧
    (∀ plaintext other bytes, seals plaintext = .ok bytes → seals other = .ok bytes →
      plaintext = other) ∧
    (∀ ciphertext : Block, ∃! tag : Block, ∃ plaintext, opens (ciphertext ++ tag) = .ok plaintext) ∧
    ∀ ciphertext tag other plaintext : Block, opens (ciphertext ++ tag) = .ok plaintext →
      other ≠ tag → opens (ciphertext ++ other) = .error .authenticationFailure := by
  intro seals opens
  -- All parts follow from what sealing gives, when opening gives it back and when the tag is right.
  have sealed_eq (plaintext : Block) :
      seals plaintext = .ok (Gcm.sealBlock key.bytes nonce header plaintext).toBytes :=
    outcome_aes_sealBytes key header nonce plaintext
  have inverse (plaintext : Block) (bytes : Vector UInt8 32) :
      opens bytes = .ok plaintext ↔ seals plaintext = .ok bytes := by
    rw [sealed_eq, Except.ok.injEq]
    exact outcome_aes_openBytes_eq_ok_iff key header nonce
  have one_tag (ciphertext tag : Block) :
      (∃ plaintext, opens (ciphertext ++ tag) = .ok plaintext) ↔
        tag = Gcm.tag key.bytes nonce header ciphertext :=
    exists_outcome_aes_openBytes_iff key header nonce
  refine ⟨inverse, ?_, ?_, ?_, ?_, ?_⟩
  · intro bytes unsealed
    apply keepsContract_aes.outcome_openBytes_eq_error key header nonce
    intro plaintext opened
    exact unsealed plaintext ((inverse plaintext bytes).1 opened)
  · intro plaintext
    exact ⟨_, sealed_eq plaintext⟩
  · intro plaintext other bytes sealed other_sealed
    have opened := (inverse plaintext bytes).2 sealed
    rw [(inverse other bytes).2 other_sealed] at opened
    injection opened with same
    exact same.symm
  · intro ciphertext
    refine ⟨Gcm.tag key.bytes nonce header ciphertext, (one_tag _ _).2 rfl, ?_⟩
    intro tag opened
    exact (one_tag ciphertext tag).1 opened
  · intro ciphertext tag other plaintext opened differ
    apply keepsContract_aes.outcome_openBytes_eq_error key header nonce
    intro other_plaintext other_opened
    apply differ
    rw [(one_tag ciphertext other).1 ⟨_, other_opened⟩, (one_tag ciphertext tag).1 ⟨_, opened⟩]

end Cipher

end RangeKeys
