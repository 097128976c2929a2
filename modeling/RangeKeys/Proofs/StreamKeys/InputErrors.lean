import RangeKeys.Proofs.BlockEncryption.Checks
import RangeKeys.Proofs.KeyTree.Failures
import RangeKeys.StreamKeys

/-!
# Wrong input is found before any call of the cipher

Every operation checks the lengths and the index it is given before it calls the cipher. What it
derives on the way has the right length, so a later check, as that of the root of a tree made from
a derived key, does not fail.
-/

namespace RangeKeys

open Attempt (FailsOnly FailsFirst)

/-- A cipher operation failed because of its input. -/
def TreeError.BlamesInput : TreeError → Prop
  | .cipher e => e.BlamesInput
  | _ => False

theorem TreeError.OfRequest.not_blamesInput {e : TreeError} (h : e.OfRequest) :
    ¬ e.BlamesInput := by
  cases e with
  | cipher inner => exact absurd rfl (h.not_cipher inner)
  | _ => exact id

namespace Cipher

variable (cipher : Cipher)

theorem failsFirst_childOfBytes (seed : List UInt8) (index : UInt32) :
    FailsFirst CipherError.BlamesInput (cipher.childOfBytes seed index) := by
  refine .bind_check fun key => ?_
  unfold limitedChild
  split
  · exact .throw _
  · exact .of_failsOnly (.liftMetered _)

theorem failsFirst_descendFromBytes (seed : List UInt8) (path : List UInt32) :
    FailsFirst CipherError.BlamesInput (cipher.descendFromBytes seed path) :=
  .bind_check fun _ => .of_failsOnly (.liftMetered _)

theorem failsFirst_blockKeyOfBytes (seed input : List UInt8) :
    FailsFirst CipherError.BlamesInput (cipher.blockKeyOfBytes seed input) :=
  .bind_check fun _ => .bind_check fun _ => .of_failsOnly (.liftMetered _)

theorem failsFirst_wordOfBytes (seed input : List UInt8) :
    FailsFirst CipherError.BlamesInput (cipher.wordOfBytes seed input) :=
  .bind_check fun _ => .bind_check fun _ => .of_failsOnly (.liftMetered _)

end Cipher

theorem TreeConfig.shape_eq_error {config : TreeConfig} {e : TreeError}
    (refused : config.shape = .error e) : ∃ reason, e = .invalidConfig reason := by
  simp only [TreeConfig.shape] at refused
  split at refused
  · split at refused
    · cases refused
    · injection refused with refused
      exact ⟨_, refused.symm⟩
  · injection refused with refused
    exact ⟨_, refused.symm⟩

/-- A key has the right length for a root. -/
theorem KeyTree.failsOnly_owner_of_key (cipher : Cipher) (config : TreeConfig) (root : Key) :
    FailsOnly (fun e => ¬ e.BlamesInput)
      (liftM (owner cipher config root.bytes.toList) : Attempt TreeError KeyTree) := by
  refine .liftExcept fun e refused => ?_
  cases shaped : config.shape with
  | error cause =>
    rw [owner, shaped] at refused
    injection refused with refused
    obtain ⟨reason, rfl⟩ := TreeConfig.shape_eq_error shaped
    exact refused ▸ id
  | ok shape =>
    rw [owner, shaped, root.ofBytes_toList] at refused
    cases refused

namespace StreamKeys

theorem failsFirst_owner (cipher : Cipher) (depth : UInt16) (master : List UInt8) :
    FailsFirst TreeError.BlamesInput (owner cipher depth master) := by
  refine .bind_check fun split => .of_failsOnly ?_
  have seed (leaf : UInt64) : FailsOnly (fun e => ¬ e.BlamesInput) (split.seed leaf) :=
    (split.failsOnly_seed leaf).imp fun _ => TreeError.OfRequest.not_blamesInput
  exact (seed _).bind fun root => (seed _).bind fun _ => (seed _).bind fun _ =>
    (KeyTree.failsOnly_owner_of_key cipher _ root).bind fun _ => .pure _

theorem failsFirst_sharingTree (keys : StreamKeys) (precision : UInt32) (depth : UInt16) :
    FailsFirst TreeError.BlamesInput (keys.sharingTree precision depth) := by
  unfold sharingTree
  split
  · exact .throw _
  · refine .bind (.adapt ?_) fun root => KeyTree.failsOnly_owner_of_key keys.tree.cipher _ root
    exact keys.tree.cipher.failsFirst_childOfBytes _ precision

end StreamKeys

open Cipher (Argument Guarded FailsByInput) in
/-- Whatever the arguments, an error that blames the input comes before any call. Sealing and
opening pass on the errors of the cipher, which by its contract never blame the input. The
operations on a block report the first argument of a wrong length in a fixed order, with any cipher,
and they call the cipher once if there is none. -/
theorem input_errors_precede_calls (cipher : Cipher) :
    (∀ key plaintext, FailsFirst CipherError.BlamesInput (cipher.encryptBytes key plaintext)) ∧
    (cipher.KeepsContract →
      (∀ key header plaintext nonce, FailsFirst CipherError.BlamesInput
        (cipher.sealBytes key header plaintext nonce)) ∧
      ∀ key header sealedBytes nonce, FailsFirst CipherError.BlamesInput
        (cipher.openBytes key header sealedBytes nonce)) ∧
    (∀ seed index, FailsFirst CipherError.BlamesInput (cipher.childOfBytes seed index)) ∧
    (∀ seed path, FailsFirst CipherError.BlamesInput (cipher.descendFromBytes seed path)) ∧
    (∀ seed input, FailsFirst CipherError.BlamesInput (cipher.blockKeyOfBytes seed input)) ∧
    (∀ seed input, FailsFirst CipherError.BlamesInput (cipher.wordOfBytes seed input)) ∧
    (∀ seed, FailsFirst CipherError.BlamesInput (cipher.leafWordOfBytes seed)) ∧
    (∀ seed purpose id, FailsFirst CipherError.BlamesInput
      (cipher.metadataWordOfBytes seed purpose id)) ∧
    (∀ config root, FailsFirst TreeError.BlamesInput
      (liftM (KeyTree.owner cipher config root) : Attempt TreeError KeyTree)) ∧
    (∀ depth master, FailsFirst TreeError.BlamesInput (StreamKeys.owner cipher depth master)) ∧
    (∀ depth nodes macKey, FailsFirst TreeError.BlamesInput
      (liftM (StreamKeys.receiver cipher depth nodes macKey) : Attempt TreeError StreamKeys)) ∧
    (∀ (keys : StreamKeys) precision depth, FailsFirst TreeError.BlamesInput
      (keys.sharingTree precision depth)) ∧
    (∀ key plaintext,
      let arguments : List Argument := [⟨.key, key⟩, ⟨.block, plaintext⟩]
      let attempt := cipher.encryptBytes key plaintext
      Guarded arguments ⟨1, 0, 0⟩ (fun _ => False) attempt ∧
      (FailsByInput attempt ↔ ∃ argument ∈ arguments, ¬ argument.Fits)) ∧
    (∀ key header plaintext nonce,
      let arguments : List Argument :=
        [⟨.key, key⟩, ⟨.block, plaintext⟩, ⟨.nonce, nonce⟩, ⟨.header, header⟩]
      let attempt := cipher.sealBytes key header plaintext nonce
      Guarded arguments ⟨0, 1, 0⟩ cipher.SealingError attempt ∧
      (cipher.KeepsContract →
        (FailsByInput attempt ↔ ∃ argument ∈ arguments, ¬ argument.Fits))) ∧
    ∀ key header sealedBytes nonce,
      let arguments : List Argument :=
        [⟨.key, key⟩, ⟨.sealed, sealedBytes⟩, ⟨.nonce, nonce⟩, ⟨.header, header⟩]
      let attempt := cipher.openBytes key header sealedBytes nonce
      Guarded arguments ⟨0, 0, 1⟩ cipher.OpeningError attempt ∧
      (cipher.KeepsContract →
        (FailsByInput attempt ↔ ∃ argument ∈ arguments, ¬ argument.Fits)) := by
  refine ⟨?_, ?_, cipher.failsFirst_childOfBytes, cipher.failsFirst_descendFromBytes,
    cipher.failsFirst_blockKeyOfBytes, cipher.failsFirst_wordOfBytes,
    fun seed => cipher.failsFirst_wordOfBytes seed leafBlock.toList,
    fun seed purpose id => cipher.failsFirst_wordOfBytes seed (metadataBlock purpose id).toList,
    fun _ _ => .liftExcept _, StreamKeys.failsFirst_owner cipher,
    fun _ _ _ => .liftExcept _, StreamKeys.failsFirst_sharingTree, ?_, ?_, ?_⟩
  · intro key plaintext
    exact (cipher.guarded_encryptBytes key plaintext).failsFirst nofun
  · intro contract
    exact ⟨Cipher.failsFirst_sealBytes_iff.2 contract.sealing_blameless,
      Cipher.failsFirst_openBytes_iff.2 contract.opening_blameless⟩
  · intro key plaintext arguments attempt
    have guarded := cipher.guarded_encryptBytes key plaintext
    exact ⟨guarded, guarded.failsByInput_iff nofun⟩
  · intro key header plaintext nonce arguments attempt
    have guarded := cipher.guarded_sealBytes key header plaintext nonce
    exact ⟨guarded, fun contract => guarded.failsByInput_iff contract.sealing_blameless⟩
  · intro key header sealedBytes nonce arguments attempt
    have guarded := cipher.guarded_openBytes key header sealedBytes nonce
    exact ⟨guarded, fun contract => guarded.failsByInput_iff contract.opening_blameless⟩

/-- A nonce of eleven bytes is reported before a header of three; with no length wrong there is one
call. -/
theorem aes_blames_nonce_before_calls :
    let zeros (size : ℕ) : List UInt8 := List.replicate size 0
    let refused := Cipher.aes.sealBytes (zeros 16) (zeros 3) (zeros 16) (zeros 11)
    let opened := Cipher.aes.openBytes (zeros 16) (zeros 4) (zeros 32) (zeros 12)
    Cipher.aes.KeepsContract ∧
    Cipher.FailsByInput refused ∧ refused.outcome = .error (.wrongLength .nonce 12 11) ∧
    refused.calls = .none ∧ ¬ Cipher.FailsByInput opened ∧ opened.calls = ⟨0, 0, 1⟩ := by
  intro zeros refused opened
  have contract := Cipher.keepsContract_aes
  obtain ⟨-, -, -, -, -, -, -, -, -, -, -, -, -, sealing, opening⟩ :=
    input_errors_precede_calls .aes
  obtain ⟨seal_guarded, seal_blames_iff⟩ := sealing (zeros 16) (zeros 3) (zeros 16) (zeros 11)
  obtain ⟨open_guarded, open_blames_iff⟩ := opening (zeros 16) (zeros 4) (zeros 32) (zeros 12)
  obtain ⟨reported, silent⟩ := seal_guarded.of_misfit ⟨.nonce, zeros 11⟩ rfl
  have blamed : Cipher.FailsByInput refused := (seal_blames_iff contract).2 (by decide)
  have blameless : ¬ Cipher.FailsByInput opened := by
    rw [open_blames_iff contract]
    decide
  exact ⟨contract, blamed, reported, silent, blameless, (open_guarded.of_fit (by decide)).2⟩

end RangeKeys
