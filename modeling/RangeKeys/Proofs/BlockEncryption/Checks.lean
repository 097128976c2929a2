import RangeKeys.Proofs.BlockEncryption.RoundTrip
import RangeKeys.Proofs.Metered.Failures

/-!
# The arguments are checked in order before the cipher is called

Every operation on a block checks the lengths of its arguments one after the other. The first that
is wrong is reported, and then nothing has been called. If none is wrong the cipher is called once,
and an error is the cipher's own. Under the contract of ciphers such an error never blames the
input.
-/

namespace RangeKeys

/-- The input alone is at fault. -/
def CipherError.BlamesInput (e : CipherError) : Prop :=
  e.isInputError = true

namespace Cipher

open CipherError (BlamesInput)
open Attempt (FailsOnly FailsFirst)

/-- Bytes that are given for a part. -/
structure Argument where
  part : Part
  bytes : List UInt8

/-- The bytes have the length of the part. -/
def Argument.Fits (argument : Argument) : Prop :=
  argument.bytes.length = argument.part.size

instance (argument : Argument) : Decidable argument.Fits :=
  inferInstanceAs (Decidable (_ = _))

/-- The error for bytes that do not have the length of the part. -/
def Argument.lengthError (argument : Argument) : CipherError :=
  .wrongLength argument.part argument.part.size argument.bytes.length

/-- The first argument of a wrong length, if there is one. -/
def misfit? (arguments : List Argument) : Option Argument :=
  arguments.find? fun argument => ¬ argument.Fits

theorem misfit?_cons_of_fits {argument : Argument} (fits : argument.Fits)
    (arguments : List Argument) : misfit? (argument :: arguments) = misfit? arguments :=
  List.find?_cons_of_neg (by simpa using fits)

theorem misfit?_cons_of_not_fits {argument : Argument} (misfits : ¬ argument.Fits)
    (arguments : List Argument) : misfit? (argument :: arguments) = some argument :=
  List.find?_cons_of_pos (by simpa using misfits)

theorem misfit?_eq_none_iff {arguments : List Argument} :
    misfit? arguments = none ↔ ∀ argument ∈ arguments, argument.Fits := by
  simp [misfit?]

theorem exists_misfit?_iff {arguments : List Argument} :
    (∃ argument, misfit? arguments = some argument) ↔ ∃ argument ∈ arguments, ¬ argument.Fits := by
  rw [← Option.ne_none_iff_exists', Ne, misfit?_eq_none_iff]
  simp

theorem check_of_fits {argument : Argument} (fits : argument.Fits) :
    ∃ v, argument.part.check argument.bytes = .ok v := by
  cases sized : Bytes.sized? argument.part.size argument.bytes with
  | some v => exact ⟨v, by rw [Part.check, sized]⟩
  | none => exact absurd fits (Bytes.sized?_eq_none_iff.1 sized)

theorem check_of_not_fits {argument : Argument} (misfits : ¬ argument.Fits) :
    argument.part.check argument.bytes = .error argument.lengthError :=
  Part.check_of_length_ne misfits

variable {α : Type} {arguments : List Argument} {calls : Calls} {own : CipherError → Prop}
  {x : Attempt CipherError α}

/-- The input is to blame for the failure of the attempt. -/
def FailsByInput (x : Attempt CipherError α) : Prop :=
  ∃ e, x.outcome = .error e ∧ e.BlamesInput

/-- The attempt checks the lengths of the arguments in order. The first that is wrong is reported
and nothing is called. If all are right the calls are made, and an error is one of the cipher's
own. -/
structure Guarded (arguments : List Argument) (calls : Calls) (own : CipherError → Prop)
    (x : Attempt CipherError α) : Prop where
  of_misfit : ∀ argument, misfit? arguments = some argument →
    x.outcome = .error argument.lengthError ∧ x.calls = .none
  of_fit : (∀ argument ∈ arguments, argument.Fits) → FailsOnly own x ∧ x.calls = calls

namespace Guarded

/-- Without arguments nothing is checked. -/
theorem nil (failsOnly : FailsOnly own x) (calls_eq : x.calls = calls) :
    Guarded [] calls own x where
  of_misfit := nofun
  of_fit _ := ⟨failsOnly, calls_eq⟩

/-- One more argument is checked before the others. -/
theorem check {argument : Argument}
    {f : Vector UInt8 argument.part.size → Attempt CipherError α}
    (rest : ∀ v, Guarded arguments calls own (f v)) :
    Guarded (argument :: arguments) calls own
      ((liftM (argument.part.check argument.bytes) : Attempt CipherError _) >>= f) := by
  by_cases fits : argument.Fits
  · obtain ⟨v, checked⟩ := check_of_fits fits
    rw [checked, Attempt.ok_bind]
    constructor
    · rw [misfit?_cons_of_fits fits]
      exact (rest v).of_misfit
    · intro all_fit
      exact (rest v).of_fit fun other mem => all_fit other (List.mem_cons_of_mem _ mem)
  · rw [check_of_not_fits fits]
    constructor
    · intro other found
      rw [misfit?_cons_of_not_fits fits] at found
      injection found with same
      subst same
      exact ⟨rfl, rfl⟩
    · intro all_fit
      exact absurd (all_fit argument List.mem_cons_self) fits

/-- A key is sixteen bytes that are checked like any others. -/
theorem checkKey {bytes : List UInt8} {f : Key → Attempt CipherError α}
    (rest : ∀ key, Guarded arguments calls own (f key)) :
    Guarded (⟨.key, bytes⟩ :: arguments) calls own
      ((liftM (Key.ofBytes bytes) : Attempt CipherError Key) >>= f) := by
  have checked_as_bytes : ((liftM (Key.ofBytes bytes) : Attempt CipherError Key) >>= f) =
      ((liftM (Part.key.check bytes) : Attempt CipherError _) >>= fun v => f ⟨v⟩) := by
    rw [Key.ofBytes]
    cases Part.key.check bytes with
    | ok v => exact (Attempt.ok_bind ..).trans (Attempt.ok_bind ..).symm
    | error e => rfl
  rw [checked_as_bytes]
  exact check fun v => rest ⟨v⟩

/-! ## Errors that blame the input

They are told from the cipher's own errors only if those never blame the input. -/

theorem exists_misfit {e : CipherError} (guarded : Guarded arguments calls own x)
    (blameless : ∀ e, own e → ¬ e.BlamesInput) (failed : x.outcome = .error e)
    (blames_input : e.BlamesInput) : ∃ argument, misfit? arguments = some argument := by
  rw [← Option.ne_none_iff_exists']
  intro none
  have fit := misfit?_eq_none_iff.1 none
  exact blameless e ((guarded.of_fit fit).1 e failed) blames_input

/-- The input is to blame exactly if some argument has a wrong length. -/
theorem failsByInput_iff (guarded : Guarded arguments calls own x)
    (blameless : ∀ e, own e → ¬ e.BlamesInput) :
    FailsByInput x ↔ ∃ argument ∈ arguments, ¬ argument.Fits := by
  rw [← exists_misfit?_iff]
  constructor
  · intro ⟨_, failed, blames_input⟩
    exact guarded.exists_misfit blameless failed blames_input
  · intro ⟨argument, found⟩
    exact ⟨argument.lengthError, (guarded.of_misfit argument found).1, rfl⟩

theorem failsFirst (guarded : Guarded arguments calls own x)
    (blameless : ∀ e, own e → ¬ e.BlamesInput) : FailsFirst BlamesInput x := by
  intro e failed blames_input
  obtain ⟨argument, found⟩ := guarded.exists_misfit blameless failed blames_input
  exact (guarded.of_misfit argument found).2

/-- What fails after a call must not blame the input, if errors that do come first. -/
theorem blameless_of_failsFirst {e : CipherError} (guarded : Guarded arguments calls own x)
    (fit : ∀ argument ∈ arguments, argument.Fits) (called : calls ≠ .none)
    (failsFirst : FailsFirst BlamesInput x) (failed : x.outcome = .error e) : ¬ e.BlamesInput := by
  intro blames_input
  apply called
  rw [← (guarded.of_fit fit).2]
  exact failsFirst e failed blames_input

end Guarded

section Operations

variable (cipher : Cipher) (key header plaintext sealedBytes nonce : List UInt8)

/-- An encryption cannot fail by itself. -/
theorem guarded_encryptBytes :
    Guarded [⟨.key, key⟩, ⟨.block, plaintext⟩] ⟨1, 0, 0⟩ (fun _ => False)
      (cipher.encryptBytes key plaintext) :=
  .checkKey fun _ => .check fun _ => .nil (.liftMetered _) (Attempt.calls_liftMetered _)

theorem guarded_sealBytes :
    Guarded [⟨.key, key⟩, ⟨.block, plaintext⟩, ⟨.nonce, nonce⟩, ⟨.header, header⟩] ⟨0, 1, 0⟩
      cipher.SealingError (cipher.sealBytes key header plaintext nonce) :=
  .checkKey fun key => .check fun plaintext => .check fun nonce => .check fun header =>
    .nil (fun _ failed => ⟨key, nonce, header, plaintext, failed⟩) rfl

theorem guarded_openBytes :
    Guarded [⟨.key, key⟩, ⟨.sealed, sealedBytes⟩, ⟨.nonce, nonce⟩, ⟨.header, header⟩] ⟨0, 0, 1⟩
      cipher.OpeningError (cipher.openBytes key header sealedBytes nonce) :=
  .checkKey fun key => .check fun sealedBytes => .check fun nonce => .check fun header =>
    .nil (fun _ failed => ⟨key, nonce, header, .ofBytes sealedBytes, failed⟩) rfl

end Operations

/-! ## What is asked of the cipher -/

variable {cipher : Cipher}

theorem KeepsContract.sealing_blameless (contract : cipher.KeepsContract) :
    ∀ e, cipher.SealingError e → ¬ e.BlamesInput := by
  intro e failed
  rw [contract.sealing e failed]
  nofun

theorem KeepsContract.opening_blameless (contract : cipher.KeepsContract) :
    ∀ e, cipher.OpeningError e → ¬ e.BlamesInput := by
  intro e failed
  rw [contract.opening e failed]
  nofun

/-- Sealing never blames the input after a call exactly if the cipher never blames it. -/
theorem failsFirst_sealBytes_iff :
    (∀ key header plaintext nonce,
      FailsFirst BlamesInput (cipher.sealBytes key header plaintext nonce)) ↔
      ∀ e, cipher.SealingError e → ¬ e.BlamesInput := by
  constructor
  · intro failsFirst e ⟨key, nonce, header, plaintext, failed⟩
    have ended := (cipher.outcome_sealBytes key header nonce plaintext).trans failed
    refine (cipher.guarded_sealBytes ..).blameless_of_failsFirst ?_ (by decide)
      (failsFirst _ _ _ _) ended
    simp [Argument.Fits, Part.size]
  · intro blameless key header plaintext nonce
    exact (cipher.guarded_sealBytes ..).failsFirst blameless

/-- Opening never blames the input after a call exactly if the cipher never blames it. -/
theorem failsFirst_openBytes_iff :
    (∀ key header sealedBytes nonce,
      FailsFirst BlamesInput (cipher.openBytes key header sealedBytes nonce)) ↔
      ∀ e, cipher.OpeningError e → ¬ e.BlamesInput := by
  constructor
  · intro failsFirst e ⟨key, nonce, header, sealedBlock, failed⟩
    have ended := cipher.outcome_openBytes key header nonce sealedBlock.toBytes
    rw [sealedBlock.ofBytes_toBytes, failed] at ended
    refine (cipher.guarded_openBytes ..).blameless_of_failsFirst ?_ (by decide)
      (failsFirst _ _ _ _) ended
    simp [Argument.Fits, Part.size]
  · intro blameless key header sealedBytes nonce
    exact (cipher.guarded_openBytes ..).failsFirst blameless

end Cipher

end RangeKeys
