import CyclicBuffer.Error
import Mathlib.Logic.Function.Iterate

/-!
# Errors that are handed on

A buffer error that passes an interface which only knows stream errors is handed on as one of those,
and taken in again behind it: `Error.relay`. That changes the error at most once
(`Error.relay_relay`), and neither its text nor its cause. Of the errors that come about in this way
a stream error is bare, has a message of its own, or carries one buffer error that holds no stream
error, under the cause of that (`StreamError.arises_iff`). So errors that are handed on from layer
to layer do not grow.
-/

namespace CyclicBuffer

/-! ## Relays -/

namespace Error

/-- The error handed on as a stream error and taken in again. -/
def relay (e : Error) : Error := .stream e.toStreamError

/-- The error holds no stream error. -/
def Plain (e : Error) : Prop := ∀ x, e ≠ .stream x

/-- What an error is to somebody who only knows stream errors: a request that cannot be met, one
that cannot be met now, the end of a source, or something else. A stream error is what it is. -/
inductive StandsFor : Error → Cause → Prop
  | invalidArgument (reason : String) : StandsFor (.invalidArgument reason) .invalidInput
  | capacityExceeded (requested capacity : Nat) :
      StandsFor (.capacityExceeded requested capacity) .invalidInput
  | insufficientCapacity (requested spare : Nat) :
      StandsFor (.insufficientCapacity requested spare) .wouldBlock
  | insufficientContent (requested available : Nat) :
      StandsFor (.insufficientContent requested available) .wouldBlock
  | operationInProgress (d : Direction) : StandsFor (.operationInProgress d) .wouldBlock
  | unexpectedEndOfInput (expected transferred : Nat) :
      StandsFor (.unexpectedEndOfInput expected transferred) .unexpectedEof
  | cancelled (transferred : Nat) : StandsFor (.cancelled transferred) .other
  | stream (x : StreamError) : StandsFor (.stream x) x.cause

variable {e : Error}

theorem plain_or_stream (e : Error) : e.Plain ∨ ∃ x, e = .stream x := by
  cases e with
  | stream x => exact .inr ⟨x, rfl⟩
  | _ => exact .inl fun _ he => Error.noConfusion he

@[simp] theorem toStreamError_stream (x : StreamError) : (stream x).toStreamError = x := rfl

theorem toStreamError_of_plain (h : e.Plain) : e.toStreamError = .carrying e.cause e := by
  cases e with
  | stream x => exact absurd rfl (h x)
  | _ => rfl

theorem text_toStreamError (e : Error) : e.toStreamError.text = e.text := by
  rcases e.plain_or_stream with h | ⟨x, rfl⟩
  · rw [toStreamError_of_plain h]
    rfl
  · rfl

/-- The stream error has the one cause that the error stands for. -/
theorem standsFor_iff {c : Cause} : e.StandsFor c ↔ e.toStreamError.cause = c := by
  constructor
  · intro h
    cases h <;> rfl
  · rintro rfl
    cases e <;> constructor

theorem relay_relay (e : Error) : e.relay.relay = e.relay := rfl

/-- Later relays do nothing. -/
theorem relays_eq (e : Error) (n : Nat) : relay^[n + 1] e = e.relay :=
  Function.iterate_fixed (relay_relay e) n

theorem toStreamError_relays (e : Error) (n : Nat) :
    (relay^[n] e).toStreamError = e.toStreamError := by
  cases n with
  | zero => rfl
  | succ n => rw [relays_eq, relay, toStreamError_stream]

theorem text_relays (e : Error) (n : Nat) : (relay^[n] e).text = e.text := by
  rw [← text_toStreamError, toStreamError_relays, text_toStreamError]

end Error

/-! ## What is behind an error -/

mutual

theorem Error.source?_eq_none : ∀ e : Error, e.source? = none
  | .stream x => x.source?_eq_none
  | .invalidArgument _ => rfl
  | .capacityExceeded _ _ => rfl
  | .insufficientCapacity _ _ => rfl
  | .insufficientContent _ _ => rfl
  | .operationInProgress _ => rfl
  | .unexpectedEndOfInput _ _ => rfl
  | .cancelled _ => rfl

theorem StreamError.source?_eq_none : ∀ x : StreamError, x.source? = none
  | .bare _ => rfl
  | .message _ _ => rfl
  | .carrying _ e => e.source?_eq_none

end

/-! ## Errors that come about -/

mutual

/-- The error holds no stream error, or one that has come about. -/
inductive Error.Arises : Error → Prop
  | plain {e : Error} : e.Plain → e.Arises
  | stream {x : StreamError} : x.Arises → (Error.stream x).Arises

/-- The stream error is bare, has a message, or is an error that has been handed on. -/
inductive StreamError.Arises : StreamError → Prop
  | bare (c : Cause) : StreamError.Arises (.bare c)
  | message (c : Cause) (text : String) : StreamError.Arises (.message c text)
  | handedOn {e : Error} : e.Arises → e.toStreamError.Arises

end

/-- The stream error carries nothing, or an error that holds no stream error, under the cause of
that. -/
inductive StreamError.Flat : StreamError → Prop
  | bare (c : Cause) : Flat (.bare c)
  | message (c : Cause) (text : String) : Flat (.message c text)
  | carrying {e : Error} : e.Plain → Flat (.carrying e.cause e)

mutual

/-- What is handed on is flat, however often parts of it have been handed on before. -/
theorem Error.Arises.flat : ∀ {e : Error}, e.Arises → e.toStreamError.Flat
  | _, .plain h => Error.toStreamError_of_plain h ▸ .carrying h
  | _, .stream h => h.flat

theorem StreamError.Arises.flat : ∀ {x : StreamError}, x.Arises → x.Flat
  | _, .bare c => .bare c
  | _, .message c text => .message c text
  | _, .handedOn h => h.flat

end

namespace StreamError

variable {x : StreamError}

theorem arises_iff : x.Arises ↔ x.Flat := by
  refine ⟨Arises.flat, fun h => ?_⟩
  cases h with
  | bare c => exact .bare c
  | message c text => exact .message c text
  | carrying h => exact Error.toStreamError_of_plain h ▸ .handedOn (.plain h)

theorem Flat.plain {e : Error} (h : x.Flat) (hx : x.carried? = some e) : e.Plain := by
  cases h with
  | bare c => cases hx
  | message c text => cases hx
  | carrying h =>
    cases hx
    exact h

end StreamError

/-- **Errors do not grow when they are handed on.** A stream error that is taken in is handed on as
it was. However often an error has been handed on and taken in again, it has the same text, and it
is handed on as the same stream error as the first time. That has the text of the error, too, and
the one cause that the error stands for. The stream errors that come about in this way, from bare
causes, messages and buffer errors, are the flat ones, and none of them carries an error that holds
a stream error. Nowhere is there an error behind an error. -/
theorem relays_arise_flat :
    (∀ x : StreamError, (Error.stream x).toStreamError = x) ∧
    (∀ (e : Error) (n : Nat),
      (Error.relay^[n] e).text = e.text ∧
      (Error.relay^[n] e).toStreamError = e.toStreamError ∧ e.toStreamError.text = e.text ∧
      ∀ c, e.StandsFor c ↔ (Error.relay^[n] e).toStreamError.cause = c) ∧
    (∀ x : StreamError, (x.Arises ↔ x.Flat) ∧
      (x.Arises → ∀ inner, x.carried? ≠ some (.stream inner))) ∧
    (∀ e : Error, e.source? = none) ∧ ∀ x : StreamError, x.source? = none := by
  refine ⟨Error.toStreamError_stream, ?relays, ?arise, Error.source?_eq_none,
    StreamError.source?_eq_none⟩
  case relays =>
    intro e n
    have hsame := Error.toStreamError_relays e n
    refine ⟨Error.text_relays e n, hsame, Error.text_toStreamError e, fun c => ?_⟩
    rw [hsame]
    exact Error.standsFor_iff
  case arise =>
    intro x
    refine ⟨StreamError.arises_iff, fun hx inner hcarried => ?_⟩
    exact hx.flat.plain hcarried inner rfl

/-- A refusal that has been handed on three times is carried once, under its own cause. -/
theorem relays_arise_flat_thrice :
    let e := Error.insufficientContent 4 1
    let x := (Error.relay^[3] e).toStreamError
    x = .carrying .wouldBlock e ∧ x.text = e.text ∧ x.Flat ∧
      ∀ inner, x.carried? ≠ some (.stream inner) := by
  intro e x
  obtain ⟨-, hrelays, harise, -⟩ := relays_arise_flat
  obtain ⟨-, hsame, htext, -⟩ := hrelays e 3
  have he : e.Plain := fun _ h => Error.noConfusion h
  have hx : x.Arises := .handedOn (.stream (.handedOn (.stream (.handedOn (.stream (.handedOn
    (.plain he)))))))
  exact ⟨hsame, (congrArg StreamError.text hsame).trans htext, (harise x).1.1 hx, (harise x).2 hx⟩

end CyclicBuffer
