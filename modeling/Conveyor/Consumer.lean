/-
Conveyor.Consumer — the four hooks of a consumer as its worker sees
them: each is entered and then ends in one of a few ways, and what the
ends mean for the worker is an error text or nothing at all.
-/

namespace Conveyor

/-- What a failing hook threw. -/
inductive PanicPayload where
  /-- A text. -/
  | text (s : String)
  /-- Something that is not a text. -/
  | other
  deriving DecidableEq, Repr

/-- The words a panic is reported in. -/
def PanicPayload.message : PanicPayload → String
  | .text s => s
  | .other => "non-string panic payload"

/-- Why a batch was not consumed. -/
inductive ConsumeError where
  /-- The consumer answered with an error that has this text. -/
  | failed (reason : String)
  /-- The consumer panicked with this text. -/
  | panicked (reason : String)
  deriving DecidableEq, Repr

namespace ConsumeError

/-- The error in words. -/
def message : ConsumeError → String
  | failed reason => s!"consumer failed: {reason}"
  | panicked reason => s!"consumer panicked: {reason}"

/-- Whether the consumer panicked. -/
def isPanic : ConsumeError → Bool
  | failed _ => false
  | panicked _ => true

/-- The messages of the errors beneath this one: none, since the text of
the cause is part of the message. -/
def causes : ConsumeError → List String := fun _ => []

end ConsumeError

/-- How a call of a hook ends. -/
inductive HookEnd where
  /-- It returns, and reports success where it reports anything. -/
  | returned
  /-- It returns an error with this text; only `consume` can. -/
  | failed (reason : String)
  /-- It panics. -/
  | panicked (payload : PanicPayload)
  deriving DecidableEq, Repr

namespace HookEnd

/-- The error a `consume` call ended with, if it did not succeed. -/
def consumeError? : HookEnd → Option ConsumeError
  | returned => none
  | failed reason => some (.failed reason)
  | panicked payload => some (.panicked payload.message)

/-- The panic that the other hooks may end with; what they return is not
looked at. -/
def panic? : HookEnd → Option ConsumeError
  | panicked payload => some (.panicked payload.message)
  | _ => none

end HookEnd

end Conveyor
