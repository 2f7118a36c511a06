/-
Conveyor.Session.Script — consumers that do as they are told.

A script says how the `consume` calls of a consumer end, one after the
other, and what happens afterwards, and how its other hooks end.
-/
import Conveyor.Crew.Worker

namespace Conveyor

/-- How the hooks of a consumer end. -/
structure HookScript where
  /-- The ends of its first `consume` calls. -/
  consume : List HookEnd := []
  /-- The end of every `consume` call after these. -/
  always : HookEnd := .returned
  start : HookEnd := .returned
  error : HookEnd := .returned
  exit : HookEnd := .returned

/-- How a call ends, which is the `k`-th `consume` call if it is one. -/
def HookScript.reply {α : Type u} (s : HookScript) (k : Nat) : Hook α → HookEnd
  | .start => s.start
  | .consume .. => s.consume.getD k s.always
  | .error .. => s.error
  | .exit => s.exit

end Conveyor
