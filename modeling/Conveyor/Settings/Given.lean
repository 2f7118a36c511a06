/-
Conveyor.Settings.Given — settings of which a text gives only some fields.

`Given` holds values for some of the six fields, each of the type of its field.
`Field.Says` tells which JSON values say such a value: a size is a plain numeral, a
policy a string or the only name of an object, a span an object or an array of its
two parts. `Given.Lists` tells which members of an object list the given fields, in
whatever order, with any other members between them.

None of these says how a text is read. That reading goes by them is proved in
`Conveyor.Proofs.Reading`.
-/
import Conveyor.Json.Grammar
import Conveyor.Settings.Text

namespace Conveyor

/-! ## The values of the fields -/

/-- What a field holds. -/
def Field.Value : Field → Type
  | .channels | .room => UInt64
  | .batch => Option UInt64
  | .policy => WhenFull
  | .cycle => Span
  | .metered => Bool

/-- Values for some of the fields. -/
def Given := (f : Field) → Option f.Value

namespace Given

/-- No field is given. -/
def nothing : Given := fun _ => none

/-- One field more, or another value for it. -/
def add (given : Given) (f : Field) (v : f.Value) : Given :=
  fun g => if h : f = g then some (h ▸ v) else given g

/-- These fields, with the values that they have here. -/
def only (fields : List Field) (values : (f : Field) → f.Value) : Given :=
  fun f => if f ∈ fields then some (values f) else none

end Given

namespace Settings

/-- What the settings hold in a field. -/
def get (s : Settings) : (f : Field) → f.Value
  | .channels => s.channels
  | .room => s.room
  | .batch => s.batch
  | .policy => s.policy
  | .cycle => s.cycle
  | .metered => s.metered

/-- The settings with another value in a field. -/
def put (s : Settings) : (f : Field) → f.Value → Settings
  | .channels, channels => { s with channels }
  | .room, room => { s with room }
  | .batch, batch => { s with batch }
  | .policy, policy => { s with policy }
  | .cycle, cycle => { s with cycle }
  | .metered, metered => { s with metered }

/-- The settings with the given values in place of their own. -/
def replace (s : Settings) (given : Given) : Settings where
  channels := (given .channels).getD s.channels
  room := (given .room).getD s.room
  batch := (given .batch).getD s.batch
  policy := (given .policy).getD s.policy
  cycle := (given .cycle).getD s.cycle
  metered := (given .metered).getD s.metered

end Settings

/-! ## The values as JSON -/

/-- A natural number. -/
def Json.ofNat (n : Nat) : Json := .number ⟨false, n, true⟩

/-- A policy is named. -/
inductive WhenFull.Says (p : WhenFull) : Json → Prop
  | name {name : List Piece} : Json.textOf? name = some p.code → Says p (.string name)
  | member {name : List Piece} :
      Json.textOf? name = some p.code → Says p (.object [(name, .null)])

/-- The two parts of a span, of which the second may be more than a second. -/
def Span.Sums (c : Span) (seconds nanos : Nat) : Prop :=
  seconds < UInt64.size ∧ nanos < UInt32.size ∧
    c.seconds.toNat * nanosPerSecond + c.nanos = seconds * nanosPerSecond + nanos

/-- A span is given in its two parts. -/
inductive Span.Says (c : Span) : Json → Prop
  | items {seconds nanos : Nat} :
      c.Sums seconds nanos → Says c (.array [.ofNat seconds, .ofNat nanos])
  | members {seconds nanos : Nat} {a b : List Piece} : c.Sums seconds nanos →
      Json.textOf? a = some "secs" → Json.textOf? b = some "nanos" →
      Says c (.object [(a, .ofNat seconds), (b, .ofNat nanos)])
  | swapped {seconds nanos : Nat} {a b : List Piece} : c.Sums seconds nanos →
      Json.textOf? a = some "secs" → Json.textOf? b = some "nanos" →
      Says c (.object [(b, .ofNat nanos), (a, .ofNat seconds)])

/-- A value of a field is said by a JSON value. -/
inductive Field.Says : (f : Field) → f.Value → Json → Prop
  | channels (n : UInt64) : Says .channels n (.ofNat n.toNat)
  | room (n : UInt64) : Says .room n (.ofNat n.toNat)
  | noBatch : Says .batch (none : Option UInt64) .null
  | batch (n : UInt64) : Says .batch (some n) (.ofNat n.toNat)
  | policy {p : WhenFull} {json : Json} : p.Says json → Says .policy p json
  | cycle {c : Span} {json : Json} : c.Says json → Says .cycle c json
  | metered (b : Bool) : Says .metered b (.bool b)

/-- These members of an object list the given fields, each once. A member with
another name may stand anywhere, and say anything. -/
inductive Given.Lists : Given → List Json.Entry → Prop
  | nil : Lists .nothing []
  | other {given : Given} {name : List Piece} {text : String} {json : Json}
      {members : List Json.Entry} : Json.textOf? name = some text → (∀ f : Field, text ≠ f.name) →
      Lists given members → Lists given ((name, json) :: members)
  | field {given : Given} {f : Field} {v : f.Value} {name : List Piece} {json : Json}
      {members : List Json.Entry} : Json.textOf? name = some f.name → f.Says v json →
      given f = none → Lists given members → Lists (given.add f v) ((name, json) :: members)

end Conveyor
