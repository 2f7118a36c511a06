/-
Conveyor.Settings.Text — settings as JSON text.

Writing gives all six fields in their order. Reading takes an object,
whose fields may come in any order, be absent or be surrounded by others
that it passes over; or an array, which gives the first fields in order.
A field given twice is refused whatever it says. An absent field has the
value that it has in `Settings.standard`.
-/
import Conveyor.Json.Reader
import Conveyor.Settings.Basic

namespace Conveyor

/-! ## The fields -/

/-- A field of the settings. -/
inductive Field where
  | channels
  | room
  | batch
  | policy
  | cycle
  | metered
  deriving DecidableEq, Repr

namespace Field

/-- The fields in their order. -/
def all : List Field := [channels, room, batch, policy, cycle, metered]

/-- The name of a field in a text. -/
def name : Field → String
  | channels => "channel_size"
  | room => "buffer_size"
  | batch => "batch_size"
  | policy => "strategy"
  | cycle => "consume_cycle"
  | metered => "enable_metrics"

/-- The field with this name. -/
def ofName? (s : String) : Option Field := all.find? (·.name = s)

@[simp] theorem ofName?_name (f : Field) : ofName? f.name = some f := by cases f <;> decide

end Field

/-! ## Reading the parts -/

/-- The policy that a value names: as a string, or as the only name of an
object, with nothing behind it. -/
def WhenFull.ofJson? : Json → Option WhenFull
  | .object [(name, .null)] => (Json.textOf? name).bind ofCode?
  | json => json.text?.bind ofCode?

namespace Span

/-- The parts of a span that an object gives: both, once each, and
nothing else. -/
def partsOfMembers? : List (List Piece × Json) → Option UInt64 → Option Nat →
    Option (UInt64 × Nat)
  | [], some seconds, some nanos => some (seconds, nanos)
  | [], _, _ => none
  | (name, json) :: rest, seconds, nanos =>
    match Json.textOf? name with
    | some "secs" =>
      match seconds, json.word? with
      | none, some n => partsOfMembers? rest (some n) nanos
      | _, _ => none
    | some "nanos" =>
      match nanos, json.nat? (UInt32.size - 1) with
      | none, some n => partsOfMembers? rest seconds (some n)
      | _, _ => none
    | _ => none

/-- The span that a value gives: an object with both parts, or an array of
the two. -/
def ofJson? : Json → Option Span
  | .object members => do
    let (seconds, nanos) ← partsOfMembers? members none none
    ofParts? seconds nanos
  | .array [seconds, nanos] => do
    ofParts? (← seconds.word?) (← nanos.nat? (UInt32.size - 1))
  | _ => none

end Span

namespace Settings

/-- The settings with one field as a value gives it. -/
def setField? (s : Settings) (field : Field) (json : Json) : Option Settings :=
  match field, json with
  | .channels, json => json.word?.map fun channels => { s with channels }
  | .room, json => json.word?.map fun room => { s with room }
  | .batch, .null => some { s with batch := none }
  | .batch, json => json.word?.map fun n => { s with batch := some n }
  | .policy, json => (WhenFull.ofJson? json).map fun policy => { s with policy }
  | .cycle, json => (Span.ofJson? json).map fun cycle => { s with cycle }
  | .metered, .bool metered => some { s with metered }
  | .metered, _ => none

/-! ## Reading settings -/

/-- Takes over the members of an object one by one; `given` are the fields
that earlier members gave. -/
def ofMembers? (s : Settings) (given : List Field) :
    List (List Piece × Json) → Option Settings
  | [] => some s
  | (name, json) :: rest => do
    match Field.ofName? (← Json.textOf? name) with
    | none => s.ofMembers? given rest
    | some field =>
      if field ∈ given then none
      else (← s.setField? field json).ofMembers? (field :: given) rest

/-- Takes over the items of an array, one for each field in order. -/
def ofItems? (s : Settings) : List Field → List Json → Option Settings
  | _, [] => some s
  | [], _ :: _ => none
  | field :: fields, json :: rest => do (← s.setField? field json).ofItems? fields rest

/-- The settings that a value gives. -/
def ofJson? : Json → Option Settings
  | .object members => standard.ofMembers? [] members
  | .array items => standard.ofItems? Field.all items
  | _ => none

/-- The settings that a text gives. -/
def read? (text : String) : Option Settings := (Json.read? text).bind ofJson?

/-! ## Writing settings -/

/-- A string of plain characters in quotes. -/
def quoted (s : String) : String := "\"" ++ s ++ "\""

/-- The text of one field. -/
def fieldText (s : Settings) : Field → String
  | .channels => toString s.channels
  | .room => toString s.room
  | .batch =>
    match s.batch with
    | none => "null"
    | some n => toString n
  | .policy => quoted s.policy.code
  | .cycle =>
    "\x7b" ++ quoted "secs" ++ s!":{s.cycle.seconds}," ++ quoted "nanos"
      ++ s!":{s.cycle.nanos}\x7d"
  | .metered => if s.metered then "true" else "false"

/-- The text of the settings: an object with every field in its order, and
no blanks. -/
def write (s : Settings) : String :=
  let members := Field.all.map fun f => quoted f.name ++ ":" ++ s.fieldText f
  "\x7b" ++ ",".intercalate members ++ "\x7d"

end Settings

/-- The policy that a text names. -/
def WhenFull.read? (text : String) : Option WhenFull := (Json.read? text).bind WhenFull.ofJson?

end Conveyor
