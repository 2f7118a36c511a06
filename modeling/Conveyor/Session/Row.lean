/-
Conveyor.Session.Row — commands for a row of channels that nobody else
uses, so that no write ever waits.
-/
import Conveyor.Lane.Set
import Conveyor.Routing.Spec

namespace Conveyor

/-- What a row of channels can be asked for. -/
inductive RowCommand where
  /-- An item is written, by the policy of the row if none is named;
  `brief` asks for no more than whether it was taken. -/
  | save (item : Payload) (policy : Option WhenFull) (brief : Bool)
  | fill (first : Int) (count : Nat)
  | setRouter (router : RouterSpec)
  | setPolicy (policy : WhenFull)
  | drain (channel limit : Nat)
  /-- An item is written to a channel, past the router. -/
  | saveAt (channel : Nat) (item : Payload) (policy : WhenFull)
  | closeAt (channel : Nat)
  | describeAt (channel : Nat)
  | close
  | sizes

/-- What a row of channels answers. -/
inductive RowReply where
  | silent
  | flag (b : Bool)
  | number (n : Nat)
  | numbers (ns : List Nat)
  | policy (p : WhenFull)
  | items (items : List Payload)
  | wrote (brief : Bool) (result : WriteResult Payload)
  | lane (size capacity : Nat) (isEmpty isClosed : Bool)
  /-- The write would have to wait. -/
  | blocked
  | fault (f : Fault)

/-- What a step shows: the answer and the row after it. -/
structure RowRecord where
  reply : RowReply
  row : LaneSet Payload

namespace LaneSet

/-- What a write answers, and the row after it. -/
def wrote (brief : Bool) : Offered Payload → RowReply × LaneSet Payload
  | .ended result row => (.wrote brief result, row)
  | .waits _ row => (.blocked, row)
  | .faulted f row => (.fault f, row)

/-- Writes `count` numbers from `first` on, and counts those that are taken.
It ends early at a write that has no end. -/
def fill (row : LaneSet Payload) (first : Int) (accepted : Nat) :
    Nat → RowReply × LaneSet Payload
  | 0 => (.number accepted, row)
  | count + 1 =>
    match row.offer row.policy (.number first) with
    | .ended (.accepted _) row => row.fill (first + 1) (accepted + 1) count
    | .ended (.refused ..) row => row.fill (first + 1) accepted count
    | .waits _ row => (.blocked, row)
    | .faulted f row => (.fault f, row)

/-- Carries a command out. -/
def perform (row : LaneSet Payload) : RowCommand → RowReply × LaneSet Payload
  | .save item policy brief => wrote brief (row.offer (policy.getD row.policy) item)
  | .fill first count => row.fill first 0 count
  | .setRouter spec => (.silent, { row with router := spec.router })
  | .setPolicy policy => (.policy policy, { row with policy })
  | .drain channel limit =>
    match row.lanes[channel]? with
    | none => (.silent, row)
    | some lane =>
      match row.takeAt channel lane limit with
      | .ok (items, row) => (.items items, row)
      | .error f => (.fault f, row)
  | .saveAt channel item policy =>
    match row.lanes[channel]? with
    | none => (.silent, row)
    | some lane => wrote false (row.offerAt channel lane policy item)
  | .closeAt channel =>
    match row.lanes[channel]? with
    | none => (.flag false, row)
    | some lane => (.flag true, row.setLane channel lane.close)
  | .describeAt channel =>
    match row.lanes[channel]? with
    | none => (.silent, row)
    | some lane => (.lane lane.size lane.capacity lane.isEmpty lane.closed, row)
  | .close => (.silent, row.close)
  | .sizes => (.numbers [row.count, row.room], row)

/-- Carries a command out and shows what there is to see. -/
def play (row : LaneSet Payload) (c : RowCommand) : RowRecord :=
  let (reply, row) := row.perform c
  { reply, row }

end LaneSet

end Conveyor
