/-
Conveyor.Lane.Set — the channels of a carrier: a row of lanes, a router
that picks one for each item, and a policy for those that are full.

`LaneSet.route` and `LaneSet.attemptAt` are the two steps of a write,
and other threads may act between them. `LaneSet.offer` is both at once,
for a caller who shares the channels with nobody.
-/
import Conveyor.Lane.Basic
import Conveyor.Routing.Basic

namespace Conveyor

/-- A row of channels. -/
structure LaneSet (α : Type u) where
  lanes : List (Lane α)
  /-- The room in each of them. -/
  room : Nat
  router : Router α
  policy : WhenFull

/-- How a write ends whose writer does not stay to wait. -/
inductive Offered (α : Type u) where
  /-- It is over. -/
  | ended (result : WriteResult α) (lanes : LaneSet α)
  /-- It would have to wait on this channel. -/
  | waits (index : Nat) (lanes : LaneSet α)
  /-- It broke off. -/
  | faulted (fault : Fault) (lanes : LaneSet α)

namespace LaneSet

variable {α : Type u}

/-- A row of `count` empty channels. -/
def ofCounts (count room : Nat) (router : Router α) (policy : WhenFull) :
    Checked (LaneSet α) := do
  if count = 0 then return { lanes := [], room, router, policy }
  return { lanes := List.replicate count (← Lane.ofCapacity room), room, router, policy }

/-- The number of channels. -/
def count (s : LaneSet α) : Nat := s.lanes.length

/-- The number of items in all channels. -/
def size (s : LaneSet α) : Nat := (s.lanes.map Lane.size).foldr (· + ·) 0

/-- Whether no channel has an item. -/
def isEmpty (s : LaneSet α) : Bool := s.lanes.all Lane.isEmpty

/-- Whether no channel takes items any more. -/
def isClosed (s : LaneSet α) : Bool := s.lanes.all Lane.closed

/-- Channel `index`, with `lane` in its place. -/
def setLane (s : LaneSet α) (index : Nat) (lane : Lane α) : LaneSet α :=
  { s with lanes := s.lanes.set index lane }

/-- The channel for an item, and the channels after the router's turn. -/
def route (s : LaneSet α) (a : α) : Checked Nat × LaneSet α :=
  (s.router.route s.count a, { s with router := s.router.advance })

/-- Closes every channel. -/
def close (s : LaneSet α) : LaneSet α := { s with lanes := s.lanes.map Lane.close }

/-- A write to channel `index`, which must exist. -/
def offerAt (s : LaneSet α) (index : Nat) (lane : Lane α) (policy : WhenFull) (a : α) :
    Offered α :=
  match lane.attempt policy a with
  | .ok (.accepted how _ lane) => .ended (.accepted how) (s.setLane index lane)
  | .ok (.refused why item) => .ended (.refused why item) s
  | .ok .mustWait => .waits index s
  | .error fault => .faulted fault s

/-- A write to the channel that the router picks. -/
def offer (s : LaneSet α) (policy : WhenFull) (a : α) : Offered α :=
  let (target, s) := s.route a
  match target with
  | .error fault => .faulted fault s
  | .ok index =>
    match s.lanes[index]? with
    | none => .faulted (.routeOutOfRange index s.count) s
    | some lane => s.offerAt index lane policy a

/-- Takes items from channel `index`, which must exist. -/
def takeAt (s : LaneSet α) (index : Nat) (lane : Lane α) (limit : Nat) :
    Checked (List α × LaneSet α) := do
  let taken ← lane.take limit
  return (taken.items, s.setLane index taken.lane)

end LaneSet

end Conveyor
