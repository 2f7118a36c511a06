/-
Conveyor.Lane.Queue — a channel as its users see it: a bounded queue.

A `Request` is what a thread asks of a channel in one hold of its lock, a
`Response` is what it is told. A writer who is told to wait has changed
nothing, and asks again when it is woken. `Lane.respond` answers out of the
ring, with its cursors and its checks; `Queue.respond` answers out of a list
and a flag. That both give the same answers is `Conveyor.Proofs.Queue`.
-/
import Conveyor.Lane.Basic

namespace Conveyor

/-- What a channel is asked for. -/
inductive Request (α : Type u) where
  | write (policy : WhenFull) (item : α)
  /-- Up to `limit` items are to be moved to the end of `out`. -/
  | drain (limit : Nat) (out : List α)
  | close
  | size
  | isEmpty

/-- What a channel answers. -/
inductive Response (α : Type u) where
  | wrote (result : WriteResult α)
  /-- There is no room, and the writer wants to wait for it. -/
  | mustWait
  /-- So many items were moved, and this is what `out` has become. -/
  | drained (moved : Nat) (out : List α)
  | closed
  | size (n : Nat)
  | isEmpty (b : Bool)
  deriving DecidableEq

/-- Whether an item has entered the channel. -/
def Response.isAccepted {α : Type u} : Response α → Bool
  | .wrote result => result.isAccepted
  | _ => false

namespace Lane

variable {α : Type u}

/-- The answer to a request, and the channel after it. -/
def respond (l : Lane α) : Request α → Checked (Response α × Lane α)
  | .write policy a => do
    match ← l.attempt policy a with
    | .accepted how _ lane => return (.wrote (.accepted how), lane)
    | .refused why item => return (.wrote (.refused why item), l)
    | .mustWait => return (.mustWait, l)
  | .drain limit out => do
    let taken ← l.take limit
    return (.drained taken.moved (out ++ taken.items), taken.lane)
  | .close => return (.closed, l.close)
  | .size => return (.size l.size, l)
  | .isEmpty => return (.isEmpty l.isEmpty, l)

/-- The answers to requests one after the other, and the channel after them. -/
def serve (l : Lane α) : List (Request α) → Checked (List (Response α) × Lane α)
  | [] => return ([], l)
  | request :: requests => do
    let (response, lane) ← l.respond request
    let (responses, lane) ← lane.serve requests
    return (response :: responses, lane)

end Lane

/-- A queue with room for `capacity` items. -/
structure Queue (α : Type u) where
  capacity : Nat
  /-- The items, oldest first. -/
  items : List α := []
  closed : Bool := false

namespace Queue

variable {α : Type u}

/-- The answer to a request, and the queue after it. -/
def respond (q : Queue α) : Request α → Response α × Queue α
  | .write policy a =>
    if q.closed then (.wrote (.refused .closed a), q)
    else if q.items.length < q.capacity then
      (.wrote (.accepted .stored), { q with items := q.items ++ [a] })
    else
      match policy with
      | .refuse => (.wrote (.refused .full a), q)
      | .evict => (.wrote (.accepted .evicted), { q with items := q.items.tail ++ [a] })
      | .wait => (.mustWait, q)
  | .drain limit out =>
    let n := min q.items.length limit
    (.drained n (out ++ q.items.take n), { q with items := q.items.drop n })
  | .close => (.closed, { q with closed := true })
  | .size => (.size q.items.length, q)
  | .isEmpty => (.isEmpty q.items.isEmpty, q)

/-- The answers to requests one after the other, and the queue after them. -/
def serve (q : Queue α) : List (Request α) → List (Response α) × Queue α
  | [] => ([], q)
  | request :: requests =>
    let (response, q') := q.respond request
    let (responses, q'') := q'.serve requests
    (response :: responses, q'')

end Queue

end Conveyor
