/-
Conveyor.Line.State — a row of channels with everyone who is at work on
it: producers in the middle of a call, the pools that were ever built
over the channels with their workers, and threads that close the
channels one by one.

A `Line` is a carrier without its name, or a bare row of channels with
pools of its own. It keeps a record of every call, finished or not; and
it keeps the history that tells what became of an item: which parcels
were written to which channel, evicted from it, or taken from it by a
reader that is no worker. What workers were handed stands in their
diaries. No step reads the history.
-/
import Conveyor.Crew.Pool
import Conveyor.Lane.Set

namespace Conveyor

/-- An item, marked with the call that offers it. -/
structure Parcel (α : Type u) where
  call : Nat
  item : α
  deriving DecidableEq

/-- What a call is for. -/
inductive Errand (α : Type u) where
  /-- An item for the carrier, which its active pool has to let in. -/
  | produce (item : α)
  /-- An item for the channels, whatever the pools do; a call that names no
  policy goes by the one in force. -/
  | write (item : α) (policy : Option WhenFull)
  /-- No item: the caller wants to be admitted to a pool, and to stay. -/
  | visit (pool : Nat)

/-- How a call ends. -/
inductive Verdict (α : Type u) where
  | answered (result : WriteResult α)
  /-- It stops inside the library. -/
  | faulted (fault : Fault)
  /-- A visit is over, or did not come about. -/
  | visited
  deriving DecidableEq, Repr

/-- Where a call is. Each step from one place to the next is a single
action on what the threads share. -/
inductive Place (α : Type u) where
  /-- At the start: the active pool has not been looked up. -/
  | begun
  /-- The active pool was found to be this one. -/
  | found (pool : Nat)
  /-- It is counted as admitted, and has not looked at the stage. -/
  | counted (pool : Nat)
  /-- The pool did not run; the count has not been taken back. -/
  | turnedAway (pool : Nat)
  /-- It may go on to the channels, by a policy it has not asked for yet. -/
  | cleared
  /-- It will write by this policy, to a channel it has not asked for yet. -/
  | informed (policy : WhenFull)
  /-- It is about to look at this channel for the first time. -/
  | routed (channel : Nat) (policy : WhenFull)
  /-- It waits for room in this channel, or for its end. -/
  | waiting (channel : Nat)
  /-- It is settled, and has not been added to the counters. -/
  | settled (result : WriteResult α)
  /-- All that is left is to give up the admission, if it has one. -/
  | leaving (verdict : Verdict α)
  /-- It stays in its pool until it is called away. -/
  | staying
  | over (verdict : Verdict α)
  deriving DecidableEq, Repr

/-- A call. -/
structure Call (α : Type u) where
  /-- Who calls; a producer makes one call after the other. -/
  producer : Nat
  errand : Errand α
  place : Place α
  /-- The pool that admitted it. -/
  pass : Option Nat := none

/-- How far the exchange of an installed pool for another has come. One
exchange is under way at a time. -/
inductive Exchange where
  | idle
  /-- The new pool has begun. -/
  | begun (pool : Nat)
  /-- New calls find the new pool. -/
  | published (pool : Nat)
  deriving DecidableEq, Repr

/-- A row of channels and everyone at work on it. -/
structure Line (α : Type u) where
  store : LaneSet (Parcel α)
  /-- All pools ever built over the channels. -/
  pools : List (Pool (Parcel α)) := []
  /-- The pool that a call for the carrier finds. -/
  active : Option Nat := none
  /-- The pool that the carrier owns. -/
  installed : Option Nat := none
  exchange : Exchange := .idle
  calls : List (Call α) := []
  /-- For each thread that closes the channels, the next channel. -/
  closers : List Nat := []
  offers : OfferTally := {}
  /-- What was done to the pools that is worth a log line, each with the
  pool. -/
  journal : List (Nat × Notice) := []
  /-- Every closing of a pool, with the workers whose rest it cut short. -/
  wakings : List (Nat × List Nat) := []
  /-- Every call that was given a channel, with the channel, in the order of
  the router's turns. -/
  routed : List (Nat × Nat) := []
  /-- Every parcel written, with its channel, in the order of the writes. -/
  written : List (Nat × Parcel α) := []
  /-- Every parcel that made room for another, with its channel. -/
  evicted : List (Nat × Parcel α) := []
  /-- Every parcel taken out by a reader that is no worker, with its channel. -/
  viewed : List (Nat × Parcel α) := []

namespace Call

variable {α : Type u}

/-- Whether the call is over. -/
def isOver (c : Call α) : Bool :=
  match c.place with
  | .over _ => true
  | _ => false

/-- How the call ended, if it is over. -/
def verdict? (c : Call α) : Option (Verdict α) :=
  match c.place with
  | .over v => some v
  | _ => none

/-- The item that the call offers. -/
def item? (c : Call α) : Option α :=
  match c.errand with
  | .produce item | .write item _ => some item
  | .visit _ => none

/-- Whether the call is counted when it is settled. -/
def isMetered (c : Call α) : Bool :=
  match c.errand with
  | .produce _ => true
  | _ => false

end Call

namespace Line

variable {α : Type u}

/-- A line on which nothing has happened. -/
def ofStore (store : LaneSet (Parcel α)) : Line α := { store }

/-- The line with `f` done to pool `p`. -/
def mapPool (s : Line α) (p : Nat) (f : Pool (Parcel α) → Pool (Parcel α)) : Line α :=
  { s with pools := s.pools.modify p f }

/-- The line with `f` done to call `i`. -/
def mapCall (s : Line α) (i : Nat) (f : Call α → Call α) : Line α :=
  { s with calls := s.calls.modify i f }

/-- Call `i` comes to another place. -/
def moveCall (s : Line α) (i : Nat) (place : Place α) : Line α :=
  s.mapCall i fun c => { c with place }

/-- Worker `w` of pool `p` is now `worker`. -/
def setWorker (s : Line α) (p w : Nat) (worker : Worker (Parcel α)) : Line α :=
  s.mapPool p fun pool => pool.setWorker w worker

/-- A further line for the log, on pool `p`. -/
def note (s : Line α) (p : Nat) (n : Notice) : Line α :=
  { s with journal := s.journal ++ [(p, n)] }

/-- All workers of pool `p`, which is `pool`, are woken. It is history only: a worker that
rests may go on at any time, whether it is woken or not. -/
def wake (s : Line α) (p : Nat) (pool : Pool (Parcel α)) : Line α :=
  { s with wakings := s.wakings ++ [(p, List.range pool.workers.length)] }

/-- Whether pool `p` runs. -/
def isRunning (s : Line α) (p : Nat) : Bool := s.pools[p]?.any Pool.isRunning

/-- Whether the carrier has a running pool. -/
def isConsuming (s : Line α) : Bool := s.active.any s.isRunning

/-- The deliveries of all pools together. -/
def deliveries (s : Line α) : DeliveryTally :=
  s.pools.foldl (fun t p => t.add p.tally) {}

/-- All counters. -/
def snapshot (s : Line α) : Snapshot := .ofTallies s.offers s.deliveries

end Line

end Conveyor
