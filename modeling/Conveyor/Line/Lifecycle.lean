/-
Conveyor.Line.Lifecycle — how pools and channels are opened and closed.

An exchange of pools is three steps: the new pool begins, new calls are
sent to it, and only then the old one is closed; so whoever looks up the
active pool finds one that has begun. Closing a pool is one step that
everyone may make, and only the first time it changes anything, and wakes
the workers. The channels are closed one by one.
-/
import Conveyor.Line.State

namespace Conveyor.Line

variable {α : Type u}

/-- A further pool, not begun; its number is the old number of pools. -/
def build (s : Line α) (plan : PoolPlan) : Except BuildError (Line α) := do
  let pool ← Pool.ofPlan plan s.store.count
  return { s with pools := s.pools ++ [pool] }

/-- Pool `p` begins, unless it has already, or is closed. -/
def begin (s : Line α) (p : Nat) : Line α :=
  match s.pools[p]? with
  | some pool =>
    if pool.stage = .created then
      (s.mapPool p Pool.begin).note p
        (.poolStarted pool.plan.name pool.size s.store.count pool.plan.cycle)
    else s
  | none => s

/-- Pool `p` is closed, unless it is already, and its workers are woken. -/
def closePool (s : Line α) (p : Nat) : Line α :=
  match s.pools[p]? with
  | some pool =>
    if pool.stage = .closed then s
    else ((s.mapPool p Pool.close).note p (.poolClosing pool.plan.name)).wake p pool
  | none => s

/-- A new pool is built and begins, as the first step of an exchange; the
line stays as it is if the plan is no good. -/
def install (s : Line α) (plan : PoolPlan) : Except BuildError (Line α) := do
  let s' ← s.build plan
  return { s'.begin s.pools.length with exchange := .begun s.pools.length }

/-- New calls are sent to the pool that has just begun. -/
def publish (s : Line α) : Option (Line α) :=
  match s.exchange with
  | .begun p => some { s with active := some p, exchange := .published p }
  | _ => none

/-- The old pool, if there is one, is closed, and the carrier owns the new
one. -/
def retire (s : Line α) : Option (Line α) :=
  match s.exchange with
  | .published p =>
    let s' := { s with installed := some p, exchange := .idle }
    match s.installed, s.pools[p]? with
    | some old, some pool =>
      let s'' := s'.closePool old
      some (s''.note p (.poolReplaced pool.plan.name pool.size))
    | some old, none => some (s'.closePool old)
    | none, _ => some s'
  | _ => none

/-- The pool that the carrier owns is closed, if it owns one. -/
def shutdown (s : Line α) : Line α := s.installed.elim s s.closePool

/-- A thread comes to close the channels. -/
def startClosing (s : Line α) : Line α := { s with closers := s.closers ++ [0] }

/-- Closing thread `k` closes its next channel, if one is left. -/
def closeNext (s : Line α) (k : Nat) : Option (Line α) :=
  match s.closers[k]? with
  | none => none
  | some c =>
    match s.store.lanes[c]? with
    | none => none
    | some lane =>
      some { s with
        store := s.store.setLane c lane.close
        closers := s.closers.set k (c + 1) }

/-- A reader that is no worker takes up to `limit` items from channel `c`. -/
def drain (s : Line α) (c limit : Nat) : Option (List (Parcel α) × Line α) :=
  match s.store.lanes[c]? with
  | none => none
  | some lane =>
    match lane.take limit with
    | .ok taken =>
      some (taken.items,
        { s with
          store := s.store.setLane c taken.lane
          viewed := s.viewed ++ taken.items.map fun parcel => (c, parcel) })
    | .error _ => none

/-- Someone takes hold of the shared consumer of pool `p`, or lets go. -/
def setHeld (s : Line α) (p : Nat) (held : Bool) : Line α :=
  s.mapPool p fun pool => { pool with held }

/-- The policy for channels that are full. -/
def setPolicy (s : Line α) (policy : WhenFull) : Line α :=
  { s with store := { s.store with policy } }

/-- The router for the calls to come. -/
def setRouter (s : Line α) (router : Router (Parcel α)) : Line α :=
  { s with store := { s.store with router } }

end Conveyor.Line
