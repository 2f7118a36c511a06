/-
Conveyor.Session.Command — what can be asked of a session, and what is
answered.

Carriers, bare rows of channels, pools on such rows, views and signals
are each numbered from zero in the order in which they came.
-/
import Conveyor.Crew.Pool
import Conveyor.Payload
import Conveyor.Routing.Spec
import Conveyor.Session.Script

namespace Conveyor

/-- A carrier that is wanted. -/
structure CarrierOrder where
  name : String
  settings : Settings
  /-- What is different from the settings. -/
  changes : List Settings.Change
  registered : Bool
  router : RouterSpec

/-- A pool that is wanted, and the consumer that its workers have. -/
structure CrewOrder where
  workers : Nat
  shared : Bool
  cycle : Option Span
  script : HookScript

/-- What a session can be asked for. -/
inductive Command where
  | addCarrier (order : CarrierOrder)
  | describe (carrier : Nat)
  /-- An item is offered; `brief` asks for no more than whether it was taken. -/
  | produce (carrier : Nat) (item : Payload) (brief : Bool)
  /-- So many numbers are offered one after the other. -/
  | fill (carrier : Nat) (first : Int) (count : Nat)
  | setPolicy (carrier : Nat) (policy : WhenFull)
  | setRouter (carrier : Nat) (router : RouterSpec)
  | consume (carrier : Nat) (order : CrewOrder)
  | shutdown (carrier : Nat)
  | shutdownAndWait (carrier : Nat)
  | close (carrier : Nat)
  | drop (carrier : Nat)
  /-- The carrier makes writers wait from now on, and a view is made of it. -/
  | addView (carrier : Nat)
  | cloneView (view : Nat)
  | produceInView (view : Nat) (item : Payload) (brief : Bool)
  | drainView (view channel limit : Nat)
  | addRow (channels room : Nat) (policy : WhenFull) (router : RouterSpec)
  | save (row : Nat) (item : Payload) (brief : Bool)
  | drainRow (row channel limit : Nat)
  | setRowPolicy (row : Nat) (policy : WhenFull)
  | closeRow (row : Nat)
  | addPool (row : Nat) (name : String) (batch : Nat) (metered : Bool) (order : CrewOrder)
  | beginPool (pool : Nat)
  | closePool (pool : Nat)
  | dropPool (pool : Nat)
  | joinPool (pool : Nat)
  | describePool (pool : Nat)
  /-- Someone is admitted to a pool, and stays. -/
  | visit (pool : Nat)
  /-- The last one admitted leaves. -/
  | leavePool
  | keepSignal (pool : Nat)
  | find (name : String)
  | register (name : String) (signal : Nat)
  | unregister (name : String) (signal : Nat)
  | names
  | closeAll
  | describeSignal (signal : Nat)
  | closeSignal (signal : Nat)
  | sameSignal (signal other : Nat)
  /-- A worker that is stopped inside a hook goes on. -/
  | release (pool worker : Nat)
  /-- All stopped workers, or those of one pool, go on until none is left. -/
  | run (pool : Option Nat)
  /-- The hooks that a consumer need not have are called on one that has
  none of them. -/
  | callDefaultHooks

/-- How much of the end of a write is told. -/
inductive WriteForm where
  /-- Whether the item was taken. -/
  | brief
  /-- Whether it was taken, and if not, why not, with the item. -/
  | offered
  /-- As `offered`, and also whether it pushed another item out. -/
  | saved

/-- The state of a carrier in words and numbers. -/
structure CarrierInfo where
  name : String
  settings : Settings
  channels : Nat
  room : Nat
  policy : WhenFull
  size : Nat
  isEmpty : Bool
  isConsuming : Bool

/-- What a session answers. -/
inductive Reply where
  /-- Nothing to tell. -/
  | silent
  | ok
  | flag (b : Bool)
  | number (n : Nat)
  | policy (p : WhenFull)
  | items (items : List Payload)
  | fault (f : Fault)
  | settingsError (e : SettingsError)
  /-- A carrier does not get a pool for this reason. -/
  | setupError (e : SetupError)
  /-- The write waits; it has this number. -/
  | blocked (number : Nat)
  | wrote (form : WriteForm) (result : WriteResult Payload)
  /-- Of many items so many were taken and refused, and the last one ended
  otherwise. -/
  | filled (accepted refused : Nat) (stopped : Option Reply)
  | carrier (info : CarrierInfo)
  /-- A pool was built. -/
  | pool (name : String) (stage : Stage) (assignment : Assignment)
  /-- The stage of a pool, if its owner still has it, and of its signal. -/
  | stages (owned : Option Stage) (signal : Stage)
  | signal (name : String) (stage : Stage)
  | numbers (ns : List Nat)
  | names (names : List String)
  /-- Whether the caller still waited while a worker was stopped, and how
  many workers were let go. -/
  | waited (stillWaiting : Option Bool) (released : Nat)
  /-- The command names something that is not there. -/
  | unknown

/-- What a consumer notices of its own life. -/
inductive HookEvent where
  | started (thread : String) (consumer : Nat)
  | batch (items : List Payload)
  | failed (message : String) (isPanic : Bool) (items : List Payload)
  /-- It is over; the number of `consume` calls is known where only one
  worker has the consumer. -/
  | exited (calls : Option Nat)

/-- What a step of a session shows. -/
structure StepRecord where
  reply : Reply
  /-- What consumers noticed since the last step, by pool and worker. -/
  events : List (Nat × Nat × List HookEvent)
  /-- Writes that waited and are over now, by number. -/
  finished : List (Nat × Reply)
  /-- For each pool, a letter for each worker. -/
  stations : List String
  /-- For each carrier that was not dropped, its size, whether it has a
  running pool, and its counters if they are shown. -/
  carriers : List (Option (Nat × Bool × Option Snapshot))
  /-- For each bare row, the sizes of its channels. -/
  rows : List (List Nat)
  /-- For each pool on a bare row, its counters if they are shown. -/
  meters : List (Option Snapshot)

end Conveyor
