/-
Conveyor.Lane.Monitor — one channel shared by any number of threads.

A thread writes, drains or closes. Whatever it does to the channel it
does in one hold of the lock; a drain that took something and a close
leave the lock first and wake the waiting writers after that, as a step
of its own. A writer that finds the channel full gives up the lock and
parks in one step. Waking makes a parked writer `ready` again, and a
ready writer looks at the channel from the start: another writer may
have been faster. A parked writer may also wake for no reason.

`Monitor.step` is one step of one thread. That a parked writer is never
forgotten is a statement about every state that these steps reach. For
such statements a monitor remembers what was written, in the order of the
writes, and what was evicted; nothing that it does depends on that.
-/
import Conveyor.Lane.Basic

namespace Conveyor

/-- Where a writer is. -/
inductive WriterState (α : Type u) where
  /-- It wants the lock, to look at the channel. -/
  | ready
  /-- It sleeps until it is woken. -/
  | parked
  /-- Its write is over. -/
  | ended (result : Checked (WriteResult α))

/-- Where a thread is that changes the channel and then wakes writers. -/
inductive WakerState where
  /-- It wants the lock. -/
  | ready
  /-- It has changed the channel, and has the writers still to wake. -/
  | owing
  /-- It is finished. -/
  | ended

/-- A thread at work on a channel. -/
inductive LaneThread (α : Type u) where
  | writer (item : α) (policy : WhenFull) (state : WriterState α)
  | drainer (limit : Nat) (taken : Checked (List α)) (state : WakerState)
  | closer (state : WakerState)

/-- A channel and the threads at work on it. -/
structure Monitor (α : Type u) where
  lane : Lane α
  threads : Array (LaneThread α) := #[]
  /-- Every item that has entered the channel, with the number of its writer. -/
  written : Array (Nat × α) := #[]
  /-- Every item that another one pushed out. -/
  evicted : Array α := #[]

namespace LaneThread

variable {α : Type u}

/-- A thread that is about to write. -/
def write (item : α) (policy : WhenFull) : LaneThread α := .writer item policy .ready

/-- A thread that is about to drain. -/
def drain (limit : Nat) : LaneThread α := .drainer limit (.ok []) .ready

/-- A thread that is about to close the channel. -/
def close : LaneThread α := .closer .ready

/-- The thread after everyone who waits was woken. -/
def wake : LaneThread α → LaneThread α
  | .writer item policy .parked => .writer item policy .ready
  | t => t

/-- What the thread's write came to, if it is a writer and finished. -/
def result? : LaneThread α → Option (Checked (WriteResult α))
  | .writer _ _ (.ended r) => some r
  | _ => none

/-- What the thread took out of the channel. -/
def taken : LaneThread α → Checked (List α)
  | .drainer _ taken _ => taken
  | _ => .ok []

end LaneThread

namespace Monitor

variable {α : Type u}

/-- A further thread arrives. -/
def spawn (m : Monitor α) (t : LaneThread α) : Monitor α :=
  { m with threads := m.threads.push t }

/-- Thread `i` is now `t`. -/
def setThread (m : Monitor α) (i : Nat) (t : LaneThread α) : Monitor α :=
  { m with threads := m.threads.setIfInBounds i t }

/-- Every parked writer is woken. -/
def wakeAll (m : Monitor α) : Monitor α :=
  { m with threads := m.threads.map LaneThread.wake }

/-- The next step of thread `i`, if it has one. A parked writer has none
until it is woken. -/
def step (m : Monitor α) (i : Nat) : Option (Monitor α) :=
  match m.threads[i]? with
  | some (.writer item policy .ready) =>
    match m.lane.attempt policy item with
    | .ok (.accepted how out lane) =>
      let written := m.written.push (i, item)
      let evicted := m.evicted ++ out.toArray
      some ({ m with lane, written, evicted }.setThread i
        (.writer item policy (.ended (.ok (.accepted how)))))
    | .ok (.refused why back) =>
      some (m.setThread i (.writer item policy (.ended (.ok (.refused why back)))))
    | .ok .mustWait => some (m.setThread i (.writer item policy .parked))
    | .error fault => some (m.setThread i (.writer item policy (.ended (.error fault))))
  | some (.drainer limit _ .ready) =>
    match m.lane.take limit with
    | .ok taken =>
      let after := if 0 < taken.moved then WakerState.owing else WakerState.ended
      some ({ m with lane := taken.lane }.setThread i (.drainer limit (.ok taken.items) after))
    | .error fault => some (m.setThread i (.drainer limit (.error fault) .ended))
  | some (.drainer limit taken .owing) =>
    some (m.wakeAll.setThread i (.drainer limit taken .ended))
  | some (.closer .ready) =>
    some ({ m with lane := m.lane.close }.setThread i (.closer .owing))
  | some (.closer .owing) => some (m.wakeAll.setThread i (.closer .ended))
  | _ => none

/-- Thread `i` wakes for no reason, if it is parked. -/
def stir (m : Monitor α) (i : Nat) : Option (Monitor α) :=
  match m.threads[i]? with
  | some (.writer item policy .parked) => some (m.setThread i (.writer item policy .ready))
  | _ => none

/-- What can happen to a shared channel. -/
inductive Step : Monitor α → Monitor α → Prop
  | spawn (m : Monitor α) (item : α) (policy : WhenFull) : Step m (m.spawn (.write item policy))
  | spawnDrain (m : Monitor α) (limit : Nat) : Step m (m.spawn (.drain limit))
  | spawnClose (m : Monitor α) : Step m (m.spawn .close)
  | step {m m' : Monitor α} (i : Nat) : m.step i = some m' → Step m m'
  | stir {m m' : Monitor α} (i : Nat) : m.stir i = some m' → Step m m'

/-- The states that a channel with room for `capacity` items gets into. -/
inductive Reachable (capacity : Nat) : Monitor α → Prop
  | start {lane : Lane α} : Lane.ofCapacity capacity = .ok lane → Reachable capacity { lane }
  | step {m m' : Monitor α} : Reachable capacity m → Step m m' → Reachable capacity m'

/-! ## Running threads one after the other -/

/-- The index of the first thread from `i` on that has a step to make. -/
def findReady (m : Monitor α) : Option Nat :=
  m.threads.findIdx? fun
    | .writer _ _ .ready | .drainer _ _ .ready | .drainer _ _ .owing => true
    | .closer .ready | .closer .owing => true
    | _ => false

/-- Lets thread `i` go on until it ends or parks: two steps are enough. -/
def advance (m : Monitor α) (i : Nat) : Monitor α :=
  match m.step i with
  | none => m
  | some m' => (m'.step i).getD m'

/-- Lets threads go on, the one that came first before the others, until
each has ended or is parked. A thread that goes on ends or parks within
two steps, and each end wakes no more threads than there are. -/
def settle (m : Monitor α) : Nat → Monitor α
  | 0 => m
  | rounds + 1 =>
    match m.findReady with
    | none => m
    | some i => (m.advance i).settle rounds

/-- A thread arrives at a channel that is at rest, and the channel comes to
rest again. A writer wakes nobody, so nobody goes on after it. -/
def run (m : Monitor α) (t : LaneThread α) : Monitor α :=
  let m := (m.spawn t).advance m.threads.size
  match t with
  | .writer .. => m
  | _ => m.settle (m.threads.size * (m.threads.size + 1))

end Monitor

end Conveyor
