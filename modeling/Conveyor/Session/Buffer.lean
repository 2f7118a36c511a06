/-
Conveyor.Session.Buffer — commands for one channel on its own.

Every command is a thread of a `Monitor`. A write that has to wait stays
behind as a parked thread under the number of its command, and shows its
end when a later command has woken it.
-/
import Conveyor.Lane.Monitor
import Conveyor.Payload

namespace Conveyor

/-- What a channel can be asked for. -/
inductive BufferCommand where
  /-- An item is written; `brief` asks for no more than whether it was taken. -/
  | write (item : Payload) (policy : WhenFull) (brief : Bool)
  /-- So many numbers are written one after the other. -/
  | fill (first : Int) (count : Nat) (policy : WhenFull)
  | drain (limit : Nat)
  /-- Items are taken and put behind those taken in this way before. -/
  | collect (limit : Nat)
  | close
  | isEmpty
  | capacity

/-- What a channel answers. -/
inductive BufferReply where
  | silent
  | flag (b : Bool)
  | number (n : Nat)
  | items (items : List Payload)
  /-- So many items were taken, and these are all that were collected. -/
  | collected (moved : Nat) (items : List Payload)
  | wrote (brief : Bool) (result : WriteResult Payload)
  | blocked
  | filled (stored evicted refused : Nat)
  | fault (f : Fault)

/-- What a step shows. -/
structure BufferRecord where
  reply : BufferReply
  size : Nat
  closed : Bool
  /-- Writes that waited and are over now, by the number of their command. -/
  finished : List (Nat × WriteResult Payload)

/-- A channel, the items collected from it, and the writes that wait, each
with the number of its command and of its thread. -/
structure BufferSession where
  monitor : Monitor Payload
  collected : List Payload := []
  waiters : List (Nat × Nat) := []
  steps : Nat := 0

namespace BufferSession

/-- A session with an empty channel. -/
def ofCapacity (capacity : Nat) : Checked BufferSession := do
  return { monitor := { lane := ← Lane.ofCapacity capacity } }

/-- A thread arrives and does what it can; its number is the old number of
threads. -/
def run (s : BufferSession) (t : LaneThread Payload) : BufferSession :=
  { s with monitor := s.monitor.run t }

/-- Writes `count` numbers from `first` on, and counts how they end. -/
def fill (s : BufferSession) (first : Int) (policy : WhenFull) (stored evicted refused : Nat) :
    Nat → BufferReply × BufferSession
  | 0 => (.filled stored evicted refused, s)
  | count + 1 =>
    let i := s.monitor.threads.size
    let s := s.run (.write (.number first) policy)
    let next := first + 1
    match s.monitor.threads[i]?.bind LaneThread.result? with
    | some (.ok (.accepted .stored)) => s.fill next policy (stored + 1) evicted refused count
    | some (.ok (.accepted .evicted)) => s.fill next policy stored (evicted + 1) refused count
    | some (.ok (.refused ..)) => s.fill next policy stored evicted (refused + 1) count
    | some (.error f) => (.fault f, s)
    | none => (.blocked, s)

/-- Takes items out. -/
def take (s : BufferSession) (limit : Nat) : Checked (List Payload) × BufferSession :=
  let i := s.monitor.threads.size
  let s := s.run (.drain limit)
  (s.monitor.threads[i]?.elim (.ok []) LaneThread.taken, s)

/-- Carries a command out. -/
def perform (s : BufferSession) : BufferCommand → BufferReply × BufferSession
  | .write item policy brief =>
    let i := s.monitor.threads.size
    let s := s.run (.write item policy)
    match s.monitor.threads[i]?.bind LaneThread.result? with
    | some (.ok result) => (.wrote brief result, s)
    | some (.error f) => (.fault f, s)
    | none => (.blocked, { s with waiters := s.waiters ++ [(s.steps, i)] })
  | .fill first count policy => s.fill first policy 0 0 0 count
  | .drain limit =>
    match s.take limit with
    | (.ok items, s) => (.items items, s)
    | (.error f, s) => (.fault f, s)
  | .collect limit =>
    match s.take limit with
    | (.ok items, s) =>
      let collected := s.collected ++ items
      (.collected items.length collected, { s with collected })
    | (.error f, s) => (.fault f, s)
  | .close => (.silent, s.run .close)
  | .isEmpty => (.flag s.monitor.lane.isEmpty, s)
  | .capacity => (.number s.monitor.lane.capacity, s)

/-- How the write of thread `i` ended, if it has. -/
def ended? (s : BufferSession) (i : Nat) : Option (WriteResult Payload) :=
  match s.monitor.threads[i]?.bind LaneThread.result? with
  | some (.ok result) => some result
  | _ => none

/-- Carries a command out and shows what there is to see. -/
def play (s : BufferSession) (c : BufferCommand) : BufferRecord × BufferSession :=
  let (reply, s) := s.perform c
  let finished := s.waiters.filterMap fun (step, i) => (s.ended? i).map fun e => (step, e)
  let waiters := s.waiters.filter fun (_, i) => (s.ended? i).isNone
  let lane := s.monitor.lane
  ({ reply, size := lane.size, closed := lane.closed, finished },
    { s with waiters, steps := s.steps + 1 })

end BufferSession

end Conveyor
