/-
Conveyor.Line.Work — the steps of a worker.

`Line.work` makes the next step of a worker, and is `none` where it has
none of its own: inside a hook, which ends when the consumer wants it to,
before a shared consumer that is busy, and at the end. A worker with
nothing to do goes round its empty channels for ever; `Line.isResting`
says when a worker is at a point where the next round would bring
nothing.
-/
import Conveyor.Line.State

namespace Conveyor.Line

variable {α : Type u}

/-- The worker's next stop after it has looked whether its pool runs. -/
def watch (pool : Pool α) (worker : Worker α) : Worker α :=
  worker.moveTo (if pool.isRunning then .sweeping .running worker.channels [] else .checking)

/-- The worker's next stop after it has looked whether writes are admitted. -/
def check (pool : Pool α) (worker : Worker α) : Worker α :=
  worker.moveTo <|
    if 0 < pool.admitted then .sweeping .lingering worker.channels []
    else .sweeping .final worker.channels []

/-- The worker's next stop after it has been to its last channel: it hands
over what it has, if it has anything. -/
def handOver (worker : Worker α) (round : Round) (batch : Batch α) : Worker α :=
  worker.moveTo (if batch.items.isEmpty then Worker.afterRound round
    else .door (.consume round batch))

/-- Worker `w` of pool `p` takes what it may from channel `c`. -/
def sweep (s : Line α) (p w : Nat) (pool : Pool (Parcel α)) (worker : Worker (Parcel α))
    (round : Round) (c : Nat) (rest : List Nat) (batch : Batch (Parcel α)) : Line α :=
  match s.store.lanes[c]? with
  | none => s.setWorker p w (worker.moveTo (.sweeping round rest batch))
  | some lane =>
    match lane.take (pool.limitOf round) with
    | .ok taken =>
      let s := { s with store := s.store.setLane c taken.lane }
      s.setWorker p w (worker.moveTo (.sweeping round rest (batch ++ [⟨c, taken.items⟩])))
    | .error fault => s.setWorker p w (worker.moveTo (.broken fault))

/-- Worker `w` of pool `p` counts the end of a `consume` call, and goes on
to the error hook or to the next round. -/
def settle (s : Line α) (p w : Nat) (worker : Worker (Parcel α)) (round : Round)
    (batch : Batch (Parcel α)) (e : Option ConsumeError) : Line α :=
  s.mapPool p fun pool =>
    match e with
    | none =>
      { pool.setWorker w (worker.moveTo (Worker.afterRound round)) with
        tally := pool.tally.succeed batch.items.length }
    | some e =>
      { pool.setWorker w (worker.moveTo (.door (.error round batch e))) with
        tally := pool.tally.fail }

/-- The next step of worker `w` of pool `p`, if it has one. -/
def work (s : Line α) (p w : Nat) : Option (Line α) :=
  match s.pools[p]? with
  | none => none
  | some pool =>
    match pool.workers[w]? with
    | none => none
    | some worker =>
      match worker.station with
      | .door hook => if pool.mayEnter then some (s.setWorker p w (worker.enter hook)) else none
      | .watching => some (s.setWorker p w (watch pool worker))
      | .checking => some (s.setWorker p w (check pool worker))
      | .sweeping round (c :: rest) batch => some (s.sweep p w pool worker round c rest batch)
      | .sweeping round [] batch => some (s.setWorker p w (handOver worker round batch))
      | .settling round batch e => some (s.settle p w worker round batch e)
      | .inside _ | .finished | .broken _ => none

/-- The hook that worker `w` of pool `p` is inside ends, in this way. -/
def endHook (s : Line α) (p w : Nat) (how : HookEnd) : Option (Line α) :=
  match s.pools[p]? with
  | none => none
  | some pool =>
    match pool.workers[w]? with
    | none => none
    | some worker =>
      match worker.station with
      | .inside hook => some (s.setWorker p w (worker.leave hook how))
      | _ => none

/-- Whether the channels of a worker hold nothing. -/
def channelsEmpty (s : Line α) (worker : Worker (Parcel α)) : Bool :=
  worker.channels.all fun c => s.store.lanes[c]?.all Lane.isEmpty

/-- Whether a worker has no reason to start another round now. -/
def isResting (s : Line α) (pool : Pool (Parcel α)) (worker : Worker (Parcel α)) : Bool :=
  match worker.station with
  | .watching => pool.isRunning && s.channelsEmpty worker
  | .checking => 0 < pool.admitted && s.channelsEmpty worker
  | _ => false

end Conveyor.Line
