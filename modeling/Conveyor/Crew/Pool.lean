/-
Conveyor.Crew.Pool — a pool of workers: how far it has come, who is
admitted to it, and its workers.

A pool is created, runs once, and is closed for good. A producer that
wants its write to be seen by the pool counts itself as admitted first
and looks at the stage second, and takes its count back when the stage is
not what it hoped for; a worker that has seen the pool closed looks at
the count before its final round. Between the two, no write falls.
-/
import Conveyor.Crew.Assignment
import Conveyor.Crew.Notice
import Conveyor.Crew.Worker
import Conveyor.Lane.Basic
import Conveyor.Tally

namespace Conveyor

/-- How far a pool has come. -/
inductive Stage where
  | created
  | running
  | closed
  deriving DecidableEq, Repr

/-- The name of a stage. -/
def Stage.label : Stage → String
  | created => "Created"
  | running => "Running"
  | closed => "Closed"

/-- What a pool is built from. -/
structure PoolPlan where
  /-- The name of the carrier that the pool serves. -/
  name : String
  workers : Nat
  /-- How many items a worker takes from a channel on a round. -/
  limit : Nat
  /-- Whether all workers call one consumer, one at a time. -/
  shared : Bool
  /-- How long an idle worker rests. -/
  cycle : Span
  deriving DecidableEq, Repr

/-- The name of the thread of worker `index`. -/
def PoolPlan.threadName (plan : PoolPlan) (index : Nat) : String :=
  s!"DataCarrier.{plan.name}.Consumer.{index}.Thread"

/-- A pool. -/
structure Pool (α : Type u) where
  plan : PoolPlan
  assignment : Assignment
  stage : Stage := .created
  /-- How many producers are counted as admitted. -/
  admitted : Nat := 0
  /-- The workers; none before the pool has begun. -/
  workers : List (Worker α) := []
  tally : DeliveryTally := {}
  /-- Whether someone outside the pool keeps a shared consumer busy. -/
  held : Bool := false

/-- Why a pool was not built. -/
inductive BuildError where
  | settings (e : SettingsError)
  | fault (f : Fault)
  deriving DecidableEq, Repr

namespace Pool

variable {α : Type u}

/-- A pool over `channels` channels, not begun. -/
def ofPlan (plan : PoolPlan) (channels : Nat) : Except BuildError (Pool α) :=
  if plan.workers = 0 then .error (.settings .noWorkers)
  else if plan.limit = 0 then .error (.settings .noBatch)
  else
    let assignment := Assignment.deal plan.workers channels
    match assignment.check channels with
    | .ok () => .ok { plan, assignment }
    | .error f => .error (.fault f)

/-- Whether the pool runs. -/
def isRunning (p : Pool α) : Bool := p.stage = .running

/-- The number of workers that the pool has or will have. -/
def size (p : Pool α) : Nat := p.assignment.length

/-- Starts all workers, if the pool has not been started or closed. -/
def begin (p : Pool α) : Pool α :=
  if p.stage = .created then
    { p with stage := .running, workers := p.assignment.map Worker.ofChannels }
  else p

/-- Closes the pool for good. -/
def close (p : Pool α) : Pool α := { p with stage := .closed }

/-- One more producer is counted as admitted. -/
def enroll (p : Pool α) : Pool α := { p with admitted := p.admitted + 1 }

/-- One producer fewer is counted as admitted. -/
def unenroll (p : Pool α) : Pool α := { p with admitted := p.admitted - 1 }

/-- Whether a worker may enter a hook: a shared consumer is there for one
worker at a time. -/
def mayEnter (p : Pool α) : Bool :=
  !p.plan.shared || (!p.held && p.workers.all fun w => !w.isInside)

/-- How many items a worker takes from a channel on such a round. -/
def limitOf (p : Pool α) : Round → Nat
  | .running | .lingering => p.plan.limit
  | .final => noLimit

/-- The pool with another worker `w`. -/
def setWorker (p : Pool α) (w : Nat) (worker : Worker α) : Pool α :=
  { p with workers := p.workers.set w worker }

/-- Whether every worker that the pool was started with is done. -/
def isFinished (p : Pool α) : Bool := p.workers.all Worker.isFinished

/-- What the diary of worker `index` says that is worth a log line. -/
def noticesOf (p : Pool α) (index : Nat) (w : Worker α) : List Notice :=
  (.started w.channels :: w.diary.flatMap ofDeed).map (.worker p.plan.name index)
where
  /-- The line for a hook that panicked. -/
  ofPanic (hook : String) (how : HookEnd) : List WorkerNotice :=
    (how.panic?.map fun e => .hookPanic hook e.message).toList
  /-- The lines for one entry. -/
  ofDeed : Deed α → List WorkerNotice
    | .entered _ => []
    | .left .start how => ofPanic "on_start" how
    | .left (.consume _ batch) how =>
      (how.consumeError?.map fun e =>
        .consumeError batch.items.length e.isPanic e.message).toList
    | .left (.error ..) how => ofPanic "on_error" how
    | .left .exit how => ofPanic "on_exit" how ++ [.exited]

end Pool

end Conveyor
