/-
Conveyor.Crew.Worker — one worker of a pool: what it is doing, and what
it has done.

A worker goes round its channels, hands over what it found, and starts
again. It makes rounds of three kinds. While its pool runs, and while
writes are still admitted to the closed pool, it takes at most the batch
limit from each channel; after that it makes one final round without a
limit. It calls four hooks of its consumer: `start` first, `exit` last,
and for each batch `consume`, followed by `error` if that failed.

A hook takes time, and the worker may have to wait for it, so each call
has three moments: the worker is at the `door`, it is `inside`, and it is
out again. The diary notes the last two.
-/
import Conveyor.Consumer
import Conveyor.Fault

namespace Conveyor

/-- Why a worker goes round its channels. -/
inductive Round where
  /-- It has seen its pool running. -/
  | running
  /-- It has seen its pool closed and writes still admitted to it. -/
  | lingering
  /-- It has seen its pool closed and no write admitted to it. -/
  | final
  deriving DecidableEq, Repr

/-- What a worker took from one channel. -/
structure Haul (α : Type u) where
  channel : Nat
  items : List α
  deriving DecidableEq

/-- What a worker took on one round, channel by channel. -/
abbrev Batch (α : Type u) := List (Haul α)

/-- The items of a batch in the order in which they are handed over. -/
def Batch.items {α : Type u} (b : Batch α) : List α := b.flatMap Haul.items

/-- A call of a hook. -/
inductive Hook (α : Type u) where
  | start
  | consume (round : Round) (batch : Batch α)
  | error (round : Round) (batch : Batch α) (e : ConsumeError)
  | exit
  deriving DecidableEq

/-- Where a worker stands. -/
inductive Station (α : Type u) where
  /-- It is about to call a hook. -/
  | door (hook : Hook α)
  /-- The hook has been entered and is not over. -/
  | inside (hook : Hook α)
  /-- It is about to look whether its pool runs. -/
  | watching
  /-- Its pool is closed; it is about to look whether writes are admitted. -/
  | checking
  /-- It is on a round, with the channels of `todo` still ahead. -/
  | sweeping (round : Round) (todo : List Nat) (batch : Batch α)
  /-- `consume` is over, and has not been counted yet. -/
  | settling (round : Round) (batch : Batch α) (e : Option ConsumeError)
  /-- It is done. -/
  | finished
  /-- It met a fault, and does nothing more. -/
  | broken (fault : Fault)
  deriving DecidableEq

/-- An entry of the diary. -/
inductive Deed (α : Type u) where
  | entered (hook : Hook α)
  | left (hook : Hook α) (how : HookEnd)

/-- A worker. -/
structure Worker (α : Type u) where
  /-- The channels it reads, in order. -/
  channels : List Nat
  station : Station α
  /-- What happened to its hooks, oldest first. -/
  diary : List (Deed α)

namespace Worker

variable {α : Type u}

/-- A worker before its first step. -/
def ofChannels (channels : List Nat) : Worker α where
  channels
  station := .door .start
  diary := []

/-- The worker at another place. -/
def moveTo (w : Worker α) (station : Station α) : Worker α := { w with station }

/-- The worker inside a hook. -/
def enter (w : Worker α) (hook : Hook α) : Worker α :=
  { w with station := .inside hook, diary := w.diary ++ [.entered hook] }

/-- Where a worker goes after a round. -/
def afterRound : Round → Station α
  | .running => .watching
  | .lingering => .checking
  | .final => .door .exit

/-- Where a worker goes when a hook has ended so. -/
def afterHook : Hook α → HookEnd → Station α
  | .start, _ => .watching
  | .consume round batch, how => .settling round batch how.consumeError?
  | .error round _ _, _ => afterRound round
  | .exit, _ => .finished

/-- The worker when the hook it is inside has ended. -/
def leave (w : Worker α) (hook : Hook α) (how : HookEnd) : Worker α :=
  { w with station := afterHook hook how, diary := w.diary ++ [.left hook how] }

/-- Whether the worker is inside a hook. -/
def isInside (w : Worker α) : Bool :=
  match w.station with
  | .inside _ => true
  | _ => false

/-- Whether the worker is done. -/
def isFinished (w : Worker α) : Bool :=
  match w.station with
  | .finished => true
  | _ => false

/-- The batches handed over so far, each with the kind of round it was
taken on. -/
def deliveries (w : Worker α) : List (Round × Batch α) :=
  w.diary.filterMap fun
    | .entered (.consume round batch) => some (round, batch)
    | _ => none

/-- How often `consume` was called. -/
def consumeCalls (w : Worker α) : Nat := w.deliveries.length

end Worker

end Conveyor
