/-
Conveyor.Line.Schedule — one run of a line among the many: calls before
workers, the first before the others, until nobody has anything to do.

The consumers of the workers are played by a `Cast`: it says how the hook
that a worker is inside ends, or that it does not end yet. Each turn is
an action of `Line.step`, so a line that was reached stays so.

The turns are bounded by `Line.turnBound`, which each of them lowers. A
call has so many steps left, and a worker so many until it is back where
it rests, and none of them adds to these; but a worker sets out on another
round when it sees an item, and so may several at once, of which one finds
it. Therefore an item that a channel holds, or that a call may write yet,
counts for a round of every worker. That the bound is enough is shown in
`Conveyor.Proofs.Rest`.
-/
import Conveyor.Line.Step

namespace Conveyor

/-- How hooks end: for pool `p` and worker `w` inside a hook. -/
abbrev Cast (α : Type u) := Line α → (p w : Nat) → Hook (Parcel α) → Option HookEnd

/-! ## What is left to do -/

/-- How many steps a call at this place has left at most. -/
def Place.rank {α : Type u} : Place α → Nat
  | .begun => 9
  | .found _ => 8
  | .counted _ => 7
  | .cleared => 6
  | .informed _ => 5
  | .routed .. => 4
  | .waiting _ | .turnedAway _ => 3
  | .settled _ => 2
  | .leaving _ => 1
  | .staying | .over _ => 0

/-- How many turns are left at the end of a round of this kind besides those of the final
round: two for `exit`, and one for a worker that has yet to see its pool closed. -/
def Round.lastTurns : Round → Nat
  | .running => 3
  | .lingering | .final => 2

namespace Worker

variable {α : Type u}

/-- How many turns a round of the worker takes at most: the look before it, one for each
channel, the handing over, two for each of `consume` and `error`, and the count in between. -/
def roundLength (w : Worker α) : Nat := w.channels.length + 7

/-- How many turns are left at the end of a round of this kind, if there is nothing to find
any more. Only the final round is followed by no other. -/
def turnsAfter (w : Worker α) (round : Round) : Nat :=
  round.lastTurns + if round = .final then 0 else w.roundLength

/-- How many turns are left when a hook is over. -/
def turnsAfterHook (w : Worker α) : Hook α → Nat
  | .start => w.turnsAfter .running
  | .consume round _ => w.turnsAfter round + 3
  | .error round .. => w.turnsAfter round
  | .exit => 0

/-- How many turns a worker has left, as far as they are not counted with the items; `empty`
says of some channels whether they hold nothing. As long as there is something ahead of it,
the worker is bound to take an item, and this item counts for its next round. -/
def turnsLeft (w : Worker α) (empty : List Nat → Bool) : Nat :=
  match w.station with
  | .door hook => w.turnsAfterHook hook + 2
  | .inside hook => w.turnsAfterHook hook + 1
  | .watching => w.turnsAfter .running
  | .checking => w.turnsAfter .lingering
  | .sweeping round todo _ =>
    todo.length + 6 + if empty todo then w.turnsAfter round else round.lastTurns
  | .settling round .. => w.turnsAfter round + 3
  | .finished | .broken _ => 0

end Worker

namespace Line

variable {α : Type u}

/-- How many steps the calls have left at most, all together. -/
def stepsLeft (s : Line α) : Nat := (s.calls.map fun c => c.place.rank).foldr (· + ·) 0

/-- What `f` comes to for all workers together. -/
def overWorkers (s : Line α) (f : Worker (Parcel α) → Nat) : Nat :=
  (s.pools.map fun pool => (pool.workers.map f).foldr (· + ·) 0).foldr (· + ·) 0

/-- Whether these channels hold nothing. -/
def areEmpty (s : Line α) (channels : List Nat) : Bool :=
  channels.all fun c => s.store.lanes[c]?.all Lane.isEmpty

/-- How many turns there may be before nobody has one. -/
def turnBound (s : Line α) : Nat :=
  let price := s.overWorkers Worker.roundLength
  (price + 1) * s.stepsLeft + price * s.store.size + s.overWorkers fun w => w.turnsLeft s.areEmpty

/-! ## The turns -/

/-- The next turn of the first call that has one. -/
def turnOfCalls (s : Line α) : Option (Line α) :=
  s.calls.zipIdx.findSome? fun (call, i) => if call.isOver then none else s.advance i

/-- The next turn of worker `w` of pool `p`, unless it rests. -/
def turnOfWorker (s : Line α) (cast : Cast α) (p w : Nat) (pool : Pool (Parcel α))
    (worker : Worker (Parcel α)) : Option (Line α) :=
  match worker.station with
  | .inside hook => (cast s p w hook).bind (s.endHook p w)
  | _ => if s.isResting pool worker then none else s.work p w

/-- The next turn of the first worker that has one. -/
def turnOfWorkers (s : Line α) (cast : Cast α) : Option (Line α) :=
  s.pools.zipIdx.findSome? fun (pool, p) =>
    pool.workers.zipIdx.findSome? fun (worker, w) => s.turnOfWorker cast p w pool worker

/-- The next turn. -/
def turn (s : Line α) (cast : Cast α) : Option (Line α) :=
  s.turnOfCalls <|> s.turnOfWorkers cast

/-- The line after `n` turns, or as soon as nobody has one. -/
def turns (s : Line α) (cast : Cast α) : Nat → Line α
  | 0 => s
  | n + 1 =>
    match s.turn cast with
    | none => s
    | some s' => s'.turns cast n

/-- The line when nobody has anything to do. -/
def rest (s : Line α) (cast : Cast α) : Line α := s.turns cast s.turnBound

/-- Call `i` goes on until it is over or has to wait. No call has more than nine steps
(`Place.rank`); that these are enough is shown in `Conveyor.Proofs.Alone`. -/
def run (s : Line α) (i : Nat) : Line α := go s 10
where
  /-- Up to `n` steps. -/
  go (s : Line α) : Nat → Line α
    | 0 => s
    | n + 1 => ((s.advance i).map (go · n)).getD s

/-- Closing thread `k` closes every channel that it has left. -/
def runCloser (s : Line α) (k : Nat) : Nat → Line α
  | 0 => s
  | n + 1 => ((s.closeNext k).map (runCloser · k n)).getD s

/-- A thread closes every channel, with nobody in between. -/
def closeAll (s : Line α) : Line α := s.startClosing.runCloser s.closers.length s.store.count

end Line

end Conveyor
