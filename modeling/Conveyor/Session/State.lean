/-
Conveyor.Session.State — a session: a hub whose workers stop inside
their hooks until they are let go.

A worker stops inside `start` and inside `consume`; the other hooks end
at once. Workers that share a consumer are different: somebody holds
their consumer until they are let go, and from then on they run free.
Between two commands everyone else goes on until nobody can.
-/
import Conveyor.Hub.Basic
import Conveyor.Session.Command

namespace Conveyor

/-- A write that waits. -/
structure Waiter where
  number : Nat
  line : Nat
  call : Nat
  form : WriteForm

/-- A pool on a bare row of channels. -/
structure OwnPool where
  /-- Its number among all pools. -/
  number : Nat
  metered : Bool
  dropped : Bool := false

/-- A session. -/
structure Session where
  hub : Hub Payload := {}
  /-- The script of each pool. -/
  scripts : List HookScript := []
  /-- The line of each view. -/
  views : List Nat := []
  /-- The line of each bare row. -/
  rows : List Nat := []
  ownPools : List OwnPool := []
  /-- The pool of each signal that was kept. -/
  signals : List Nat := []
  /-- The line and call of everyone who stays in a pool, the last first. -/
  visits : List (Nat × Nat) := []
  waiters : List Waiter := []
  /-- How many writes have waited. -/
  blocked : Nat := 0
  /-- How much of the diary of each worker was shown, by pool. -/
  shown : List (List Nat) := []

namespace Session

/-! ## Who stops where -/

/-- Whether the workers of a pool stop inside their hooks. -/
def stops {α : Type u} (pool : Pool α) : Bool := !(pool.plan.shared && pool.plan.workers > 1)

/-- The number of `consume` calls of the consumer that worker `w` has. -/
def callsOf {α : Type u} (pool : Pool α) (worker : Worker α) : Nat :=
  if pool.plan.shared then (pool.workers.map Worker.consumeCalls).foldr (· + ·) 0 else worker.consumeCalls

/-- How the hook that worker `w` of pool `p` is inside ends when it does. -/
def scriptedEnd (s : Session) (line : Nat) (l : Line Payload) (p w : Nat)
    (hook : Hook (Parcel Payload)) : Option HookEnd := do
  let number ← s.hub.numberOf? ⟨line, p⟩
  let script ← s.scripts[number]?
  let pool ← l.pools[p]?
  let worker ← pool.workers[w]?
  return script.reply (callsOf pool worker - 1) hook

/-- The consumers of a line between two commands. -/
def cast (s : Session) (line : Nat) : Cast Payload := fun l p w hook =>
  match hook, l.pools[p]?.any stops with
  | .start, true | .consume .., true => none
  | _, _ => s.scriptedEnd line l p w hook

/-- The session when nobody can go on. -/
def settle (s : Session) : Session :=
  let indices := List.range s.hub.lines.length
  { s with hub := indices.foldl (fun h i => h.mapLine i (·.rest (s.cast i))) s.hub }

/-- The session with `f` done to line `i`. -/
def mapLine (s : Session) (i : Nat) (f : Line Payload → Line Payload) : Session :=
  { s with hub := s.hub.mapLine i f }

/-! ## Letting workers go -/

/-- The letter for a worker. -/
def letter {α : Type u} (pool : Pool α) (worker : Worker α) : Char :=
  match worker.station with
  | .finished => 'X'
  | .inside .start => 'S'
  | .inside (.consume ..) => 'B'
  | .door .start => if pool.held then 'L' else 'R'
  | _ => 'R'

/-- The letters for the workers of a pool. -/
def letters {α : Type u} (pool : Pool α) : List Char :=
  if pool.workers.isEmpty then List.replicate pool.size '-'
  else pool.workers.map (letter pool)

/-- Whether a worker is stopped. -/
def isStopped {α : Type u} (pool : Pool α) (worker : Worker α) : Bool :=
  stops pool && (letter pool worker = 'S' || letter pool worker = 'B')

/-- Worker `w` of pool number `n` goes on, if it is stopped. -/
def release (s : Session) (n w : Nat) : Option Session := do
  let place ← s.hub.pools[n]?
  let l ← s.hub.lines[place.line]?
  let pool ← l.pools[place.index]?
  let worker ← pool.workers[w]?
  match worker.station with
  | .inside hook =>
    if isStopped pool worker then
      let how ← s.scriptedEnd place.line l place.index w hook
      let l ← l.endHook place.index w how
      return (s.mapLine place.line fun _ => l).settle
    else none
  | _ => none

/-- The first stopped worker of the pools in `numbers`. -/
def firstStopped (s : Session) (numbers : List Nat) : Option (Nat × Nat) :=
  numbers.findSome? fun n => do
    let pool ← s.hub.pool? n
    let w ← pool.workers.findIdx? (isStopped pool)
    return (n, w)

/-- Lets the first stopped worker go, up to `bound` times; the number of
times it was done. -/
def releaseAll (s : Session) (numbers : List Nat) : Nat → Nat × Session
  | 0 => (0, s)
  | bound + 1 =>
    match s.firstStopped numbers with
    | none => (0, s)
    | some (n, w) =>
      match s.release n w with
      | none => (0, s)
      | some s' =>
        let (count, s'') := s'.releaseAll numbers bound
        (count + 1, s'')

/-- How often a worker can be let go at most before none is stopped: each time is a turn, and
the hub has no more of them. -/
def releaseBound (s : Session) : Nat := s.hub.turnBound

/-- Nobody holds the consumer of pool number `n` any more, if the pool has
begun. -/
def unlock (s : Session) (n : Nat) : Session :=
  match s.hub.pools[n]?, s.hub.pool? n with
  | some place, some pool =>
    if pool.held && !pool.workers.isEmpty then
      s.mapLine place.line (·.setHeld place.index false)
    else s
  | _, _ => s

/-- All workers of the pools in `numbers` go on until none is stopped. -/
def run (s : Session) (numbers : List Nat) : Nat × Session :=
  let s := (numbers.foldl unlock s).settle
  s.releaseAll numbers s.releaseBound

end Session

end Conveyor
