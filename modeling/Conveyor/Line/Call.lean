/-
Conveyor.Line.Call — the steps of a call, from the offer to the answer.

A call for the carrier looks up the active pool, is admitted to it, asks
for the policy and the channel, writes, is counted and gives up its
admission, each as a step of its own, so that anything may happen in
between. It does not go further than the second step if the pool it
found has been closed. A call that came before the first pool is not
admitted to any; it writes all the same.

`Line.advance` makes the next step of a call, and is `none` where a call
has none: when it is over, when it waits and its channel is still full,
and when it stays in a pool.
-/
import Conveyor.Line.State

namespace Conveyor.Line

variable {α : Type u}

/-- Whether there is what an errand is for: a visitor needs a pool. -/
def isPossible (s : Line α) : Errand α → Bool
  | .visit p => p < s.pools.length
  | _ => true

/-- A call begins. Its producer must have no other call open. -/
def offer (s : Line α) (producer : Nat) (errand : Errand α) : Option (Line α) :=
  if s.isPossible errand && s.calls.all fun c => c.producer ≠ producer || c.isOver then
    some { s with calls := s.calls ++ [{ producer, errand, place := .begun }] }
  else none

/-- Call `i` looks at channel `c`, to write `item` to it. A writer that may
wait, and finds no room, is left waiting. -/
def write (s : Line α) (i c : Nat) (policy : WhenFull) (item : α) : Line α :=
  match s.store.lanes[c]? with
  | none => s.moveCall i (.leaving (.faulted (.indexOutOfRange c s.store.count)))
  | some lane =>
    match lane.attempt policy ⟨i, item⟩ with
    | .ok (.accepted how out lane) =>
      { s.moveCall i (.settled (.accepted how)) with
        store := s.store.setLane c lane
        written := s.written ++ [(c, ⟨i, item⟩)]
        evicted := s.evicted ++ (out.map fun parcel => (c, parcel)).toList }
    | .ok (.refused why parcel) => s.moveCall i (.settled (.refused why parcel.item))
    | .ok .mustWait => s.moveCall i (.waiting c)
    | .error fault => s.moveCall i (.leaving (.faulted fault))

/-- Call `i` asks for a channel for `item`. The router's turn is over
whatever it answers. -/
def route (s : Line α) (i : Nat) (policy : WhenFull) (item : α) : Line α :=
  let (target, store) := s.store.route ⟨i, item⟩
  let s := { s with store }
  match target with
  | .ok c =>
    { s.moveCall i (.routed c policy) with routed := s.routed ++ [(i, c)] }
  | .error fault => s.moveCall i (.leaving (.faulted fault))

/-- Whether a writer that waits on channel `c` has something to do. -/
def mayResume (s : Line α) (c : Nat) : Bool :=
  s.store.lanes[c]?.any fun lane => lane.closed || lane.hasRoom

/-- Call `i` begins. -/
def lookUp (s : Line α) (i : Nat) : Errand α → Line α
  | .produce _ => s.moveCall i (s.active.elim .cleared .found)
  | .write _ none => s.moveCall i .cleared
  | .write _ (some policy) => s.moveCall i (.informed policy)
  | .visit p => s.moveCall i (.found p)

/-- Call `i` is counted in pool `p` and looks whether it runs. -/
def enter (s : Line α) (i p : Nat) (errand : Errand α) : Line α :=
  if s.isRunning p then
    let place : Place α := match errand with
      | .visit _ => .staying
      | _ => .cleared
    s.mapCall i fun call => { call with place, pass := some p }
  else s.moveCall i (.turnedAway p)

/-- Call `i` takes its count in pool `p` back, and is handed back its item
if it has one. -/
def turnBack (s : Line α) (i p : Nat) (item : Option α) : Line α :=
  (s.mapPool p Pool.unenroll).moveCall i
    (item.elim (.leaving .visited) fun a => .settled (.refused .noConsumer a))

/-- Call `i`, which has this result, is counted if it is one that counts. -/
def count (s : Line α) (i : Nat) (call : Call α) (result : WriteResult α) : Line α :=
  let s := s.moveCall i (.leaving (.answered result))
  if call.isMetered then { s with offers := s.offers.count result } else s

/-- Call `i` gives up its admission, and is over. -/
def finish (s : Line α) (i : Nat) (call : Call α) (verdict : Verdict α) : Line α :=
  let s := s.moveCall i (.over verdict)
  match call.pass with
  | none => s
  | some p => s.mapPool p Pool.unenroll

/-- The next step of call `i`, if it has one. -/
def advance (s : Line α) (i : Nat) : Option (Line α) :=
  match s.calls[i]? with
  | none => none
  | some call =>
    match call.place, call.item? with
    | .begun, _ => some (s.lookUp i call.errand)
    | .found p, _ => some ((s.mapPool p Pool.enroll).moveCall i (.counted p))
    | .counted p, _ => some (s.enter i p call.errand)
    | .turnedAway p, item => some (s.turnBack i p item)
    | .cleared, _ => some (s.moveCall i (.informed s.store.policy))
    | .informed policy, some item => some (s.route i policy item)
    | .routed c policy, some item => some (s.write i c policy item)
    | .waiting c, some item =>
      if s.mayResume c then some (s.write i c .wait item) else none
    | .settled result, _ => some (s.count i call result)
    | .leaving verdict, _ => some (s.finish i call verdict)
    | _, _ => none

/-- Visitor `i` is called away. -/
def callAway (s : Line α) (i : Nat) : Option (Line α) :=
  match s.calls[i]? with
  | some { place := .staying, .. } => some (s.moveCall i (.leaving .visited))
  | _ => none

end Conveyor.Line
