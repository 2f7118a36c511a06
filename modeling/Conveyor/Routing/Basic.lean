/-
Conveyor.Routing.Basic — how a write finds its channel.

A router answers with an index, and every answer is a turn: the router
has moved on when it is asked again, whether or not the write that asked
came to anything. A custom router may be any function of its turn, the
channel count and the item, so whatever rule picks the channels of a
run, some custom router picks the same ones.
-/
import Conveyor.Fault

namespace Conveyor

/-- A rule that picks a channel for an item. -/
inductive Router (α : Type u) where
  /-- One channel after the other; `next` is counted up at every turn. -/
  | rolling (next : UInt64)
  /-- By a digest of the item: equal digests, equal channels. -/
  | keyed (digest : α → UInt64)
  /-- Any rule; `pick turn total a` is not reduced to the channel count. -/
  | custom (pick : Nat → Nat → α → Nat) (turn : Nat)

/-- The remainder of a word by a channel count. -/
def remainder (w : UInt64) (total : Nat) : Checked Nat :=
  if total = 0 then .error .zeroDivisor else .ok (w.toNat % total)

namespace Router

variable {α : Type u}

/-- One channel after the other, from the first on. -/
def fresh : Router α := .rolling 0

/-- What the router answers for `a` among `total` channels. -/
def pick (r : Router α) (total : Nat) (a : α) : Checked Nat :=
  match r with
  | rolling next => remainder next total
  | keyed digest => remainder (digest a) total
  | custom pick turn => .ok (pick turn total a)

/-- The router when it has answered once more. -/
def advance : Router α → Router α
  | rolling next => rolling (next + 1)
  | keyed digest => keyed digest
  | custom pick turn => custom pick (turn + 1)

/-- The channel for `a`, if the router's answer is one. -/
def route (r : Router α) (total : Nat) (a : α) : Checked Nat := do
  let index ← r.pick total a
  if index < total then return index else throw (.routeOutOfRange index total)

theorem lt_of_route_eq_ok {r : Router α} {total index : Nat} {a : α}
    (h : r.route total a = .ok index) : index < total := by
  simp only [route, bind, Except.bind] at h
  split at h
  · cases h
  · split at h
    · cases h; assumption
    · cases h

/-- The same rule for another kind of item, of which `f` gives the part
that counts. -/
def comap {β : Type v} (f : β → α) : Router α → Router β
  | rolling next => rolling next
  | keyed digest => keyed fun b => digest (f b)
  | custom pick turn => custom (fun t n b => pick t n (f b)) turn

/-- The answers to `times` questions about the same item, and the router
after them. -/
def picks (r : Router α) (total : Nat) (a : α) : Nat → List (Checked Nat) × Router α
  | 0 => ([], r)
  | times + 1 =>
    let (rest, r') := r.advance.picks total a times
    (r.pick total a :: rest, r')

/-- What a thread with this digest learns from asking for a channel of
`total` once and then `calls` times more: whether all answers were the
same, whether they were channels, and the answer, if there is only one
channel. -/
def survey (digest : UInt64) (total calls : Nat) : Checked (Bool × Bool × Option Nat) := do
  let thread : Router Unit := keyed fun _ => digest
  let first ← thread.pick total ()
  let rest := (thread.picks total () calls).1
  let same := rest.all fun
    | .ok index => index = first
    | .error _ => false
  return (same, first < total, if total = 1 then some first else none)

end Router

end Conveyor
