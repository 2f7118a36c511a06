/-
Conveyor.Routing.Spec — the routers that can be asked for by name.

A router that goes by a key sends items with equal keys to the same
channel; the key is a function of the item, and its digest picks the
channel.
-/
import Conveyor.Digest.Key
import Conveyor.Payload
import Conveyor.Routing.Basic

namespace Conveyor

/-- What items are grouped by. -/
inductive KeySpec where
  /-- The item as a word. -/
  | word
  /-- The item as a text. -/
  | text
  /-- The length of the item as a text. -/
  | length
  /-- The quotient of the item as a word by another word. -/
  | quotient (divisor : UInt64)

/-- The key of an item. -/
def KeySpec.key : KeySpec → Payload → Key
  | word, p => .number 8 p.word.toNat
  | text, p => .text p.textD
  | length, p => .number 4 p.textD.length
  | quotient divisor, p => .number 8 (p.word / divisor).toNat

/-- A description of a router. -/
inductive RouterSpec where
  /-- One channel after the other. -/
  | rolling
  /-- By the thread that writes. -/
  | thread
  /-- The item itself is the index. -/
  | value
  /-- Always the same index. -/
  | fixed (index : Nat)
  /-- The indices of the list in turn, again and again. -/
  | cycle (indices : List Nat)
  /-- By a key. -/
  | byKey (spec : KeySpec)

/-- A router as described, before its first turn. Writers on one thread
all have the same digest, which is all that a single channel needs. -/
def RouterSpec.router : RouterSpec → Router Payload
  | rolling => .fresh
  | thread => .keyed fun _ => 0
  | value => .custom (fun _ _ p => p.word.toNat) 0
  | fixed index => .custom (fun _ _ _ => index) 0
  | cycle indices => .custom (fun turn _ _ => indices.getD (turn % indices.length) 0) 0
  | byKey spec => .keyed fun p => (spec.key p).digest

end Conveyor
