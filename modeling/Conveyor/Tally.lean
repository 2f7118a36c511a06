/-
Conveyor.Tally — the counters of a carrier.

Producers and workers count on two sides: `OfferTally` for what happened
to offered items, `DeliveryTally` for what happened to batches. They
count in `Nat`; a `Snapshot` shows them as 64-bit words, so a counter
that passes the end of the range starts again at zero.
-/
import Conveyor.Fault
import Conveyor.Refusal

namespace Conveyor

/-- What became of the items offered to a carrier. -/
structure OfferTally where
  produced : Nat := 0
  full : Nat := 0
  noConsumer : Nat := 0
  closed : Nat := 0
  overwritten : Nat := 0
  deriving DecidableEq, Repr

namespace OfferTally

/-- One more finished offer. -/
def count {α : Type u} (t : OfferTally) : WriteResult α → OfferTally
  | .accepted .stored => { t with produced := t.produced + 1 }
  | .accepted .evicted => { t with produced := t.produced + 1, overwritten := t.overwritten + 1 }
  | .refused .full _ => { t with full := t.full + 1 }
  | .refused .noConsumer _ => { t with noConsumer := t.noConsumer + 1 }
  | .refused .closed _ => { t with closed := t.closed + 1 }

end OfferTally

/-- What became of the batches handed to consumers. -/
structure DeliveryTally where
  consumed : Nat := 0
  batches : Nat := 0
  errors : Nat := 0
  deriving DecidableEq, Repr

namespace DeliveryTally

/-- One more batch of `items` items, consumed. -/
def succeed (t : DeliveryTally) (items : Nat) : DeliveryTally :=
  { t with consumed := t.consumed + items, batches := t.batches + 1 }

/-- One more batch that its consumer did not accept. -/
def fail (t : DeliveryTally) : DeliveryTally := { t with errors := t.errors + 1 }

/-- The counts of two groups of workers together. -/
def add (t u : DeliveryTally) : DeliveryTally where
  consumed := t.consumed + u.consumed
  batches := t.batches + u.batches
  errors := t.errors + u.errors

end DeliveryTally

/-- All counters at one moment, as 64-bit words. -/
structure Snapshot where
  produced : UInt64 := 0
  full : UInt64 := 0
  noConsumer : UInt64 := 0
  closed : UInt64 := 0
  overwritten : UInt64 := 0
  consumed : UInt64 := 0
  batches : UInt64 := 0
  errors : UInt64 := 0
  deriving DecidableEq, Repr

/-- The sum of two words, if it is a word. -/
def addWords (a b : UInt64) : Checked UInt64 :=
  if a.toNat + b.toNat < UInt64.size then .ok (a + b) else .error .sumOverflow

namespace Snapshot

/-- What the two sides have counted. -/
def ofTallies (o : OfferTally) (d : DeliveryTally) : Snapshot where
  produced := .ofNat o.produced
  full := .ofNat o.full
  noConsumer := .ofNat o.noConsumer
  closed := .ofNat o.closed
  overwritten := .ofNat o.overwritten
  consumed := .ofNat d.consumed
  batches := .ofNat d.batches
  errors := .ofNat d.errors

/-- How many items were refused, for whatever reason. -/
def refused (s : Snapshot) : Checked UInt64 := do
  addWords (← addWords s.full s.noConsumer) s.closed

/-- Whether nothing was counted. -/
def isZero (s : Snapshot) : Bool := s = {}

/-- The counters as a record with named fields. -/
def record (s : Snapshot) : String :=
  s!"MetricsSnapshot \x7b produced: {s.produced}, rejected_full: {s.full}" ++
    s!", rejected_no_consumer: {s.noConsumer}, rejected_closed: {s.closed}" ++
    s!", overwritten: {s.overwritten}, consumed: {s.consumed}, batches: {s.batches}" ++
    s!", consume_errors: {s.errors} \x7d"

/-- The counters in the order of the record. -/
def toList (s : Snapshot) : List UInt64 :=
  [s.produced, s.full, s.noConsumer, s.closed, s.overwritten, s.consumed, s.batches, s.errors]

end Snapshot

end Conveyor
