/-
Conveyor.Fault — the internal checks of a carrier, and what each says
when it trips.

An operation that checks itself returns its result in `Checked`; a
`Fault` is the reason it could not go on. A fault is not a refusal: a
refusal hands the item back to its producer, a fault says that a rule
which the library keeps for itself, or asks of a custom router, was
broken.
-/

namespace Conveyor

/-- Why an operation stopped inside the library. -/
inductive Fault where
  /-- A buffer was asked for with room for nothing. -/
  | zeroCapacity
  /-- A remainder was taken by a channel count of zero. -/
  | zeroDivisor
  /-- A router named a channel that does not exist. -/
  | routeOutOfRange (index total : Nat)
  /-- A ring holds more items than it has slots. -/
  | overfull (count capacity : Nat)
  /-- The read cursor of a ring passed its write cursor. -/
  | readPastWrite (read write : UInt64)
  /-- The write cursor of a ring went backwards. -/
  | writeBackwards (old new : UInt64)
  /-- The read cursor of a ring went backwards. -/
  | readBackwards (old new : UInt64)
  /-- A place was named that a row of `size` places does not have. -/
  | indexOutOfRange (index size : Nat)
  /-- Some channel has no worker, or more than one. -/
  | incompleteAssignment (total : Nat)
  /-- A sum of counters left the range of a 64-bit word. -/
  | sumOverflow
  /-- A span of time left the range of its seconds. -/
  | spanOverflow
  deriving DecidableEq, Repr

/-- The words in which a fault is reported. -/
def Fault.message : Fault → String
  | .zeroCapacity => "buffer capacity must be greater than zero"
  | .zeroDivisor => "attempt to calculate the remainder with a divisor of zero"
  | .routeOutOfRange index total =>
      s!"partitioner returned channel {index} but only {total} channels exist"
  | .overfull count capacity =>
      s!"bounded count violated: {count} occupied slots exceed capacity {capacity}"
  | .readPastWrite read write => s!"read cursor {read} advanced beyond write cursor {write}"
  | .writeBackwards old new => s!"write cursor decreased from {old} to {new}"
  | .readBackwards old new => s!"read cursor decreased from {old} to {new}"
  | .indexOutOfRange index size =>
      s!"index out of bounds: the len is {size} but the index is {index}"
  | .incompleteAssignment total =>
      s!"channel assignment does not cover each of {total} channels exactly once"
  | .sumOverflow => "attempt to add with overflow"
  | .spanOverflow => "overflow in Duration::new"

/-- A result, or the fault that prevented it. -/
abbrev Checked (α : Type u) := Except Fault α

end Conveyor
