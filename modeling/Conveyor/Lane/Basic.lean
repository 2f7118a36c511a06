/-
Conveyor.Lane.Basic — one channel as its lock protects it: a ring and
the flag that says whether items may still enter.

Each operation here is what a thread does in one hold of the lock. A
write looks at the flag first, then for room, and only a full open
channel asks the policy. A write that has to wait changes nothing; how
it is woken is the matter of `Conveyor.Lane.Monitor`.
-/
import Conveyor.Ring.Basic
import Conveyor.Refusal
import Conveyor.WhenFull

namespace Conveyor

/-- A channel. -/
structure Lane (α : Type u) where
  ring : Ring α
  closed : Bool := false

/-- What one look at a channel comes to for a writer. -/
inductive Attempt (α : Type u) where
  /-- The item is in the channel; `out` is the one it pushed out, if any. -/
  | accepted (how : Acceptance) (out : Option α) (lane : Lane α)
  /-- The item is handed back, and the channel is as it was. -/
  | refused (why : Refusal) (item : α)
  /-- There is no room, and the writer wants to wait for it. -/
  | mustWait

/-- What a reader took, and the channel without it. -/
structure Taken (α : Type u) where
  /-- How many items the reader went for. -/
  moved : Nat
  items : List α
  lane : Lane α

namespace Lane

variable {α : Type u}

/-- An empty open channel with room for `capacity` items. -/
def ofCapacity (capacity : Nat) : Checked (Lane α) := do
  return { ring := ← Ring.ofCapacity capacity }

/-- The items, oldest first. -/
def toList (l : Lane α) : List α := l.ring.toList

/-- The number of items. -/
def size (l : Lane α) : Nat := l.ring.size

/-- Whether there are no items. -/
def isEmpty (l : Lane α) : Bool := l.size = 0

/-- The number of items there is room for. -/
def capacity (l : Lane α) : Nat := l.ring.capacity

/-- Whether another item fits. -/
def hasRoom (l : Lane α) : Bool := l.size < l.capacity

/-- One look at the channel by a writer of `a`. -/
def attempt (l : Lane α) (policy : WhenFull) (a : α) : Checked (Attempt α) := do
  if l.closed then return .refused .closed a
  if l.hasRoom then
    return .accepted .stored none { l with ring := ← l.ring.push a }
  match policy with
  | .refuse => return .refused .full a
  | .wait => return .mustWait
  | .evict =>
    let (out, ring) ← l.ring.pop
    return .accepted .evicted out { l with ring := ← ring.push a }

/-- Takes the oldest items out, `limit` at most. -/
def take (l : Lane α) (limit : Nat) : Checked (Taken α) := do
  let n := min l.size limit
  let (items, ring) ← l.ring.popMany n
  return { moved := n, items, lane := { l with ring } }

/-- The channel when no further item may enter. -/
def close (l : Lane α) : Lane α := { l with closed := true }

end Lane

/-- A limit that no channel reaches. -/
def noLimit : Nat := UInt64.size - 1

/-- A channel holds at most `noLimit` items, so a reader who names this
limit takes them all. -/
theorem Lane.min_size_noLimit {α : Type u} (l : Lane α) : min l.size noLimit = l.size := by
  have : l.size < UInt64.size := UInt64.toNat_lt_size _
  simp only [noLimit]
  omega

end Conveyor
