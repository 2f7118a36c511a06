/-
Conveyor.Ring.Basic — a ring of slots with a read and a write cursor.

The cursors are sequence numbers in 64-bit words and only ever advance;
the item with sequence number `s` lies in slot `s % capacity`, and the
capacity need not be a power of two. Each operation checks itself: a
cursor must not go backwards, the read cursor must not pass the write
cursor, and the ring must not hold more than its slots.

`Ring.toList` is the view that everything else is said through: the
items from the oldest to the newest.
-/
import Conveyor.Fault

namespace Conveyor

/-- A ring of at least one slot. -/
structure Ring (α : Type u) where
  /-- The slots; an empty one holds `none`. -/
  slots : Array (Option α)
  /-- The sequence number of the oldest item. -/
  read : UInt64
  /-- The sequence number of the next item. -/
  write : UInt64
  slots_pos : 0 < slots.size

namespace Ring

variable {α : Type u}

/-- The empty ring with `capacity` slots. -/
def empty (capacity : Nat) (h : 0 < capacity) : Ring α where
  slots := Array.replicate capacity none
  read := 0
  write := 0
  slots_pos := by simpa using h

/-- The empty ring with `capacity` slots, of which there must be one. -/
def ofCapacity (capacity : Nat) : Checked (Ring α) :=
  if h : 0 < capacity then .ok (empty capacity h) else .error .zeroCapacity

/-- The number of slots. -/
def capacity (r : Ring α) : Nat := r.slots.size

/-- The number of items, as the distance of the cursors. -/
def size (r : Ring α) : Nat := (r.write - r.read).toNat

/-- The slot of a sequence number. -/
def slotOf (r : Ring α) (seq : UInt64) : Nat := seq.toNat % r.slots.size

theorem slotOf_lt (r : Ring α) (seq : UInt64) : r.slotOf seq < r.slots.size :=
  Nat.mod_lt _ r.slots_pos

/-- What the slot of a sequence number holds. -/
def at? (r : Ring α) (seq : UInt64) : Option α :=
  r.slots[r.slotOf seq]?.join

/-- The items, oldest first. -/
def toList (r : Ring α) : List α :=
  (List.range r.size).filterMap fun k => r.at? (r.read + UInt64.ofNat k)

/-- Replaces what the slot of a sequence number holds. -/
def put (r : Ring α) (seq : UInt64) (x : Option α) : Ring α :=
  { r with
    slots := r.slots.set (r.slotOf seq) x (r.slotOf_lt seq)
    slots_pos := by simpa using r.slots_pos }

/-- Adds an item behind the newest. The caller has seen that there is room. -/
def push (r : Ring α) (a : α) : Checked (Ring α) :=
  let next := r.write + 1
  if next < r.write then .error (.writeBackwards r.write next)
  else
    let r' : Ring α := { r.put r.write (some a) with write := next }
    if r'.capacity < r'.size then .error (.overfull r'.size r'.capacity) else .ok r'

/-- Removes the oldest item, if there is one. -/
def pop (r : Ring α) : Checked (Option α × Ring α) :=
  if r.read = r.write then .ok (none, r)
  else
    let next := r.read + 1
    if r.write < next then .error (.readPastWrite next r.write)
    else if next < r.read then .error (.readBackwards r.read next)
    else .ok (r.at? r.read, { r.put r.read none with read := next })

/-- Removes up to `n` items from the oldest on, and stops at the first
slot that yields none. -/
def popMany (r : Ring α) : Nat → Checked (List α × Ring α)
  | 0 => .ok ([], r)
  | n + 1 => do
    match ← r.pop with
    | (none, r') => return ([], r')
    | (some a, r') =>
      let (as, r'') ← r'.popMany n
      return (a :: as, r'')

end Ring

end Conveyor
