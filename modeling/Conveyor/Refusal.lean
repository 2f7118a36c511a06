/-
Conveyor.Refusal — the reasons for which an item is handed back to its
producer, and the outcome of a write that was not refused.
-/

namespace Conveyor

/-- Why an item was not taken. -/
inductive Refusal where
  /-- The channel is full, and the policy is to refuse. -/
  | full
  /-- A pool was installed once, and it no longer runs. -/
  | noConsumer
  /-- The channel takes no more items. -/
  | closed
  deriving DecidableEq, Repr

namespace Refusal

/-- The reason in words. -/
def message : Refusal → String
  | full => "channel is full"
  | noConsumer => "no running consumer pool"
  | closed => "channel is closed"

/-- The name of the reason. -/
def label : Refusal → String
  | full => "Full"
  | noConsumer => "NoConsumer"
  | closed => "Closed"

/-- Whether the same item may be taken later. -/
def isRecoverable : Refusal → Bool
  | full => true
  | noConsumer | closed => false

/-- The line a producer shows for a refused item. -/
def report (r : Refusal) : String := s!"item rejected: {r.message}"

/-- The refused item as a record, without the item itself. -/
def record (r : Refusal) : String := s!"Rejected \x7b reason: {r.label}, .. \x7d"

end Refusal

/-- How an accepted write ended. -/
inductive Acceptance where
  /-- There was room. -/
  | stored
  /-- The oldest item made room. -/
  | evicted
  deriving DecidableEq, Repr

/-- The name of the way in which a write ended. -/
def Acceptance.label : Acceptance → String
  | .stored => "Stored"
  | .evicted => "Evicted"

/-- What a finished write answers. -/
inductive WriteResult (α : Type u) where
  | accepted (how : Acceptance)
  /-- The item is handed back. -/
  | refused (why : Refusal) (item : α)
  deriving DecidableEq, Repr

/-- Whether the item was taken. -/
def WriteResult.isAccepted {α : Type u} : WriteResult α → Bool
  | .accepted _ => true
  | .refused .. => false

end Conveyor
