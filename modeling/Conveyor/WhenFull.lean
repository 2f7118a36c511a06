/-
Conveyor.WhenFull — what a write does when its channel has no room.

The three policies have three spellings each: the tag they are stored
under, the name they are written with in a settings file, and the name
they have in log lines. All three are injective, and reading a tag that
no policy has gives the default.
-/

namespace Conveyor

/-- What a write does when its channel is full. -/
inductive WhenFull where
  /-- The write waits until there is room. -/
  | wait
  /-- The write is refused. -/
  | refuse
  /-- The oldest item makes room. -/
  | evict
  deriving DecidableEq, Repr

namespace WhenFull

/-- Waiting is the policy of a carrier that was told nothing else. -/
instance : Inhabited WhenFull := ⟨wait⟩

/-- All policies, by increasing tag. -/
def all : List WhenFull := [wait, refuse, evict]

/-- The number a policy is stored as. -/
def tag : WhenFull → UInt8
  | wait => 0
  | refuse => 1
  | evict => 2

/-- The policy stored as a number; unknown numbers mean waiting. -/
def ofTag : UInt8 → WhenFull
  | 1 => refuse
  | 2 => evict
  | _ => wait

/-- The name in settings files and requests. -/
def code : WhenFull → String
  | wait => "BLOCKING"
  | refuse => "IF_POSSIBLE"
  | evict => "SKIP_TO_LATEST"

/-- The policy with this name, letter for letter. -/
def ofCode? (s : String) : Option WhenFull := all.find? (·.code = s)

/-- The name in log lines. -/
def label : WhenFull → String
  | wait => "Blocking"
  | refuse => "IfPossible"
  | evict => "SkipToLatest"

/-- Whether a write under this policy may have to wait. -/
def mayWait : WhenFull → Bool
  | wait => true
  | refuse | evict => false

@[simp] theorem ofTag_tag (p : WhenFull) : ofTag p.tag = p := by cases p <;> rfl

@[simp] theorem ofCode?_code (p : WhenFull) : ofCode? p.code = some p := by
  cases p <;> decide

theorem mayWait_iff (p : WhenFull) : p.mayWait = true ↔ p = wait := by
  cases p <;> simp [mayWait]

end WhenFull

end Conveyor
