/-
Conveyor.SetupError — what can be wrong before any item moves: settings
that make no sense, and worker threads that the system does not give.
Errors that arise while a consumer works are in `Conveyor.Consumer`.
-/

namespace Conveyor

/-- A setting that no carrier or pool can be built from. -/
inductive SettingsError where
  /-- No channels. -/
  | noChannels
  /-- Channels without room. -/
  | noRoom
  /-- Batches that may hold nothing. -/
  | noBatch
  /-- A pool without workers. -/
  | noWorkers
  deriving DecidableEq, Repr

namespace SettingsError

/-- The error in words. -/
def message : SettingsError → String
  | noChannels => "channel count must be greater than zero"
  | noRoom => "per-channel buffer size must be greater than zero"
  | noBatch => "batch size must be greater than zero"
  | noWorkers => "consumer pool needs at least one worker"

/-- The name of the error. -/
def label : SettingsError → String
  | noChannels => "ZeroChannels"
  | noRoom => "ZeroBufferSize"
  | noBatch => "ZeroBatchSize"
  | noWorkers => "ZeroConsumers"

/-- All errors, in the order in which they are looked for. -/
def all : List SettingsError := [noChannels, noRoom, noBatch, noWorkers]

/-- The error with this name. -/
def ofLabel? (s : String) : Option SettingsError := all.find? (·.label = s)

@[simp] theorem ofLabel?_label (e : SettingsError) : ofLabel? e.label = some e := by
  cases e <;> decide

end SettingsError

/-- Why a carrier has no running pool after it was asked for one. -/
inductive SetupError where
  /-- The settings are wrong. -/
  | settings (e : SettingsError)
  /-- The system did not start worker `worker`, for the reason given. -/
  | spawn (worker : UInt64) (reason : String)
  deriving DecidableEq, Repr

namespace SetupError

/-- The error in words. -/
def message : SetupError → String
  | settings e => s!"invalid configuration: {e.message}"
  | spawn worker reason => s!"failed to spawn consumer worker {worker}: {reason}"

/-- The name of the error, with the settings error it stands for. -/
def label : SetupError → String
  | settings e => s!"Config({e.label})"
  | spawn .. => "Spawn"

/-- The messages of the errors beneath this one, nearest first. -/
def causes : SetupError → List String
  | settings e => [e.message]
  | spawn _ reason => [reason]

/-- Whether the settings are to blame. -/
def isSettings : SetupError → Bool
  | settings _ => true
  | spawn .. => false

end SetupError

end Conveyor
