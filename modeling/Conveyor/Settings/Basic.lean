/-
Conveyor.Settings.Basic — the settings of a carrier.

Any settings can be written down; `Settings.check` says which of them a
carrier can be built from. Sizes are 64-bit words, and a `Span` is a
time in whole seconds and nanoseconds.
-/
import Conveyor.Fault
import Conveyor.SetupError
import Conveyor.WhenFull

namespace Conveyor

/-- How many nanoseconds a second has. -/
def nanosPerSecond : Nat := 1000000000

theorem nanosPerSecond_pos : 0 < nanosPerSecond := by decide

/-- A length of time. -/
structure Span where
  seconds : UInt64
  nanos : Nat
  nanos_lt : nanos < nanosPerSecond := by decide
  deriving DecidableEq, Repr

namespace Span

/-- The span of `seconds` and `nanos` together, of which the nanoseconds
may be more than a second; none if the seconds leave their range. -/
def ofParts? (seconds : UInt64) (nanos : Nat) : Option Span :=
  let total := seconds.toNat + nanos / nanosPerSecond
  if total < UInt64.size then
    some ⟨.ofNat total, nanos % nanosPerSecond, Nat.mod_lt _ nanosPerSecond_pos⟩
  else none

/-- The span of so many milliseconds. -/
def ofMillis (ms : UInt64) : Span where
  seconds := ms / 1000
  nanos := (ms % 1000).toNat * 1000000
  nanos_lt := by
    have : (ms % 1000).toNat < 1000 := by
      rw [UInt64.toNat_mod]
      exact Nat.mod_lt _ (by decide)
    simp only [nanosPerSecond]
    omega

/-- The whole milliseconds of a span, as a word. -/
def millis (s : Span) : UInt64 := .ofNat (s.seconds.toNat * 1000 + s.nanos / 1000000)

theorem ofParts?_self (s : Span) : ofParts? s.seconds s.nanos = some s := by
  have hdiv : s.nanos / nanosPerSecond = 0 := Nat.div_eq_of_lt s.nanos_lt
  have hmod : s.nanos % nanosPerSecond = s.nanos := Nat.mod_eq_of_lt s.nanos_lt
  have hlt : s.seconds.toNat < UInt64.size := s.seconds.toNat_lt_size
  simp only [ofParts?, hdiv, hmod, Nat.add_zero, UInt64.ofNat_toNat]
  exact if_pos hlt

end Span

/-- The settings of a carrier. -/
structure Settings where
  /-- How many channels. -/
  channels : UInt64
  /-- The room in each channel. -/
  room : UInt64
  /-- How many items a worker takes from a channel at a time; if absent,
  as many as there is room for. -/
  batch : Option UInt64
  policy : WhenFull
  /-- How long an idle worker rests. -/
  cycle : Span
  /-- Whether the counters are shown. -/
  metered : Bool
  deriving DecidableEq, Repr

namespace Settings

/-- The settings of a carrier of which only the sizes are given. -/
def ofSizes (channels room : UInt64) : Settings where
  channels
  room
  batch := none
  policy := .wait
  cycle := ⟨0, 20000000, by decide⟩
  metered := false

/-- The settings of a carrier of which nothing is given. -/
def standard : Settings := ofSizes 1 1024

instance : Inhabited Settings := ⟨standard⟩

/-- Settings for items that must not stay long. -/
def lowLatency : Settings where
  channels := 8
  room := 256
  batch := some 64
  policy := .refuse
  cycle := ⟨0, 1000000, by decide⟩
  metered := false

/-- Settings for many items. -/
def highThroughput : Settings where
  channels := 4
  room := 16384
  batch := none
  policy := .wait
  cycle := ⟨0, 50000000, by decide⟩
  metered := false

/-- How many items a worker takes from a channel at a time. -/
def batchLimit (s : Settings) : UInt64 := s.batch.getD s.room

/-- The first thing that is wrong with the settings, if there is one. -/
def check (s : Settings) : Except SettingsError Unit :=
  if s.channels = 0 then .error .noChannels
  else if s.room = 0 then .error .noRoom
  else if s.batch = some 0 then .error .noBatch
  else .ok ()

/-- Settings that pass the check let every batch hold something. -/
theorem batchLimit_ne_zero_of_check {s : Settings} (h : s.check = .ok ()) : s.batchLimit ≠ 0 := by
  by_cases h₁ : s.channels = 0
  · simp [check, h₁] at h
  by_cases h₂ : s.room = 0
  · simp [check, h₁, h₂] at h
  by_cases h₃ : s.batch = some 0
  · simp [check, h₁, h₂, h₃] at h
  simp only [batchLimit]
  cases hs : s.batch with
  | none => simpa using h₂
  | some b =>
    intro hb
    exact h₃ (by rw [hs]; exact congrArg some hb)

/-- One part of the settings, and what it becomes. -/
inductive Change where
  | channels (n : UInt64)
  | room (n : UInt64)
  | batch (n : UInt64)
  | policy (p : WhenFull)
  /-- A span in two parts, of which the nanoseconds may be more than a second. -/
  | cycle (seconds : UInt64) (nanos : Nat)
  | metered (b : Bool)

/-- The settings after one part has changed. -/
def set (s : Settings) : Change → Checked Settings
  | .channels n => .ok { s with channels := n }
  | .room n => .ok { s with room := n }
  | .batch n => .ok { s with batch := some n }
  | .policy p => .ok { s with policy := p }
  | .cycle seconds nanos =>
    match Span.ofParts? seconds nanos with
    | some cycle => .ok { s with cycle }
    | none => .error .spanOverflow
  | .metered b => .ok { s with metered := b }

/-- The settings after several parts have changed, one after the other. -/
def setAll (s : Settings) (changes : List Change) : Checked Settings := changes.foldlM set s

end Settings

end Conveyor
