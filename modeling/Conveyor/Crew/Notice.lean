/-
Conveyor.Crew.Notice — the log lines of carriers, pools and workers.

A notice says what happened; its level, its message and its fields, in
the order in which a log shows them, are functions of that.
-/
import Conveyor.Settings.Basic

namespace Conveyor

/-- How much a log line matters. -/
inductive Level where
  | debug
  | info
  | warn
  | error
  deriving DecidableEq, Repr

/-- The name of a level in a log. -/
def Level.label : Level → String
  | debug => "DEBUG"
  | info => "INFO"
  | warn => "WARN"
  | error => "ERROR"

/-- What a worker does that is worth a log line. -/
inductive WorkerNotice where
  | started (channels : List Nat)
  | exited
  /-- `consume` answered with an error, or panicked. -/
  | consumeError (length : Nat) (isPanic : Bool) (reason : String)
  /-- Another hook panicked. -/
  | hookPanic (hook : String) (reason : String)
  deriving DecidableEq, Repr

/-- What is worth a log line. -/
inductive Notice where
  | carrierCreated (carrier : String) (channels room : UInt64) (policy : WhenFull)
  | carrierClosed (carrier : String)
  | poolStarted (carrier : String) (workers channels : Nat) (cycle : Span)
  | poolClosing (carrier : String)
  | poolReplaced (carrier : String) (workers : Nat)
  /-- The registry closes the pool that it has under this name. -/
  | entryClosing (name : String)
  | worker (carrier : String) (worker : Nat) (what : WorkerNotice)
  deriving DecidableEq, Repr

/-- Numbers in brackets. -/
def bracketed (ns : List Nat) : String := "[" ++ ", ".intercalate (ns.map toString) ++ "]"

namespace WorkerNotice

/-- How much the notice matters. -/
def level : WorkerNotice → Level
  | started _ | exited => .debug
  | consumeError _ isPanic _ => if isPanic then .error else .warn
  | hookPanic .. => .error

/-- The line itself. -/
def message : WorkerNotice → String
  | started _ => "consumer worker started"
  | exited => "consumer worker exited"
  | consumeError _ isPanic _ => if isPanic then "consumer panicked" else "consumer failed"
  | hookPanic .. => "consumer hook panicked"

/-- The fields that follow the carrier and the worker. -/
def fields : WorkerNotice → List String
  | started channels => [s!"channels={bracketed channels}"]
  | exited => []
  | consumeError length _ reason => [s!"batch_len={length}", s!"error={reason}"]
  | hookPanic hook reason => [s!"hook={hook}", s!"error={reason}"]

end WorkerNotice

namespace Notice

/-- How much the notice matters. -/
def level : Notice → Level
  | carrierCreated .. | carrierClosed _ | entryClosing _ => .debug
  | poolStarted .. | poolClosing _ | poolReplaced .. => .info
  | worker _ _ what => what.level

/-- The line itself. -/
def message : Notice → String
  | carrierCreated .. => "carrier created"
  | carrierClosed _ => "carrier closed"
  | poolStarted .. => "consumer pool started"
  | poolClosing _ => "closing consumer pool"
  | poolReplaced .. => "replaced consumer pool"
  | entryClosing _ => "closing registered consumer pool"
  | worker _ _ what => what.message

/-- The fields of the line, each as a name and a value. -/
def fields : Notice → List String
  | carrierCreated carrier channels room policy =>
      [s!"carrier={carrier}", s!"channels={channels}", s!"buffer_size={room}",
        s!"strategy={policy.label}"]
  | carrierClosed carrier | poolClosing carrier => [s!"carrier={carrier}"]
  | entryClosing name => [s!"carrier={name}"]
  | poolStarted carrier workers channels cycle =>
      [s!"carrier={carrier}", s!"workers={workers}", s!"channels={channels}",
        s!"cycle_ms={cycle.millis}"]
  | poolReplaced carrier workers => [s!"carrier={carrier}", s!"workers={workers}"]
  | worker carrier index what => [s!"carrier={carrier}", s!"worker={index}"] ++ what.fields

end Notice

end Conveyor
