import Conveyor.Consumer
import Conveyor.Crew.Assignment
import Conveyor.Crew.Notice
import Conveyor.Crew.Pool
import Conveyor.Crew.Worker
import Conveyor.Digest.Key
import Conveyor.Digest.SipHash
import Conveyor.Fault
import Conveyor.Hub.Basic
import Conveyor.Hub.Lemmas
import Conveyor.Hub.Registry
import Conveyor.Json.Basic
import Conveyor.Json.Grammar
import Conveyor.Json.Reader
import Conveyor.Lane.Basic
import Conveyor.Lane.Lemmas
import Conveyor.Lane.Monitor
import Conveyor.Lane.Queue
import Conveyor.Lane.Set
import Conveyor.Line.Call
import Conveyor.Line.Lifecycle
import Conveyor.Line.Schedule
import Conveyor.Line.State
import Conveyor.Line.Step
import Conveyor.Line.Work
import Conveyor.Payload
import Conveyor.Proofs.Admission
import Conveyor.Proofs.Alone
import Conveyor.Proofs.Balance
import Conveyor.Proofs.Barrier
import Conveyor.Proofs.Batches
import Conveyor.Proofs.Calls
import Conveyor.Proofs.Closing
import Conveyor.Proofs.Conservation
import Conveyor.Proofs.Dealing
import Conveyor.Proofs.Effect
import Conveyor.Proofs.Entries
import Conveyor.Proofs.Exchange
import Conveyor.Proofs.Faultless
import Conveyor.Proofs.Flow
import Conveyor.Proofs.Gate
import Conveyor.Proofs.Grammar
import Conveyor.Proofs.Handles
import Conveyor.Proofs.Hooks
import Conveyor.Proofs.Installed
import Conveyor.Proofs.Keyed
import Conveyor.Proofs.Lanes
import Conveyor.Proofs.LastRound
import Conveyor.Proofs.Moments
import Conveyor.Proofs.Newest
import Conveyor.Proofs.Order
import Conveyor.Proofs.Outcomes
import Conveyor.Proofs.Passes
import Conveyor.Proofs.Pools
import Conveyor.Proofs.Queue
import Conveyor.Proofs.Reading
import Conveyor.Proofs.Refused
import Conveyor.Proofs.Requests
import Conveyor.Proofs.Rest
import Conveyor.Proofs.Rotation
import Conveyor.Proofs.Routes
import Conveyor.Proofs.Runs
import Conveyor.Proofs.Sessions
import Conveyor.Proofs.Settling
import Conveyor.Proofs.Spelling
import Conveyor.Proofs.Stages
import Conveyor.Proofs.Steps
import Conveyor.Proofs.Teardown
import Conveyor.Proofs.Terminal
import Conveyor.Proofs.Unadmitted
import Conveyor.Proofs.Waking
import Conveyor.Proofs.Workers
import Conveyor.Proofs.Writing
import Conveyor.Refusal
import Conveyor.Ring.Basic
import Conveyor.Ring.Lemmas
import Conveyor.Routing.Basic
import Conveyor.Routing.Spec
import Conveyor.Session.Buffer
import Conveyor.Session.Command
import Conveyor.Session.Play
import Conveyor.Session.Row
import Conveyor.Session.Script
import Conveyor.Session.State
import Conveyor.Settings.Basic
import Conveyor.Settings.Given
import Conveyor.Settings.Text
import Conveyor.SetupError
import Conveyor.Tally
import Conveyor.WhenFull
