/-
Conveyor.Hub.Basic — several carriers, the pools on them, and a registry
in which their pools may be entered under their carriers' names.

Each carrier has a line of its own, and a bare row of channels is a line
that no carrier owns. Pools are numbered in the order in which they were
built, over all lines; the number of a pool is what a signal holds that
can close it from anywhere.

Each operation runs from beginning to end here. On the lines it is made
of the same actions as any other run, so what holds of every reachable
line holds of these.
-/
import Conveyor.Hub.Registry
import Conveyor.Line.Schedule

namespace Conveyor

/-- A carrier. -/
structure Carrier where
  name : String
  settings : Settings
  /-- The line it works on. -/
  line : Nat
  /-- Whether it enters its pools in the registry. -/
  registered : Bool
  dropped : Bool := false

/-- Where a pool is found. -/
structure PoolPlace where
  line : Nat
  index : Nat
  deriving DecidableEq, Repr

/-- What a carrier is asked for when it is to have a new pool. -/
structure PoolOrder where
  workers : Nat
  shared : Bool
  /-- How long an idle worker rests, if not as the settings say. -/
  cycle : Option Span := none

/-- Carriers, bare rows of channels, their pools and the registry. -/
structure Hub (α : Type) where
  lines : List (Line α) := []
  carriers : List Carrier := []
  /-- All pools, in the order in which they were built. -/
  pools : List PoolPlace := []
  /-- For each name, the number of the pool entered under it. -/
  registry : Registry Nat := ∅
  log : List Notice := []

namespace Hub

variable {α : Type}

/-- The name of a carrier that was given none. -/
def defaultName : String := "default"

/-! ## Lines -/

/-- Line `i` is now `s`; what it has noted meanwhile goes to the log. -/
def setLine (h : Hub α) (i : Nat) (s : Line α) : Hub α :=
  let noted := (h.lines[i]?.map fun old => old.journal.length).getD 0
  { h with lines := h.lines.set i s, log := h.log ++ (s.journal.drop noted).map Prod.snd }

/-- The hub with `f` done to line `i`. -/
def mapLine (h : Hub α) (i : Nat) (f : Line α → Line α) : Hub α :=
  match h.lines[i]? with
  | none => h
  | some s => h.setLine i (f s)

/-- How many turns there may be on all lines before nobody has one. -/
def turnBound (h : Hub α) : Nat := (h.lines.map Line.turnBound).foldr (· + ·) 0

/-- A further line for the log. -/
def note (h : Hub α) (n : Notice) : Hub α := { h with log := h.log ++ [n] }

/-- A row of channels of its own. -/
def addLine (h : Hub α) (channels room : Nat) (router : Router α) (policy : WhenFull) :
    Checked (Hub α) := do
  let store ← LaneSet.ofCounts channels room (router.comap Parcel.item) policy
  return { h with lines := h.lines ++ [.ofStore store] }

/-! ## Pools -/

/-- Pool number `n`. -/
def pool? (h : Hub α) (n : Nat) : Option (Pool (Parcel α)) := do
  let place ← h.pools[n]?
  (← h.lines[place.line]?).pools[place.index]?

/-- The number of the pool at a place. -/
def numberOf? (h : Hub α) (place : PoolPlace) : Option Nat := h.pools.idxOf? place

/-- Pool number `n` is closed. -/
def closePool (h : Hub α) (n : Nat) : Hub α :=
  match h.pools[n]? with
  | none => h
  | some place => h.mapLine place.line (·.closePool place.index)

/-- Pool number `n` begins. -/
def beginPool (h : Hub α) (n : Nat) : Hub α :=
  match h.pools[n]? with
  | none => h
  | some place => h.mapLine place.line (·.begin place.index)

/-- A pool of its own on line `i`, not begun. -/
def addPool (h : Hub α) (i : Nat) (plan : PoolPlan) : Except BuildError (Hub α) :=
  match h.lines[i]? with
  | none => .ok h
  | some s => do
    let s' ← s.build plan
    return { h.setLine i s' with pools := h.pools ++ [⟨i, s.pools.length⟩] }

/-! ## Carriers -/

/-- A further carrier, if its settings are any good. -/
def addCarrier (h : Hub α) (name : String) (settings : Settings) (registered : Bool)
    (router : Router α) : Except BuildError (Hub α) := do
  settings.check.mapError .settings
  let h' ← (h.addLine settings.channels.toNat settings.room.toNat router
    settings.policy).mapError .fault
  let carrier : Carrier := { name, settings, line := h.lines.length, registered }
  return { h' with carriers := h.carriers ++ [carrier] }.note
    (.carrierCreated name settings.channels settings.room settings.policy)

/-- The plan for a pool that carrier `c` is to have. -/
def planFor (c : Carrier) (order : PoolOrder) : PoolPlan where
  name := c.name
  workers := order.workers
  limit := c.settings.batchLimit.toNat
  shared := order.shared
  cycle := order.cycle.getD c.settings.cycle

/-- The number of the pool that the line of carrier `c` has installed. -/
def installed? (h : Hub α) (c : Carrier) : Option Nat := do
  let index ← (← h.lines[c.line]?).installed
  h.numberOf? ⟨c.line, index⟩

/-- The registry without the entry for pool `n` of carrier `c`, if that is
what is entered under its name. -/
def unregister (h : Hub α) (c : Carrier) (n : Nat) : Hub α :=
  if c.registered then { h with registry := h.registry.eraseIf c.name n } else h

/-- Pool `n` is entered under the name of carrier `c`. -/
def register (h : Hub α) (c : Carrier) (n : Nat) : Hub α :=
  if c.registered then { h with registry := h.registry.insert c.name n } else h

/-- Carrier `c` gets a new pool: it begins, it becomes the active one, and
the old one is closed. A plan that is no good changes nothing. -/
def consume (h : Hub α) (c : Carrier) (order : PoolOrder) : Except BuildError (Hub α) :=
  match h.lines[c.line]? with
  | none => .ok h
  | some s => do
    let begun ← s.install (planFor c order)
    let number := h.pools.length
    let old := h.installed? c
    let published := begun.publish.getD begun
    let place : PoolPlace := ⟨c.line, s.pools.length⟩
    let h := { h.setLine c.line published with pools := h.pools ++ [place] }
    let h := old.elim h (h.unregister c)
    let h := h.setLine c.line (published.retire.getD published)
    return h.register c number

/-- The pool of carrier `c` is closed, and its entry taken back. -/
def shutdown (h : Hub α) (c : Carrier) : Hub α :=
  match h.installed? c with
  | none => h
  | some n => (h.mapLine c.line Line.shutdown).unregister c n

/-- Carrier `c` takes no more items: its pool is shut down, and then its
channels are closed. -/
def close (h : Hub α) (c : Carrier) : Hub α :=
  ((h.shutdown c).mapLine c.line Line.closeAll).note (.carrierClosed c.name)

/-- Carrier number `k` is given up. -/
def drop (h : Hub α) (k : Nat) : Hub α :=
  match h.carriers[k]? with
  | none => h
  | some c =>
    { h.shutdown c with carriers := h.carriers.set k { c with dropped := true } }

/-! ## The registry -/

/-- Every pool that is entered is closed, and no entry is left. -/
def closeAll (h : Hub α) : Hub α :=
  h.registry.entries.foldl (fun h (name, n) => (h.note (.entryClosing name)).closePool n)
    { h with registry := ∅ }

/-- Everything in the registry is taken down: the number of entries there were, and the
hub with all of them closed. -/
def tearDown (h : Hub α) : Nat × Hub α := (h.registry.size, h.closeAll)

end Hub

end Conveyor
