/-
Conveyor.Session.Play — what each command does to a session.

`Session.perform` carries a command out, and `Session.play` lets everyone
else go on after it and shows what there is to see then.
-/
import Conveyor.Session.State

namespace Conveyor

/-- What is told of a call that is over. -/
def Verdict.reply (form : WriteForm) : Verdict Payload → Reply
  | .answered result => .wrote form result
  | .faulted fault => .fault fault
  | .visited => .silent

/-- What is told when no pool was built. -/
def BuildError.reply : BuildError → Reply
  | .settings e => .settingsError e
  | .fault f => .fault f

namespace Session

/-! ## Writes -/

/-- A call on a line goes on until it is over or has to wait. -/
def call (s : Session) (line : Nat) (form : WriteForm) (errand : Errand Payload) :
    Reply × Session :=
  match s.hub.lines[line]? with
  | none => (.unknown, s)
  | some l =>
    let i := l.calls.length
    let l := ((l.offer i errand).getD l).run i
    let s := s.mapLine line fun _ => l
    match l.calls[i]?.bind Call.verdict? with
    | some verdict => (verdict.reply form, s)
    | none =>
      let waiter := { number := s.blocked, line, call := i, form }
      (.blocked s.blocked, { s with waiters := s.waiters ++ [waiter], blocked := s.blocked + 1 })

/-- Offers `count` numbers from `first` on, and everyone goes on after each.
It ends early at an offer that is neither taken nor refused. -/
def fill (s : Session) (line : Nat) (first : Int) (accepted refused : Nat) :
    Nat → Reply × Session
  | 0 => (.filled accepted refused none, s)
  | count + 1 =>
    let (reply, s) := s.call line .brief (.produce (.number first))
    let s := s.settle
    match reply with
    | .wrote _ (.accepted _) => s.fill line (first + 1) (accepted + 1) refused count
    | .wrote _ (.refused ..) => s.fill line (first + 1) accepted (refused + 1) count
    | other => (.filled accepted refused (some other), s)

/-- Takes items from a channel. -/
def drain (s : Session) (line channel limit : Nat) : Option (List Payload) × Session :=
  match (s.hub.lines[line]?).bind (·.drain channel limit) with
  | none => (none, s)
  | some (parcels, l) => (some (parcels.map Parcel.item), s.mapLine line fun _ => l)

/-! ## Pools -/

/-- The last pool built has this script. If its workers share a consumer,
it is held until they are let go. -/
def giveScript (s : Session) (order : CrewOrder) : Session :=
  let s := { s with
    scripts := s.scripts ++ [order.script]
    shown := s.shown ++ [List.replicate order.workers 0] }
  match s.hub.pools.getLast? with
  | none => s
  | some place =>
    if order.shared && order.workers > 1 then s.mapLine place.line (·.setHeld place.index true)
    else s

/-- Carrier `k` gets a new pool. -/
def consume (s : Session) (c : Carrier) (order : CrewOrder) : Reply × Session :=
  let wanted : PoolOrder :=
    { workers := order.workers, shared := order.shared, cycle := order.cycle }
  match s.hub.consume c wanted with
  | .error (.settings e) => (.setupError (.settings e), s)
  | .error (.fault f) => (.fault f, s)
  | .ok hub => (.ok, { s with hub }.giveScript order)

/-- A pool is built on a bare row. -/
def addPool (s : Session) (line : Nat) (name : String) (batch : Nat) (metered : Bool)
    (order : CrewOrder) : Reply × Session :=
  let plan : PoolPlan :=
    { name, workers := order.workers, limit := batch, shared := order.shared
      cycle := order.cycle.getD ⟨0, 0, nanosPerSecond_pos⟩ }
  match s.hub.addPool line plan with
  | .error e => (e.reply, s)
  | .ok hub =>
    let number := s.hub.pools.length
    let own : OwnPool := { number, metered }
    let s := { s with hub, ownPools := s.ownPools ++ [own] }.giveScript order
    match hub.pool? number with
    | none => (.unknown, s)
    | some pool => (.pool name pool.stage pool.assignment, s)

/-- The stage of pool number `n`. -/
def stageOf? (s : Session) (n : Nat) : Option Stage := (s.hub.pool? n).map Pool.stage

/-- What is told of pool number `n` as a signal. -/
def signalReply (s : Session) (n : Nat) : Reply :=
  match s.hub.pool? n with
  | none => .unknown
  | some pool => .signal pool.plan.name pool.stage

/-- The caller waits for the end of pool number `n`, which `close` has
closed, while its workers are let go. -/
def join (s : Session) (n : Nat) (close : Session → Session) : Reply × Session :=
  let stopped := (s.hub.pool? n).any fun pool =>
    pool.workers.any fun w => (letter pool w) ≠ 'X' && (letter pool w) ≠ 'R'
  let (released, s) := (close s).settle.run [n]
  (.waited (if stopped then some true else none) released, s)

/-- The last pool of carrier `c` is shut down, and the caller waits for its
end. -/
def shutdownAndWait (s : Session) (c : Carrier) : Reply × Session :=
  match s.hub.installed? c with
  | none => (.waited none 0, s)
  | some n => s.join n fun s => { s with hub := s.hub.shutdown c }

/-- Someone wants to be admitted to pool number `n`, and to stay. -/
def visit (s : Session) (n : Nat) : Reply × Session :=
  match s.hub.pools[n]? with
  | none => (.unknown, s)
  | some place =>
    match s.hub.lines[place.line]? with
    | none => (.unknown, s)
    | some l =>
      let i := l.calls.length
      let l := ((l.offer i (.visit place.index)).getD l).run i
      let s := s.mapLine place.line fun _ => l
      if (l.calls[i]?.bind Call.verdict?).isNone then
        (.flag true, { s with visits := (place.line, i) :: s.visits })
      else (.flag false, s)

/-- The last one admitted leaves. -/
def leavePool (s : Session) : Reply × Session :=
  match s.visits with
  | [] => (.flag false, s)
  | (line, i) :: visits =>
    (.flag true, { s with visits }.mapLine line fun l => ((l.callAway i).getD l).run i)

/-! ## The registry -/

/-- The numbers of the signals kept of pool number `n`. -/
def signalsOf (s : Session) (n : Nat) : List Nat :=
  s.signals.zipIdx.filterMap fun (m, g) => if m = n then some g else none

/-- Signal `g` is entered under a name. -/
def register (s : Session) (name : String) (n : Nat) : Reply × Session :=
  let reply := (s.hub.registry.get? name).elim .silent fun old => .numbers (s.signalsOf old)
  (reply, { s with hub := { s.hub with registry := s.hub.registry.insert name n } })

/-- The entry under a name is taken back, if it is this pool. -/
def unregister (s : Session) (name : String) (n : Nat) : Reply × Session :=
  let registry := s.hub.registry.eraseIf name n
  (.flag (registry.size < s.hub.registry.size), { s with hub := { s.hub with registry } })

/-! ## Commands -/

/-- A carrier is set up. -/
def addCarrier (s : Session) (order : CarrierOrder) : Reply × Session :=
  match order.settings.setAll order.changes with
  | .error f => (.fault f, s)
  | .ok settings =>
    match s.hub.addCarrier order.name settings order.registered order.router.router with
    | .error e => (e.reply, s)
    | .ok hub => (.ok, { s with hub })

/-- What there is to say about a carrier. -/
def describe (s : Session) (c : Carrier) : Reply :=
  match s.hub.lines[c.line]? with
  | none => .unknown
  | some l =>
    .carrier
      { name := c.name
        settings := c.settings
        channels := l.store.count
        room := l.store.room
        policy := l.store.policy
        size := l.store.size
        isEmpty := l.store.isEmpty
        isConsuming := l.isConsuming }

/-- A command for a carrier. -/
def onCarrier (s : Session) (k : Nat) (f : Carrier → Reply × Session) : Reply × Session :=
  (s.hub.carriers[k]?).elim (.unknown, s) f

/-- A command for a line that is one of a row of lines. -/
def onLine (s : Session) (lines : List Nat) (k : Nat) (f : Nat → Reply × Session) :
    Reply × Session :=
  (lines[k]?).elim (.unknown, s) f

/-- A command for a pool on a bare row. -/
def onPool (s : Session) (p : Nat) (f : OwnPool → Reply × Session) : Reply × Session :=
  (s.ownPools[p]?).elim (.unknown, s) f

/-- A command for a signal that was kept. -/
def onSignal (s : Session) (g : Nat) (f : Nat → Reply × Session) : Reply × Session :=
  (s.signals[g]?).elim (.unknown, s) f

/-- Carries a command out. -/
def perform (s : Session) : Command → Reply × Session
  | .addCarrier order => s.addCarrier order
  | .describe k => s.onCarrier k fun c => (s.describe c, s)
  | .produce k item brief => s.onCarrier k fun c =>
      s.call c.line (if brief then .brief else .offered) (.produce item)
  | .fill k first count => s.onCarrier k fun c => s.fill c.line first 0 0 count
  | .setPolicy k policy => s.onCarrier k fun c =>
      (.policy policy, s.mapLine c.line (·.setPolicy policy))
  | .setRouter k spec => s.onCarrier k fun c =>
      (.silent, s.mapLine c.line (·.setRouter (spec.router.comap Parcel.item)))
  | .consume k order => s.onCarrier k fun c => s.consume c order
  | .shutdown k => s.onCarrier k fun c => (.silent, { s with hub := s.hub.shutdown c })
  | .shutdownAndWait k => s.onCarrier k s.shutdownAndWait
  | .close k => s.onCarrier k fun c => (.silent, { s with hub := s.hub.close c })
  | .drop k => s.onCarrier k fun _ => (.silent, { s with hub := s.hub.drop k })
  | .addView k => s.onCarrier k fun c =>
      let s := s.mapLine c.line (·.setPolicy .wait)
      (.policy .wait, { s with views := s.views ++ [c.line] })
  | .cloneView v => s.onLine s.views v fun line =>
      (.number ((s.hub.lines[line]?).elim 0 (·.store.count)),
        { s with views := s.views ++ [line] })
  | .produceInView v item brief => s.onLine s.views v fun line =>
      s.call line (if brief then .brief else .offered) (.write item (some .wait))
  | .drainView v channel limit => s.onLine s.views v fun line =>
      let (items, s) := s.drain line channel limit
      (.items (items.getD []), s)
  | .addRow channels room policy spec =>
    match s.hub.addLine channels room spec.router policy with
    | .error f => (.fault f, s)
    | .ok hub => (.silent, { s with hub, rows := s.rows ++ [s.hub.lines.length] })
  | .save j item brief => s.onLine s.rows j fun line =>
      s.call line (if brief then .brief else .saved) (.write item none)
  | .drainRow j channel limit => s.onLine s.rows j fun line =>
      let (items, s) := s.drain line channel limit
      (items.elim .silent .items, s)
  | .setRowPolicy j policy => s.onLine s.rows j fun line =>
      (.silent, s.mapLine line (·.setPolicy policy))
  | .closeRow j => s.onLine s.rows j fun line => (.silent, s.mapLine line Line.closeAll)
  | .addPool j name batch metered order => s.onLine s.rows j fun line =>
      s.addPool line name batch metered order
  | .beginPool p => s.onPool p fun own => (.ok, { s with hub := s.hub.beginPool own.number })
  | .closePool p => s.onPool p fun own => (.silent, { s with hub := s.hub.closePool own.number })
  | .dropPool p => s.onPool p fun own =>
      (.silent,
        { s with
          hub := s.hub.closePool own.number
          ownPools := s.ownPools.set p { own with dropped := true } })
  | .joinPool p => s.onPool p fun own =>
      s.join own.number fun s => { s with hub := s.hub.closePool own.number }
  | .describePool p => s.onPool p fun own =>
      match s.stageOf? own.number with
      | none => (.unknown, s)
      | some stage => (.stages (if own.dropped then none else some stage) stage, s)
  | .visit p => s.onPool p fun own => s.visit own.number
  | .leavePool => s.leavePool
  | .keepSignal p => s.onPool p fun own =>
      (.number s.signals.length, { s with signals := s.signals ++ [own.number] })
  | .find name =>
    match s.hub.registry.get? name with
    | none => (.silent, s)
    | some n => (s.signalReply n, { s with signals := s.signals ++ [n] })
  | .register name g => s.onSignal g (s.register name)
  | .unregister name g => s.onSignal g (s.unregister name)
  | .names => (.names s.hub.registry.names, s)
  | .closeAll =>
    let (count, hub) := s.hub.tearDown
    (.number count, { s with hub })
  | .describeSignal g => s.onSignal g fun n => (s.signalReply n, s)
  | .closeSignal g => s.onSignal g fun n => (.silent, { s with hub := s.hub.closePool n })
  | .sameSignal g h => s.onSignal g fun n => s.onSignal h fun m => (.flag (n = m), s)
  | .release n w =>
    if ((s.hub.pool? n).any fun pool => w < pool.size) then
      match s.release n w with
      | none => (.flag false, s)
      | some s' => (.flag true, s')
    else (.silent, s)
  | .run none =>
    let (count, s) := s.run (List.range s.hub.pools.length)
    (.number count, s)
  | .run (some n) =>
    let (count, s) := s.run [n]
    (.number count, s)
  | .callDefaultHooks => (.number 0, s)

/-! ## What a step shows -/

/-- The writes that waited and are over, and those that still wait. -/
def finished (s : Session) : List (Nat × Reply) × List Waiter :=
  s.waiters.foldr (fun waiter (ended, left) =>
    let call := (s.hub.lines[waiter.line]?).bind fun l => l.calls[waiter.call]?
    match call.bind Call.verdict? with
    | some verdict => ((waiter.number, verdict.reply waiter.form) :: ended, left)
    | none => (ended, waiter :: left)) ([], [])

/-- What the consumer of a worker notices at an entry of the diary. -/
def eventOf (pool : Pool (Parcel Payload)) (w : Nat) (worker : Worker (Parcel Payload)) :
    Deed (Parcel Payload) → Option HookEvent
  | .entered .start =>
    some (.started (pool.plan.threadName w) (if pool.plan.shared then 0 else w))
  | .entered (.consume _ batch) => some (.batch (batch.items.map Parcel.item))
  | .entered (.error _ batch e) =>
    some (.failed e.message e.isPanic (batch.items.map Parcel.item))
  | .entered .exit => some (.exited (if stops pool then some worker.consumeCalls else none))
  | .left .. => none

/-- What the consumers of a pool noticed since they were last asked. -/
def eventsOf (pool : Pool (Parcel Payload)) (n : Nat) (shown : List Nat) :
    List (Nat × Nat × List HookEvent) :=
  pool.workers.zipIdx.filterMap fun (worker, w) =>
    let events := (worker.diary.drop (shown.getD w 0)).filterMap (eventOf pool w worker)
    if events.isEmpty then none else some (n, w, events)

/-- The pools with their numbers. -/
def pools (s : Session) : List (Pool (Parcel Payload) × Nat) :=
  (List.range s.hub.pools.length).filterMap fun n => (s.hub.pool? n).map fun pool => (pool, n)

/-- What is shown of a carrier. -/
def carrierMeter (s : Session) (c : Carrier) : Option (Nat × Bool × Option Snapshot) :=
  if c.dropped then none
  else (s.hub.lines[c.line]?).map fun l =>
    (l.store.size, l.isConsuming, if c.settings.metered then some l.snapshot else none)

/-- Carries a command out, lets everyone go on, and shows what there is to
see. -/
def play (s : Session) (c : Command) : StepRecord × Session :=
  let (reply, s) := s.perform c
  let s := s.settle
  let (ended, waiters) := s.finished
  let pools := s.pools
  let record : StepRecord :=
    { reply
      events := pools.flatMap fun (pool, n) => eventsOf pool n (s.shown.getD n [])
      finished := ended
      stations := pools.map fun (pool, _) => String.ofList (letters pool)
      carriers := s.hub.carriers.map s.carrierMeter
      rows := s.rows.map fun line =>
        (s.hub.lines[line]?).elim [] fun l => l.store.lanes.map Lane.size
      meters := s.ownPools.map fun own =>
        if own.metered then
          (s.hub.pool? own.number).map fun pool => Snapshot.ofTallies {} pool.tally
        else none }
  let shown := pools.map fun (pool, _) => pool.workers.map fun w => w.diary.length
  (record, { s with waiters, shown })

/-- What the workers of all pools have done that is worth a log line. -/
def workerLogs (s : Session) : List (Nat × Nat × List Notice) :=
  s.pools.flatMap fun (pool, n) =>
    if pool.workers.isEmpty then (List.range pool.size).map fun w => (n, w, [])
    else pool.workers.zipIdx.map fun (worker, w) => (n, w, pool.noticesOf w worker)

end Session

end Conveyor
