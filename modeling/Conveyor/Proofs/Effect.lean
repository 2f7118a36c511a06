/-
Conveyor.Proofs.Effect — what one step can do to a line.

`Line.step` goes by action, by the place of a call and by the station of
a worker. An `Effect` is one change of a line, written down whole and
together with what the line was like before it. Every step is a chain of
effects (`Conveyor.Proofs.Steps`), so an invariant of all runs has one
case for each effect.

The numbers of pools that a line knows are those of pools that exist
(`Named`). Every effect keeps that, and a step needs it to be a chain of
effects: a count in a pool that is not there would be lost.
-/
import Conveyor.Line.Step
import Mathlib.Logic.Relation

namespace Conveyor

variable {α : Type u}

/-- A call at this place is on its way into pool `p`, or out of it again. -/
def Place.Names : Place α → Nat → Prop
  | .found q, p | .counted q, p | .turnedAway q, p => q = p
  | _, _ => False

/-- Whether an action is one of a call: it is offered, goes on, or is called away. -/
def Action.isOfCall : Action α → Bool
  | .offer .. | .advance _ | .callAway _ => true
  | _ => false

/-- Whether the action leaves the router in its place. -/
def Action.keepsRouter : Action α → Bool
  | .setRouter _ => false
  | _ => true

/-- Whether the action has to do with closing the channels. -/
def Action.isClosing : Action α → Bool
  | .startClosing | .closeNext _ => true
  | _ => false

namespace Call

/-- The call knows pool `p` by its number. -/
def Names (c : Call α) (p : Nat) : Prop :=
  c.errand = .visit p ∨ c.place.Names p ∨ c.pass = some p

/-- The channel that the call looks at next, and the policy it does so by. -/
def target? (c : Call α) : Option (Nat × WhenFull) :=
  match c.place with
  | .routed channel policy => some (channel, policy)
  | .waiting channel => some (channel, .wait)
  | _ => none

end Call

namespace Line

/-- Every pool whose number somebody knows has been built. -/
structure Named (s : Line α) : Prop where
  active : ∀ p, s.active = some p → p < s.pools.length
  installed : ∀ p, s.installed = some p → p < s.pools.length
  exchange : ∀ p, s.exchange = .begun p ∨ s.exchange = .published p → p < s.pools.length
  calls : ∀ c ∈ s.calls, ∀ p, c.Names p → p < s.pools.length

/-! ## The effects -/

/-- Call `c`, which has number `i`, may come to this place, and nothing else
happens. -/
inductive Hop (s : Line α) (i : Nat) (c : Call α) : Place α → Prop where
  | find {item : α} {p : Nat} :
      c.place = .begun → c.errand = .produce item → s.active = some p → Hop s i c (.found p)
  | skip {item : α} :
      c.place = .begun → c.errand = .produce item → s.active = none → Hop s i c .cleared
  | start {item : α} : c.place = .begun → c.errand = .write item none → Hop s i c .cleared
  | insist {item : α} {policy : WhenFull} :
      c.place = .begun → c.errand = .write item (some policy) → Hop s i c (.informed policy)
  | visit {p : Nat} : c.place = .begun → c.errand = .visit p → Hop s i c (.found p)
  | turnAway {p : Nat} :
      c.place = .counted p → s.isRunning p = false → Hop s i c (.turnedAway p)
  | ask : c.place = .cleared → Hop s i c (.informed s.store.policy)
  | refuse {item : α} {n : Nat} {policy : WhenFull} {lane : Lane (Parcel α)} {why : Refusal}
      {back : Parcel α} :
      c.target? = some (n, policy) → c.item? = some item → s.store.lanes[n]? = some lane →
      lane.attempt policy ⟨i, item⟩ = .ok (.refused why back) →
      Hop s i c (.settled (.refused why back.item))
  | wait {item : α} {n : Nat} {policy : WhenFull} {lane : Lane (Parcel α)} :
      c.target? = some (n, policy) → c.item? = some item → s.store.lanes[n]? = some lane →
      lane.attempt policy ⟨i, item⟩ = .ok .mustWait → Hop s i c (.waiting n)
  | stray {n : Nat} {policy : WhenFull} :
      c.target? = some (n, policy) → s.store.lanes[n]? = none →
      Hop s i c (.leaving (.faulted (.indexOutOfRange n s.store.count)))
  | fail {item : α} {n : Nat} {policy : WhenFull} {lane : Lane (Parcel α)} {fault : Fault} :
      c.target? = some (n, policy) → c.item? = some item → s.store.lanes[n]? = some lane →
      lane.attempt policy ⟨i, item⟩ = .error fault → Hop s i c (.leaving (.faulted fault))
  | callAway : c.place = .staying → Hop s i c (.leaving .visited)
  | finish {verdict : Verdict α} :
      c.place = .leaving verdict → c.pass = none → Hop s i c (.over verdict)

/-- Worker `worker` of pool `pool` may come to be this one, and nothing else
happens. -/
inductive Pace (s : Line α) (pool : Pool (Parcel α)) (worker : Worker (Parcel α)) :
    Worker (Parcel α) → Prop where
  | enter {hook : Hook (Parcel α)} :
      worker.station = .door hook → pool.mayEnter = true → Pace s pool worker (worker.enter hook)
  | leave {hook : Hook (Parcel α)} (how : HookEnd) :
      worker.station = .inside hook → Pace s pool worker (worker.leave hook how)
  | watch : worker.station = .watching → Pace s pool worker (watch pool worker)
  | check : worker.station = .checking → Pace s pool worker (check pool worker)
  | skip {round : Round} {n : Nat} {rest : List Nat} {batch : Batch (Parcel α)} :
      worker.station = .sweeping round (n :: rest) batch → s.store.lanes[n]? = none →
      Pace s pool worker (worker.moveTo (.sweeping round rest batch))
  | fail {round : Round} {n : Nat} {rest : List Nat} {batch : Batch (Parcel α)}
      {lane : Lane (Parcel α)} {fault : Fault} :
      worker.station = .sweeping round (n :: rest) batch → s.store.lanes[n]? = some lane →
      lane.take (pool.limitOf round) = .error fault →
      Pace s pool worker (worker.moveTo (.broken fault))
  | handOver {round : Round} {batch : Batch (Parcel α)} :
      worker.station = .sweeping round [] batch → Pace s pool worker (handOver worker round batch)

/-- One change of a line. -/
inductive Effect (s : Line α) : Line α → Prop where
  /-- Settings change, the carrier changes pools, or something is put down
  for the log. -/
  | aside (policy : WhenFull) (router : Router (Parcel α)) (active installed : Option Nat)
      (exchange : Exchange) (closers : List Nat) (journal : List (Nat × Notice)) :
      (∀ p, active = some p → p < s.pools.length) →
      (∀ p, installed = some p → p < s.pools.length) →
      (∀ p, exchange = .begun p ∨ exchange = .published p → p < s.pools.length) →
      Effect s { s with
        store := { s.store with policy, router }, active, installed, exchange, closers, journal }
  | offer {producer : Nat} {errand : Errand α} :
      s.isPossible errand = true →
      (∀ c ∈ s.calls, c.producer = producer → c.isOver = true) →
      Effect s { s with calls := s.calls ++ [{ producer, errand, place := .begun }] }
  | hop {i : Nat} {c : Call α} {place : Place α} :
      s.calls[i]? = some c → Hop s i c place →
      Effect s { s with calls := s.calls.set i { c with place } }
  /-- A call counts itself as admitted. -/
  | enroll {i p : Nat} {c : Call α} {pool : Pool (Parcel α)} :
      s.calls[i]? = some c → c.place = .found p → s.pools[p]? = some pool →
      Effect s { s with
        calls := s.calls.set i { c with place := .counted p }
        pools := s.pools.set p pool.enroll }
  /-- A call has seen that the pool it is counted in runs. -/
  | enter {i p : Nat} {c : Call α} {pool : Pool (Parcel α)} {place : Place α} :
      s.calls[i]? = some c → c.place = .counted p → s.pools[p]? = some pool →
      pool.stage = .running → place = .staying ∨ place = .cleared →
      (place = .staying ↔ c.item? = none) →
      Effect s { s with calls := s.calls.set i { c with place, pass := some p } }
  /-- A call that was turned away takes its count back. -/
  | turnBack {i p : Nat} {c : Call α} {pool : Pool (Parcel α)} :
      s.calls[i]? = some c → c.place = .turnedAway p → s.pools[p]? = some pool →
      Effect s { s with
        calls := s.calls.set i { c with
          place := c.item?.elim (.leaving .visited) fun a => .settled (.refused .noConsumer a) }
        pools := s.pools.set p pool.unenroll }
  /-- The router names a channel. -/
  | route {i n : Nat} {c : Call α} {policy : WhenFull} {item : α} :
      s.calls[i]? = some c → c.place = .informed policy → c.item? = some item →
      s.store.router.route s.store.count ⟨i, item⟩ = .ok n →
      Effect s { s with
        store := { s.store with router := s.store.router.advance }
        calls := s.calls.set i { c with place := .routed n policy }
        routed := s.routed ++ [(i, n)] }
  /-- The router names no channel. -/
  | misroute {i : Nat} {c : Call α} {policy : WhenFull} {item : α} {fault : Fault} :
      s.calls[i]? = some c → c.place = .informed policy → c.item? = some item →
      s.store.router.route s.store.count ⟨i, item⟩ = .error fault →
      Effect s { s with
        store := { s.store with router := s.store.router.advance }
        calls := s.calls.set i { c with place := .leaving (.faulted fault) } }
  | write {i n : Nat} {c : Call α} {policy : WhenFull} {item : α} {lane lane' : Lane (Parcel α)}
      {how : Acceptance} {out : Option (Parcel α)} :
      s.calls[i]? = some c → c.target? = some (n, policy) → c.item? = some item →
      s.store.lanes[n]? = some lane →
      lane.attempt policy ⟨i, item⟩ = .ok (.accepted how out lane') →
      Effect s { s with
        store := s.store.setLane n lane'
        calls := s.calls.set i { c with place := .settled (.accepted how) }
        written := s.written ++ [(n, ⟨i, item⟩)]
        evicted := s.evicted ++ (out.map fun parcel => (n, parcel)).toList }
  /-- The result of a call is added to the counters, if it is one that counts. -/
  | tally {i : Nat} {c : Call α} {result : WriteResult α} :
      s.calls[i]? = some c → c.place = .settled result →
      Effect s { s with
        calls := s.calls.set i { c with place := .leaving (.answered result) }
        offers := if c.isMetered then s.offers.count result else s.offers }
  /-- A call is over and gives up its admission. -/
  | release {i p : Nat} {c : Call α} {pool : Pool (Parcel α)} {verdict : Verdict α} :
      s.calls[i]? = some c → c.place = .leaving verdict → c.pass = some p →
      s.pools[p]? = some pool →
      Effect s { s with
        calls := s.calls.set i { c with place := .over verdict }
        pools := s.pools.set p pool.unenroll }
  | build {plan : PoolPlan} {pool : Pool (Parcel α)} :
      Pool.ofPlan plan s.store.count = .ok pool → Effect s { s with pools := s.pools ++ [pool] }
  | begin {p : Nat} {pool : Pool (Parcel α)} :
      s.pools[p]? = some pool → pool.stage = .created →
      Effect s { s with pools := s.pools.set p pool.begin }
  | close {p : Nat} {pool : Pool (Parcel α)} :
      s.pools[p]? = some pool → pool.stage ≠ .closed →
      Effect s { s with
        pools := s.pools.set p pool.close
        wakings := s.wakings ++ [(p, List.range pool.workers.length)] }
  | hold {p : Nat} {pool : Pool (Parcel α)} (held : Bool) :
      s.pools[p]? = some pool → Effect s { s with pools := s.pools.set p { pool with held } }
  | closeLane {n : Nat} {lane : Lane (Parcel α)} :
      s.store.lanes[n]? = some lane → Effect s { s with store := s.store.setLane n lane.close }
  /-- A reader that is no worker takes items out. -/
  | drain {n limit : Nat} {lane : Lane (Parcel α)} {taken : Taken (Parcel α)} :
      s.store.lanes[n]? = some lane → lane.take limit = .ok taken →
      Effect s { s with
        store := s.store.setLane n taken.lane
        viewed := s.viewed ++ taken.items.map fun parcel => (n, parcel) }
  | pace {p w : Nat} {pool : Pool (Parcel α)} {worker worker' : Worker (Parcel α)} :
      s.pools[p]? = some pool → pool.workers[w]? = some worker → Pace s pool worker worker' →
      Effect s { s with pools := s.pools.set p (pool.setWorker w worker') }
  /-- A worker takes items out. -/
  | sweep {p w n : Nat} {pool : Pool (Parcel α)} {worker : Worker (Parcel α)} {round : Round}
      {rest : List Nat} {batch : Batch (Parcel α)} {lane : Lane (Parcel α)}
      {taken : Taken (Parcel α)} :
      s.pools[p]? = some pool → pool.workers[w]? = some worker →
      worker.station = .sweeping round (n :: rest) batch → s.store.lanes[n]? = some lane →
      lane.take (pool.limitOf round) = .ok taken →
      Effect s { s with
        store := s.store.setLane n taken.lane
        pools := s.pools.set p (pool.setWorker w
          (worker.moveTo (.sweeping round rest (batch ++ [⟨n, taken.items⟩])))) }
  /-- The end of a `consume` call is counted. -/
  | settle {p w : Nat} {pool : Pool (Parcel α)} {worker : Worker (Parcel α)} {round : Round}
      {batch : Batch (Parcel α)} {e : Option ConsumeError} :
      s.pools[p]? = some pool → pool.workers[w]? = some worker →
      worker.station = .settling round batch e →
      Effect s { s with
        pools := s.pools.set p
          { pool.setWorker w (worker.moveTo
              (e.elim (Worker.afterRound round) fun e => .door (.error round batch e))) with
            tally := e.elim (pool.tally.succeed batch.items.length) fun _ => pool.tally.fail } }

/-- What some effects one after the other make of a line. -/
abbrev Effects : Line α → Line α → Prop := Relation.ReflTransGen Effect

variable {s t : Line α}

/-! ## Effects keep the numbers of pools right -/

/-- A call that comes to another place knows the pools it knew, and the one
that the place names. -/
theorem Named.of_place (h : s.Named) {i : Nat} {c : Call α} (hc : s.calls[i]? = some c)
    {place : Place α} (hp : ∀ p, place.Names p → p < s.pools.length) (p : Nat)
    (hnames : ({ c with place } : Call α).Names p) : p < s.pools.length := by
  have hold := h.calls c (List.mem_of_getElem? hc) p
  rcases hnames with he | hplace | hpass
  · exact hold (.inl he)
  · exact hp p hplace
  · exact hold (.inr (.inr hpass))

theorem Named.of_hop (h : s.Named) {i : Nat} {c : Call α} (hc : s.calls[i]? = some c)
    {place : Place α} (hop : Hop s i c place) (p : Nat) (hp : place.Names p) :
    p < s.pools.length := by
  have hold := h.calls c (List.mem_of_getElem? hc) p
  cases hop with
  | find _ _ ha =>
    cases hp
    exact h.active p ha
  | visit _ he =>
    cases hp
    exact hold (.inl he)
  | turnAway hcounted _ =>
    cases hp
    exact hold (.inr (.inl (by rw [hcounted]; rfl)))
  | _ => exact hp.elim

/-- Pools are added at most, and no call comes to know one that is not there. -/
theorem Named.of_calls (h : s.Named) (ha : t.active = s.active) (hi : t.installed = s.installed)
    (he : t.exchange = s.exchange) (hl : s.pools.length ≤ t.pools.length)
    (hc : ∀ c ∈ t.calls, c ∈ s.calls ∨ ∀ p, c.Names p → p < s.pools.length) : t.Named where
  active p hp := Nat.lt_of_lt_of_le (h.active p (ha ▸ hp)) hl
  installed p hp := Nat.lt_of_lt_of_le (h.installed p (hi ▸ hp)) hl
  exchange p hp := Nat.lt_of_lt_of_le (h.exchange p (he ▸ hp)) hl
  calls c hmem p hp := by
    rcases hc c hmem with hold | hnew
    · exact Nat.lt_of_lt_of_le (h.calls c hold p hp) hl
    · exact Nat.lt_of_lt_of_le (hnew p hp) hl

theorem Named.of_pools (h : s.Named) (ha : t.active = s.active) (hi : t.installed = s.installed)
    (he : t.exchange = s.exchange) (hl : s.pools.length ≤ t.pools.length)
    (hc : t.calls = s.calls) : t.Named :=
  h.of_calls ha hi he hl fun _ hmem => .inl (hc ▸ hmem)

theorem Named.of_setCall (h : s.Named) {i : Nat} {c' : Call α} (ha : t.active = s.active)
    (hi : t.installed = s.installed) (he : t.exchange = s.exchange)
    (hl : t.pools.length = s.pools.length) (hc : t.calls = s.calls.set i c')
    (hnew : ∀ p, c'.Names p → p < s.pools.length) : t.Named := by
  refine h.of_calls ha hi he (Nat.le_of_eq hl.symm) ?_
  intro c hmem
  rw [hc] at hmem
  rcases List.mem_or_eq_of_mem_set hmem with hold | rfl
  · exact .inl hold
  · exact .inr hnew

theorem Effect.named (e : Effect s t) (h : s.Named) : t.Named := by
  cases e with
  | aside _ _ _ _ _ _ _ ha hi he => exact ⟨ha, hi, he, h.calls⟩
  | @offer producer errand hpos _ =>
    refine h.of_calls rfl rfl rfl (Nat.le_refl _) ?_
    intro c hmem
    rcases List.mem_append.mp hmem with hold | hnew
    · exact .inl hold
    · obtain rfl := List.mem_singleton.mp hnew
      refine .inr ?_
      intro p hp
      rcases hp with he | hplace | hpass
      · have he : errand = .visit p := he
        simpa [isPossible, he] using hpos
      · exact hplace.elim
      · cases hpass
  | hop hc hop => exact h.of_setCall rfl rfl rfl rfl rfl (h.of_place hc (h.of_hop hc hop))
  | enroll hc hp hpool =>
    refine h.of_setCall rfl rfl rfl (List.length_set ..) rfl (h.of_place hc ?_)
    intro q hq
    cases hq
    exact (List.getElem?_eq_some_iff.mp hpool).1
  | enter hc hp hpool hrun hplace =>
    refine h.of_setCall rfl rfl rfl rfl rfl ?_
    intro p hnames
    rcases hnames with he | hq | hpass
    · exact h.calls _ (List.mem_of_getElem? hc) p (.inl he)
    · rcases hplace with rfl | rfl <;> exact hq.elim
    · cases hpass
      exact (List.getElem?_eq_some_iff.mp hpool).1
  | @turnBack _ _ c _ hc =>
    refine h.of_setCall rfl rfl rfl (List.length_set ..) rfl (h.of_place hc ?_)
    intro q hq
    cases hi : c.item? <;> rw [hi] at hq <;> exact hq.elim
  | route hc | misroute hc | write hc | tally hc =>
    exact h.of_setCall rfl rfl rfl rfl rfl (h.of_place hc fun q hq => hq.elim)
  | release hc =>
    exact h.of_setCall rfl rfl rfl (List.length_set ..) rfl (h.of_place hc fun q hq => hq.elim)
  | build => exact h.of_pools rfl rfl rfl (by simp) rfl
  | begin | close | hold | pace | sweep | settle =>
    exact h.of_pools rfl rfl rfl (Nat.le_of_eq (List.length_set ..).symm) rfl
  | closeLane | drain => exact h.of_pools rfl rfl rfl (Nat.le_refl _) rfl

theorem Effect.length_pools_le (e : Effect s t) : s.pools.length ≤ t.pools.length := by
  cases e <;> simp

theorem Effects.named (e : Effects s t) (h : s.Named) : t.Named := by
  induction e with
  | refl => exact h
  | tail _ e ih => exact e.named ih

theorem Effects.length_pools_le (e : Effects s t) : s.pools.length ≤ t.pools.length := by
  induction e with
  | refl => exact Nat.le_refl _
  | tail _ e ih => exact Nat.le_trans ih e.length_pools_le

end Line

end Conveyor
