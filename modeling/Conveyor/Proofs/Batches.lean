/-
Conveyor.Proofs.Batches — what the batches of a worker contain.

A worker goes round its channels again and again. Each time is a `Tour`: the worker looks
at its pool, and then takes items from one channel after the other, the oldest first. Its
steps so far are tours and, between them, steps that have nothing to do with the channels
(`Divided`). What it has seen of its pool decides how much it takes (`Round.Sees`,
`Round.split`). It hands over the items of a tour, if there are any, before it goes on the
next, and no tour comes after a final one (`Tour.Follows`).

`Log` says so of the steps of a worker up to now, in the middle of a tour or not. A step of
the worker is one of four kinds (`Leg`), and each keeps the log right.
-/
import Conveyor.Proofs.Moments
import Conveyor.Proofs.Workers
import Mathlib.Data.List.Forall2

namespace Conveyor

variable {α : Type u}

/-! ## Rounds -/

namespace Round

/-- Where a worker looks at its pool before such a round. -/
def lookout : Round → Station α
  | .running => .watching
  | .lingering | .final => .checking

/-- What it has seen there. -/
def Sees (pool : Pool α) : Round → Prop
  | .running => pool.isRunning = true
  | .lingering => pool.stage = .closed ∧ 0 < pool.admitted
  | .final => pool.stage = .closed ∧ pool.admitted = 0

/-- What a worker takes on such a round out of a channel with these items, and what it
leaves there. -/
def split (limit : Nat) (items : List α) : Round → List α × List α
  | .running | .lingering => (items.take limit, items.drop limit)
  | .final => (items, [])

/-- With nobody admitted, what a worker sees when it checks sends it on the final round. -/
theorem final_of_sees {round : Round} {pool : Pool α} (h : round.Sees pool)
    (hlook : (round.lookout : Station α) = .checking) (hnone : pool.admitted = 0) :
    round = .final := by
  cases round with
  | running => cases hlook
  | lingering => exact absurd h.2 (Nat.not_lt.mpr (Nat.le_of_eq hnone))
  | final => rfl

end Round

/-- What `Lane.take` does with the limit of a round, in terms of the items alone. -/
theorem Lane.IsSound.split_of_take {l : Lane α} (h : l.IsSound) {pool : Pool α} {round : Round}
    {taken : Taken α} (ht : l.take (pool.limitOf round) = .ok taken) :
    (taken.items, taken.lane.toList) = round.split pool.plan.limit l.toList := by
  cases round with
  | running | lingering =>
    obtain ⟨l', htake, hl', -⟩ := Holds.take h pool.plan.limit
    rw [Pool.limitOf, htake] at ht
    cases ht
    rw [hl'.toList_eq]
    rfl
  | final =>
    obtain ⟨l', htake, hl', -⟩ := Holds.take_noLimit h
    rw [Pool.limitOf, htake] at ht
    cases ht
    rw [hl'.toList_eq]
    rfl

namespace Station

/-- The batch that is handed over next. -/
def atDoor : Station α → List (Round × Batch α)
  | .door (.consume round batch) => [(round, batch)]
  | _ => []

/-- Whether a worker here is on its way round the channels. -/
def isSweeping : Station α → Bool
  | .sweeping .. => true
  | _ => false

end Station

namespace Worker

/-- What the worker has handed over, and what it is about to hand over. -/
def outgoing (worker : Worker α) : List (Round × Batch α) :=
  worker.deliveries ++ worker.station.atDoor

theorem outgoing_of_deliveries {worker worker' : Worker α} (h : worker.station.atDoor = [])
    (h' : worker'.station.atDoor = []) (hd : worker'.deliveries = worker.deliveries) :
    worker'.outgoing = worker.outgoing := by
  rw [outgoing, outgoing, h, h', hd]

/-- To enter `consume` is to hand the batch over. -/
theorem deliveries_enter (worker : Worker α) (hook : Hook α) :
    (worker.enter hook).deliveries = worker.deliveries ++ (Station.door hook).atDoor := by
  cases hook <;> simp [deliveries, enter, Station.atDoor]

/-- To leave a hook hands nothing over. -/
theorem deliveries_leave (worker : Worker α) (hook : Hook α) (how : HookEnd) :
    (worker.leave hook how).deliveries = worker.deliveries := by
  simp [deliveries, leave]

/-- The worker has been round its channels for the last time. -/
def IsThrough (worker : Worker α) : Prop :=
  worker.round = .final ∧ worker.station.isSweeping = false

/-- Between two rounds nothing is at the door, and no channel is being emptied. -/
theorem afterRound_eq (round : Round) : (afterRound round : Station α).atDoor = [] ∧
    (afterRound round : Station α).isSweeping = false := by
  cases round <;> exact ⟨rfl, rfl⟩

/-- Nor is it once a hook is over. -/
theorem afterHook_eq (hook : Hook α) (how : HookEnd) :
    (afterHook hook how).atDoor = [] ∧ (afterHook hook how).isSweeping = false := by
  cases hook with
  | error round => exact afterRound_eq round
  | _ => exact ⟨rfl, rfl⟩

/-- Nor once a `consume` call has been counted. -/
theorem settled_eq (round : Round) (batch : Batch α) (e : Option ConsumeError) :
    (e.elim (afterRound round) fun e => Station.door (.error round batch e)).atDoor = [] ∧
      (e.elim (afterRound round) fun e => Station.door (.error round batch e)).isSweeping =
        false := by
  cases e with
  | none => exact afterRound_eq round
  | some e => exact ⟨rfl, rfl⟩

end Worker

namespace Line

/-- The batches that worker `w` of pool `p` has handed over. -/
def delivered (s : Line α) (p w : Nat) : List (Round × Batch (Parcel α)) :=
  (s.worker? p w).elim [] Worker.deliveries

/-- The steps of worker `w` of pool `p` in a run. -/
def stepsOf (p w : Nat) (s : Line α) (actions : List (Action α)) : List (Moment (Line α)) :=
  moments step (Action.isStepOf p w) s actions

/-! ## Tours -/

/-- The worker takes `haul` out of its channel, and leaves all other channels alone. -/
structure Takes (p w limit : Nat) (round : Round) (haul : Haul (Parcel α))
    (m : Moment (Line α)) : Prop where
  sweeping : ∃ todo batch,
    m.before.station? p w = some (.sweeping round (haul.channel :: todo) batch)
  takes : ∃ lane lane', m.before.store.lanes[haul.channel]? = some lane ∧
    m.after.store = m.before.store.setLane haul.channel lane' ∧
    (haul.items, lane'.toList) = round.split limit lane.toList

/-- The worker does nothing to the channels, and neither looks whether writes are admitted
nor sets out on a tour. -/
structure Rests (p w : Nat) (m : Moment (Line α)) : Prop where
  store : m.after.store = m.before.store
  notChecking : m.before.station? p w ≠ some .checking
  notSweeping : ∀ worker, m.after.worker? p w = some worker → worker.station.isSweeping = false

/-- One time round the channels of a worker. -/
structure Tour (α : Type u) where
  round : Round
  /-- The look at the pool. -/
  look : Moment (Line α)
  /-- The steps that take items out, one for each channel. -/
  sweeps : List (Moment (Line α))
  batch : Batch (Parcel α)

namespace Tour

/-- All its steps. -/
def moments (tour : Tour α) : List (Moment (Line α)) := tour.look :: tour.sweeps

/-- The channels it has been to, in order. -/
def channels (tour : Tour α) : List Nat := tour.batch.map Haul.channel

/-- What is handed over after it, if anything is. -/
def delivery? (tour : Tour α) : Option (Round × Batch (Parcel α)) :=
  if tour.batch.items.isEmpty then none else some (tour.round, tour.batch)

/-- The tour is one of worker `w` of pool `p`, which takes `limit` items from a channel
before its final round. -/
structure IsOf (p w limit : Nat) (tour : Tour α) : Prop where
  looks : tour.look.before.station? p w = some tour.round.lookout
  sees : ∃ pool, tour.look.before.pools[p]? = some pool ∧ tour.round.Sees pool
  spares : tour.look.after.store = tour.look.before.store
  takes : List.Forall₂ (Takes p w limit tour.round) tour.batch tour.sweeps

/-- The tour comes after these: what they have brought has been handed over, and none of
them was a final one. -/
structure Follows (p w : Nat) (tours : List (Tour α)) (tour : Tour α) : Prop where
  delivered : tour.look.before.delivered p w = tours.filterMap delivery?
  notFinal : ∀ earlier ∈ tours, earlier.round ≠ .final

end Tour

/-- The steps are these tours one after the other, with rests between them. -/
inductive Divided (p w : Nat) : List (Moment (Line α)) → List (Tour α) → Prop
  | start : Divided p w [] []
  | rest {ms : List (Moment (Line α))} {tours : List (Tour α)} {m : Moment (Line α)} :
      Divided p w ms tours → Rests p w m → Divided p w (ms ++ [m]) tours
  | tour {ms : List (Moment (Line α))} {tours : List (Tour α)} (tour : Tour α) :
      Divided p w ms tours → Divided p w (ms ++ tour.moments) (tours ++ [tour])

/-- Each tour follows those before it. -/
def Chained (p w : Nat) (tours : List (Tour α)) : Prop :=
  ∀ before tour after, tours = before ++ tour :: after → tour.Follows p w before

/-- The worker is on this tour, or on none. -/
inductive Underway (worker : Worker (Parcel α)) : Option (Tour α) → Prop
  | still : worker.station.isSweeping = false → Underway worker none
  | touring {tour : Tour α} {todo : List Nat} :
      worker.station = .sweeping tour.round todo tour.batch →
      worker.channels = tour.channels ++ todo → Underway worker (some tour)

/-- What worker `w` of pool `p` has done: these tours, and part of the current one. -/
structure Log (p w limit : Nat) (ms : List (Moment (Line α))) (worker : Worker (Parcel α))
    (tours : List (Tour α)) (current : Option (Tour α)) : Prop where
  division : ∃ done, Divided p w done tours ∧ ms = done ++ current.elim [] Tour.moments
  each : ∀ tour ∈ tours ++ current.toList, tour.IsOf p w limit
  /-- All tours but the current one have been to all channels. -/
  complete : ∀ tour ∈ tours, tour.channels = worker.channels
  chained : Chained p w (tours ++ current.toList)
  current : Underway worker current
  /-- A batch is handed over if and only if there is something in it. -/
  outgoing : worker.outgoing = tours.filterMap Tour.delivery?
  /-- A final tour is complete if and only if no other one is to come. -/
  through : worker.IsThrough ↔ ∃ tour ∈ tours, tour.round = .final

/-- The worker looks whether writes are admitted, and sees that none is. -/
def SeesNobody (p w : Nat) (m : Moment (Line α)) : Prop :=
  m.before.station? p w = some .checking ∧
    ∃ pool, m.before.pools[p]? = some pool ∧ pool.admitted = 0

/-- The look `m` is that of the last of these tours, which is the only one without a limit,
and the worker hands over one batch at most since then. -/
structure IsLast (p w : Nat) (m : Moment (Line α)) (worker : Worker (Parcel α))
    (tours before : List (Tour α)) (tour : Tour α) : Prop where
  tours : tours = before ++ [tour]
  look : tour.look = m
  final : tour.round = .final
  earlier : ∀ earlier ∈ before, earlier.round ≠ .final
  deliveries : ∃ last, worker.deliveries = m.before.delivered p w ++ last ∧ last.length ≤ 1

variable {s t : Line α} {p w limit : Nat} {pool : Pool (Parcel α)}
  {worker worker' : Worker (Parcel α)} {ms : List (Moment (Line α))} {tours : List (Tour α)}
  {current : Option (Tour α)} {tour : Tour α}

/-- The last tour follows the others, and these are chained by themselves. -/
theorem Chained.of_concat (h : Chained p w (tours ++ [tour])) :
    Chained p w tours ∧ tour.Follows p w tours := by
  refine ⟨fun before x after heq => ?_, h tours tour [] rfl⟩
  exact h before x (after ++ [tour]) (by rw [heq, List.append_assoc, List.cons_append])

/-- A tour that follows all the others may be put behind them. -/
theorem Chained.concat (h : Chained p w tours) (ht : tour.Follows p w tours) :
    Chained p w (tours ++ [tour]) := by
  intro before x after heq
  rcases List.eq_nil_or_concat' after with rfl | ⟨after, y, rfl⟩
  · obtain ⟨rfl, hx⟩ := List.append_inj' heq rfl
    exact List.singleton_inj.mp hx ▸ ht
  · rw [← List.cons_append, ← List.append_assoc] at heq
    exact h before x after (List.append_inj' heq rfl).1

/-! ## One step of a worker -/

/-- What a step of its own makes of a worker. -/
inductive Leg (p w : Nat) (s t : Line α) (pool : Pool (Parcel α)) (worker : Worker (Parcel α)) :
    Worker (Parcel α) → Prop
  | rest {worker' : Worker (Parcel α)} : t.store = s.store → worker.station ≠ .checking →
      worker.station.isSweeping = false → worker'.station.isSweeping = false →
      worker'.channels = worker.channels → worker.deliveries <+: worker'.deliveries →
      worker'.outgoing = worker.outgoing →
      (worker'.round = .final ↔ worker.round = .final) →
      Leg p w s t pool worker worker'
  | look (round : Round) : worker.station = round.lookout → round.Sees pool → t.store = s.store →
      Leg p w s t pool worker (worker.moveTo (.sweeping round worker.channels []))
  | take {round : Round} {n : Nat} {todo : List Nat} {batch : Batch (Parcel α)}
      {items : List (Parcel α)} : worker.station = .sweeping round (n :: todo) batch →
      Takes p w pool.plan.limit round ⟨n, items⟩ ⟨s, t⟩ →
      Leg p w s t pool worker (worker.moveTo (.sweeping round todo (batch ++ [⟨n, items⟩])))
  | finish {round : Round} {batch : Batch (Parcel α)} : worker.station = .sweeping round [] batch →
      t.store = s.store → Leg p w s t pool worker (handOver worker round batch)

/-- A step that changes nothing but the worker. -/
theorem Pace.leg (pace : Pace s pool worker worker') (h : s.Reachable)
    (hp : s.pools[p]? = some pool) (hw : pool.workers[w]? = some worker)
    (hstore : t.store = s.store) : Leg p w s t pool worker worker' := by
  cases pace with
  | @enter hook hd =>
    refine .rest hstore (by simp [hd]) (by rw [hd]; rfl) rfl rfl ?_ ?_ ?_
    · rw [Worker.deliveries_enter]
      exact List.prefix_append ..
    · rw [Worker.outgoing, Worker.outgoing, Worker.deliveries_enter, hd]
      exact List.append_nil _
    · rw [Worker.round, Worker.round, hd]
      rfl
  | @leave hook how hi =>
    obtain ⟨hdoor, hsweeping⟩ := Worker.afterHook_eq hook how
    have hsame := worker.deliveries_leave hook how
    refine .rest hstore (by simp [hi]) (by rw [hi]; rfl) hsweeping rfl ?_ ?_ ?_
    · exact hsame ▸ List.prefix_refl _
    · exact Worker.outgoing_of_deliveries (by rw [hi]; rfl) hdoor hsame
    · rw [Worker.round, Worker.round, hi]
      exact Eq.congr (Worker.round_afterHook hook how) rfl
  | watch hst =>
    unfold Line.watch
    cases hrun : pool.isRunning with
    | true => exact .look .running hst hrun hstore
    | false =>
      refine .rest hstore (by simp [hst]) (by rw [hst]; rfl) rfl rfl (List.prefix_refl _) ?_ ?_
      · exact Worker.outgoing_of_deliveries (by rw [hst]; rfl) rfl rfl
      · simp [Worker.round, Worker.moveTo, Station.round, hst]
  | check hst =>
    have hround : worker.round ≠ .running := by simp [Worker.round, Station.round, hst]
    have hclosed := h.admits.closed p pool hp worker (List.mem_of_getElem? hw) hround
    unfold Line.check
    by_cases hnone : 0 < pool.admitted
    · rw [if_pos hnone]
      exact .look .lingering hst ⟨hclosed, hnone⟩ hstore
    · rw [if_neg hnone]
      exact .look .final hst ⟨hclosed, Nat.eq_zero_of_not_pos hnone⟩ hstore
  | @skip round n rest batch hst hl =>
    -- A worker goes to channels that are there.
    have hahead : n ∈ worker.station.ahead := by rw [hst]; exact List.mem_cons_self
    have hfit := h.fit.pool hp
    have hlt := ((hfit.mem_channels_iff hw).mp (hfit.mem_of_ahead hw hahead)).1
    exact absurd hlt (Nat.not_lt.mpr (List.getElem?_eq_none_iff.mp hl))
  | fail _ hl ht => exact absurd ht ((h.sound.lane hl).take_ne_error _ _)
  | handOver hst => exact .finish hst hstore

/-- Any step of a worker: these, and those that empty a channel or settle a call. -/
theorem Stride.leg (stride : Stride s t pool worker worker') (h : s.Reachable)
    (hp : s.pools[p]? = some pool) (hw : pool.workers[w]? = some worker) :
    Leg p w s t pool worker worker' := by
  cases stride with
  | pace pace _ hstore => exact pace.leg h hp hw hstore
  | @sweep round n rest batch lane taken hst hl ht hstore =>
    refine .take hst ⟨⟨rest, batch, ?_⟩, lane, taken.lane, hl, hstore, ?_⟩
    · rw [station?_eq (worker?_eq hp hw), hst]
    · exact (h.sound.lane hl).split_of_take ht
  | @settle round batch e hst hstore =>
    obtain ⟨hdoor, hsweeping⟩ := Worker.settled_eq round batch e
    refine .rest hstore (by simp [hst]) (by rw [hst]; rfl) hsweeping rfl (List.prefix_refl _) ?_ ?_
    · exact Worker.outgoing_of_deliveries (by rw [hst]; rfl) hdoor rfl
    · rw [Worker.round, Worker.round, hst]
      exact Eq.congr (Worker.round_settled round batch e) rfl

/-! ## The log of a worker -/

theorem Underway.eq_none (h : Underway worker current) (hs : worker.station.isSweeping = false) :
    current = none := by
  cases h with
  | still => rfl
  | touring hst =>
    rw [hst] at hs
    cases hs

/-- A worker that is sweeping is on a tour, and has the rest of its channels still before it. -/
theorem Underway.eq_some (h : Underway worker current) {round : Round} {todo : List Nat}
    {batch : Batch (Parcel α)} (hs : worker.station = .sweeping round todo batch) :
    ∃ tour, current = some tour ∧ tour.round = round ∧ tour.batch = batch ∧
      worker.channels = tour.channels ++ todo := by
  cases h with
  | still hnot =>
    rw [hs] at hnot
    cases hnot
  | touring hst hchannels =>
    rw [hs] at hst
    cases hst
    exact ⟨_, rfl, rfl, rfl, hchannels⟩

theorem delivered_eq (hw : s.worker? p w = some worker) :
    s.delivered p w = worker.deliveries := by
  rw [delivered, hw, Option.elim_some]

/-- A worker that has its last tour still ahead has made no final one. -/
theorem not_through_iff (h : ¬ worker.IsThrough) (hfinal : ∀ tour ∈ tours, tour.round ≠ .final) :
    worker.IsThrough ↔ ∃ tour ∈ tours, tour.round = .final := by
  constructor
  · exact fun hthrough => absurd hthrough h
  · rintro ⟨tour, hmem, hr⟩
    exact absurd hr (hfinal tour hmem)

/-- A worker that has just been started has done nothing. -/
theorem log_ofChannels (channels : List Nat) :
    Log p w limit [] (.ofChannels channels) ([] : List (Tour α)) none where
  division := ⟨[], .start, rfl⟩
  each _ hmem := nomatch hmem
  complete _ hmem := nomatch hmem
  chained before tour after heq := by simp at heq
  current := .still rfl
  outgoing := rfl
  through := not_through_iff (fun h => nomatch h.1) fun _ hmem => nomatch hmem

namespace Log

/-- As long as the worker is not through, no tour has been a final one. -/
theorem not_final (log : Log p w limit ms worker tours current) (h : ¬ worker.IsThrough) :
    ∀ tour ∈ tours, tour.round ≠ .final :=
  fun tour hmem hr => h (log.through.mpr ⟨tour, hmem, hr⟩)

/-- A step that touches no channel goes between two tours. -/
theorem rest (log : Log p w limit ms worker tours current) {m : Moment (Line α)}
    (hm : Rests p w m) (hstill : worker.station.isSweeping = false)
    (hstill' : worker'.station.isSweeping = false) (hchannels : worker'.channels = worker.channels)
    (houtgoing : worker'.outgoing = worker.outgoing)
    (hround : worker'.round = .final ↔ worker.round = .final) :
    Log p w limit (ms ++ [m]) worker' tours none := by
  obtain rfl := log.current.eq_none hstill
  obtain ⟨done, hdivided, hms⟩ := log.division
  rw [Option.elim_none, List.append_nil] at hms
  exact {
    division := ⟨ms ++ [m], .rest (hms ▸ hdivided) hm, (List.append_nil _).symm⟩
    each := log.each
    complete := fun tour hmem => (log.complete tour hmem).trans hchannels.symm
    chained := log.chained
    current := .still hstill'
    outgoing := houtgoing.trans log.outgoing
    through := by
      rw [← log.through, Worker.IsThrough, Worker.IsThrough, hround, hstill, hstill'] }

/-- The look at the pool begins a tour. -/
theorem look (log : Log p w limit ms worker tours current) {round : Round}
    (hw : s.worker? p w = some worker) (hp : s.pools[p]? = some pool)
    (hst : worker.station = round.lookout) (hsees : round.Sees pool) (hstore : t.store = s.store) :
    Log p w limit (ms ++ [⟨s, t⟩]) (worker.moveTo (.sweeping round worker.channels [])) tours
      (some ⟨round, ⟨s, t⟩, [], []⟩) := by
  have hstill : worker.station.isSweeping = false ∧ worker.station.atDoor = [] ∧
      worker.round ≠ .final := by
    rw [Worker.round, hst]
    cases round <;> simp [Round.lookout, Station.isSweeping, Station.atDoor, Station.round]
  obtain rfl := log.current.eq_none hstill.1
  obtain ⟨done, hdivided, hms⟩ := log.division
  rw [Option.elim_none, List.append_nil] at hms
  -- A worker that looks has handed over all it had, and has not been on its final tour.
  have hfinal := log.not_final fun h => hstill.2.2 h.1
  have houtgoing : worker.deliveries = tours.filterMap Tour.delivery? := by
    rw [← log.outgoing, Worker.outgoing, hstill.2.1, List.append_nil]
  have hold : Chained p w tours := by simpa using log.chained
  exact {
    division := ⟨done, hdivided, by rw [hms]; rfl⟩
    each := by
      intro tour hmem
      rcases List.mem_append.mp hmem with hmem | hmem
      · exact log.each tour (List.mem_append_left _ hmem)
      · obtain rfl := List.mem_singleton.mp hmem
        exact ⟨by rw [station?_eq hw, hst], ⟨pool, hp, hsees⟩, hstore, .nil⟩
    complete := log.complete
    chained := hold.concat ⟨(delivered_eq hw).trans houtgoing, hfinal⟩
    current := .touring rfl rfl
    outgoing := by
      rw [← houtgoing]
      exact List.append_nil _
    through := not_through_iff (fun h => Bool.noConfusion h.2) hfinal }

/-- What is taken from the next channel goes on with the current tour. -/
theorem take (log : Log p w limit ms worker tours current) {round : Round} {todo : List Nat}
    {batch : Batch (Parcel α)} {haul : Haul (Parcel α)} {m : Moment (Line α)}
    (hst : worker.station = .sweeping round (haul.channel :: todo) batch)
    (htakes : Takes p w limit round haul m) :
    ∃ tour, Log p w limit (ms ++ [m])
      (worker.moveTo (.sweeping round todo (batch ++ [haul]))) tours (some tour) := by
  obtain ⟨tour, rfl, rfl, rfl, hchannels⟩ := log.current.eq_some hst
  obtain ⟨done, hdivided, hms⟩ := log.division
  obtain ⟨hold, hfollows⟩ := log.chained.of_concat
  have htour := log.each tour (by simp)
  have hfinal := log.not_final fun h => by rw [Worker.IsThrough, hst] at h; cases h.2
  refine ⟨{ tour with sweeps := tour.sweeps ++ [m], batch := tour.batch ++ [haul] }, ?_⟩
  exact {
    division := ⟨done, hdivided, by simp [hms, Tour.moments]⟩
    each := by
      intro other hmem
      rcases List.mem_append.mp hmem with hmem | hmem
      · exact log.each other (List.mem_append_left _ hmem)
      · obtain rfl := List.mem_singleton.mp hmem
        exact ⟨htour.looks, htour.sees, htour.spares,
          List.rel_append htour.takes (.cons htakes .nil)⟩
    complete := log.complete
    chained := hold.concat ⟨hfollows.delivered, hfollows.notFinal⟩
    current := .touring rfl (by simpa [Tour.channels, Worker.moveTo] using hchannels)
    outgoing := by
      rw [← log.outgoing]
      exact Worker.outgoing_of_deliveries (by rw [hst]; rfl) rfl rfl
    through := not_through_iff (fun h => Bool.noConfusion h.2) hfinal }

/-- What a worker has found on a tour, it hands over, if it has found anything. -/
theorem outgoing_handOver {worker : Worker α} {round : Round} {batch : Batch α}
    (hst : worker.station = .sweeping round [] batch) :
    (handOver worker round batch).outgoing = worker.outgoing ++
        (if batch.items.isEmpty then none else some (round, batch)).toList ∧
      (handOver worker round batch).round = round ∧
      (handOver worker round batch).station.isSweeping = false := by
  have hdoor : worker.outgoing = worker.deliveries := by
    rw [Worker.outgoing, hst]
    exact List.append_nil _
  rw [hdoor]
  unfold handOver Worker.moveTo
  split
  · obtain ⟨hnone, hstill⟩ := Worker.afterRound_eq (α := α) round
    refine ⟨?_, Worker.round_afterRound round, hstill⟩
    show worker.deliveries ++ (Worker.afterRound round).atDoor = _
    rw [hnone]
    rfl
  · exact ⟨rfl, rfl, rfl⟩

/-- With no channel left, the current tour is complete, and what it has brought is at the door. -/
theorem finish (log : Log p w limit ms worker tours current) {round : Round}
    {batch : Batch (Parcel α)} (hst : worker.station = .sweeping round [] batch)
    {m : Moment (Line α)} (hm : Rests p w m) :
    ∃ tour, Log p w limit (ms ++ [m]) (handOver worker round batch) (tours ++ [tour]) none := by
  obtain ⟨tour, rfl, rfl, rfl, hchannels⟩ := log.current.eq_some hst
  obtain ⟨done, hdivided, hms⟩ := log.division
  have hfinal := log.not_final fun h => by rw [Worker.IsThrough, hst] at h; cases h.2
  obtain ⟨houtgoing, hround, hstill⟩ := outgoing_handOver hst
  refine ⟨tour, ?_⟩
  exact {
    division := ⟨ms ++ [m], .rest (hms ▸ .tour tour hdivided) hm, (List.append_nil _).symm⟩
    each := by simpa using log.each
    complete := by
      intro other hmem
      rcases List.mem_append.mp hmem with hmem | hmem
      · exact log.complete other hmem
      · rw [List.mem_singleton.mp hmem]
        exact (hchannels.trans (List.append_nil _)).symm
    chained := by simpa using log.chained
    current := .still hstill
    outgoing := by
      rw [houtgoing, log.outgoing, List.filterMap_append, ← Tour.delivery?]
      cases h : tour.delivery? <;> simp [h]
    through := by
      rw [Worker.IsThrough, hround]
      constructor
      · exact fun h => ⟨tour, by simp, h.1⟩
      · rintro ⟨other, hmem, hr⟩
        rcases List.mem_append.mp hmem with hmem | hmem
        · exact absurd hr (hfinal other hmem)
        · exact ⟨List.mem_singleton.mp hmem ▸ hr, hstill⟩ }

/-- Each step of the worker keeps its log right. -/
theorem step (log : Log p w pool.plan.limit ms worker tours current)
    (leg : Leg p w s t pool worker worker') (hp : s.pools[p]? = some pool)
    (hw : s.worker? p w = some worker) (hw' : t.worker? p w = some worker') :
    ∃ tours current, Log p w pool.plan.limit (ms ++ [⟨s, t⟩]) worker' tours current := by
  have hrest : t.store = s.store → worker.station ≠ .checking →
      worker'.station.isSweeping = false → Rests p w ⟨s, t⟩ := by
    intro hstore hnot hstill
    refine ⟨hstore, ?_, ?_⟩
    · intro hst
      exact hnot (station_eq hw hst)
    · intro x hx
      obtain rfl := Option.some.inj (hw'.symm.trans hx)
      exact hstill
  cases leg with
  | rest hstore hnot hstill hstill' hchannels _ houtgoing hround =>
    exact ⟨tours, none,
      log.rest (hrest hstore hnot hstill') hstill hstill' hchannels houtgoing hround⟩
  | look round hst hsees hstore => exact ⟨tours, _, log.look hw hp hst hsees hstore⟩
  | take hst htakes =>
    obtain ⟨tour, log'⟩ := log.take hst htakes
    exact ⟨tours, some tour, log'⟩
  | finish hst hstore =>
    have hm := hrest hstore (by simp [hst]) (outgoing_handOver hst).2.2
    obtain ⟨tour, log'⟩ := log.finish hst hm
    exact ⟨tours ++ [tour], none, log'⟩

end Log

/-- What has been handed over is not taken back. -/
theorem Leg.deliveries (leg : Leg p w s t pool worker worker') :
    worker.deliveries <+: worker'.deliveries := by
  cases leg with
  | rest _ _ _ _ _ hgrow => exact hgrow
  | look | take | finish => exact List.prefix_refl _

/-! ## All steps of a worker -/

/-- What a run up to line `s` has shown of worker `w` of pool `p`, by the steps of the
worker. -/
structure Recorded (p w : Nat) (ms : List (Moment (Line α))) (s : Line α) : Prop where
  reachable : s.Reachable
  /-- Before it is started, it does nothing. -/
  before : s.worker? p w = none → ms = []
  since : ∀ pool worker, s.pools[p]? = some pool → pool.workers[w]? = some worker →
    ∃ tours current, Log p w pool.plan.limit ms worker tours current
  /-- What it has handed over it has handed over for good. -/
  grown : ∀ m ∈ ms, m.before.delivered p w <+: s.delivered p w

namespace Recorded

variable {a : Action α}

/-- A step of the worker's own is the next one in its log. -/
theorem own (h : Recorded p w ms s) (ha : a.isStepOf p w = true) (hs : s.step a = some t) :
    Recorded p w (ms ++ [⟨s, t⟩]) t := by
  obtain ⟨-, pool, worker, worker', hp, hw, hw', stride⟩ := moves_of_step ha hs
  have hworker := worker?_eq hp hw
  have leg := stride.leg h.reachable hp hw
  have hr : Reaches s t := .step a .refl hs
  refine ⟨h.reachable.reaches hr, ?_, ?_, ?_⟩
  · intro hnone
    exact nomatch hw'.symm.trans hnone
  · intro pool' x hp' hx
    obtain ⟨pool'', hp'', hplan⟩ := hr.plan_after h.reachable hp
    obtain rfl := Option.some.inj (hp'.symm.trans hp'')
    obtain rfl := Option.some.inj (hw'.symm.trans (worker?_eq hp' hx))
    obtain ⟨tours, current, log⟩ := h.since pool worker hp hw
    rw [hplan]
    exact log.step leg hp hworker hw'
  · have hgrow : s.delivered p w <+: t.delivered p w := by
      rw [delivered_eq hworker, delivered_eq hw']
      exact leg.deliveries
    exact forall_mem_concat (fun m hm => (h.grown m hm).trans hgrow) hgrow

/-- A step of anyone else leaves the log as it is. -/
theorem other (h : Recorded p w ms s) (ha : a.isStepOf p w = false) (hs : s.step a = some t) :
    Recorded p w ms t := by
  have hr : Reaches s t := .step a .refl hs
  have ht := h.reachable.reaches hr
  rcases h.reachable.sparesWorker ha hs with hsame | ⟨hnone, channels, hnew⟩
  · refine ⟨ht, fun hnone => h.before (hsame ▸ hnone), ?_, ?_⟩
    · intro pool' worker hp' hw'
      obtain ⟨pool, hp, hw⟩ := Option.bind_eq_some_iff.mp (hsame ▸ worker?_eq hp' hw')
      obtain ⟨pool'', hp'', hplan⟩ := hr.plan_after h.reachable hp
      obtain rfl := Option.some.inj (hp'.symm.trans hp'')
      rw [hplan]
      exact h.since pool worker hp hw
    · rw [delivered, hsame]
      exact h.grown
  · obtain rfl := h.before hnone
    refine ⟨ht, fun _ => rfl, ?_, fun m hm => nomatch hm⟩
    intro pool worker hp hw
    obtain rfl := Option.some.inj (hnew.symm.trans (worker?_eq hp hw))
    exact ⟨[], none, log_ofChannels channels⟩

end Recorded

/-- From the line on which the worker does not exist yet, by induction over the run. -/
theorem Reachable.recorded (h : s.Reachable) (hnew : s.worker? p w = none)
    (actions : List (Action α)) : Recorded p w (s.stepsOf p w actions) (s.after actions) := by
  refine moments_induction step (Action.isStepOf p w) (P := Recorded p w) actions ?_ ?_ ?_
  · refine ⟨h, fun _ => rfl, ?_, fun m hm => nomatch hm⟩
    intro pool worker hp hw
    exact nomatch hnew.symm.trans (worker?_eq hp hw)
  · exact fun _ _ _ _ ha hs hrec => hrec.own ha hs
  · exact fun _ _ _ _ ha hs hrec => hrec.other ha hs

/-! ## The last tour -/

theorem Takes.not_checking {round : Round} {haul : Haul (Parcel α)} {m : Moment (Line α)}
    (h : Takes p w limit round haul m) : m.before.station? p w ≠ some .checking := by
  obtain ⟨todo, batch, hst⟩ := h.sweeping
  simp [hst]

/-- A round under way brings no more items from a channel than the limit. -/
theorem Takes.length_le {round : Round} {haul : Haul (Parcel α)} {m : Moment (Line α)}
    (h : Takes p w limit round haul m) (hround : round ≠ .final) : haul.items.length ≤ limit := by
  obtain ⟨lane, lane', -, -, hsplit⟩ := h.takes
  have hitems : haul.items = (round.split limit lane.toList).1 := congrArg Prod.fst hsplit
  cases round with
  | running | lingering =>
    rw [hitems]
    exact List.length_take_le ..
  | final => exact absurd rfl hround

/-- A worker that takes items out is not looking whether writes are admitted. -/
theorem Tour.IsOf.not_checking (h : tour.IsOf p w limit) :
    ∀ m ∈ tour.sweeps, m.before.station? p w ≠ some .checking := by
  have hall : List.Forall₂ (fun haul m => m.before.station? p w ≠ some .checking ∧
      Takes p w limit tour.round haul m) tour.batch tour.sweeps :=
    h.takes.imp fun _ _ ht => ⟨ht.not_checking, ht⟩
  exact ((List.forall₂_and_left _ _).mp hall.flip).1

/-- On a round that is not the last, no more than the limit is taken from a channel. -/
theorem Tour.IsOf.length_le (h : tour.IsOf p w limit) (hround : tour.round ≠ .final) :
    ∀ haul ∈ tour.batch, haul.items.length ≤ limit := by
  have hall : List.Forall₂ (fun haul m => haul.items.length ≤ limit ∧
      Takes p w limit tour.round haul m) tour.batch tour.sweeps :=
    h.takes.imp fun _ _ ht => ⟨ht.length_le hround, ht⟩
  exact ((List.forall₂_and_left _ _).mp hall).1

/-- A look whether writes are admitted begins a tour. -/
theorem Divided.tour_of_checking (h : Divided p w ms tours)
    (each : ∀ tour ∈ tours, tour.IsOf p w limit) {m : Moment (Line α)} (hm : m ∈ ms)
    (hst : m.before.station? p w = some .checking) :
    ∃ before tour after, tours = before ++ tour :: after ∧ tour.look = m := by
  induction h with
  | start => cases hm
  | rest _ hrest ih =>
    rcases List.mem_append.mp hm with hm | hm
    · exact ih each hm
    · obtain rfl := List.mem_singleton.mp hm
      exact absurd hst hrest.notChecking
  | @tour ms tours tour _ ih =>
    rcases List.mem_append.mp hm with hm | hm
    · obtain ⟨before, x, after, rfl, hlook⟩ := ih (fun x hx => each x (by simp [hx])) hm
      exact ⟨before, x, after ++ [tour], by simp, hlook⟩
    · rcases List.mem_cons.mp hm with rfl | hm
      · exact ⟨tours, tour, [], rfl, rfl⟩
      · exact absurd hst ((each tour (by simp)).not_checking m hm)

namespace Log

/-- The current tour counts as one of the tours, as far as it has come. -/
theorem divided (log : Log p w limit ms worker tours current) :
    Divided p w ms (tours ++ current.toList) := by
  obtain ⟨done, hdivided, rfl⟩ := log.division
  cases current with
  | none => simpa using hdivided
  | some tour => exact .tour tour hdivided

/-- A batch that was handed over is that of a tour. -/
theorem tour_of_delivered (log : Log p w limit ms worker tours current)
    {d : Round × Batch (Parcel α)} (hd : d ∈ worker.deliveries) :
    ∃ tour ∈ tours, (tour.round, tour.batch) = d := by
  have hout : d ∈ worker.outgoing := List.mem_append_left _ hd
  rw [log.outgoing, List.mem_filterMap] at hout
  obtain ⟨tour, hmem, hdelivery⟩ := hout
  refine ⟨tour, hmem, ?_⟩
  unfold Tour.delivery? at hdelivery
  split at hdelivery
  · cases hdelivery
  · exact Option.some.inj hdelivery

/-- A look that shows no admitted write is that of the last tour. -/
theorem last_tour (log : Log p w limit ms worker tours current) {m : Moment (Line α)}
    (hm : m ∈ ms) (hnobody : SeesNobody p w m)
    (hgrown : m.before.delivered p w <+: worker.deliveries) :
    ∃ before tour, IsLast p w m worker (tours ++ current.toList) before tour := by
  obtain ⟨hst, pool, hp, hnone⟩ := hnobody
  obtain ⟨before, tour, after, hall, rfl⟩ := log.divided.tour_of_checking log.each hm hst
  have htour := log.each tour (by simp [hall])
  have hfinal : tour.round = .final := by
    obtain ⟨pool', hp', hsees⟩ := htour.sees
    obtain rfl := Option.some.inj (hp.symm.trans hp')
    exact Round.final_of_sees hsees (Option.some.inj (htour.looks.symm.trans hst)) hnone
  have hafter : after = [] := by
    cases after with
    | nil => rfl
    | cons next rest =>
      have hnext := log.chained (before ++ [tour]) next rest (by simp [hall])
      exact absurd hfinal (hnext.notFinal tour (by simp))
  subst hafter
  have hfollows := log.chained before tour [] hall
  obtain ⟨last, hlast⟩ := hgrown
  refine ⟨before, tour, hall, rfl, hfinal, hfollows.notFinal, last, hlast.symm, ?_⟩
  -- The last tour may still be under way, and then it has brought nothing yet.
  obtain ⟨more, htours, hmore⟩ : ∃ more, tours = before ++ more ∧ more.length ≤ 1 := by
    cases current with
    | none => exact ⟨[tour], by simpa using hall, Nat.le_refl 1⟩
    | some => exact ⟨[], by simpa using (List.append_inj' hall rfl).1, Nat.zero_le 1⟩
  have hout := log.outgoing
  rw [Worker.outgoing, ← hlast, hfollows.delivered, htours, List.filterMap_append,
    List.append_assoc, List.append_cancel_left_eq] at hout
  have hlen := congrArg List.length hout
  have hle := List.length_filterMap_le Tour.delivery? more
  rw [List.length_append] at hlen
  omega

end Log

/-- **What the batches of a worker contain.** All its steps are tours of its channels, in
increasing order, and rests between them; a tour takes the oldest items out of each channel,
as many as what the worker has seen of its pool allows, and its batch is handed over if and only if
there is something in it. After a look that shows no admitted write there is one more tour,
without a limit; so all batches but that one are within the limit. -/
theorem Reachable.batches_of_worker (h : s.Reachable) (hnew : s.worker? p w = none)
    (actions : List (Action α)) (hp : (s.after actions).pools[p]? = some pool)
    (hw : pool.workers[w]? = some worker) :
    worker.channels.Pairwise (· < ·) ∧
    (∀ c, c ∈ worker.channels ↔
      c < (s.after actions).store.count ∧ c % pool.plan.workers = w) ∧
    ∃ tours current,
      Log p w pool.plan.limit (s.stepsOf p w actions) worker tours current ∧
      (∀ m ∈ s.stepsOf p w actions, SeesNobody p w m →
        ∃ before tour, IsLast p w m worker (tours ++ current.toList) before tour) ∧
      (∀ d ∈ worker.deliveries, d.1 ≠ .final →
        ∀ haul ∈ d.2, haul.items.length ≤ pool.plan.limit) ∧
      (current ≠ none → ((s.after actions).work p w).isSome = true) := by
  have hrec := h.recorded hnew actions
  have hfit := hrec.reachable.fit.pool hp
  obtain ⟨tours, current, log⟩ := hrec.since pool worker hp hw
  refine ⟨?_, fun c => hfit.mem_channels_iff hw, tours, current, log, ?_, ?_, ?_⟩
  · rw [hfit.channels_eq hw]
    exact List.pairwise_lt_range.filter _
  · intro m hm hnobody
    refine log.last_tour hm hnobody ?_
    rw [← delivered_eq (worker?_eq hp hw)]
    exact hrec.grown m hm
  · intro d hd hround
    obtain ⟨tour, hmem, rfl⟩ := log.tour_of_delivered hd
    exact (log.each tour (List.mem_append_left _ hmem)).length_le hround
  · intro hcurrent
    cases log.current with
    | still => exact absurd rfl hcurrent
    | @touring tour todo hst => cases todo <;> simp [work, hp, hw, hst]

/-- Three items lie in a channel when a pool of one worker begins. It takes the first one;
then the pool is closed. -/
def lastTwo : List (Action Nat) :=
  (List.range 3).flatMap (fun i =>
    .offer 0 (.write (i + 7) none) :: List.replicate 6 (.advance i)) ++
  [.build loner, .begin 0, .work 0 0, .endHook 0 0 .returned] ++
  List.replicate 4 (.work 0 0) ++ [.endHook 0 0 .returned, .work 0 0, .closePool 0] ++
  List.replicate 5 (.work 0 0) ++ [.endHook 0 0 .returned, .work 0 0]

/-- The final tour brings the other two at once. -/
theorem batches_of_worker_lastTwo :
    let s : Line Nat := .blank 1 4 (by decide) .wait
    ∃ pool worker, (s.after lastTwo).pools[0]? = some pool ∧ pool.workers[0]? = some worker ∧
      worker.deliveries.map (fun d => (d.1, d.2.items.map Parcel.item)) =
        [(.running, [7]), (.final, [8, 9])] ∧
      ∃ tours current, Log 0 0 pool.plan.limit (s.stepsOf 0 0 lastTwo) worker tours current := by
  intro s
  have hs : s.Reachable := ⟨s, isFresh_blank (by decide) (by decide) .wait, .refl⟩
  have hrun : ((s.after lastTwo).worker? 0 0).map (fun worker =>
      worker.deliveries.map fun d => (d.1, d.2.items.map Parcel.item)) =
        some [(.running, [7]), (.final, [8, 9])] := by decide +kernel
  obtain ⟨worker, hworker, hdeliveries⟩ := Option.map_eq_some_iff.mp hrun
  obtain ⟨pool, hp, hw⟩ := Option.bind_eq_some_iff.mp hworker
  obtain ⟨-, -, tours, current, log, -⟩ := hs.batches_of_worker rfl lastTwo hp hw
  exact ⟨pool, worker, hp, hw, hdeliveries, tours, current, log⟩

end Line

end Conveyor
