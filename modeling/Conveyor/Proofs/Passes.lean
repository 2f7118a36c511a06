/-
Conveyor.Proofs.Passes — one pass of a worker whose pool is closed.

A worker whose pool is closed stops twice: before it looks whether writes are still
admitted, and when it is done. Between these stops it makes one pass. It gets to the
next stop, whatever it is at (`IsClosing.exists_pass`): each of its steps brings it
nearer (`Stride.rank_lt`), and where it has to wait for a shared consumer, those who
keep it busy become fewer.

Nobody writes on the way, so the channels that it goes to have room when it is through
(`Pass.hasRoom`); and a pass on which it finds no writes admitted is its last
(`Pass.isFinished`).
-/
import Conveyor.Proofs.Hooks
import Conveyor.Proofs.Settling

namespace Conveyor

variable {α : Type u}

/-! ## Room in a channel -/

/-- A channel that had room, or lost an item, has room after it was read. -/
theorem Lane.IsSound.hasRoom_of_take {l : Lane α} (h : l.IsSound) {limit : Nat} {taken : Taken α}
    (ht : l.take limit = .ok taken) (hroom : l.hasRoom = true ∨ 0 < limit) :
    taken.lane.hasRoom = true := by
  obtain ⟨l', htake, hl', -, hcap, -⟩ := Holds.take h limit
  rw [htake] at ht
  cases ht
  have hle : l.toList.length ≤ l.capacity := Ring.Holds.length_le h
  have hpos : 0 < l.capacity := l.ring.capacity_pos
  rw [hl'.hasRoom_iff, hcap, List.length_drop]
  rcases hroom with hroom | hlimit
  · have hlt := h.hasRoom_iff.mp hroom
    omega
  · omega

/-- On every kind of round a worker may take something from a channel. -/
theorem Pool.limitOf_pos {pool : Pool α} (h : pool.plan.limit ≠ 0) (round : Round) :
    0 < pool.limitOf round := by
  cases round with
  | running | lingering => exact Nat.pos_of_ne_zero h
  | final => exact Nat.succ_pos _

theorem Pool.limit_ne_zero_of_ofPlan {plan : PoolPlan} {count : Nat} {pool : Pool α}
    (h : ofPlan plan count = .ok pool) : pool.plan.limit ≠ 0 := by
  obtain ⟨-, hl, rfl⟩ := ofPlan_eq_ok_iff.mp h
  exact hl

/-! ## How far a worker is from its next stop -/

/-- How far a worker at this station is from its next stop, when its pool is closed. -/
def Station.rank : Station α → Nat
  | .checking | .finished | .broken _ => 0
  | .watching | .inside .exit => 1
  | .door .exit | .inside .start => 2
  | .door .start | .inside (.error ..) => 3
  | .door (.error ..) => 4
  | .settling .. => 5
  | .inside (.consume ..) => 6
  | .door (.consume ..) => 7
  | .sweeping _ todo _ => 8 + todo.length

theorem Worker.rank_afterRound (round : Round) :
    (afterRound round : Station α).rank ≤ 2 := by
  cases round <;> simp [afterRound, Station.rank]

theorem Worker.rank_afterHook (hook : Hook α) (how : HookEnd) :
    (afterHook hook how).rank < (Station.inside hook).rank := by
  cases hook with
  | start | consume | exit => simp [afterHook, Station.rank]
  | error round => exact Nat.lt_succ_of_le (rank_afterRound round)

/-- Worker `w` of pool `p` makes a step, or others do what it may have to wait for: a
hook of the pool ends, or someone lets go of the shared consumer. -/
def Action.IsFor (p w : Nat) : Action α → Prop
  | .work q v => q = p ∧ v = w
  | .endHook q _ _ => q = p
  | .setHeld q held => q = p ∧ held = false
  | _ => False

namespace Line

variable {s t u v : Line α} {a : Action α} {n p w size : Nat} {c : Call α}
  {pool : Pool (Parcel α)} {worker worker' : Worker (Parcel α)}

theorem Stride.rank_lt (stride : Stride s t pool worker worker') (hs : s.Sound)
    (hclosed : pool.stage = .closed) (hnot : worker.station ≠ .checking) :
    worker'.station.rank < worker.station.rank := by
  cases stride with
  | pace pace =>
    cases pace with
    | @enter hook hd =>
      rw [hd]
      cases hook <;> simp [Worker.enter, Station.rank]
    | leave how hi =>
      rw [hi]
      exact Worker.rank_afterHook _ how
    | watch hw =>
      rw [hw]
      simp [Line.watch, Pool.isRunning, hclosed, Worker.moveTo, Station.rank]
    | check hc => exact absurd hc hnot
    | skip hst =>
      rw [hst]
      simp [Worker.moveTo, Station.rank]
    | fail _ hl ht => exact absurd ht ((hs.lane hl).take_ne_error _ _)
    | @handOver round batch hst =>
      rw [hst]
      unfold Line.handOver Worker.moveTo
      split
      · exact Nat.lt_of_le_of_lt (Worker.rank_afterRound round) (show 2 < 8 by decide)
      · simp [Station.rank]
  | sweep hst =>
    rw [hst]
    simp [Worker.moveTo, Station.rank]
  | @settle round batch e hst =>
    rw [hst]
    cases e with
    | none => exact Nat.lt_of_le_of_lt (Worker.rank_afterRound round) (show 2 < 5 by decide)
    | some e => simp [Worker.moveTo, Station.rank]

theorem Stride.channels (stride : Stride s t pool worker worker') :
    worker'.channels = worker.channels := by
  cases stride with
  | pace pace => exact pace.ahead.1
  | sweep | settle => rfl

/-- A worker that passes a channel leaves it with room. -/
theorem Stride.ahead_or_hasRoom (stride : Stride s t pool worker worker') (hs : s.Sound)
    (hlimit : pool.plan.limit ≠ 0) (hn : n < s.store.count) (h : n ∈ worker.station.ahead) :
    n ∈ worker'.station.ahead ∨ t.HasRoom n := by
  cases stride with
  | pace pace =>
    cases pace with
    | enter hst | leave _ hst | watch hst | check hst | handOver hst =>
      rw [hst] at h
      cases h
    | skip hst hl =>
      rw [hst] at h
      rcases List.mem_cons.mp h with rfl | hrest
      · exact absurd hn (Nat.not_lt.mpr (List.getElem?_eq_none_iff.mp hl))
      · exact .inl hrest
    | fail _ hl ht => exact absurd ht ((hs.lane hl).take_ne_error _ _)
  | sweep hst hl ht hstore =>
    rw [hst] at h
    rcases List.mem_cons.mp h with rfl | hrest
    · refine .inr ⟨_, ?_, (hs.lane hl).hasRoom_of_take ht (.inr (Pool.limitOf_pos hlimit _))⟩
      rw [hstore, LaneSet.setLane, List.getElem?_set_self hn]
    · exact .inl hrest
  | settle hst =>
    rw [hst] at h
    cases h

/-- Room is taken up by writers only. -/
theorem Effect.hasRoom (e : Effect s t) (hs : s.Sound) (hcalls : t.calls = s.calls)
    (h : s.HasRoom n) : t.HasRoom n := by
  obtain ⟨lane, hl, hroom⟩ := h
  have keep : ∀ {m : Nat} {old new : Lane (Parcel α)}, s.store.lanes[m]? = some old →
      (old.hasRoom = true → new.hasRoom = true) →
      ∃ lane, (s.store.setLane m new).lanes[n]? = some lane ∧ lane.hasRoom = true := by
    intro m old new hm hnew
    by_cases hmn : m = n
    · subst hmn
      rw [hl] at hm
      cases hm
      exact ⟨new, List.getElem?_set_self (List.getElem?_eq_some_iff.mp hl).1, hnew hroom⟩
    · exact ⟨lane, by rw [LaneSet.setLane, List.getElem?_set_ne hmn, hl], hroom⟩
  cases e with
  | @write i m c policy item lane lane' how out hc ht =>
    have hsame : (s.calls.set i { c with place := .settled (.accepted how) })[i]? = some c :=
      (congrArg (·[i]?) hcalls).trans hc
    rw [List.getElem?_set_self (List.getElem?_eq_some_iff.mp hc).1] at hsame
    rw [← Option.some.inj hsame] at ht
    cases ht
  | closeLane hm => exact keep hm id
  | drain hm ht | sweep _ _ _ hm ht =>
    exact keep hm fun hold => (hs.lane hm).hasRoom_of_take ht (.inl hold)
  | _ => exact ⟨lane, hl, hroom⟩

/-! ## Pools that are closed -/

/-- Pool `p`, of `size` workers, is closed, and nobody stays in it. -/
structure IsClosing (s : Line α) (p size : Nat) : Prop where
  reachable : s.Reachable
  pool : ∃ pool, s.pools[p]? = some pool ∧ pool.stage = .closed ∧ pool.workers.length = size
  vacated : ∀ c ∈ s.calls, c.pass = some p → c.place ≠ .staying

/-- A closed pool stays closed, and keeps its workers. -/
theorem Effect.pool_closed (e : Effect s t) (hp : s.pools[p]? = some pool)
    (hclosed : pool.stage = .closed) :
    ∃ pool', t.pools[p]? = some pool' ∧ pool'.stage = .closed ∧
      pool'.workers.length = pool.workers.length := by
  have keep : ∀ {q : Nat} {old new : Pool (Parcel α)}, s.pools[q]? = some old →
      (old.stage = .closed → new.stage = .closed ∧ new.workers.length = old.workers.length) →
      ∃ pool', (s.pools.set q new)[p]? = some pool' ∧ pool'.stage = .closed ∧
        pool'.workers.length = pool.workers.length := by
    intro q old new hq hnew
    by_cases hqp : q = p
    · subst hqp
      rw [hp] at hq
      cases hq
      exact ⟨new, List.getElem?_set_self (List.getElem?_eq_some_iff.mp hp).1, hnew hclosed⟩
    · exact ⟨pool, by rw [List.getElem?_set_ne hqp, hp], hclosed, rfl⟩
  cases e with
  | enroll _ _ hq | turnBack _ _ hq | release _ _ _ hq | hold _ hq =>
    exact keep hq fun hs => ⟨hs, rfl⟩
  | close hq => exact keep hq fun _ => ⟨rfl, rfl⟩
  | begin hq hc =>
    refine keep hq fun hs => ?_
    rw [hc] at hs
    cases hs
  | build =>
    refine ⟨pool, ?_, hclosed, rfl⟩
    rw [List.getElem?_append_left (List.getElem?_eq_some_iff.mp hp).1, hp]
  | pace hq | sweep hq | settle hq => exact keep hq fun hs => ⟨hs, List.length_set ..⟩
  | _ => exact ⟨pool, hp, hclosed, rfl⟩

/-- **Who has a pass of a closed pool had it before**, and who is done with it remains so. -/
theorem Reaches.call_of_closed (hr : Reaches s t) (h : s.Reachable) (hp : s.pools[p]? = some pool)
    (hclosed : pool.stage = .closed) {i : Nat} {c' : Call α} (hc' : t.calls[i]? = some c')
    (hpass : c'.pass = some p) :
    ∃ c, s.calls[i]? = some c ∧ c.pass = some p ∧ (c.isOver = true → c'.isOver = true) := by
  have hall : (∃ pool, t.pools[p]? = some pool ∧ pool.stage = .closed) ∧
      ∀ (i : Nat) c', t.calls[i]? = some c' → c'.pass = some p →
        ∃ c, s.calls[i]? = some c ∧ c.pass = some p ∧ (c.isOver = true → c'.isOver = true) := by
    refine hr.induction (P := fun u => (∃ pool, u.pools[p]? = some pool ∧ pool.stage = .closed) ∧
      ∀ (i : Nat) c', u.calls[i]? = some c' → c'.pass = some p →
        ∃ c, s.calls[i]? = some c ∧ c.pass = some p ∧ (c.isOver = true → c'.isOver = true))
      h ⟨⟨pool, hp, hclosed⟩, fun i c hc hpass => ⟨c, hc, hpass, id⟩⟩ ?_
    rintro u v ⟨⟨pool, hp, hclosed⟩, hu⟩ e
    obtain ⟨pool', hp', hclosed', -⟩ := e.pool_closed hp hclosed
    refine ⟨⟨pool', hp', hclosed'⟩, ?_⟩
    intro i c' hc' hpass
    rcases e.call_before hc' with ⟨-, hnone⟩ | ⟨c, hc, rfl | turn⟩
    · rw [hnone] at hpass
      cases hpass
    · exact hu i _ hc hpass
    · obtain ⟨first, hfirst, hpass', hover⟩ := hu i c hc (turn.pass_of_closed hp hclosed hpass)
      refine ⟨first, hfirst, hpass', fun hdone => ?_⟩
      exact absurd (turn.isOver_eq_false.symm.trans (hover hdone)) (by decide)
  exact hall.2 i c' hc' hpass

/-- Nobody comes to stay in a closed pool. -/
theorem Effect.vacated (e : Effect s t) (hp : s.pools[p]? = some pool)
    (hclosed : pool.stage = .closed) (h : ∀ c ∈ s.calls, c.pass = some p → c.place ≠ .staying) :
    ∀ c ∈ t.calls, c.pass = some p → c.place ≠ .staying := by
  intro c' hmem hpass hstay
  obtain ⟨i, hi⟩ := List.getElem?_of_mem hmem
  rcases e.call_before hi with ⟨hbegun, -⟩ | ⟨c, hc, rfl | turn⟩
  · rw [hbegun] at hstay
    cases hstay
  · exact h _ (List.mem_of_getElem? hc) hpass hstay
  · cases turn with
    | hop hop => cases hop <;> cases hstay
    | enter _ hq hrun =>
      cases hpass
      rw [hp] at hq
      cases hq
      rw [hclosed] at hrun
      cases hrun
    | turnBack => cases hi : c.item? <;> rw [hi] at hstay <;> cases hstay
    | enroll | route | misroute | write | tally | release => cases hstay

/-- **Whatever happens, a pool that is closing remains so.** -/
theorem Reaches.isClosing (hr : Reaches s t) (h : s.IsClosing p size) : t.IsClosing p size := by
  have hall : (∃ pool, t.pools[p]? = some pool ∧ pool.stage = .closed ∧
      pool.workers.length = size) ∧ ∀ c ∈ t.calls, c.pass = some p → c.place ≠ .staying := by
    refine hr.induction (P := fun u => (∃ pool, u.pools[p]? = some pool ∧ pool.stage = .closed ∧
      pool.workers.length = size) ∧ ∀ c ∈ u.calls, c.pass = some p → c.place ≠ .staying)
      h.reachable ⟨h.pool, h.vacated⟩ ?_
    rintro u v ⟨⟨pool, hp, hclosed, hsize⟩, hvacated⟩ e
    obtain ⟨pool', hp', hclosed', hsize'⟩ := e.pool_closed hp hclosed
    exact ⟨⟨pool', hp', hclosed', hsize'.trans hsize⟩, e.vacated hp hclosed hvacated⟩
  exact ⟨h.reachable.reaches hr, hall.1, hall.2⟩

/-- In every pool a worker may take something on a round. -/
theorem Reachable.limit_ne_zero (h : s.Reachable) :
    ∀ pool ∈ s.pools, pool.plan.limit ≠ 0 := by
  refine h.induction (P := fun u => ∀ pool ∈ u.pools, pool.plan.limit ≠ 0) ?_ ?_
  · rintro start ⟨_, _, _, _, store, _, rfl⟩ pool hmem
    cases hmem
  · intro u v hu e
    have keep : ∀ {q : Nat} {old new : Pool (Parcel α)}, u.pools[q]? = some old →
        new.plan = old.plan → ∀ pool ∈ u.pools.set q new, pool.plan.limit ≠ 0 := by
      intro q old new hq hplan pool hmem
      rcases List.mem_or_eq_of_mem_set hmem with hold | rfl
      · exact hu pool hold
      · rw [hplan]
        exact hu old (List.mem_of_getElem? hq)
    cases e with
    | enroll _ _ hq | turnBack _ _ hq | release _ _ _ hq | hold _ hq | close hq | pace hq
    | sweep hq | settle hq => exact keep hq rfl
    | begin hq hc => exact keep hq (by rw [Pool.begin, if_pos hc])
    | build hq =>
      intro pool hmem
      rcases List.mem_append.mp hmem with hold | hnew
      · exact hu pool hold
      · rw [List.mem_singleton.mp hnew]
        exact Pool.limit_ne_zero_of_ofPlan hq
    | _ => exact hu

/-! ## Steps for one worker -/

/-- Where worker `w` of pool `p` stands. -/
def station? (s : Line α) (p w : Nat) : Option (Station (Parcel α)) :=
  (s.worker? p w).map Worker.station

theorem station?_eq (hw : s.worker? p w = some worker) : s.station? p w = some worker.station := by
  rw [station?, hw, Option.map_some]

theorem station_eq (hw : s.worker? p w = some worker) {station : Station (Parcel α)}
    (h : s.station? p w = some station) : worker.station = station :=
  Option.some.inj ((station?_eq hw).symm.trans h)

theorem exists_worker {station : Station (Parcel α)} (h : s.station? p w = some station) :
    ∃ pool worker, s.pools[p]? = some pool ∧ pool.workers[w]? = some worker ∧
      worker.station = station := by
  obtain ⟨worker, hw, hst⟩ := Option.map_eq_some_iff.mp h
  obtain ⟨pool, hp, hx⟩ := Option.bind_eq_some_iff.mp hw
  exact ⟨pool, worker, hp, hx, hst⟩

theorem worker?_setWorker (hp : s.pools[p]? = some pool) (hw : pool.workers[w]? = some worker) :
    (s.setWorker p w worker').worker? p w = some worker' := by
  rw [setWorker_eq hp, worker?_setPool hp rfl, if_pos rfl]
  exact List.getElem?_set_self (List.getElem?_eq_some_iff.mp hw).1

/-- Worker `w` of pool `p` makes a stride, and no call makes a turn. -/
def Moves (s t : Line α) (p w : Nat) : Prop :=
  t.calls = s.calls ∧ ∃ pool worker worker', s.pools[p]? = some pool ∧
    pool.workers[w]? = some worker ∧ t.worker? p w = some worker' ∧ Stride s t pool worker worker'

/-- Worker `w` of pool `p`, which is `worker` of `pool`, makes a stride, no call makes a turn,
and the other workers stand still. -/
def MovesAlone (s t : Line α) (p w : Nat) (pool : Pool (Parcel α)) (worker : Worker (Parcel α)) :
    Prop :=
  t.calls = s.calls ∧ ∃ pool' worker', t.pools = s.pools.set p pool' ∧
    pool'.workers = pool.workers.set w worker' ∧ Stride s t pool worker worker'

theorem MovesAlone.moves (h : s.MovesAlone t p w pool worker) (hp : s.pools[p]? = some pool)
    (hw : pool.workers[w]? = some worker) : s.Moves t p w := by
  obtain ⟨hcalls, pool', worker', hpools, hworkers, stride⟩ := h
  refine ⟨hcalls, pool, worker, worker', hp, hw, ?_, stride⟩
  rw [worker?, hpools, List.getElem?_set_self (List.getElem?_eq_some_iff.mp hp).1,
    Option.bind_some, hworkers, List.getElem?_set_self (List.getElem?_eq_some_iff.mp hw).1]

theorem movesAlone_of_pace (hp : s.pools[p]? = some pool) (w : Nat)
    (pace : Pace s pool worker worker') :
    s.MovesAlone (s.setWorker p w worker') p w pool worker := by
  rw [setWorker_eq hp]
  exact ⟨rfl, _, _, rfl, rfl, .pace pace rfl rfl⟩

theorem movesAlone_of_work (hp : s.pools[p]? = some pool) (hw : pool.workers[w]? = some worker)
    (h : s.work p w = some t) : s.MovesAlone t p w pool worker := by
  unfold work at h
  cases hst : worker.station with
  | door hook =>
    simp only [hp, hw, hst, Option.ite_none_right_eq_some, Option.some.injEq] at h
    exact h.2 ▸ movesAlone_of_pace hp w (.enter hst h.1)
  | watching =>
    simp only [hp, hw, hst, Option.some.injEq] at h
    exact h ▸ movesAlone_of_pace hp w (.watch hst)
  | checking =>
    simp only [hp, hw, hst, Option.some.injEq] at h
    exact h ▸ movesAlone_of_pace hp w (.check hst)
  | sweeping round todo batch =>
    cases todo with
    | nil =>
      simp only [hp, hw, hst, Option.some.injEq] at h
      exact h ▸ movesAlone_of_pace hp w (.handOver hst)
    | cons n rest =>
      simp only [hp, hw, hst, Option.some.injEq] at h
      subst h
      cases hl : s.store.lanes[n]? with
      | none =>
        simp only [sweep, hl]
        exact movesAlone_of_pace hp w (.skip hst hl)
      | some lane =>
        cases ht : lane.take (pool.limitOf round) with
        | error fault =>
          simp only [sweep, hl, ht]
          exact movesAlone_of_pace hp w (.fail hst hl ht)
        | ok taken =>
          simp only [sweep, hl, ht]
          rw [setWorker_eq (s := { s with store := s.store.setLane n taken.lane }) hp]
          exact ⟨rfl, _, _, rfl, rfl, .sweep hst hl ht rfl⟩
  | settling round batch e =>
    simp only [hp, hw, hst, Option.some.injEq] at h
    subst h
    rw [settle, mapPool_eq hp]
    refine ⟨rfl, _, _, rfl, ?_, .settle hst rfl⟩
    cases e <;> rfl
  | inside | finished | broken => simp [hp, hw, hst] at h

theorem moves_of_work (h : s.work p w = some t) : s.Moves t p w := by
  cases hp : s.pools[p]? with
  | none => simp [work, hp] at h
  | some pool =>
    cases hw : pool.workers[w]? with
    | none => simp [work, hp, hw] at h
    | some worker => exact (movesAlone_of_work hp hw h).moves hp hw

theorem endHook_eq (hp : s.pools[p]? = some pool) (hw : pool.workers[w]? = some worker)
    {hook : Hook (Parcel α)} (hst : worker.station = .inside hook) (how : HookEnd) :
    s.endHook p w how = some (s.setWorker p w (worker.leave hook how)) := by
  simp only [endHook, hp, hw, hst]

theorem calls_of_isFor (ha : a.IsFor p w) (hs : s.step a = some t) : t.calls = s.calls := by
  refine (calls_of_others ?_ hs).1
  cases a with
  | work | endHook | setHeld => rfl
  | _ => exact ha.elim

theorem effect_of_isFor (hp : s.pools[p]? = some pool) (ha : a.IsFor p w)
    (hs : s.step a = some t) : Effect s t := by
  cases a with
  | work q v => exact work_effect hs
  | endHook q v how => exact endHook_effect hs
  | setHeld q held =>
    obtain ⟨rfl, rfl⟩ := ha
    cases hs
    rw [setHeld, mapPool_eq hp]
    exact .hold false hp
  | _ => exact ha.elim

/-! ## On to the next stop -/

/-- Worker `w` of pool `p` is at a stop: it is about to look whether writes are admitted,
or done. -/
def IsPaused (s : Line α) (p w : Nat) : Prop :=
  s.station? p w = some .checking ∨ s.station? p w = some .finished

/-- Worker `w` of pool `p` goes on to its next stop, unless it is at one. -/
inductive Trip (p w : Nat) : Line α → Line α → Prop
  | rest {s : Line α} : s.IsPaused p w → Trip p w s s
  | step {s t u : Line α} (a : Action α) :
      ¬ s.IsPaused p w → a.IsFor p w → s.step a = some t → Trip p w t u → Trip p w s u

theorem Trip.reaches (trip : Trip p w s t) : Reaches s t := by
  induction trip with
  | rest => exact .refl
  | step a _ _ hs _ ih => exact (Reaches.refl.step a hs).trans ih

theorem Trip.calls (trip : Trip p w s t) : t.calls = s.calls := by
  induction trip with
  | rest => rfl
  | step a _ ha hs _ ih => exact ih.trans (calls_of_isFor ha hs)

theorem Trip.paused (trip : Trip p w s t) : t.IsPaused p w := by
  induction trip with
  | rest h => exact h
  | step _ _ _ _ _ ih => exact ih

/-- What holds of worker `w` of pool `p` holds again after each of its strides, and after
each step of others that it waits for. -/
def IsKept (p w size : Nat) (P : Line α → Worker (Parcel α) → Prop) : Prop :=
  ∀ (u v : Line α) (pool : Pool (Parcel α)) (x x' : Worker (Parcel α)),
    u.IsClosing p size → u.pools[p]? = some pool → pool.workers[w]? = some x → Effect u v →
    v.calls = u.calls → x' = x ∨ Stride u v pool x x' → P u x → P v x'

theorem Trip.induction {P : Line α → Worker (Parcel α) → Prop} (trip : Trip p w s t)
    (h : s.IsClosing p size) (hw : s.worker? p w = some worker) (start : P s worker)
    (kept : IsKept p w size P) : ∃ worker', t.worker? p w = some worker' ∧ P t worker' := by
  induction trip generalizing worker with
  | rest => exact ⟨worker, hw, start⟩
  | @step s t u a _ ha hs _ ih =>
    obtain ⟨pool, hp, -, -⟩ := h.pool
    have hx : pool.workers[w]? = some worker := by rwa [worker?, hp] at hw
    have e := effect_of_isFor hp ha hs
    obtain ⟨pool', x', hp', hx', hstep⟩ := e.worker_after h.reachable.fit hp hx
    have ht : t.IsClosing p size := Reaches.isClosing (.step a .refl hs) h
    exact ih ht (worker?_eq hp' hx')
      (kept s t pool worker x' h hp hx e (calls_of_isFor ha hs) hstep start)

/-- How many keep the shared consumer of pool `p` busy. -/
def busy (s : Line α) (p : Nat) : Nat :=
  s.pools[p]?.elim 0 fun pool => pool.held.toNat + pool.workers.countP Worker.isInside

theorem busy_eq (hp : s.pools[p]? = some pool) :
    s.busy p = pool.held.toNat + pool.workers.countP Worker.isInside := by
  rw [busy, hp, Option.elim_some]

/-- A worker that has just left a hook is not inside one. -/
theorem isInside_leave (worker : Worker α) (hook : Hook α) (how : HookEnd) :
    (worker.leave hook how).isInside = false := by
  cases hook with
  | start | consume | exit => rfl
  | error round => cases round <;> rfl

/-- A shared consumer that is busy gets less so. -/
theorem exists_release (hp : s.pools[p]? = some pool) (hw : pool.workers[w]? = some worker)
    {hook : Hook (Parcel α)} (hd : worker.station = .door hook) (hm : pool.mayEnter = false) :
    ∃ a t, Action.IsFor p w a ∧ s.step a = some t ∧ t.worker? p w = some worker ∧
      t.busy p < s.busy p := by
  have hset : ∀ new : Pool (Parcel α), (s.pools.set p new)[p]? = some new :=
    fun _ => List.getElem?_set_self (List.getElem?_eq_some_iff.mp hp).1
  cases hheld : pool.held with
  | true =>
    refine ⟨.setHeld p false, s.setHeld p false, ⟨rfl, rfl⟩, rfl, ?_, ?_⟩
    · rw [setHeld, mapPool_eq hp, worker?_setPool hp rfl, if_pos rfl, hw]
    · rw [setHeld, mapPool_eq hp, busy_eq hp, busy_eq (hset _), hheld]
      simp
  | false =>
    obtain ⟨-, other, hmem, hinside⟩ :
        pool.plan.shared = true ∧ ∃ x ∈ pool.workers, x.isInside = true := by
      simpa [Pool.mayEnter, hheld] using hm
    obtain ⟨v, hv⟩ := List.getElem?_of_mem hmem
    obtain ⟨hook', hi⟩ : ∃ hook', other.station = .inside hook' := by
      unfold Worker.isInside at hinside
      split at hinside
      · next hook' hi => exact ⟨hook', hi⟩
      · cases hinside
    have hne : v ≠ w := by
      rintro rfl
      rw [hw] at hv
      cases hv
      rw [hd] at hi
      cases hi
    refine ⟨.endHook p v .returned, _, rfl, endHook_eq hp hv hi .returned, ?_, ?_⟩
    · rw [setWorker_eq hp, worker?_setPool hp rfl, if_pos rfl]
      exact (List.getElem?_set_ne hne).trans hw
    · have hcount := countP_set_eq hv (other.leave hook' .returned) Worker.isInside
      rw [hinside, isInside_leave] at hcount
      rw [setWorker_eq hp, busy_eq hp, busy_eq (hset _)]
      simp only [Pool.setWorker, Bool.toNat_true, Bool.toNat_false] at hcount ⊢
      omega

/-- A worker that is not at a stop gets nearer to it, or has less to wait for. -/
theorem IsClosing.exists_isFor (h : s.IsClosing p size) (hw : s.worker? p w = some worker)
    (hnot : ¬ s.IsPaused p w) :
    ∃ a t worker', Action.IsFor p w a ∧ s.step a = some t ∧ t.worker? p w = some worker' ∧
      Prod.Lex (· < ·) (· < ·) (worker'.station.rank, t.busy p) (worker.station.rank, s.busy p) := by
  obtain ⟨pool, hp, hclosed, -⟩ := h.pool
  have hx : pool.workers[w]? = some worker := by rwa [worker?, hp] at hw
  have horder : worker.KeepsOrder :=
    h.reachable.allKeepOrder pool (List.mem_of_getElem? hp) worker (List.mem_of_getElem? hx)
  have hchecking : worker.station ≠ .checking := by
    intro hst
    exact hnot (.inl (by rw [station?_eq hw, hst]))
  have hfinished : worker.isFinished = false := by
    cases hst : worker.station with
    | finished => exact absurd (.inr (by rw [station?_eq hw, hst])) hnot
    | _ => simp [Worker.isFinished, hst]
  have nearer : ∀ {t : Line α} {worker' : Worker (Parcel α)}, Stride s t pool worker worker' →
      Prod.Lex (· < ·) (· < ·) (worker'.station.rank, t.busy p) (worker.station.rank, s.busy p) :=
    fun stride => .left _ _ (stride.rank_lt h.reachable.sound hclosed hchecking)
  rcases goesOn_of_not_finished hp hx horder hfinished with ⟨t, ht⟩ | ⟨hook, ⟨hi, -⟩ | ⟨hd, hm⟩⟩
  · obtain ⟨-, pool₁, x, x', hp₁, hx₁, hx', stride⟩ := moves_of_work ht
    rw [hp] at hp₁
    cases hp₁
    rw [hx] at hx₁
    cases hx₁
    exact ⟨.work p w, t, x', ⟨rfl, rfl⟩, ht, hx', nearer stride⟩
  · exact ⟨.endHook p w .returned, _, _, rfl, endHook_eq hp hx hi .returned,
      worker?_setWorker hp hx, nearer (.pace (.leave .returned hi) rfl rfl)⟩
  · obtain ⟨a, t, ha, hs, hsame, hless⟩ := exists_release hp hx hd hm
    exact ⟨a, t, worker, ha, hs, hsame, .right _ hless⟩

/-- **A worker of a closed pool gets to its next stop.** -/
theorem IsClosing.exists_trip {s : Line α} {worker : Worker (Parcel α)} (h : s.IsClosing p size)
    (hw : s.worker? p w = some worker) : ∃ t, Trip p w s t := by
  by_cases hpaused : s.IsPaused p w
  · exact ⟨s, .rest hpaused⟩
  · obtain ⟨a, u, worker', ha, hs, hw', hless⟩ := h.exists_isFor hw hpaused
    have hu : u.IsClosing p size := Reaches.isClosing (.step a .refl hs) h
    obtain ⟨t, trip⟩ := exists_trip hu hw'
    exact ⟨t, .step a hpaused ha hs trip⟩
termination_by (worker.station.rank, s.busy p)
decreasing_by exact hless

/-! ## One pass -/

/-- Worker `w` of pool `p` gets to its next stop, and from there, unless it is done, makes
one pass. -/
inductive Pass (p w : Nat) (s : Line α) : Line α → Prop
  | done {t : Line α} : Trip p w s t → t.station? p w = some .finished → Pass p w s t
  | round {t u v : Line α} :
      Trip p w s t → t.station? p w = some .checking → t.work p w = some u → Trip p w u v →
      Pass p w s v

theorem Pass.reaches (pass : Pass p w s t) : Reaches s t := by
  cases pass with
  | done trip => exact trip.reaches
  | round trip _ hu back => exact (trip.reaches.step (.work p w) hu).trans back.reaches

theorem Pass.calls (pass : Pass p w s t) : t.calls = s.calls := by
  cases pass with
  | done trip => exact trip.calls
  | round trip _ hu back => exact back.calls.trans ((moves_of_work hu).1.trans trip.calls)

/-- A worker keeps its channels. -/
theorem Reaches.worker_after (hr : Reaches s t) (h : s.Reachable)
    (hw : s.worker? p w = some worker) :
    ∃ worker', t.worker? p w = some worker' ∧ worker'.channels = worker.channels := by
  have hall : t.Fit ∧ ∃ worker', t.worker? p w = some worker' ∧
      worker'.channels = worker.channels := by
    refine hr.induction (P := fun u => u.Fit ∧ ∃ worker', u.worker? p w = some worker' ∧
      worker'.channels = worker.channels) h ⟨h.fit, worker, hw, rfl⟩ ?_
    rintro u v ⟨hu, x, hx, hchannels⟩ e
    obtain ⟨pool, hp, hx⟩ := Option.bind_eq_some_iff.mp hx
    obtain ⟨pool', x', hp', hx', rfl | stride⟩ := e.worker_after hu hp hx
    · exact ⟨e.fit hu, _, worker?_eq hp' hx', hchannels⟩
    · exact ⟨e.fit hu, x', worker?_eq hp' hx', stride.channels.trans hchannels⟩
  exact hall.2

theorem work_checking (hp : s.pools[p]? = some pool) (hw : pool.workers[w]? = some worker)
    (hst : worker.station = .checking) :
    s.work p w = some (s.setWorker p w (check pool worker)) := by
  simp only [work, hp, hw, hst]

/-- **A worker of a closed pool makes its pass.** -/
theorem IsClosing.exists_pass (h : s.IsClosing p size) (hw : s.worker? p w = some worker) :
    ∃ t, Pass p w s t := by
  obtain ⟨t, trip⟩ := h.exists_trip hw
  rcases trip.paused with hst | hst
  · have ht := trip.reaches.isClosing h
    obtain ⟨pool, x, hp, hxw, hxst⟩ := exists_worker hst
    have hu := work_checking hp hxw hxst
    obtain ⟨v, back⟩ := ((Reaches.refl.step (.work p w) hu).isClosing ht).exists_trip
      (worker?_setWorker hp hxw)
    exact ⟨v, .round trip hst hu back⟩
  · exact ⟨t, .done trip hst⟩

/-- After a look at the writes that are admitted, all channels of the worker are ahead of
it. -/
theorem ahead_check (pool : Pool (Parcel α)) (worker : Worker (Parcel α)) :
    (check pool worker).station.ahead = worker.channels := by
  unfold Line.check Worker.moveTo
  split <;> rfl

/-- When the worker is at its next stop, there is room in every channel that it had ahead. -/
theorem Trip.hasRoom (trip : Trip p w s t) (h : s.IsClosing p size)
    (hw : s.worker? p w = some worker) (hn : n < s.store.count)
    (hahead : n ∈ worker.station.ahead) : t.HasRoom n := by
  have hkept : IsKept p w size fun (u : Line α) x =>
      n < u.store.count ∧ (n ∈ x.station.ahead ∨ u.HasRoom n) := by
    rintro u v pool x x' hu hp hx e hcalls hstep ⟨hlt, hin | hroom⟩
    · refine ⟨e.count ▸ hlt, ?_⟩
      rcases hstep with rfl | stride
      · exact .inl hin
      · have hlimit := hu.reachable.limit_ne_zero pool (List.mem_of_getElem? hp)
        exact stride.ahead_or_hasRoom hu.reachable.sound hlimit hlt hin
    · exact ⟨e.count ▸ hlt, .inr (e.hasRoom hu.reachable.sound hcalls hroom)⟩
  obtain ⟨worker', hw', -, hin | hroom⟩ := trip.induction h hw ⟨hn, .inl hahead⟩ hkept
  · -- A worker at a stop has nothing ahead.
    rcases trip.paused with hst | hst <;> rw [station_eq hw' hst] at hin <;> cases hin
  · exact hroom

/-- **A pass makes room.** While a call that the pool admitted is not over, a pass of a
worker leaves all its channels with room. -/
theorem Pass.hasRoom (pass : Pass p w s t) (h : s.IsClosing p size)
    (hw : s.worker? p w = some worker) (hn : n ∈ worker.channels) (hlt : n < s.store.count)
    (hc : c ∈ s.calls) (hpass : c.pass = some p) (hopen : c.isOver = false) : t.HasRoom n := by
  cases pass with
  | done trip hst =>
    -- A worker is not done before that call is over.
    obtain ⟨pool, x, hp, hxw, hxst⟩ := exists_worker hst
    have hround : x.round = .final := by rw [Worker.round, hxst]; rfl
    have hover := (h.reachable.reaches trip.reaches).admits.done p pool hp x
      (List.mem_of_getElem? hxw) hround c (trip.calls ▸ hc) hpass
    rw [hopen] at hover
    cases hover
  | round trip hst hu back =>
    obtain ⟨x, hx, hchannels⟩ := trip.reaches.worker_after h.reachable hw
    obtain ⟨pool, hp, hxw⟩ := Option.bind_eq_some_iff.mp hx
    have hxst : x.station = .checking := station_eq hx hst
    rw [work_checking hp hxw hxst] at hu
    cases hu
    have hstep : Reaches s _ := trip.reaches.step (.work p w) (work_checking hp hxw hxst)
    refine back.hasRoom (hstep.isClosing h) (worker?_setWorker hp hxw) ?_ ?_
    · exact (hstep.count h.reachable).symm ▸ hlt
    · rw [ahead_check, hchannels]
      exact hn

/-- **A pass after the last admitted write is the last one.** -/
theorem Pass.isFinished (pass : Pass p w s t) (h : s.IsClosing p size)
    (hnone : ∀ c ∈ s.calls, c.isEnrolled p = false) : t.station? p w = some .finished := by
  cases pass with
  | done _ hst => exact hst
  | round trip hst hu back =>
    obtain ⟨pool, x, hp, hxw, hxst⟩ := exists_worker hst
    have hnought : pool.admitted = 0 := by
      rw [(h.reachable.reaches trip.reaches).admits.admitted p pool hp, trip.calls,
        List.countP_eq_zero]
      intro c hc
      rw [hnone c hc]
      exact Bool.false_ne_true
    rw [work_checking hp hxw hxst] at hu
    cases hu
    have hstep : Reaches s _ := trip.reaches.step (.work p w) (work_checking hp hxw hxst)
    have hfinal : (check pool x).round = .final := by
      rw [Line.check, hnought]
      rfl
    have hkept : IsKept p w size fun (_ : Line α) y => y.round = .final := by
      rintro u v pool y y' hu - - - - (rfl | stride) hy
      · exact hy
      · exact stride.round_final hu.reachable.sound hy
    obtain ⟨x', hx', hround⟩ :=
      back.induction (hstep.isClosing h) (worker?_setWorker hp hxw) hfinal hkept
    rcases back.paused with hend | hend
    · -- Before a look the round is not the last.
      have hat : x'.station = .checking := station_eq hx' hend
      rw [Worker.round, hat] at hround
      cases hround
    · exact hend

end Line

end Conveyor
