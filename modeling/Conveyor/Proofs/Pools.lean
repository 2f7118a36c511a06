/-
Conveyor.Proofs.Pools — the workers of a pool share the channels out among
themselves.

No step changes what a worker was dealt. So every channel of a line has one worker in every
pool that has begun, and only one (`Fit.exists_owner`, `Fit.owner_unique`); and a pool that
has not begun has no worker yet.
-/
import Conveyor.Proofs.Dealing
import Conveyor.Proofs.Steps

namespace Conveyor

variable {α : Type u}

/-! ## Pools that fit their line -/

/-- The channels still ahead of a worker on its round. -/
def Station.ahead : Station α → List Nat
  | .sweeping _ todo _ => todo
  | _ => []

namespace Pool

variable {count : Nat} {pool : Pool α}

/-- The pool suits a line with `count` channels. -/
structure Fit (count : Nat) (pool : Pool α) : Prop where
  size : 0 < pool.plan.workers
  assignment : pool.assignment = .deal pool.plan.workers count
  created : pool.stage = .created → pool.workers = []
  channels : pool.workers = [] ∨ pool.workers.map Worker.channels = pool.assignment
  ahead : ∀ worker ∈ pool.workers, ∀ c ∈ worker.station.ahead, c ∈ worker.channels

/-- A pool that could be built fits, and is empty. -/
theorem fit_ofPlan {plan : PoolPlan} (h : ofPlan plan count = .ok pool) :
    pool.Fit count ∧ pool.workers = [] ∧ pool.stage = .created ∧ pool.admitted = 0 := by
  obtain ⟨hw, -, rfl⟩ := ofPlan_eq_ok_iff.mp h
  exact ⟨⟨Nat.pos_of_ne_zero hw, rfl, fun _ => rfl, .inl rfl, fun _ hmem => nomatch hmem⟩,
    rfl, rfl, rfl⟩

namespace Fit

variable {w : Nat} {worker worker' : Worker α}

/-- As many shares as the plan has workers. -/
theorem size_eq (h : pool.Fit count) : pool.size = pool.plan.workers := by
  rw [Pool.size, h.assignment, Assignment.length_deal]

/-- The channels of a worker are those with its number as the remainder, in order. -/
theorem channels_eq (h : pool.Fit count) (hw : pool.workers[w]? = some worker) :
    worker.channels = (List.range count).filter fun c => c % pool.plan.workers = w := by
  have hch : (pool.workers.map Worker.channels)[w]? = some worker.channels := by
    rw [List.getElem?_map, hw, Option.map_some]
  rcases h.channels with hnil | hmap
  · rw [hnil] at hw
    cases hw
  · rw [hmap, h.assignment] at hch
    exact (Assignment.getElem?_deal_eq_some.mp hch).2

/-- The channels of worker `w` are those with remainder `w`. -/
theorem mem_channels_iff (h : pool.Fit count) (hw : pool.workers[w]? = some worker) {c : Nat} :
    c ∈ worker.channels ↔ c < count ∧ c % pool.plan.workers = w := by
  rw [h.channels_eq hw, List.mem_filter, List.mem_range, decide_eq_true_eq]

/-- A pool that has begun has a worker for every channel. -/
theorem exists_owner (h : pool.Fit count) (hne : pool.workers ≠ []) {c : Nat} (hc : c < count) :
    ∃ worker ∈ pool.workers, c ∈ worker.channels := by
  have hlen : pool.workers.length = pool.plan.workers := by
    have hmap := h.channels.resolve_left hne
    rw [← List.length_map Worker.channels, hmap, h.assignment, Assignment.length_deal]
  have hw : c % pool.plan.workers < pool.workers.length := by
    rw [hlen]
    exact Nat.mod_lt _ h.size
  have hget := List.getElem?_eq_getElem hw
  exact ⟨_, List.getElem_mem hw, (h.mem_channels_iff hget).mpr ⟨hc, rfl⟩⟩

/-- A channel has no two workers in one pool. -/
theorem owner_unique (h : pool.Fit count) {w' c : Nat} (hw : pool.workers[w]? = some worker)
    (hw' : pool.workers[w']? = some worker') (hc : c ∈ worker.channels)
    (hc' : c ∈ worker'.channels) : w = w' :=
  ((h.mem_channels_iff hw).mp hc).2.symm.trans ((h.mem_channels_iff hw').mp hc').2

/-- A worker has only channels of its own before it. -/
theorem mem_of_ahead (h : pool.Fit count) (hw : pool.workers[w]? = some worker) {c : Nat}
    (hc : c ∈ worker.station.ahead) : c ∈ worker.channels :=
  h.ahead worker (List.mem_of_getElem? hw) c hc

/-- A pool with workers has begun. -/
theorem stage_ne_created (h : pool.Fit count) (hw : pool.workers[w]? = some worker) :
    pool.stage ≠ .created := by
  intro hs
  rw [h.created hs] at hw
  cases hw

/-- A pool stays fit when a worker moves on with the channels it has. -/
theorem setWorker (h : pool.Fit count) (hw : pool.workers[w]? = some worker)
    (hc : worker'.channels = worker.channels)
    (ha : ∀ c ∈ worker'.station.ahead, c ∈ worker.channels) :
    (pool.setWorker w worker').Fit count where
  size := h.size
  assignment := h.assignment
  created hs := absurd hs (h.stage_ne_created hw)
  channels := by
    have hmap : (pool.workers.set w worker').map Worker.channels =
        pool.workers.map Worker.channels := Line.map_set_of_eq hw hc
    rcases h.channels with hnil | hch
    · rw [hnil] at hw
      cases hw
    · exact .inr (hmap.trans hch)
  ahead v hmem c hv := by
    rcases List.mem_or_eq_of_mem_set hmem with hold | rfl
    · exact h.ahead v hold c hv
    · rw [hc]
      exact ha c hv

/-- To begin starts one worker for each share. -/
theorem begin (h : pool.Fit count) (hs : pool.stage = .created) : pool.begin.Fit count := by
  rw [Pool.begin, if_pos hs]
  refine ⟨h.size, h.assignment, ?_, .inr ?_, ?_⟩
  · intro he
    cases he
  · rw [List.map_map]
    exact List.map_id _
  · intro worker hmem c hc
    obtain ⟨channels, -, rfl⟩ := List.mem_map.mp hmem
    cases hc

end Fit

end Pool

namespace Line

variable {s t : Line α}

/-- Every pool suits the line. -/
def Fit (s : Line α) : Prop := ∀ pool ∈ s.pools, pool.Fit s.store.count

/-! ## Steps keep pools fit -/

theorem Fit.pool (h : s.Fit) {p : Nat} {pool : Pool (Parcel α)} (hp : s.pools[p]? = some pool) :
    pool.Fit s.store.count :=
  h pool (List.mem_of_getElem? hp)

theorem Fit.set (h : s.Fit) (p : Nat) {pool : Pool (Parcel α)} (hp : pool.Fit s.store.count) :
    ∀ q ∈ s.pools.set p pool, q.Fit s.store.count := by
  intro q hq
  rcases List.mem_or_eq_of_mem_set hq with hold | rfl
  · exact h q hold
  · exact hp

@[simp] theorem count_setLane (store : LaneSet (Parcel α)) (n : Nat) (lane : Lane (Parcel α)) :
    (store.setLane n lane).count = store.count :=
  List.length_set ..

theorem ahead_afterRound (round : Round) : (Worker.afterRound round : Station α).ahead = [] := by
  cases round <;> rfl

theorem ahead_afterHook (hook : Hook α) (how : HookEnd) :
    (Worker.afterHook hook how).ahead = [] := by
  cases hook with
  | error round => exact ahead_afterRound round
  | _ => rfl

theorem ahead_settled (round : Round) (batch : Batch α) (e : Option ConsumeError) :
    (e.elim (Worker.afterRound round) fun e => Station.door (.error round batch e)).ahead = [] := by
  cases e with
  | none => exact ahead_afterRound round
  | some e => rfl

/-- A worker keeps its channels, and never has others ahead. -/
theorem Pace.ahead {pool : Pool (Parcel α)} {worker worker' : Worker (Parcel α)}
    (pace : Pace s pool worker worker') : worker'.channels = worker.channels ∧
      ∀ c ∈ worker'.station.ahead, c ∈ worker.station.ahead ∨ c ∈ worker.channels := by
  cases pace with
  | enter | fail => exact ⟨rfl, fun _ hc => nomatch hc⟩
  | @leave hook how _ =>
    refine ⟨rfl, ?_⟩
    intro c hc
    rw [show (worker.leave hook how).station = Worker.afterHook hook how from rfl,
      ahead_afterHook] at hc
    cases hc
  | watch _ =>
    refine ⟨rfl, ?_⟩
    intro c hc
    unfold Line.watch Worker.moveTo at hc
    split at hc
    · exact .inr hc
    · cases hc
  | check _ =>
    refine ⟨rfl, ?_⟩
    intro c hc
    unfold Line.check Worker.moveTo at hc
    split at hc <;> exact .inr hc
  | skip hs _ =>
    refine ⟨rfl, fun c hc => .inl ?_⟩
    rw [hs]
    exact List.mem_cons_of_mem _ hc
  | @handOver round batch hs =>
    refine ⟨rfl, ?_⟩
    intro c hc
    unfold Line.handOver Worker.moveTo at hc
    split at hc
    · cases round <;> cases hc
    · cases hc

/-- By cases on the effect: a pool is built from its plan, begun, or given back with one worker
changed. -/
theorem Effect.fit (e : Effect s t) (h : s.Fit) : t.Fit := by
  cases e with
  | enroll _ _ hp | turnBack _ _ hp | release _ _ _ hp | hold _ hp =>
    have hf := h.pool hp
    exact h.set _ ⟨hf.size, hf.assignment, hf.created, hf.channels, hf.ahead⟩
  | close hp hs =>
    have hf := h.pool hp
    exact h.set _ ⟨hf.size, hf.assignment, fun he => (nomatch he), hf.channels, hf.ahead⟩
  | build hp =>
    intro pool hmem
    rcases List.mem_append.mp hmem with hold | hnew
    · exact h pool hold
    · rw [List.mem_singleton.mp hnew]
      exact (Pool.fit_ofPlan hp).1
  | begin hp hs => exact h.set _ ((h.pool hp).begin hs)
  | pace hp hw pace =>
    refine h.set _ ((h.pool hp).setWorker hw pace.ahead.1 ?_)
    intro c hc
    rcases pace.ahead.2 c hc with hold | hch
    · exact (h.pool hp).mem_of_ahead hw hold
    · exact hch
  | @sweep _ w n pool worker round rest batch _ taken hp hw hs =>
    have hf : (pool.setWorker w (worker.moveTo
        (.sweeping round rest (batch ++ [⟨n, taken.items⟩])))).Fit s.store.count := by
      refine (h.pool hp).setWorker hw rfl fun c hc => (h.pool hp).mem_of_ahead hw ?_
      rw [hs]
      exact List.mem_cons_of_mem _ hc
    intro q hmem
    rw [count_setLane]
    exact h.set _ hf q hmem
  | @settle _ w pool worker round batch e hp hw hs =>
    have hf : (pool.setWorker w (worker.moveTo
        (e.elim (Worker.afterRound round) fun e => .door (.error round batch e)))).Fit
          s.store.count := by
      refine (h.pool hp).setWorker hw rfl ?_
      intro c hc
      rw [Worker.moveTo, ahead_settled] at hc
      cases hc
    exact h.set _ ⟨hf.size, hf.assignment, hf.created, hf.channels, hf.ahead⟩
  | write | closeLane | drain =>
    intro pool hmem
    rw [count_setLane]
    exact h pool hmem
  | _ => exact h

/-- On every line that is reached. -/
theorem Reachable.fit (h : s.Reachable) : s.Fit := by
  refine h.induction ?_ fun _ _ hs e => e.fit hs
  intro start hf pool hmem
  obtain ⟨_, _, _, _, store, _, rfl⟩ := hf
  cases hmem

/-! ## One worker at a time -/

/-- What a step of its own, from `s` to `t`, makes of a worker. -/
inductive Stride (s t : Line α) (pool : Pool (Parcel α)) (worker : Worker (Parcel α)) :
    Worker (Parcel α) → Prop where
  | pace {worker' : Worker (Parcel α)} :
      Pace s pool worker worker' → t.calls = s.calls → t.store = s.store →
      Stride s t pool worker worker'
  | sweep {round : Round} {n : Nat} {rest : List Nat} {batch : Batch (Parcel α)}
      {lane : Lane (Parcel α)} {taken : Taken (Parcel α)} :
      worker.station = .sweeping round (n :: rest) batch → s.store.lanes[n]? = some lane →
      lane.take (pool.limitOf round) = .ok taken → t.store = s.store.setLane n taken.lane →
      Stride s t pool worker (worker.moveTo (.sweeping round rest (batch ++ [⟨n, taken.items⟩])))
  | settle {round : Round} {batch : Batch (Parcel α)} {e : Option ConsumeError} :
      worker.station = .settling round batch e → t.store = s.store →
      Stride s t pool worker (worker.moveTo
        (e.elim (Worker.afterRound round) fun e => .door (.error round batch e)))

/-- What an effect from `s` to `t` makes of the workers of a pool. -/
inductive Change (s t : Line α) (pool pool' : Pool (Parcel α)) : Prop where
  | keep : pool'.workers = pool.workers → Change s t pool pool'
  | start : pool.workers = [] → (∀ worker ∈ pool'.workers, worker.station = .door .start) →
      Change s t pool pool'
  | work {w : Nat} {worker worker' : Worker (Parcel α)} :
      pool.workers[w]? = some worker → pool'.workers = pool.workers.set w worker' →
      Stride s t pool worker worker' → Change s t pool pool'

/-- An effect changes one pool at most, or adds one without workers. -/
theorem Effect.change (e : Effect s t) (h : s.Fit) :
    t.pools = s.pools ∨ (∃ pool, pool.workers = [] ∧ t.pools = s.pools ++ [pool]) ∨
      ∃ p pool pool', s.pools[p]? = some pool ∧ t.pools = s.pools.set p pool' ∧
        (pool.stage = .closed → pool'.stage = .closed) ∧ Change s t pool pool' := by
  cases e with
  | enroll _ _ hp | turnBack _ _ hp | release _ _ _ hp | hold _ hp =>
    exact .inr (.inr ⟨_, _, _, hp, rfl, id, .keep rfl⟩)
  | close hp => exact .inr (.inr ⟨_, _, _, hp, rfl, fun _ => rfl, .keep rfl⟩)
  | build hp => exact .inr (.inl ⟨_, (Pool.fit_ofPlan hp).2.1, rfl⟩)
  | begin hp hc =>
    refine .inr (.inr ⟨_, _, _, hp, rfl, ?_, .start ((h.pool hp).created hc) ?_⟩)
    · intro hs
      rw [hs] at hc
      cases hc
    · intro worker hmem
      rw [Pool.begin, if_pos hc] at hmem
      obtain ⟨channels, -, rfl⟩ := List.mem_map.mp hmem
      rfl
  | pace hp hw pace => exact .inr (.inr ⟨_, _, _, hp, rfl, id, .work hw rfl (.pace pace rfl rfl)⟩)
  | sweep hp hw hs hl ht =>
    exact .inr (.inr ⟨_, _, _, hp, rfl, id, .work hw rfl (.sweep hs hl ht rfl)⟩)
  | settle hp hw hs => exact .inr (.inr ⟨_, _, _, hp, rfl, id, .work hw rfl (.settle hs rfl)⟩)
  | _ => exact .inl rfl

/-- A worker has just been started, or it was there before and has made one
step at most. -/
theorem Effect.worker_before (e : Effect s t) (h : s.Fit) {p w : Nat} {pool' : Pool (Parcel α)}
    {worker' : Worker (Parcel α)} (hp : t.pools[p]? = some pool')
    (hw : pool'.workers[w]? = some worker') :
    worker'.station = .door .start ∨
      ∃ pool worker, s.pools[p]? = some pool ∧ pool.workers[w]? = some worker ∧
        (pool.stage = .closed → pool'.stage = .closed) ∧
        (worker' = worker ∨ Stride s t pool worker worker') := by
  rcases e.change h with hsame | ⟨new, hnil, happ⟩ | ⟨q, pool, new, hq, hset, hstage, change⟩
  · rw [hsame] at hp
    exact .inr ⟨pool', worker', hp, hw, id, .inl rfl⟩
  · rw [happ, List.getElem?_append] at hp
    split at hp
    · exact .inr ⟨pool', worker', hp, hw, id, .inl rfl⟩
    · obtain rfl := List.mem_singleton.mp (List.mem_of_getElem? hp)
      rw [hnil] at hw
      cases hw
  · rw [hset] at hp
    rcases eq_of_getElem?_set hp with ⟨rfl, rfl⟩ | ⟨-, hold⟩
    · cases change with
      | keep hworkers =>
        rw [hworkers] at hw
        exact .inr ⟨pool, worker', hq, hw, hstage, .inl rfl⟩
      | start _ hstart => exact .inl (hstart worker' (List.mem_of_getElem? hw))
      | work hv hworkers stride =>
        rw [hworkers] at hw
        rcases eq_of_getElem?_set hw with ⟨rfl, rfl⟩ | ⟨-, hsame⟩
        · exact .inr ⟨pool, _, hq, hv, hstage, .inr stride⟩
        · exact .inr ⟨pool, worker', hq, hsame, hstage, .inl rfl⟩
    · exact .inr ⟨pool', worker', hold, hw, id, .inl rfl⟩

/-- No worker goes away, and each makes one step at most. -/
theorem Effect.worker_after (e : Effect s t) (h : s.Fit) {p w : Nat} {pool : Pool (Parcel α)}
    {worker : Worker (Parcel α)} (hp : s.pools[p]? = some pool)
    (hw : pool.workers[w]? = some worker) :
    ∃ pool' worker', t.pools[p]? = some pool' ∧ pool'.workers[w]? = some worker' ∧
      (worker' = worker ∨ Stride s t pool worker worker') := by
  rcases e.change h with hsame | ⟨new, -, happ⟩ | ⟨q, old, new, hq, hset, -, change⟩
  · exact ⟨pool, worker, hsame ▸ hp, hw, .inl rfl⟩
  · refine ⟨pool, worker, ?_, hw, .inl rfl⟩
    rw [happ, List.getElem?_append_left (List.getElem?_eq_some_iff.mp hp).1]
    exact hp
  · by_cases hqp : q = p
    · subst hqp
      rw [hp] at hq
      cases hq
      have hnew : t.pools[q]? = some new := by
        rw [hset, List.getElem?_set_self (List.getElem?_eq_some_iff.mp hp).1]
      cases change with
      | keep hworkers => exact ⟨new, worker, hnew, hworkers ▸ hw, .inl rfl⟩
      | start hnil =>
        rw [hnil] at hw
        cases hw
      | @work v _ worker' hv hworkers stride =>
        by_cases hvw : v = w
        · subst hvw
          rw [hw] at hv
          cases hv
          refine ⟨new, worker', hnew, ?_, .inr stride⟩
          rw [hworkers, List.getElem?_set_self (List.getElem?_eq_some_iff.mp hw).1]
        · refine ⟨new, worker, hnew, ?_, .inl rfl⟩
          rw [hworkers, List.getElem?_set_ne hvw]
          exact hw
    · refine ⟨pool, worker, ?_, hw, .inl rfl⟩
      rw [hset, List.getElem?_set_ne hqp]
      exact hp

end Line

end Conveyor
