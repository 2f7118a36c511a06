/-
Conveyor.Proofs.Flow — how items move.

An effect moves items in one of three ways, if at all: a write brings one in
behind those in its channel, a reader that is no worker takes the oldest ones
out, or a worker does (`Flow`, `Effect.flow`). What a worker has ever taken
(`Worker.took`) it has handed over or has in hand, in the order in which it
took it; nothing it does besides changes that.

With that, every item is traced back to the channel it was written to: it lies
in that one and in no other, and only the worker with that channel has taken it
(`Traced`).
-/
import Conveyor.Proofs.LastRound

namespace Conveyor

variable {α : Type u}

/-- All that a worker has taken from its channels, in the order in which it did:
what it has handed over, and what it has in hand. -/
def Worker.took (worker : Worker α) : List α := worker.handed ++ worker.held

namespace Line

variable {s t : Line α}

/-- What lies in channel `n`, oldest first. -/
def contents (s : Line α) (n : Nat) : List (Parcel α) := s.store.lanes[n]?.elim [] Lane.toList

/-- Worker `w` of pool `p`. -/
def worker? (s : Line α) (p w : Nat) : Option (Worker (Parcel α)) :=
  s.pools[p]?.bind fun pool => pool.workers[w]?

/-- All that worker `w` of pool `p` has taken. -/
def took (s : Line α) (p w : Nat) : List (Parcel α) := (s.worker? p w).elim [] Worker.took

/-! ## Channels and workers one at a time -/

theorem contents_eq {n : Nat} {lane : Lane (Parcel α)} (hl : s.store.lanes[n]? = some lane) :
    s.contents n = lane.toList := by
  rw [contents, hl, Option.elim_some]

/-- To put a channel in another one's place changes what lies there and nowhere else. -/
theorem contents_setLane {n : Nat} {lane lane' : Lane (Parcel α)}
    (hl : s.store.lanes[n]? = some lane) (ht : t.store = s.store.setLane n lane') (m : Nat) :
    t.contents m = if n = m then lane'.toList else s.contents m := by
  rw [contents, ht, LaneSet.setLane]
  by_cases hnm : n = m
  · subst hnm
    rw [if_pos rfl, List.getElem?_set_self (List.getElem?_eq_some_iff.mp hl).1, Option.elim_some]
  · rw [if_neg hnm, List.getElem?_set_ne hnm, contents]

theorem worker?_eq {p w : Nat} {pool : Pool (Parcel α)} {worker : Worker (Parcel α)}
    (hp : s.pools[p]? = some pool) (hw : pool.workers[w]? = some worker) :
    s.worker? p w = some worker := by
  rw [worker?, hp, Option.bind_some, hw]

theorem took_eq {p w : Nat} {pool : Pool (Parcel α)} {worker : Worker (Parcel α)}
    (hp : s.pools[p]? = some pool) (hw : pool.workers[w]? = some worker) :
    s.took p w = worker.took := by
  rw [took, worker?_eq hp hw, Option.elim_some]

/-- To put a pool in another one's place changes only its workers. -/
theorem worker?_setPool {p : Nat} {pool pool' : Pool (Parcel α)} (hp : s.pools[p]? = some pool)
    (ht : t.pools = s.pools.set p pool') (q w : Nat) :
    t.worker? q w = if p = q then pool'.workers[w]? else s.worker? q w := by
  rw [worker?, ht]
  by_cases hpq : p = q
  · subst hpq
    rw [if_pos rfl, List.getElem?_set_self (List.getElem?_eq_some_iff.mp hp).1, Option.bind_some]
  · rw [if_neg hpq, List.getElem?_set_ne hpq, worker?]

/-- Only the worker that is replaced may have taken something else. -/
theorem took_setWorker {p w : Nat} {pool pool' : Pool (Parcel α)}
    {worker worker' : Worker (Parcel α)} (hp : s.pools[p]? = some pool)
    (hw : pool.workers[w]? = some worker) (ht : t.pools = s.pools.set p pool')
    (hworkers : pool'.workers = pool.workers.set w worker') (q v : Nat) :
    t.took q v = if p = q ∧ w = v then worker'.took else s.took q v := by
  rw [took, worker?_setPool hp ht, hworkers]
  by_cases hpq : p = q
  · subst hpq
    by_cases hwv : w = v
    · subst hwv
      rw [if_pos rfl, if_pos ⟨rfl, rfl⟩,
        List.getElem?_set_self (List.getElem?_eq_some_iff.mp hw).1, Option.elim_some]
    · rw [if_pos rfl, if_neg (fun h => hwv h.2), List.getElem?_set_ne hwv, took, worker?, hp,
        Option.bind_some]
  · rw [if_neg hpq, if_neg (fun h => hpq h.1), took]

/-- A pool that is replaced by one whose workers have taken the same. -/
theorem took_setPool {p : Nat} {pool pool' : Pool (Parcel α)} (hp : s.pools[p]? = some pool)
    (ht : t.pools = s.pools.set p pool')
    (h : ∀ w : Nat, pool'.workers[w]?.elim [] Worker.took = pool.workers[w]?.elim [] Worker.took)
    (q w : Nat) : t.took q w = s.took q w := by
  rw [took, worker?_setPool hp ht, took]
  by_cases hpq : p = q
  · subst hpq
    rw [if_pos rfl, h, worker?, hp, Option.bind_some]
  · rw [if_neg hpq]

/-! ## What an effect moves -/

/-- A worker that goes on without taking items keeps what it took. -/
theorem Pace.took (hs : s.Sound) {pool : Pool (Parcel α)} {worker worker' : Worker (Parcel α)}
    (pace : Pace s pool worker worker') : worker'.took = worker.took := by
  cases pace with
  | @enter hook hd =>
    have hheld : (worker.enter hook).held = [] := rfl
    rw [Worker.took, Worker.took, hheld, Worker.handed_enter, List.append_nil, Worker.held, hd]
  | @leave hook how hi =>
    have hheld : (worker.leave hook how).held = [] := Worker.load_afterHook hook how
    rw [Worker.took, Worker.took, hheld, Worker.handed_leave, Worker.held, hi]
    rfl
  | watch hw =>
    have hheld : (Line.watch pool worker).held = [] := by
      unfold Line.watch
      split <;> rfl
    rw [Worker.took, Worker.took, hheld, Worker.held, hw]
    rfl
  | check hc =>
    have hheld : (Line.check pool worker).held = [] := by
      unfold Line.check
      split <;> rfl
    rw [Worker.took, Worker.took, hheld, Worker.held, hc]
    rfl
  | skip hw hl =>
    rw [Worker.took, Worker.took, Worker.held, Worker.held, hw]
    rfl
  | fail _ hl ht => exact absurd ht ((hs.lane hl).take_ne_error _ _)
  | @handOver round batch hw =>
    have hheld : (Line.handOver worker round batch).held = batch.items := by
      unfold Line.handOver Worker.held Worker.moveTo
      split
      · next he =>
        rw [Worker.load_afterRound, List.isEmpty_iff.mp he]
      · rfl
    rw [Worker.took, Worker.took, hheld, Worker.held, hw]
    rfl

/-- What becomes of the items between `s` and `t`. -/
inductive Flow (s t : Line α) : Prop where
  | still : (∀ n, t.contents n = s.contents n) → (∀ p w, t.took p w = s.took p w) →
      t.written = s.written → t.evicted = s.evicted → t.viewed = s.viewed → Flow s t
  /-- A call that had not written brings its item in. -/
  | enters (n : Nat) (parcel : Parcel α) (out : Option (Parcel α)) (rest : List (Parcel α)) :
      (∀ x ∈ s.written, x.2.call ≠ parcel.call) →
      s.contents n = out.toList ++ rest → t.contents n = rest ++ [parcel] →
      (∀ m, n ≠ m → t.contents m = s.contents m) → (∀ p w, t.took p w = s.took p w) →
      t.written = s.written ++ [(n, parcel)] →
      t.evicted = s.evicted ++ (out.map fun parcel => (n, parcel)).toList →
      t.viewed = s.viewed → Flow s t
  /-- A reader that is no worker takes items out. -/
  | leaves (n : Nat) (items : List (Parcel α)) :
      s.contents n = items ++ t.contents n → (∀ m, n ≠ m → t.contents m = s.contents m) →
      (∀ p w, t.took p w = s.took p w) → t.written = s.written → t.evicted = s.evicted →
      t.viewed = s.viewed ++ items.map (fun parcel => (n, parcel)) → Flow s t
  /-- The worker with the channel takes items out. -/
  | taken (p w n : Nat) (items : List (Parcel α)) (pool : Pool (Parcel α)) :
      s.pools[p]? = some pool → n % pool.plan.workers = w →
      s.contents n = items ++ t.contents n → (∀ m, n ≠ m → t.contents m = s.contents m) →
      t.took p w = s.took p w ++ items →
      (∀ q v, (p, w) ≠ (q, v) → t.took q v = s.took q v) → t.written = s.written →
      t.evicted = s.evicted → t.viewed = s.viewed → Flow s t

/-- **Items move by writes, by readers and by workers only.** -/
theorem Effect.flow (e : Effect s t) (h : s.Regular) : Flow s t := by
  cases e with
  | enroll _ _ hp | turnBack _ _ hp | release _ _ _ hp | hold _ hp | close hp =>
    exact .still (fun _ => rfl) (took_setPool hp rfl fun _ => rfl) rfl rfl rfl
  | @begin p pool hp hc =>
    -- The new workers have taken nothing yet.
    refine .still (fun _ => rfl) (took_setPool hp rfl ?_) rfl rfl rfl
    intro w
    rw [(h.fit.pool hp).created hc, Pool.begin, if_pos hc]
    simp only [List.getElem?_map, List.getElem?_nil, Option.elim_none]
    cases pool.assignment[w]? <;> rfl
  | @build plan pool hp =>
    refine .still (fun _ => rfl) ?_ rfl rfl rfl
    intro p w
    have hnil := (Pool.fit_ofPlan hp).2.1
    rw [took, worker?, took, worker?, List.getElem?_append]
    by_cases hlt : p < s.pools.length
    · rw [if_pos hlt]
    · rw [if_neg hlt, List.getElem?_eq_none (Nat.not_lt.mp hlt)]
      cases hnew : [pool][p - s.pools.length]? with
      | none => rfl
      | some new =>
        obtain rfl := List.mem_singleton.mp (List.mem_of_getElem? hnew)
        rw [Option.bind_some, hnil]
        rfl
  | @pace p w pool worker worker' hp hw pace =>
    refine .still (fun _ => rfl) ?_ rfl rfl rfl
    intro q v
    rw [took_setWorker hp hw rfl rfl]
    by_cases hqv : p = q ∧ w = v
    · obtain ⟨rfl, rfl⟩ := hqv
      rw [if_pos ⟨rfl, rfl⟩, pace.took h.sound, took_eq hp hw]
    · rw [if_neg hqv]
  | @settle p w pool worker round batch e hp hw hst =>
    refine .still (fun _ => rfl) ?_ rfl rfl rfl
    intro q v
    rw [took_setWorker hp hw rfl rfl]
    by_cases hqv : p = q ∧ w = v
    · obtain ⟨rfl, rfl⟩ := hqv
      rw [if_pos ⟨rfl, rfl⟩, took_eq hp hw, Worker.took, Worker.took, Worker.held_moveTo,
        Worker.load_settled, Worker.handed_moveTo, Worker.held, hst]
      rfl
    · rw [if_neg hqv]
  | @sweep p w n pool worker round rest batch lane taken hp hw hst hl ht =>
    have hfit := h.fit.pool hp
    have hmem : n ∈ worker.channels := hfit.mem_of_ahead hw (by rw [hst]; exact List.mem_cons_self)
    refine .taken p w n taken.items pool hp ((hfit.mem_channels_iff hw).mp hmem).2 ?_ ?_ ?_ ?_
      rfl rfl rfl
    · rw [contents_eq hl, contents_setLane hl rfl, if_pos rfl]
      exact ((h.sound.lane hl).of_take ht).2
    · intro m hm
      rw [contents_setLane hl rfl, if_neg hm]
    · rw [took_eq hp hw, took_setWorker hp hw rfl rfl, if_pos ⟨rfl, rfl⟩, Worker.took,
        Worker.took, Worker.handed_moveTo, Worker.held_moveTo, Worker.held, hst]
      simp [Station.load, Batch.items]
    · intro q v hqv
      rw [took_setWorker hp hw rfl rfl, if_neg]
      rintro ⟨rfl, rfl⟩
      exact hqv rfl
  | @write i n c policy item lane lane' how out hc htarget hi hl ha =>
    obtain ⟨-, rest, hbefore, hafter⟩ := (h.sound.lane hl).of_accepted ha
    refine .enters n ⟨i, item⟩ out rest ?_ ?_ ?_ ?_ (fun _ _ => rfl) rfl rfl rfl
    · rintro x hx rfl
      exact h.target_of_written hx hc htarget
    · rw [contents_eq hl, hbefore]
    · rw [contents_setLane hl rfl, if_pos rfl, hafter]
    · intro m hm
      rw [contents_setLane hl rfl, if_neg hm]
  | @drain n limit lane taken hl ht =>
    refine .leaves n taken.items ?_ ?_ (fun _ _ => rfl) rfl rfl rfl
    · rw [contents_eq hl, contents_setLane hl rfl, if_pos rfl]
      exact ((h.sound.lane hl).of_take ht).2
    · intro m hm
      rw [contents_setLane hl rfl, if_neg hm]
  | @closeLane n lane hl =>
    refine .still ?_ (fun _ _ => rfl) rfl rfl rfl
    intro m
    rw [contents_setLane hl rfl]
    by_cases hnm : n = m
    · rw [if_pos hnm, ← hnm, contents_eq hl]
      rfl
    · rw [if_neg hnm]
  | _ => exact .still (fun _ => rfl) (fun _ _ => rfl) rfl rfl rfl

/-! ## Where an item was written -/

/-- A pool has the plan that it was built with. -/
theorem Effect.plan_before (e : Effect s t) {p : Nat} {pool' : Pool (Parcel α)}
    (hp : t.pools[p]? = some pool') :
    s.pools[p]? = none ∨ ∃ pool, s.pools[p]? = some pool ∧ pool'.plan = pool.plan := by
  have keep : ∀ {q : Nat} {old new : Pool (Parcel α)}, s.pools[q]? = some old →
      (s.pools.set q new)[p]? = some pool' → new.plan = old.plan →
      s.pools[p]? = none ∨ ∃ pool, s.pools[p]? = some pool ∧ pool'.plan = pool.plan := by
    intro q old new hq hp hplan
    rcases eq_of_getElem?_set hp with ⟨rfl, rfl⟩ | ⟨-, hold⟩
    · exact .inr ⟨old, hq, hplan⟩
    · exact .inr ⟨pool', hold, rfl⟩
  cases e with
  | enroll _ _ hq | turnBack _ _ hq | release _ _ _ hq | hold _ hq | close hq | pace hq
  | sweep hq | settle hq => exact keep hq hp rfl
  | begin hq hc => exact keep hq hp (by rw [Pool.begin, if_pos hc])
  | build =>
    by_cases hlt : p < s.pools.length
    · rw [List.getElem?_append_left hlt] at hp
      exact .inr ⟨pool', hp, rfl⟩
    · exact .inl (List.getElem?_eq_none (Nat.not_lt.mp hlt))
  | _ => exact .inr ⟨pool', hp, rfl⟩

/-- No pool is lost, and each keeps its plan. -/
theorem Effect.plan_after (e : Effect s t) {p : Nat} {pool : Pool (Parcel α)}
    (hp : s.pools[p]? = some pool) :
    ∃ pool', t.pools[p]? = some pool' ∧ pool'.plan = pool.plan := by
  have hlt := (List.getElem?_eq_some_iff.mp hp).1
  have hget := List.getElem?_eq_getElem (Nat.lt_of_lt_of_le hlt e.length_pools_le)
  refine ⟨_, hget, ?_⟩
  rcases e.plan_before hget with hnone | ⟨old, hold, hplan⟩
  · rw [hp] at hnone
    cases hnone
  · rw [hp] at hold
    cases hold
    exact hplan

/-- Along a run, by induction over its steps. -/
theorem Reaches.plan_after (hr : Reaches s t) (h : s.Reachable) {p : Nat} {pool : Pool (Parcel α)}
    (hp : s.pools[p]? = some pool) :
    ∃ pool', t.pools[p]? = some pool' ∧ pool'.plan = pool.plan := by
  refine hr.induction (P := fun u => ∃ pool', u.pools[p]? = some pool' ∧ pool'.plan = pool.plan)
    h ⟨pool, hp, rfl⟩ ?_
  rintro u v ⟨pool', hp', hplan⟩ e
  obtain ⟨pool'', hp'', hplan'⟩ := e.plan_after hp'
  exact ⟨pool'', hp'', hplan'.trans hplan⟩

/-- Every item is where the channel that it was written to has brought it. -/
structure Traced (s : Line α) : Prop where
  contents : ∀ n, ∀ x ∈ s.contents n, (n, x) ∈ s.written
  took : ∀ p pool w, s.pools[p]? = some pool → ∀ x ∈ s.took p w,
    ∃ n, (n, x) ∈ s.written ∧ n % pool.plan.workers = w
  evicted : ∀ x ∈ s.evicted, x ∈ s.written

theorem took_of_none {p : Nat} (hp : s.pools[p]? = none) (w : Nat) : s.took p w = [] := by
  rw [took, worker?, hp]
  rfl

/-- What a worker has taken was written at some time. -/
theorem Traced.written_of_took (hr : s.Traced) {p w : Nat} {x : Parcel α} (hx : x ∈ s.took p w) :
    ∃ n, (n, x) ∈ s.written := by
  cases hp : s.pools[p]? with
  | none =>
    rw [took_of_none hp] at hx
    cases hx
  | some pool =>
    obtain ⟨n, hn, -⟩ := hr.took p pool w hp x hx
    exact ⟨n, hn⟩

/-- A channel from which the oldest items were taken has no new ones. -/
theorem Traced.of_shorter (hr : s.Traced) {n : Nat} {items : List (Parcel α)}
    (hbefore : s.contents n = items ++ t.contents n)
    (hothers : ∀ m, n ≠ m → t.contents m = s.contents m) (m : Nat) :
    ∀ x ∈ t.contents m, (m, x) ∈ s.written := by
  intro x hx
  by_cases hnm : n = m
  · subst hnm
    exact hr.contents n x (hbefore ▸ List.mem_append_right _ hx)
  · exact hr.contents m x (hothers m hnm ▸ hx)

/-- By cases on what the effect moves (`Flow`): an item leaves one place only to come to the
next. -/
theorem Effect.traced (e : Effect s t) (h : s.Regular) (hr : s.Traced) : t.Traced := by
  have hold : ∀ p pool' w, t.pools[p]? = some pool' → ∀ x ∈ s.took p w,
      ∃ n, (n, x) ∈ s.written ∧ n % pool'.plan.workers = w := by
    intro p pool' w hp' x hx
    rcases e.plan_before hp' with hnone | ⟨pool, hp, hplan⟩
    · rw [took_of_none hnone] at hx
      cases hx
    · rw [hplan]
      exact hr.took p pool w hp x hx
  cases e.flow h with
  | still hcontents htook hwritten hevicted _ =>
    refine ⟨?_, ?_, ?_⟩
    · intro n x hx
      rw [hwritten]
      exact hr.contents n x (hcontents n ▸ hx)
    · intro p pool w hp x hx
      rw [hwritten]
      exact hold p pool w hp x (htook p w ▸ hx)
    · rw [hwritten, hevicted]
      exact hr.evicted
  | enters n parcel out rest _ hbefore hafter hothers htook hwritten hevicted _ =>
    refine ⟨?_, ?_, ?_⟩
    · intro m x hx
      rw [hwritten]
      by_cases hnm : n = m
      · subst hnm
        rw [hafter] at hx
        rcases List.mem_append.mp hx with hx | hx
        · exact List.mem_append_left _ (hr.contents n x (hbefore ▸ List.mem_append_right _ hx))
        · rw [List.mem_singleton.mp hx]
          exact List.mem_append_right _ (List.mem_singleton_self _)
      · exact List.mem_append_left _ (hr.contents m x (hothers m hnm ▸ hx))
    · intro p pool w hp x hx
      obtain ⟨m, hm, hown⟩ := hold p pool w hp x (htook p w ▸ hx)
      exact ⟨m, hwritten ▸ List.mem_append_left _ hm, hown⟩
    · intro x hx
      rw [hwritten]
      rw [hevicted] at hx
      rcases List.mem_append.mp hx with hx | hx
      · exact List.mem_append_left _ (hr.evicted x hx)
      · cases out with
        | none => cases hx
        | some b =>
          obtain rfl := List.mem_singleton.mp hx
          exact List.mem_append_left _ (hr.contents n b (hbefore ▸ List.mem_cons_self))
  | leaves n items hbefore hothers htook hwritten hevicted _ =>
    refine ⟨?_, ?_, ?_⟩
    · rw [hwritten]
      exact hr.of_shorter hbefore hothers
    · intro p pool w hp x hx
      rw [hwritten]
      exact hold p pool w hp x (htook p w ▸ hx)
    · rw [hwritten, hevicted]
      exact hr.evicted
  | taken p w n items pool hp hown hbefore hothers htook hrest hwritten hevicted _ =>
    refine ⟨?_, ?_, ?_⟩
    · rw [hwritten]
      exact hr.of_shorter hbefore hothers
    · intro q pool' v hq x hx
      rw [hwritten]
      by_cases hqv : (p, w) = (q, v)
      · cases hqv
        rw [htook] at hx
        rcases List.mem_append.mp hx with hx | hx
        · exact hold p pool' w hq x hx
        · refine ⟨n, hr.contents n x (hbefore ▸ List.mem_append_left _ hx), ?_⟩
          rcases e.plan_before hq with hnone | ⟨pool₀, hp₀, hplan⟩
          · rw [hnone] at hp
            cases hp
          · rw [hp] at hp₀
            cases hp₀
            rw [hplan, hown]
      · exact hold q pool' v hq x (hrest q v hqv ▸ hx)
    · rw [hwritten, hevicted]
      exact hr.evicted

theorem IsFresh.contents (h : s.IsFresh) (n : Nat) : s.contents n = [] := by
  cases hl : s.store.lanes[n]? with
  | none => rw [Line.contents, hl, Option.elim_none]
  | some lane => rw [contents_eq hl, (h.lanes lane (List.mem_of_getElem? hl)).2]

theorem IsFresh.pools (h : s.IsFresh) : s.pools = [] := by
  obtain ⟨_, _, _, _, store, _, rfl⟩ := h
  rfl

/-- At the start there is nothing to trace. -/
theorem IsFresh.traced (h : s.IsFresh) : s.Traced := by
  refine ⟨?_, ?_, ?_⟩
  · intro n x hx
    rw [h.contents] at hx
    cases hx
  · intro p pool w hp
    rw [h.pools] at hp
    cases hp
  · obtain ⟨_, _, _, _, store, _, rfl⟩ := h
    intro x hx
    cases hx

/-- What every effect keeps on lines that are reached holds of all of them. -/
theorem Reachable.regular_induction {P : Line α → Prop} (h : s.Reachable)
    (fresh : ∀ start : Line α, start.IsFresh → P start)
    (effect : ∀ u v : Line α, u.Regular → P u → Effect u v → P v) : P s := by
  have hall : s.Regular ∧ P s := by
    refine Reachable.induction (P := fun u => u.Regular ∧ P u) h ?_ ?_
    · intro start hf
      have hr : start.Reachable := ⟨start, hf, .refl⟩
      exact ⟨hr.regular, fresh start hf⟩
    · rintro u v ⟨hu, hp⟩ e
      exact ⟨e.regular hu, effect u v hu hp e⟩
  exact hall.2

theorem Reachable.traced (h : s.Reachable) : s.Traced :=
  h.regular_induction (fun _ hf => hf.traced) fun _ _ hu hr e => e.traced hu hr

end Line

end Conveyor
