/-
Conveyor.Proofs.Steps — every step is a chain of effects.

`step_effects` takes `Line.step` apart, once and for all. It gives the two
rules by which everything else about runs is shown: what every effect
keeps is kept by a run (`Reaches.induction`), and what holds at the start
besides holds of every line that is reached (`Reachable.induction`).
-/
import Conveyor.Proofs.Effect

namespace Conveyor.Line

variable {α : Type u} {s t u : Line α}

/-! ## Updates as new entries -/

theorem modify_eq_set_of_getElem? {β : Type v} {l : List β} {i : Nat} {a : β} (h : l[i]? = some a)
    (f : β → β) : l.modify i f = l.set i (f a) := by
  apply List.ext_getElem?
  intro j
  rw [List.getElem?_modify, List.getElem?_set]
  by_cases hij : i = j
  · subst hij
    obtain ⟨hi, ha⟩ := List.getElem?_eq_some_iff.mp h
    simp [hi, ha]
  · simp [hij]

/-- A new entry with the old image leaves all images as they were. -/
theorem map_set_of_eq {β : Type v} {γ : Type w} {l : List β} {i : Nat} {a b : β}
    (h : l[i]? = some a) {f : β → γ} (hf : f b = f a) : (l.set i b).map f = l.map f := by
  obtain ⟨hi, rfl⟩ := List.getElem?_eq_some_iff.mp h
  rw [List.map_set, hf, ← List.getElem_map f (h := by simpa using hi), List.set_getElem_self]

/-- An entry is the new one, or one that stood elsewhere. -/
theorem eq_of_getElem?_set {β : Type v} {l : List β} {i j : Nat} {a b : β}
    (h : (l.set i a)[j]? = some b) : (i = j ∧ b = a) ∨ (i ≠ j ∧ l[j]? = some b) := by
  rw [List.getElem?_set] at h
  by_cases hij : i = j
  · rw [if_pos hij] at h
    split at h
    · cases h
      exact .inl ⟨hij, rfl⟩
    · cases h
  · rw [if_neg hij] at h
    exact .inr ⟨hij, h⟩

/-- To change a call that is there is to put another one in its place. -/
theorem mapCall_eq {i : Nat} {c : Call α} (h : s.calls[i]? = some c) (f : Call α → Call α) :
    s.mapCall i f = { s with calls := s.calls.set i (f c) } := by
  rw [mapCall, modify_eq_set_of_getElem? h]

theorem moveCall_eq {i : Nat} {c : Call α} (h : s.calls[i]? = some c) (place : Place α) :
    s.moveCall i place = { s with calls := s.calls.set i { c with place } } :=
  mapCall_eq h _

/-- To change a pool that is there is to put another one in its place. -/
theorem mapPool_eq {p : Nat} {pool : Pool (Parcel α)} (h : s.pools[p]? = some pool)
    (f : Pool (Parcel α) → Pool (Parcel α)) :
    s.mapPool p f = { s with pools := s.pools.set p (f pool) } := by
  rw [mapPool, modify_eq_set_of_getElem? h]

/-- What is done to a pool that is not there is done to nothing. -/
theorem mapPool_of_none {p : Nat} (h : s.pools[p]? = none) (f : Pool (Parcel α) → Pool (Parcel α)) :
    s.mapPool p f = s := by
  rw [mapPool, List.modify_eq_self (List.getElem?_eq_none_iff.mp h)]

/-- A pool and then a call change, as one update of the line. -/
theorem mapPool_moveCall_eq {i p : Nat} {c : Call α} {pool : Pool (Parcel α)}
    (hpool : s.pools[p]? = some pool) (hc : s.calls[i]? = some c)
    (f : Pool (Parcel α) → Pool (Parcel α)) (place : Place α) :
    (s.mapPool p f).moveCall i place =
      { s with calls := s.calls.set i { c with place }, pools := s.pools.set p (f pool) } := by
  rw [mapPool_eq hpool]
  exact moveCall_eq (s := { s with pools := s.pools.set p (f pool) }) hc place

/-- A call and then a pool change, as one update of the line. -/
theorem moveCall_mapPool_eq {i p : Nat} {c : Call α} {pool : Pool (Parcel α)}
    (hpool : s.pools[p]? = some pool) (hc : s.calls[i]? = some c)
    (f : Pool (Parcel α) → Pool (Parcel α)) (place : Place α) :
    (s.moveCall i place).mapPool p f =
      { s with calls := s.calls.set i { c with place }, pools := s.pools.set p (f pool) } := by
  rw [moveCall_eq hc]
  exact mapPool_eq (s := { s with calls := s.calls.set i { c with place } }) hpool f

theorem setWorker_eq {p w : Nat} {pool : Pool (Parcel α)} (h : s.pools[p]? = some pool)
    (worker : Worker (Parcel α)) :
    s.setWorker p w worker = { s with pools := s.pools.set p (pool.setWorker w worker) } :=
  mapPool_eq h _

/-- A pool runs if it is in the stage of that name. -/
theorem isRunning_eq {p : Nat} {pool : Pool (Parcel α)} (h : s.pools[p]? = some pool) :
    s.isRunning p = true ↔ pool.stage = .running := by
  simp [isRunning, h, Pool.isRunning]

/-- A call that knows a pool by its number can get at it. -/
theorem Named.pool_of_call (h : s.Named) {i p : Nat} {c : Call α} (hc : s.calls[i]? = some c)
    (hp : c.Names p) : ∃ pool, s.pools[p]? = some pool :=
  ⟨_, List.getElem?_eq_getElem (h.calls c (List.mem_of_getElem? hc) p hp)⟩

/-! ## Every step is a chain of effects -/

theorem offer_effect {producer : Nat} {errand : Errand α} (h : s.offer producer errand = some t) :
    Effect s t := by
  simp only [offer, Option.ite_none_right_eq_some, Option.some.injEq] at h
  obtain ⟨hg, rfl⟩ := h
  simp only [Bool.and_eq_true, List.all_eq_true, Bool.or_eq_true, decide_eq_true_eq] at hg
  refine .offer hg.1 ?_
  intro c hc hp
  exact (hg.2 c hc).resolve_left fun hne => hne hp

/-- Whatever a call is for, its first step only moves it. -/
theorem lookUp_effect {i : Nat} {c : Call α} (hc : s.calls[i]? = some c) (hp : c.place = .begun) :
    Effect s (s.lookUp i c.errand) := by
  cases he : c.errand with
  | produce item =>
    cases ha : s.active with
    | none =>
      rw [lookUp, ha, Option.elim_none, moveCall_eq hc]
      exact .hop hc (.skip hp he ha)
    | some p =>
      rw [lookUp, ha, Option.elim_some, moveCall_eq hc]
      exact .hop hc (.find hp he ha)
  | write item policy =>
    cases policy with
    | none =>
      rw [lookUp, moveCall_eq hc]
      exact .hop hc (.start hp he)
    | some policy =>
      rw [lookUp, moveCall_eq hc]
      exact .hop hc (.insist hp he)
  | visit p =>
    rw [lookUp, moveCall_eq hc]
    exact .hop hc (.visit hp he)

/-- A call that is counted is let in or turned away, by the stage of its pool. -/
theorem enter_effect (hn : s.Named) {i p : Nat} {c : Call α} (hc : s.calls[i]? = some c)
    (hp : c.place = .counted p) : Effect s (s.enter i p c.errand) := by
  obtain ⟨pool, hpool⟩ := hn.pool_of_call hc (.inr (.inl (by rw [hp]; rfl)))
  cases hr : s.isRunning p with
  | true =>
    unfold enter
    rw [if_pos hr, mapCall_eq hc]
    refine .enter hc hp hpool ((isRunning_eq hpool).mp hr) ?_ ?_
    · cases c.errand <;> simp
    · cases he : c.errand <;> simp [Call.item?, he]
  | false =>
    unfold enter
    rw [if_neg (by simp [hr]), moveCall_eq hc]
    exact .hop hc (.turnAway hp hr)

/-- The router has its turn whether it names a channel or not. -/
theorem route_effect {i : Nat} {c : Call α} {policy : WhenFull} {item : α}
    (hc : s.calls[i]? = some c) (hp : c.place = .informed policy) (hi : c.item? = some item) :
    Effect s (s.route i policy item) := by
  cases hr : s.store.router.route s.store.count ⟨i, item⟩ with
  | ok n =>
    simp only [route, LaneSet.route, hr]
    rw [moveCall_eq (s := { s with store := { s.store with router := s.store.router.advance } }) hc]
    exact .route hc hp hi hr
  | error fault =>
    simp only [route, LaneSet.route, hr]
    rw [moveCall_eq (s := { s with store := { s.store with router := s.store.router.advance } }) hc]
    exact .misroute hc hp hi hr

/-- A look at the channel comes to one of five: the channel is not there, the write meets a
fault, it is accepted or refused, or the call has to wait. -/
theorem write_effect {i n : Nat} {c : Call α} {policy : WhenFull} {item : α}
    (hc : s.calls[i]? = some c) (ht : c.target? = some (n, policy)) (hi : c.item? = some item) :
    Effect s (s.write i n policy item) := by
  cases hl : s.store.lanes[n]? with
  | none =>
    simp only [write, hl]
    rw [moveCall_eq hc]
    exact .hop hc (.stray ht hl)
  | some lane =>
    cases ha : lane.attempt policy ⟨i, item⟩ with
    | error fault =>
      simp only [write, hl, ha]
      rw [moveCall_eq hc]
      exact .hop hc (.fail ht hi hl ha)
    | ok end_ =>
      cases end_ with
      | accepted how out lane' =>
        simp only [write, hl, ha]
        rw [moveCall_eq hc]
        exact .write hc ht hi hl ha
      | refused why back =>
        simp only [write, hl, ha]
        rw [moveCall_eq hc]
        exact .hop hc (.refuse ht hi hl ha)
      | mustWait =>
        simp only [write, hl, ha]
        rw [moveCall_eq hc]
        exact .hop hc (.wait ht hi hl ha)

/-- A call that is over gives up its admission, if it has one. -/
theorem finish_effect (hn : s.Named) {i : Nat} {c : Call α} {verdict : Verdict α}
    (hc : s.calls[i]? = some c) (hp : c.place = .leaving verdict) :
    Effect s (s.finish i c verdict) := by
  cases hpass : c.pass with
  | none =>
    have he : s.finish i c verdict = s.moveCall i (.over verdict) := by simp only [finish, hpass]
    rw [he, moveCall_eq hc]
    exact .hop hc (.finish hp hpass)
  | some p =>
    obtain ⟨pool, hpool⟩ := hn.pool_of_call hc (.inr (.inr hpass))
    have he : s.finish i c verdict = (s.moveCall i (.over verdict)).mapPool p Pool.unenroll := by
      simp only [finish, hpass]
    rw [he, moveCall_mapPool_eq hpool hc]
    exact .release hc hp hpass hpool

/-- Every step of a call is one effect. -/
theorem advance_effect (hn : s.Named) {i : Nat} (h : s.advance i = some t) : Effect s t := by
  unfold advance at h
  cases hc : s.calls[i]? with
  | none => simp [hc] at h
  | some c =>
    cases hp : c.place with
    | begun =>
      simp only [hc, hp, Option.some.injEq] at h
      exact h ▸ lookUp_effect hc hp
    | found p =>
      simp only [hc, hp, Option.some.injEq] at h
      obtain ⟨pool, hpool⟩ := hn.pool_of_call hc (.inr (.inl (by rw [hp]; rfl)))
      rw [mapPool_moveCall_eq hpool hc] at h
      exact h ▸ .enroll hc hp hpool
    | counted p =>
      simp only [hc, hp, Option.some.injEq] at h
      exact h ▸ enter_effect hn hc hp
    | turnedAway p =>
      simp only [hc, hp, Option.some.injEq] at h
      obtain ⟨pool, hpool⟩ := hn.pool_of_call hc (.inr (.inl (by rw [hp]; rfl)))
      rw [turnBack, mapPool_moveCall_eq hpool hc] at h
      exact h ▸ .turnBack hc hp hpool
    | cleared =>
      simp only [hc, hp, Option.some.injEq] at h
      rw [moveCall_eq hc] at h
      exact h ▸ .hop hc (.ask hp)
    | informed policy =>
      cases hi : c.item? with
      | none => simp [hc, hp, hi] at h
      | some item =>
        simp only [hc, hp, hi, Option.some.injEq] at h
        exact h ▸ route_effect hc hp hi
    | routed n policy =>
      cases hi : c.item? with
      | none => simp [hc, hp, hi] at h
      | some item =>
        simp only [hc, hp, hi, Option.some.injEq] at h
        exact h ▸ write_effect hc (by simp [Call.target?, hp]) hi
    | waiting n =>
      cases hi : c.item? with
      | none => simp [hc, hp, hi] at h
      | some item =>
        simp only [hc, hp, hi, Option.ite_none_right_eq_some, Option.some.injEq] at h
        exact h.2 ▸ write_effect hc (by simp [Call.target?, hp]) hi
    | settled result =>
      simp only [hc, hp, Option.some.injEq] at h
      rw [count, moveCall_eq hc] at h
      have e := Effect.tally hc hp
      split at h <;> subst h <;> simpa [*] using e
    | leaving verdict =>
      simp only [hc, hp, Option.some.injEq] at h
      exact h ▸ finish_effect hn hc hp
    | staying => simp [hc, hp] at h
    | «over» verdict => simp [hc, hp] at h

theorem callAway_effect {i : Nat} (h : s.callAway i = some t) : Effect s t := by
  unfold callAway at h
  split at h
  · next producer errand pass hc =>
    cases h
    rw [moveCall_eq hc]
    exact .hop hc (.callAway rfl)
  · cases h

/-- A worker that comes to a channel takes from it, passes it over or meets a fault. -/
theorem sweep_effect {p w n : Nat} {pool : Pool (Parcel α)} {worker : Worker (Parcel α)}
    {round : Round} {rest : List Nat} {batch : Batch (Parcel α)} (hpool : s.pools[p]? = some pool)
    (hw : pool.workers[w]? = some worker)
    (hs : worker.station = .sweeping round (n :: rest) batch) :
    Effect s (s.sweep p w pool worker round n rest batch) := by
  cases hl : s.store.lanes[n]? with
  | none =>
    simp only [sweep, hl]
    rw [setWorker_eq hpool]
    exact .pace hpool hw (.skip hs hl)
  | some lane =>
    cases ht : lane.take (pool.limitOf round) with
    | error fault =>
      simp only [sweep, hl, ht]
      rw [setWorker_eq hpool]
      exact .pace hpool hw (.fail hs hl ht)
    | ok taken =>
      simp only [sweep, hl, ht]
      rw [setWorker_eq (s := { s with store := s.store.setLane n taken.lane }) hpool]
      exact .sweep hpool hw hs hl ht

/-- Both ways on from a `consume` call are counted as one effect. -/
theorem settle_effect {p w : Nat} {pool : Pool (Parcel α)} {worker : Worker (Parcel α)}
    {round : Round} {batch : Batch (Parcel α)} {e : Option ConsumeError}
    (hpool : s.pools[p]? = some pool) (hw : pool.workers[w]? = some worker)
    (hs : worker.station = .settling round batch e) :
    Effect s (s.settle p w worker round batch e) := by
  have h := Effect.settle hpool hw hs
  rw [settle, mapPool_eq hpool]
  cases e with
  | none => exact h
  | some e => exact h

/-- Every step of a worker is one effect. -/
theorem work_effect {p w : Nat} (h : s.work p w = some t) : Effect s t := by
  unfold work at h
  cases hpool : s.pools[p]? with
  | none => simp [hpool] at h
  | some pool =>
    cases hw : pool.workers[w]? with
    | none => simp [hpool, hw] at h
    | some worker =>
      cases hs : worker.station with
      | door hook =>
        simp only [hpool, hw, hs, Option.ite_none_right_eq_some, Option.some.injEq] at h
        rw [setWorker_eq hpool] at h
        exact h.2 ▸ .pace hpool hw (.enter hs h.1)
      | inside hook => simp [hpool, hw, hs] at h
      | watching =>
        simp only [hpool, hw, hs, Option.some.injEq] at h
        rw [setWorker_eq hpool] at h
        exact h ▸ .pace hpool hw (.watch hs)
      | checking =>
        simp only [hpool, hw, hs, Option.some.injEq] at h
        rw [setWorker_eq hpool] at h
        exact h ▸ .pace hpool hw (.check hs)
      | sweeping round todo batch =>
        cases todo with
        | nil =>
          simp only [hpool, hw, hs, Option.some.injEq] at h
          rw [setWorker_eq hpool] at h
          exact h ▸ .pace hpool hw (.handOver hs)
        | cons n rest =>
          simp only [hpool, hw, hs, Option.some.injEq] at h
          exact h ▸ sweep_effect hpool hw hs
      | settling round batch e =>
        simp only [hpool, hw, hs, Option.some.injEq] at h
        exact h ▸ settle_effect hpool hw hs
      | finished => simp [hpool, hw, hs] at h
      | broken fault => simp [hpool, hw, hs] at h

/-- The end of a hook is an effect on its worker alone. -/
theorem endHook_effect {p w : Nat} {how : HookEnd} (h : s.endHook p w how = some t) :
    Effect s t := by
  unfold endHook at h
  cases hpool : s.pools[p]? with
  | none => simp [hpool] at h
  | some pool =>
    cases hw : pool.workers[w]? with
    | none => simp [hpool, hw] at h
    | some worker =>
      simp only [hpool, hw] at h
      split at h
      · next hook hs =>
        cases h
        rw [setWorker_eq hpool]
        exact .pace hpool hw (.leave how hs)
      · cases h

/-! ## Opening and closing -/

theorem note_effects (h : s.Named) (p : Nat) (n : Notice) : Effects s (s.note p n) :=
  .single (.aside s.store.policy s.store.router s.active s.installed s.exchange s.closers
    (s.journal ++ [(p, n)]) h.active h.installed h.exchange)

/-- What has happened when a pool was built: the plan was good, and there is one pool more. -/
theorem of_build_eq_ok {plan : PoolPlan} (hb : s.build plan = .ok t) :
    ∃ pool, Pool.ofPlan plan s.store.count = .ok pool ∧
      t = { s with pools := s.pools ++ [pool] } := by
  cases hp : Pool.ofPlan (α := Parcel α) plan s.store.count with
  | error e => simp [build, hp, bind, Except.bind] at hb
  | ok pool =>
    simp only [build, hp, bind, Except.bind, pure, Except.pure, Except.ok.injEq] at hb
    exact ⟨pool, rfl, hb.symm⟩

theorem build_effects {plan : PoolPlan} (hb : s.build plan = .ok t) : Effects s t := by
  obtain ⟨pool, hp, rfl⟩ := of_build_eq_ok hb
  exact .single (.build hp)

/-- To begin a pool is an effect the first time, and none after that. -/
theorem begin_effects (h : s.Named) (p : Nat) : Effects s (s.begin p) := by
  cases hpool : s.pools[p]? with
  | none => simpa [begin, hpool] using .refl
  | some pool =>
    by_cases hc : pool.stage = .created
    · have e := Effect.begin hpool hc
      simp only [begin, hpool, if_pos hc]
      rw [mapPool_eq hpool]
      exact (Relation.ReflTransGen.single e).trans (note_effects (e.named h) p _)
    · simpa [begin, hpool, hc] using .refl

/-- To close a pool is an effect the first time, too. -/
theorem closePool_effects (h : s.Named) (p : Nat) : Effects s (s.closePool p) := by
  cases hpool : s.pools[p]? with
  | none => simpa [closePool, hpool] using .refl
  | some pool =>
    by_cases hc : pool.stage = .closed
    · simpa [closePool, hpool, hc] using .refl
    · have e := Effect.close hpool hc
      simp only [closePool, hpool, if_neg hc]
      rw [mapPool_eq hpool]
      exact (Relation.ReflTransGen.single e).trans (note_effects (e.named h) p _)

/-- What has happened when a pool was installed: it was built, and it has begun. -/
theorem of_install_eq_ok {plan : PoolPlan} (hi : s.install plan = .ok t) :
    ∃ pool, Pool.ofPlan plan s.store.count = .ok pool ∧
      t = { ({ s with pools := s.pools ++ [pool] } : Line α).begin s.pools.length with
        exchange := .begun s.pools.length } := by
  cases hb : s.build plan with
  | error e => simp [install, hb, bind, Except.bind] at hi
  | ok u =>
    obtain ⟨pool, hp, rfl⟩ := of_build_eq_ok hb
    simp only [install, hb, bind, Except.bind, pure, Except.pure, Except.ok.injEq] at hi
    exact ⟨pool, hp, hi.symm⟩

/-- An installed pool is built, it begins, and the exchange is under way, each by effects of
its own. -/
theorem install_effects (h : s.Named) {plan : PoolPlan} (hi : s.install plan = .ok t) :
    Effects s t := by
  obtain ⟨pool, hp, rfl⟩ := of_install_eq_ok hi
  have eb := Effect.build hp
  have e := begin_effects (eb.named h) s.pools.length
  have hn := e.named (eb.named h)
  have hlen := e.length_pools_le
  simp only [List.length_append, List.length_singleton] at hlen
  refine ((Relation.ReflTransGen.single eb).trans e).tail
    (.aside _ _ _ _ (.begun s.pools.length) _ _ hn.active hn.installed ?_)
  intro p hp
  rcases hp with hp | hp <;> cases hp
  exact hlen

theorem of_step_build {plan : PoolPlan} (hs : s.step (.build plan) = some t) :
    s.build plan = .ok t := by
  cases hb : s.build plan with
  | error e => simp [step, hb, Except.toOption] at hs
  | ok u =>
    simp only [step, hb, Except.toOption, Option.some.injEq] at hs
    rw [hs]

theorem of_step_install {plan : PoolPlan} (hs : s.step (.install plan) = some t) :
    s.exchange = .idle ∧ s.install plan = .ok t := by
  simp only [step, Option.ite_none_right_eq_some] at hs
  obtain ⟨hidle, hs⟩ := hs
  cases hi : s.install plan with
  | error e => simp [hi, Except.toOption] at hs
  | ok u =>
    simp only [hi, Except.toOption, Option.some.injEq] at hs
    exact ⟨hidle, by rw [hs]⟩

/-- New calls are sent to a pool only when it has just begun. -/
theorem of_publish (hp : s.publish = some t) :
    ∃ p, s.exchange = .begun p ∧ t = { s with active := some p, exchange := .published p } := by
  unfold publish at hp
  split at hp
  · next p he =>
    cases hp
    exact ⟨p, he, rfl⟩
  · cases hp

theorem publish_effects (h : s.Named) (hp : s.publish = some t) : Effects s t := by
  obtain ⟨p, he, rfl⟩ := of_publish hp
  refine .single (.aside s.store.policy s.store.router (some p) s.installed (.published p)
    s.closers s.journal ?_ h.installed ?_)
  · intro q hq
    cases hq
    exact h.exchange p (.inl he)
  · intro q hq
    rcases hq with hq | hq <;> cases hq
    exact h.exchange p (.inl he)

/-- The line when the carrier owns pool `p`, and no exchange is under way. -/
def adopt (s : Line α) (p : Nat) : Line α := { s with installed := some p, exchange := .idle }

/-- The carrier owns the new pool, and what it owned is closed; the journal may have a
further line. -/
theorem of_retire (hr : s.retire = some t) :
    ∃ p, s.exchange = .published p ∧
      ∃ journal, t = { s.installed.elim (s.adopt p) (s.adopt p).closePool with journal } := by
  unfold retire at hr
  split at hr
  · next p he =>
    refine ⟨p, he, ?_⟩
    split at hr
    · next hold _ =>
      cases hr
      exact ⟨_, by rw [hold]; rfl⟩
    · next hold _ =>
      cases hr
      exact ⟨_, by rw [hold]; rfl⟩
    · next hnone =>
      cases hr
      exact ⟨_, by rw [hnone]; rfl⟩
  · cases hr

/-- The end of an exchange closes the old pool, if there is one. -/
theorem retire_effects (h : s.Named) (hr : s.retire = some t) : Effects s t := by
  obtain ⟨p, he, journal, rfl⟩ := of_retire hr
  have e : Effect s (s.adopt p) := Effect.aside s.store.policy s.store.router s.active (some p)
    .idle s.closers s.journal h.active (fun q hq => by cases hq; exact h.exchange p (.inr he))
    (fun q hq => by rcases hq with hq | hq <;> cases hq)
  have hadopt : Effects s (s.installed.elim (s.adopt p) (s.adopt p).closePool) := by
    cases s.installed with
    | none => exact .single e
    | some old => exact (Relation.ReflTransGen.single e).trans (closePool_effects (e.named h) old)
  have hn := hadopt.named h
  exact hadopt.tail (.aside _ _ _ _ _ _ journal hn.active hn.installed hn.exchange)

/-- Shutting the carrier's pool down is closing it, if there is one. -/
theorem shutdown_cases (s : Line α) : s.shutdown = s ∨ ∃ p, s.shutdown = s.closePool p := by
  unfold shutdown
  cases s.installed with
  | none => exact .inl rfl
  | some p => exact .inr ⟨p, rfl⟩

/-- The carrier closes the pool that it owns, or there is none. -/
theorem of_step_shutdown (hs : s.step .shutdown = some t) : t = s ∨ ∃ p, t = s.closePool p := by
  simp only [step, Option.ite_none_right_eq_some, Option.some.injEq] at hs
  exact hs.2 ▸ s.shutdown_cases

/-- What closing thread `k` has just closed is the channel it came to, and it has
come to the next one. -/
theorem of_closeNext {k : Nat} (hs : s.closeNext k = some t) :
    ∃ n lane, s.closers[k]? = some n ∧ s.store.lanes[n]? = some lane ∧
      t = { s with store := s.store.setLane n lane.close, closers := s.closers.set k (n + 1) } := by
  unfold closeNext at hs
  split at hs
  · cases hs
  · next n hn =>
    split at hs
    · cases hs
    · next lane hl =>
      cases hs
      exact ⟨n, lane, hn, hl, rfl⟩

theorem closeNext_effects (h : s.Named) {k : Nat} (hk : s.closeNext k = some t) : Effects s t := by
  obtain ⟨n, lane, -, hl, rfl⟩ := of_closeNext hk
  exact (Relation.ReflTransGen.single (.closeLane hl)).tail
    (.aside s.store.policy s.store.router s.active s.installed s.exchange
      (s.closers.set k (n + 1)) s.journal h.active h.installed h.exchange)

/-- A reader that is no worker has met no fault if it has come to anything. -/
theorem of_step_drain {n limit : Nat} (hs : s.step (.drain n limit) = some t) :
    ∃ lane taken, s.store.lanes[n]? = some lane ∧ lane.take limit = .ok taken ∧
      t = { s with
        store := s.store.setLane n taken.lane
        viewed := s.viewed ++ taken.items.map fun parcel => (n, parcel) } := by
  simp only [step, Option.map_eq_some_iff] at hs
  obtain ⟨⟨items, u⟩, hd, rfl⟩ := hs
  unfold drain at hd
  split at hd
  · cases hd
  · next lane hl =>
    split at hd
    · next taken ht =>
      cases hd
      exact ⟨lane, taken, hl, ht, rfl⟩
    · cases hd

theorem drain_effect {n limit : Nat} (hs : s.step (.drain n limit) = some t) : Effect s t := by
  obtain ⟨lane, taken, hl, ht, rfl⟩ := of_step_drain hs
  exact .drain hl ht

theorem setHeld_effects (p : Nat) (held : Bool) : Effects s (s.setHeld p held) := by
  cases hpool : s.pools[p]? with
  | none =>
    rw [setHeld, mapPool_of_none hpool]
  | some pool =>
    rw [setHeld, mapPool_eq hpool]
    exact .single (.hold held hpool)

/-- **A step is a chain of effects**, whichever action it is. -/
theorem step_effects (h : s.Named) {a : Action α} (hs : s.step a = some t) : Effects s t := by
  cases a with
  | offer producer errand => exact .single (offer_effect hs)
  | advance i => exact .single (advance_effect h hs)
  | callAway i => exact .single (callAway_effect hs)
  | setPolicy policy =>
    cases hs
    exact .single (.aside policy s.store.router s.active s.installed s.exchange s.closers s.journal
      h.active h.installed h.exchange)
  | setRouter router =>
    cases hs
    exact .single (.aside s.store.policy router s.active s.installed s.exchange s.closers s.journal
      h.active h.installed h.exchange)
  | build plan => exact build_effects (of_step_build hs)
  | begin p =>
    cases hs
    exact begin_effects h p
  | install plan => exact install_effects h (of_step_install hs).2
  | publish => exact publish_effects h hs
  | retire => exact retire_effects h hs
  | shutdown =>
    rcases of_step_shutdown hs with rfl | ⟨p, rfl⟩
    · exact .refl
    · exact closePool_effects h p
  | closePool p =>
    cases hs
    exact closePool_effects h p
  | startClosing =>
    cases hs
    exact .single (.aside s.store.policy s.store.router s.active s.installed s.exchange
      (s.closers ++ [0]) s.journal h.active h.installed h.exchange)
  | closeNext k => exact closeNext_effects h hs
  | drain n limit => exact .single (drain_effect hs)
  | setHeld p held =>
    cases hs
    exact setHeld_effects p held
  | work p w => exact .single (work_effect hs)
  | endHook p w how => exact .single (endHook_effect hs)

/-- Nobody has had to do with the calls: they are where they were, and so are the
router, the channels that it gave, and the threads that close channels. -/
structure LeavesCalls (s t : Line α) : Prop where
  calls : t.calls = s.calls
  routed : t.routed = s.routed
  router : t.store.router = s.store.router
  closers : t.closers = s.closers

/-- A pool that begins leaves calls, router and closing threads alone. -/
theorem leavesCalls_begin (s : Line α) (p : Nat) : s.LeavesCalls (s.begin p) := by
  unfold begin
  split
  · split <;> exact ⟨rfl, rfl, rfl, rfl⟩
  · exact ⟨rfl, rfl, rfl, rfl⟩

theorem leavesCalls_closePool (s : Line α) (p : Nat) : s.LeavesCalls (s.closePool p) := by
  unfold closePool
  split
  · split <;> exact ⟨rfl, rfl, rfl, rfl⟩
  · exact ⟨rfl, rfl, rfl, rfl⟩

/-- The end of an exchange leaves them alone, too. -/
theorem leavesCalls_retire (h : s.retire = some t) : s.LeavesCalls t := by
  obtain ⟨p, -, journal, rfl⟩ := of_retire h
  cases s.installed with
  | none => exact ⟨rfl, rfl, rfl, rfl⟩
  | some old =>
    have hclosed := leavesCalls_closePool (s.adopt p) old
    exact ⟨hclosed.calls, hclosed.routed, hclosed.router, hclosed.closers⟩

/-- A worker takes items out, and no call learns of it. -/
theorem leavesCalls_sweep (s : Line α) (p w : Nat) (pool : Pool (Parcel α))
    (worker : Worker (Parcel α)) (round : Round) (n : Nat) (rest : List Nat)
    (batch : Batch (Parcel α)) : s.LeavesCalls (s.sweep p w pool worker round n rest batch) := by
  unfold sweep
  split
  · exact ⟨rfl, rfl, rfl, rfl⟩
  · split <;> exact ⟨rfl, rfl, rfl, rfl⟩

theorem leavesCalls_work {p w : Nat} (h : s.work p w = some t) : s.LeavesCalls t := by
  unfold work at h
  split at h
  · cases h
  · split at h
    · cases h
    · split at h
      · split at h
        · cases h
          exact ⟨rfl, rfl, rfl, rfl⟩
        · cases h
      · cases h
        exact ⟨rfl, rfl, rfl, rfl⟩
      · cases h
        exact ⟨rfl, rfl, rfl, rfl⟩
      · cases h
        exact leavesCalls_sweep ..
      · cases h
        exact ⟨rfl, rfl, rfl, rfl⟩
      · cases h
        exact ⟨rfl, rfl, rfl, rfl⟩
      · cases h
      · cases h
      · cases h

theorem leavesCalls_endHook {p w : Nat} {how : HookEnd} (h : s.endHook p w how = some t) :
    s.LeavesCalls t := by
  unfold endHook at h
  split at h
  · cases h
  · split at h
    · cases h
    · split at h
      · cases h
        exact ⟨rfl, rfl, rfl, rfl⟩
      · cases h

/-- Only the calls themselves, and those who offer them and call them away, have to do
with the calls; another router may be set, and channels may be closed. -/
theorem leavesCalls_of_others {a : Action α} (ha : a.isOfCall = false)
    (hrouter : a.keepsRouter = true) (hclosing : a.isClosing = false) (hs : s.step a = some t) :
    s.LeavesCalls t := by
  cases a with
  | offer | advance | callAway => cases ha
  | setRouter => cases hrouter
  | startClosing | closeNext => cases hclosing
  | setPolicy | setHeld =>
    cases hs
    exact ⟨rfl, rfl, rfl, rfl⟩
  | build plan =>
    obtain ⟨pool, -, rfl⟩ := of_build_eq_ok (of_step_build hs)
    exact ⟨rfl, rfl, rfl, rfl⟩
  | begin p =>
    cases hs
    exact leavesCalls_begin s p
  | install plan =>
    obtain ⟨pool, -, rfl⟩ := of_install_eq_ok (of_step_install hs).2
    have hbegun := leavesCalls_begin { s with pools := s.pools ++ [pool] } s.pools.length
    exact ⟨hbegun.calls, hbegun.routed, hbegun.router, hbegun.closers⟩
  | publish =>
    obtain ⟨p, -, rfl⟩ := of_publish hs
    exact ⟨rfl, rfl, rfl, rfl⟩
  | retire => exact leavesCalls_retire hs
  | shutdown =>
    rcases of_step_shutdown hs with rfl | ⟨p, rfl⟩
    · exact ⟨rfl, rfl, rfl, rfl⟩
    · exact leavesCalls_closePool s p
  | closePool p =>
    cases hs
    exact leavesCalls_closePool s p
  | drain n limit =>
    obtain ⟨lane, taken, -, -, rfl⟩ := of_step_drain hs
    exact ⟨rfl, rfl, rfl, rfl⟩
  | work p w => exact leavesCalls_work hs
  | endHook p w how => exact leavesCalls_endHook hs

/-- Nobody else moves a call, or gives one a channel. -/
theorem calls_of_others {a : Action α} (ha : a.isOfCall = false) (hs : s.step a = some t) :
    t.calls = s.calls ∧ t.routed = s.routed := by
  cases hrouter : a.keepsRouter with
  | false =>
    cases a with
    | setRouter =>
      cases hs
      exact ⟨rfl, rfl⟩
    | _ => cases hrouter
  | true =>
    cases hclosing : a.isClosing with
    | false =>
      have hleaves := leavesCalls_of_others ha hrouter hclosing hs
      exact ⟨hleaves.calls, hleaves.routed⟩
    | true =>
      cases a with
      | startClosing =>
        cases hs
        exact ⟨rfl, rfl⟩
      | closeNext k =>
        obtain ⟨n, lane, -, -, rfl⟩ := of_closeNext hs
        exact ⟨rfl, rfl⟩
      | _ => cases hclosing

/-- Nobody but the calls asks the router, and `setRouter` alone sets another one. -/
theorem router_of_others {a : Action α} (ha : a.isOfCall = false) (hrouter : a.keepsRouter = true)
    (hs : s.step a = some t) : t.store.router = s.store.router := by
  cases hclosing : a.isClosing with
  | false => exact (leavesCalls_of_others ha hrouter hclosing hs).router
  | true =>
    cases a with
    | startClosing =>
      cases hs
      rfl
    | closeNext k =>
      obtain ⟨n, lane, -, -, rfl⟩ := of_closeNext hs
      rfl
    | _ => cases hclosing

/-- A step of more than one effect is none of a call, nor of the router. -/
theorem calls_of_step (h : s.Named) {a : Action α} (hs : s.step a = some t) :
    t.calls = s.calls ∧ t.routed = s.routed ∨ Effect s t := by
  cases ha : a.isOfCall with
  | false => exact .inl (calls_of_others ha hs)
  | true =>
    cases a with
    | offer producer errand => exact .inr (offer_effect hs)
    | advance i => exact .inr (advance_effect h hs)
    | callAway i => exact .inr (callAway_effect hs)
    | _ => cases ha

/-! ## Induction over a run -/

theorem named_ofStore (store : LaneSet (Parcel α)) : (ofStore store).Named where
  active _ h := by cases h
  installed _ h := by cases h
  exchange _ h := by rcases h with h | h <;> cases h
  calls _ h := by cases h

theorem IsFresh.named (h : s.IsFresh) : s.Named := by
  obtain ⟨_, _, _, _, store, _, rfl⟩ := h
  exact named_ofStore store

/-- A run is a chain of effects. -/
theorem Reaches.effects (hr : Reaches s t) (h : s.Named) : Effects s t := by
  induction hr with
  | refl => exact .refl
  | step a _ hs ih => exact ih.trans (step_effects (ih.named h) hs)

/-- On a line that is reached, the numbers of pools are right. -/
theorem Reachable.named (h : s.Reachable) : s.Named := by
  obtain ⟨start, hf, hr⟩ := h
  exact (hr.effects hf.named).named hf.named

/-- What a reached line leads to is reached. -/
theorem Reachable.reaches (h : s.Reachable) (hr : Reaches s t) : t.Reachable := by
  obtain ⟨start, hf, hs⟩ := h
  exact ⟨start, hf, hs.trans hr⟩

/-- What every effect keeps is kept by a run. -/
theorem Reaches.induction {P : Line α → Prop} (hr : Reaches s t) (hs : s.Reachable) (start : P s)
    (effect : ∀ u v : Line α, P u → Effect u v → P v) : P t := by
  have e := hr.effects hs.named
  clear hr
  induction e with
  | refl => exact start
  | tail _ e ih => exact effect _ _ ih e

/-- What holds at the start and is kept by every effect holds of every line
that is reached. -/
theorem Reachable.induction {P : Line α → Prop} (h : s.Reachable)
    (fresh : ∀ start : Line α, start.IsFresh → P start)
    (effect : ∀ u v : Line α, P u → Effect u v → P v) : P s := by
  obtain ⟨start, hf, hr⟩ := h
  exact hr.induction ⟨start, hf, .refl⟩ (fresh start hf) effect

/-! ## Runs by their actions -/

/-- The line after these actions; one that cannot happen is left out. -/
def after (s : Line α) (actions : List (Action α)) : Line α :=
  actions.foldl (fun s a => (s.step a).getD s) s

/-- An action that cannot happen is left out of a run. -/
theorem after_cons_of_none {a : Action α} (hs : s.step a = none) (actions : List (Action α)) :
    s.after (a :: actions) = s.after actions := by
  rw [after, List.foldl_cons, hs, Option.getD_none, after]

theorem after_cons_of_some {a : Action α} (hs : s.step a = some t) (actions : List (Action α)) :
    s.after (a :: actions) = t.after actions := by
  rw [after, List.foldl_cons, hs, Option.getD_some, after]

theorem step_eq_after {a : Action α} (h : (s.step a).isSome = true) :
    s.step a = some (s.after [a]) := by
  obtain ⟨t, ht⟩ := Option.isSome_iff_exists.mp h
  rw [ht, after_cons_of_some ht]
  rfl

/-- What `f` tells of the steps of a run, one after the other. -/
def trace {β : Type v} (f : Line α → Action α → Line α → Option β) (s : Line α) :
    List (Action α) → List β
  | [] => []
  | a :: rest =>
    match s.step a with
    | none => trace f s rest
    | some t => (f s a t).toList ++ trace f t rest

section trace

variable {β : Type v} (f : Line α → Action α → Line α → Option β) {a : Action α}

theorem trace_cons_of_none (hs : s.step a = none) (actions : List (Action α)) :
    trace f s (a :: actions) = trace f s actions := by
  rw [trace, hs]

theorem trace_cons_of_some (hs : s.step a = some t) (actions : List (Action α)) :
    trace f s (a :: actions) = (f s a t).toList ++ trace f t actions := by
  rw [trace, hs]

/-- What a run shows is what its parts show, one after the other. -/
theorem trace_append (s : Line α) (before after : List (Action α)) :
    trace f s (before ++ after) = trace f s before ++ trace f (s.after before) after := by
  induction before generalizing s with
  | nil => rfl
  | cons a rest ih =>
    rw [List.cons_append]
    cases hs : s.step a with
    | none => rw [trace_cons_of_none f hs, trace_cons_of_none f hs, after_cons_of_none hs, ih]
    | some t =>
      rw [trace_cons_of_some f hs, trace_cons_of_some f hs, after_cons_of_some hs, ih,
        List.append_assoc]

end trace

/-- Every list of actions makes a run. -/
theorem reaches_after (s : Line α) (actions : List (Action α)) : Reaches s (s.after actions) := by
  induction actions generalizing s with
  | nil => exact .refl
  | cons a actions ih =>
    cases hs : s.step a with
    | none =>
      rw [after_cons_of_none hs]
      exact ih s
    | some t =>
      rw [after_cons_of_some hs]
      exact (Reaches.refl.step a hs).trans (ih t)

/-- A row of empty channels with the default router, and nobody there. -/
def blank (count room : Nat) (h : 0 < room) (policy : WhenFull) : Line α :=
  .ofStore { lanes := .replicate count { ring := .empty room h }, room, router := .fresh, policy }

/-- The blank line is a fresh one. -/
theorem isFresh_blank {count room : Nat} (hc : 0 < count) (h : 0 < room) (policy : WhenFull) :
    (blank count room h policy : Line α).IsFresh := by
  refine ⟨count, room, .fresh, policy, _, ?_, rfl⟩
  have hlane : (Lane.ofCapacity room : Checked (Lane (Parcel α))) =
      .ok { ring := .empty room h } := by
    simp only [Lane.ofCapacity, Ring.ofCapacity, h, dite_true]
    rfl
  rw [LaneSet.ofCounts, if_neg (Nat.ne_of_gt hc), hlane]
  rfl

/-- A pool of one worker, who takes one item at a time. -/
def loner : PoolPlan := ⟨"", 1, 1, false, ⟨1, 0, nanosPerSecond_pos⟩⟩

/-- Actions lead from a blank line to lines that are reached. -/
theorem reachable_after {count room : Nat} (hc : 0 < count) (h : 0 < room) (policy : WhenFull)
    (actions : List (Action α)) : ((blank count room h policy : Line α).after actions).Reachable :=
  ⟨_, isFresh_blank hc h policy, reaches_after _ _⟩

end Conveyor.Line
