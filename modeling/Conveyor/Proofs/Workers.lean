/-
Conveyor.Proofs.Workers — the steps of a worker, and those of all others.

A worker goes on by steps of its own, and when a hook that it is inside ends. Each of these
is one stride (`moves_of_step`). Whatever else happens leaves the worker as it is, unless it
starts it (`Reachable.sparesWorker`).
-/
import Conveyor.Proofs.Passes

namespace Conveyor

variable {α : Type u}

/-- Whether the action is a step of worker `w` of pool `p`. -/
def Action.isStepOf (p w : Nat) : Action α → Bool
  | .work q v | .endHook q v _ => q = p && v = w
  | _ => false

namespace Line

variable {s t : Line α} {a : Action α} {p q v w : Nat}

/-- A hook that ends is a stride of the worker that was inside it. -/
theorem exists_movesAlone_of_endHook {how : HookEnd} (hs : s.endHook p w how = some t) :
    ∃ pool worker hook, s.pools[p]? = some pool ∧ pool.workers[w]? = some worker ∧
      worker.station = .inside hook ∧ s.MovesAlone t p w pool worker := by
  unfold endHook at hs
  split at hs
  · cases hs
  · next pool hp =>
    split at hs
    · cases hs
    · next worker hw =>
      split at hs
      · next hook hi =>
        cases hs
        exact ⟨pool, worker, hook, hp, hw, hi, movesAlone_of_pace hp w (.leave how hi)⟩
      · cases hs

theorem moves_of_endHook {how : HookEnd} (hs : s.endHook p w how = some t) : s.Moves t p w := by
  obtain ⟨pool, worker, hook, hp, hw, -, moves⟩ := exists_movesAlone_of_endHook hs
  exact moves.moves hp hw

/-- A step of a worker is one stride. -/
theorem moves_of_step (ha : a.isStepOf p w = true) (hs : s.step a = some t) : s.Moves t p w := by
  cases a with
  | work q v =>
    obtain ⟨rfl, rfl⟩ : q = p ∧ v = w := by simpa [Action.isStepOf] using ha
    exact moves_of_work hs
  | endHook q v how =>
    obtain ⟨rfl, rfl⟩ : q = p ∧ v = w := by simpa [Action.isStepOf] using ha
    exact moves_of_endHook hs
  | _ => cases ha

/-! ## What others do to a worker -/

/-- Worker `w` of pool `p` is as it was, or has just been started. -/
def SparesWorker (s t : Line α) (p w : Nat) : Prop :=
  t.worker? p w = s.worker? p w ∨
    s.worker? p w = none ∧ ∃ channels, t.worker? p w = some (.ofChannels channels)

theorem worker?_mapPool {f : Pool (Parcel α) → Pool (Parcel α)}
    (hf : ∀ pool, q = p → (f pool).workers[w]? = pool.workers[w]?) :
    (s.mapPool q f).worker? p w = s.worker? p w := by
  rw [worker?, mapPool, List.getElem?_modify, worker?]
  by_cases hqp : q = p
  · cases s.pools[p]? with
    | none => rfl
    | some pool => simpa [hqp] using hf pool hqp
  · simp [hqp]

theorem worker?_setWorker_of_ne (hne : q = p → v ≠ w) (worker : Worker (Parcel α)) :
    (s.setWorker q v worker).worker? p w = s.worker? p w :=
  worker?_mapPool fun _ hqp => List.getElem?_set_ne (hne hqp)

theorem worker?_sweep_of_ne (hne : q = p → v ≠ w) {pool : Pool (Parcel α)}
    {worker : Worker (Parcel α)} {round : Round} {n : Nat} {rest : List Nat}
    {batch : Batch (Parcel α)} :
    (s.sweep q v pool worker round n rest batch).worker? p w = s.worker? p w := by
  unfold sweep
  split
  · exact worker?_setWorker_of_ne hne _
  · split
    · next lane _ taken _ =>
      exact worker?_setWorker_of_ne (s := { s with store := s.store.setLane n taken.lane }) hne _
    · exact worker?_setWorker_of_ne hne _

theorem worker?_work_of_ne (hne : q = p → v ≠ w) (hs : s.work q v = some t) :
    t.worker? p w = s.worker? p w := by
  unfold work at hs
  cases hp : s.pools[q]? with
  | none => simp [hp] at hs
  | some pool =>
    cases hw : pool.workers[v]? with
    | none => simp [hp, hw] at hs
    | some worker =>
      cases hst : worker.station with
      | door hook =>
        simp only [hp, hw, hst, Option.ite_none_right_eq_some, Option.some.injEq] at hs
        exact hs.2 ▸ worker?_setWorker_of_ne hne _
      | watching | checking =>
        simp only [hp, hw, hst, Option.some.injEq] at hs
        exact hs ▸ worker?_setWorker_of_ne hne _
      | sweeping round todo batch =>
        cases todo <;> simp only [hp, hw, hst, Option.some.injEq] at hs
        · exact hs ▸ worker?_setWorker_of_ne hne _
        · exact hs ▸ worker?_sweep_of_ne hne
      | settling round batch e =>
        simp only [hp, hw, hst, Option.some.injEq] at hs
        refine hs ▸ worker?_mapPool fun pool hqp => ?_
        cases e <;> exact List.getElem?_set_ne (hne hqp)
      | inside | finished | broken => simp [hp, hw, hst] at hs

theorem worker?_endHook_of_ne (hne : q = p → v ≠ w) {how : HookEnd}
    (hs : s.endHook q v how = some t) : t.worker? p w = s.worker? p w := by
  unfold endHook at hs
  split at hs
  · cases hs
  · split at hs
    · cases hs
    · split at hs
      · cases hs
        exact worker?_setWorker_of_ne hne _
      · cases hs

theorem worker?_closePool (s : Line α) (q : Nat) :
    (s.closePool q).worker? p w = s.worker? p w := by
  unfold closePool
  split
  · split
    · rfl
    · exact worker?_mapPool (f := Pool.close) fun _ _ => rfl
  · rfl

/-- A pool that has not begun has no worker. -/
theorem worker?_append {pool : Pool (Parcel α)} (hnil : pool.workers = []) :
    ({ s with pools := s.pools ++ [pool] } : Line α).worker? p w = s.worker? p w := by
  rw [worker?, worker?, List.getElem?_append]
  split
  · rfl
  · next hlt =>
    rw [List.getElem?_eq_none (Nat.not_lt.mp hlt)]
    cases hnew : [pool][p - s.pools.length]? with
    | none => rfl
    | some new =>
      obtain rfl := List.mem_singleton.mp (List.mem_of_getElem? hnew)
      rw [Option.bind_some, hnil]
      rfl

theorem Fit.sparesWorker_begin (h : s.Fit) (q : Nat) : s.SparesWorker (s.begin q) p w := by
  unfold begin
  split
  · next pool hq =>
    split
    · next hc =>
      have hworker : (s.mapPool q Pool.begin).worker? p w =
          if q = p then pool.begin.workers[w]? else s.worker? p w := by
        rw [mapPool_eq hq, worker?_setPool hq rfl]
      by_cases hqp : q = p
      · subst hqp
        have hnone : s.worker? q w = none := by
          rw [worker?, hq, Option.bind_some, (h.pool hq).created hc]
          rfl
        rw [if_pos rfl, Pool.begin, if_pos hc, List.getElem?_map] at hworker
        cases hchannels : pool.assignment[w]? with
        | none =>
          rw [hchannels] at hworker
          exact .inl (hworker.trans hnone.symm)
        | some channels =>
          rw [hchannels] at hworker
          exact .inr ⟨hnone, channels, hworker⟩
      · rw [if_neg hqp] at hworker
        exact .inl hworker
    · exact .inl rfl
  · exact .inl rfl

/-- Calls that go on leave the workers alone. -/
theorem Effect.worker?_of_calls (e : Effect s t) (hne : t.calls ≠ s.calls) :
    t.worker? p w = s.worker? p w := by
  cases e with
  | enroll _ _ hq | turnBack _ _ hq | release _ _ _ hq =>
    rw [worker?_setPool hq rfl]
    split
    · next hqp =>
      rw [← hqp, worker?, hq]
      rfl
    · rfl
  | offer | hop | enter | route | misroute | write | tally => rfl
  | _ => exact absurd rfl hne

theorem Named.worker?_advance (h : s.Named) {i : Nat} (hs : s.advance i = some t) :
    t.worker? p w = s.worker? p w := by
  obtain ⟨c, c', hc, hset, -, hrank⟩ := h.turn_of_advance hs
  refine (advance_effect h hs).worker?_of_calls fun hsame => ?_
  have hc' : t.calls[i]? = some c' := by
    rw [hset, List.getElem?_set_self (List.getElem?_eq_some_iff.mp hc).1]
  rw [hsame, hc] at hc'
  cases hc'
  exact Nat.lt_irrefl _ hrank

/-- **Others leave a worker alone**, unless they start it. -/
theorem Reachable.sparesWorker (h : s.Reachable) (ha : a.isStepOf p w = false)
    (hs : s.step a = some t) : s.SparesWorker t p w := by
  cases a with
  | offer =>
    simp only [step, offer, Option.ite_none_right_eq_some, Option.some.injEq] at hs
    obtain ⟨-, rfl⟩ := hs
    exact .inl rfl
  | advance i => exact .inl (h.named.worker?_advance hs)
  | callAway i =>
    simp only [step, callAway] at hs
    split at hs
    · cases hs
      exact .inl rfl
    · cases hs
  | setPolicy | setRouter | startClosing =>
    cases hs
    exact .inl rfl
  | setHeld =>
    cases hs
    exact .inl (worker?_mapPool fun _ _ => rfl)
  | build plan =>
    obtain ⟨pool, hpool, rfl⟩ := of_build_eq_ok (of_step_build hs)
    exact .inl (worker?_append (Pool.fit_ofPlan hpool).2.1)
  | begin q =>
    cases hs
    exact h.fit.sparesWorker_begin q
  | install plan =>
    obtain ⟨pool, hpool, rfl⟩ := of_install_eq_ok (of_step_install hs).2
    have hbegin := ((Effect.build hpool).fit h.fit).sparesWorker_begin (p := p) (w := w)
      s.pools.length
    rwa [SparesWorker, worker?_append (Pool.fit_ofPlan hpool).2.1] at hbegin
  | publish =>
    obtain ⟨q, -, rfl⟩ := of_publish hs
    exact .inl rfl
  | retire =>
    obtain ⟨q, -, journal, rfl⟩ := of_retire hs
    cases s.installed with
    | none => exact .inl rfl
    | some old => exact .inl (worker?_closePool (s.adopt q) old)
  | shutdown =>
    rcases of_step_shutdown hs with rfl | ⟨q, rfl⟩
    · exact .inl rfl
    · exact .inl (worker?_closePool s q)
  | closePool q =>
    cases hs
    exact .inl (worker?_closePool s q)
  | closeNext k =>
    obtain ⟨n, lane, -, -, rfl⟩ := of_closeNext hs
    exact .inl rfl
  | drain n limit =>
    obtain ⟨lane, taken, -, -, rfl⟩ := of_step_drain hs
    exact .inl rfl
  | work q v =>
    have hne : q = p → v ≠ w := by simpa [Action.isStepOf] using ha
    exact .inl (worker?_work_of_ne hne hs)
  | endHook q v how =>
    have hne : q = p → v ≠ w := by simpa [Action.isStepOf] using ha
    exact .inl (worker?_endHook_of_ne hne hs)

end Line

end Conveyor
