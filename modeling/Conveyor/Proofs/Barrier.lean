/-
Conveyor.Proofs.Barrier — nobody is admitted behind a worker's back.

A call that wants to be admitted to a pool counts itself first, and looks at the stage
second; if the pool does not run, it takes its count back. A worker looks the other way
round: at the stage first, and when it has found the pool closed, at the count. So the calls
that the pool counts are those that it admitted and those in between their two steps, or on
their way out (`Barrier.counted`); nobody gets in by a look at the stage of a closed pool
(`Barrier.closed`); and when a worker has found the pool closed, and nobody counted after
that, nobody is admitted, and nobody ever will be (`Barrier.worker`).
-/
import Conveyor.Proofs.Closing

namespace Conveyor

variable {α : Type u}

namespace Call

/-- The call was admitted to pool `p`, and has not given that up. -/
def isAdmitted (p : Nat) (c : Call α) : Bool := c.pass = some p && !c.isOver

/-- The call has counted itself in pool `p`, and has not looked at the stage; or it has, and
has still to take its count back. -/
def isEntering (p : Nat) (c : Call α) : Bool :=
  match c.place with
  | .counted q | .turnedAway q => q = p
  | _ => false

/-- The next thing that the call does is to take its count in pool `p` back. -/
def givesBack (p : Nat) (c : Call α) : Bool :=
  match c.place with
  | .turnedAway q => q = p
  | .leaving _ => c.pass = some p
  | _ => false

variable {c : Call α} {p : Nat}

/-- A call that the pool counts is admitted or entering, and not both, since those who enter
have no pass. -/
theorem toNat_isEnrolled (hasking : c.place.isAsking = true → c.pass = none) :
    (c.isEnrolled p).toNat = (c.isAdmitted p).toNat + (c.isEntering p).toNat := by
  cases hp : c.place <;>
    simp [isEnrolled, isAdmitted, isEntering, isOver, Place.isAsking, hp] at hasking ⊢ <;>
    simp [hasking]

theorem isEnrolled_of_givesBack (h : c.givesBack p = true) : c.isEnrolled p = true := by
  cases hp : c.place <;> simp [givesBack, isEnrolled, hp] at h ⊢ <;> exact h

end Call

theorem countP_of_split {β : Type v} {l : List β} {f g k : β → Bool}
    (h : ∀ x ∈ l, (f x).toNat = (g x).toNat + (k x).toNat) :
    l.countP f = l.countP g + l.countP k := by
  induction l with
  | nil => rfl
  | cons x rest ih =>
    have hx := h x List.mem_cons_self
    have hrest := ih fun y hy => h y (List.mem_cons_of_mem _ hy)
    rw [List.countP_cons, List.countP_cons, List.countP_cons, hrest]
    cases hf : f x <;> cases hg : g x <;> cases hk : k x <;> simp_all <;> omega

namespace Line

variable {s t : Line α} {p w i : Nat} {c : Call α} {pool pool' : Pool (Parcel α)}

/-! ## The looks of a worker -/

/-- Worker `w` of pool `p` looks at the stage, and finds the pool closed. -/
structure FindsClosed (s t : Line α) (p w : Nat) : Prop where
  before : s.station? p w = some .watching
  step : s.step (.work p w) = some t
  after : t.station? p w = some .checking

/-- Worker `w` of pool `p` looks at the count, and finds nobody. -/
structure FindsNobody (s t : Line α) (p w : Nat) : Prop where
  before : s.station? p w = some .checking
  step : s.step (.work p w) = some t
  after : ∃ todo, t.station? p w = some (.sweeping .final todo [])

theorem FindsClosed.stage (h : s.FindsClosed t p w) (hs : s.Reachable) :
    ∃ pool, s.pools[p]? = some pool ∧ pool.stage = .closed := by
  obtain ⟨pool, worker, hp, hw, hst⟩ := exists_worker h.before
  refine ⟨pool, hp, ?_⟩
  have hwork : s.step (.work p w) = some (s.setWorker p w (watch pool worker)) := by
    simp [Line.step, work, hp, hw, hst]
  have hafter := h.after
  rw [← Option.some.inj (hwork.symm.trans h.step), station?,
    worker?_setWorker hp hw, Option.map_some, watch] at hafter
  cases hstage : pool.stage with
  | created => exact absurd hstage ((hs.fit.pool hp).stage_ne_created hw)
  | running => simp [Worker.moveTo, Pool.isRunning, hstage] at hafter
  | closed => rfl

theorem FindsNobody.admitted (h : s.FindsNobody t p w) (hp : s.pools[p]? = some pool) :
    pool.admitted = 0 := by
  obtain ⟨pool', worker, hp', hw, hst⟩ := exists_worker h.before
  rw [hp] at hp'
  cases hp'
  have hwork : s.step (.work p w) = some (s.setWorker p w (check pool worker)) := by
    simp [Line.step, work, hp, hw, hst]
  obtain ⟨todo, hafter⟩ := h.after
  rw [← Option.some.inj (hwork.symm.trans h.step), station?,
    worker?_setWorker hp hw, Option.map_some, check] at hafter
  by_contra hne
  simp [Worker.moveTo, Nat.pos_of_ne_zero hne] at hafter

/-! ## The barrier -/

/-- What a pool's count is worth. -/
structure Barrier (s : Line α) (p : Nat) : Prop where
  /-- It stands for those who are admitted and those who are on their way in or out. -/
  counted : ∀ pool, s.pools[p]? = some pool → pool.admitted =
    s.calls.countP (Call.isAdmitted p) + s.calls.countP (Call.isEntering p)
  /-- Who takes its count back takes one off. -/
  covered : ∀ (i : Nat) c t pool pool', s.calls[i]? = some c → c.givesBack p = true →
    s.step (.advance i) = some t → s.pools[p]? = some pool → t.pools[p]? = some pool' →
    pool.admitted = pool'.admitted + 1
  /-- Nobody is admitted by a look at the stage after the pool was closed. -/
  closed : s.stage? p = some .closed → ∀ t, Reaches s t → ∀ (i : Nat) c', t.calls[i]? = some c' →
    c'.pass = some p → ∃ c, s.calls[i]? = some c ∧ c.pass = some p
  /-- Who finds nobody counted after that knows that nobody is admitted, for good. -/
  deserted : s.stage? p = some .closed → ∀ t, Reaches s t →
    (∃ pool, t.pools[p]? = some pool ∧ pool.admitted = 0) →
    ∀ u, Reaches t u → ∀ c ∈ u.calls, c.isAdmitted p = false
  /-- So it is with a worker that goes on its final round. -/
  worker : ∀ w t u v, s.FindsClosed t p w → Reaches t u → u.FindsNobody v p w →
    ∀ x, Reaches u x → ∀ c ∈ x.calls, c.isAdmitted p = false

theorem Admits.counted (h : s.Admits) (hp : s.pools[p]? = some pool) : pool.admitted =
    s.calls.countP (Call.isAdmitted p) + s.calls.countP (Call.isEntering p) := by
  rw [h.admitted p pool hp]
  exact countP_of_split fun c hmem => Call.toNat_isEnrolled (h.asking c hmem)

theorem Admits.covered (h : s.Admits) (hc : s.calls[i]? = some c) (hback : c.givesBack p = true)
    (hs : s.step (.advance i) = some t) (hp : s.pools[p]? = some pool)
    (hp' : t.pools[p]? = some pool') : pool.admitted = pool'.admitted + 1 := by
  have hpos := h.admitted_pos hc hp (Call.isEnrolled_of_givesBack hback)
  have hless : pool'.admitted = pool.admitted - 1 := by
    cases hplace : c.place <;> simp [Call.givesBack, hplace] at hback
    · subst hback
      simp only [step, advance, hc, hplace, turnBack, Option.some.injEq] at hs
      subst hs
      simp [moveCall, mapCall, mapPool, hp] at hp'
      rw [← hp', Pool.unenroll]
    · simp only [step, advance, hc, hplace, finish, hback, Option.some.injEq] at hs
      subst hs
      simp [moveCall, mapCall, mapPool, hp] at hp'
      rw [← hp', Pool.unenroll]
  omega

/-- Nobody counted, nobody admitted. -/
theorem Admits.allOver (h : s.Admits) (hp : s.pools[p]? = some pool) (hzero : pool.admitted = 0) :
    s.AllOver p := by
  intro c hmem hpass
  refine h.isOver_of_admitted hmem hpass fun hin => ?_
  obtain ⟨i, hi⟩ := List.getElem?_of_mem hmem
  have hpos := h.admitted_pos hi hp hin
  omega

/-- A pool that was closed is closed. -/
theorem Reaches.pool_closed (hr : Reaches s t) (h : s.Reachable) (hp : s.pools[p]? = some pool)
    (hclosed : pool.stage = .closed) :
    ∃ pool', t.pools[p]? = some pool' ∧ pool'.stage = .closed := by
  refine hr.induction (P := fun u => ∃ pool', u.pools[p]? = some pool' ∧ pool'.stage = .closed) h
    ⟨pool, hp, hclosed⟩ ?_
  rintro u v ⟨pool, hp, hclosed⟩ e
  obtain ⟨pool', hp', hclosed', -⟩ := e.pool_closed hp hclosed
  exact ⟨pool', hp', hclosed'⟩

/-- **Once a pool is closed, the count tells all**: when nobody is counted, nobody is admitted
any more. -/
theorem Reachable.isAdmitted_eq_false (h : s.Reachable) (hp : s.pools[p]? = some pool)
    (hclosed : pool.stage = .closed) (hr : Reaches s t) (hp' : t.pools[p]? = some pool')
    (hzero : pool'.admitted = 0) {u : Line α} (hru : Reaches t u) (hmem : c ∈ u.calls) :
    c.isAdmitted p = false := by
  have ht := h.reaches hr
  obtain ⟨old, hold, hclosed'⟩ := hr.pool_closed h hp hclosed
  have hover : t.AllOver p := ht.admits.allOver hp' hzero
  by_cases hpass : c.pass = some p
  · obtain ⟨i, hi⟩ := List.getElem?_of_mem hmem
    obtain ⟨first, hfirst, hpass', hkeep⟩ := hru.call_of_closed ht hold hclosed' hi hpass
    have hdone := hkeep (hover first (List.mem_of_getElem? hfirst) hpass')
    simp [Call.isAdmitted, hdone]
  · simp [Call.isAdmitted, hpass]

/-- **The admission barrier.** It stands in every state of every line. -/
theorem Reachable.admission_barrier (h : s.Reachable) (p : Nat) : s.Barrier p where
  counted _ hp := h.admits.counted hp
  covered _ _ _ _ _ hc hback hs hp hp' := h.admits.covered hc hback hs hp hp'
  closed hstage t hr i c' hc' hpass := by
    obtain ⟨pool, hp, hclosed⟩ := exists_pool_of_stage? hstage
    obtain ⟨c, hc, hpass', -⟩ := hr.call_of_closed h hp hclosed hc' hpass
    exact ⟨c, hc, hpass'⟩
  deserted hstage t hr hzero u hru c hmem := by
    obtain ⟨pool, hp, hclosed⟩ := exists_pool_of_stage? hstage
    obtain ⟨pool', hp', hzero⟩ := hzero
    exact h.isAdmitted_eq_false hp hclosed hr hp' hzero hru hmem
  worker w t u v hseen hr hnobody x hrx c hmem := by
    obtain ⟨pool, hp, hclosed⟩ := hseen.stage h
    have hru : Reaches s u := (Reaches.refl.step (.work p w) hseen.step).trans hr
    obtain ⟨pool', -, hp', -⟩ := exists_worker hnobody.before
    exact h.isAdmitted_eq_false hp hclosed hru hp' (hnobody.admitted hp') hrx hmem

/-- The pool is closed when one call is admitted to it and has not written, and another has
counted itself and not looked at the stage. Its worker has been called in. -/
def crossing : List (Action Nat) :=
  [.install loner, .publish, .retire] ++
    (.offer 0 (.produce 5) :: List.replicate 3 (.advance 0)) ++
    (.offer 1 (.produce 6) :: List.replicate 2 (.advance 1)) ++
    [.shutdown, .work 0 0, .endHook 0 0 .returned]

/-- The first call writes, and the second is turned away. -/
def dispersing : List (Action Nat) :=
  List.replicate 6 (.advance 0) ++ List.replicate 5 (.advance 1)

/-- Two are counted when the worker finds the pool closed. It goes on its final round when both
have gone, and then nobody is admitted any more. -/
theorem admission_barrier_crossing :
    let s := (blank 1 1 Nat.one_pos .wait).after crossing
    let t := s.after [.work 0 0]
    let u := t.after dispersing
    let v := u.after [.work 0 0]
    (s.calls.countP (Call.isAdmitted 0) = 1 ∧ s.calls.countP (Call.isEntering 0) = 1 ∧
      s.pools.map Pool.admitted = [2]) ∧
      s.FindsClosed t 0 0 ∧ u.FindsNobody v 0 0 ∧
        ∀ x, Reaches u x → ∀ c ∈ x.calls, c.isAdmitted 0 = false := by
  intro s t u v
  have hcounted : s.calls.countP (Call.isAdmitted 0) = 1 ∧
      s.calls.countP (Call.isEntering 0) = 1 ∧ s.pools.map Pool.admitted = [2] := by
    decide +kernel
  have hseen : s.FindsClosed t 0 0 :=
    ⟨by decide +kernel, step_eq_after (by decide +kernel), by decide +kernel⟩
  have hnobody : u.FindsNobody v 0 0 :=
    ⟨by decide +kernel, step_eq_after (by decide +kernel), [0], by decide +kernel⟩
  have hbarrier : s.Barrier 0 :=
    Reachable.admission_barrier (reachable_after (by decide) Nat.one_pos .wait crossing) 0
  exact ⟨hcounted, hseen, hnobody,
    hbarrier.worker 0 t u v hseen (t.reaches_after dispersing) hnobody⟩

end Line

end Conveyor
