/-
Conveyor.Proofs.Admission — what the count of a pool stands for.

A pool counts the calls that are on their way into it and those that it
admitted and that are not over (`Admits.admitted`). A worker leaves the
rounds it makes while its pool runs when it has seen the pool closed, and
goes on its final round when it has seen the count at nought; and since a
closed pool admits nobody, all calls that the pool ever admitted are over
by then, and stay so (`Admits.done`).
-/
import Conveyor.Proofs.Calls
import Conveyor.Proofs.Pools

namespace Conveyor

variable {α : Type u}

/-! ## Calls that are counted, rounds of a worker -/

/-- Whether pool `p` counts the call. -/
def Call.isEnrolled (p : Nat) (c : Call α) : Bool :=
  match c.place with
  | .counted q | .turnedAway q => q = p
  | .over _ => false
  | _ => c.pass = some p

theorem Call.names_of_isEnrolled {c : Call α} {p : Nat} (h : c.isEnrolled p = true) :
    c.Names p := by
  unfold isEnrolled at h
  split at h
  · next q hp =>
    have hq : q = p := of_decide_eq_true h
    exact .inr (.inl (by rw [hp]; exact hq))
  · next q hp =>
    have hq : q = p := of_decide_eq_true h
    exact .inr (.inl (by rw [hp]; exact hq))
  · cases h
  · exact .inr (.inr (of_decide_eq_true h))

/-- A call that has a channel to write to is counted by the pool that admitted it. -/
theorem Call.isEnrolled_of_target {c : Call α} {n : Nat} {policy : WhenFull}
    (h : c.target? = some (n, policy)) (p : Nat) : c.isEnrolled p = decide (c.pass = some p) := by
  cases hp : c.place <;> simp [target?, hp] at h <;> simp [isEnrolled, hp]

/-- The kind of round that a hook belongs to; before the first round counts
as running, after the last as final. -/
def Hook.round : Hook α → Round
  | .start => .running
  | .consume round _ | .error round _ _ => round
  | .exit => .final

/-- The kind of round that a worker is on. -/
def Station.round : Station α → Round
  | .door hook | .inside hook => hook.round
  | .watching | .broken _ => .running
  | .checking => .lingering
  | .sweeping round _ _ | .settling round _ _ => round
  | .finished => .final

namespace Worker

/-- The kind of round that the worker is on. -/
def round (worker : Worker α) : Round := worker.station.round

theorem round_afterRound (round : Round) : (afterRound round : Station α).round = round := by
  cases round <;> rfl

/-- After a hook the worker is still on the round that the hook belongs to. -/
theorem round_afterHook (hook : Hook α) (how : HookEnd) :
    (afterHook hook how).round = hook.round := by
  cases hook with
  | error round => exact round_afterRound round
  | _ => rfl

theorem round_settled (round : Round) (batch : Batch α) (e : Option ConsumeError) :
    (e.elim (afterRound round) fun e => Station.door (.error round batch e)).round = round := by
  cases e with
  | none => exact round_afterRound round
  | some e => rfl

end Worker

namespace Line

variable {s t : Line α}

/-- A worker changes the kind of its rounds after a look at its pool only,
or to give up. -/
theorem Pace.round {pool : Pool (Parcel α)} {worker worker' : Worker (Parcel α)}
    (pace : Pace s pool worker worker') :
    worker'.round = worker.round ∨ worker'.round = .running ∨
      (pool.isRunning = false ∧ worker'.round = .lingering) ∨
      (pool.admitted = 0 ∧ worker.round = .lingering ∧ worker'.round = .final) := by
  cases pace with
  | enter hd =>
    rw [Worker.round, Worker.round, hd]
    exact .inl rfl
  | leave how hi =>
    rw [Worker.round, Worker.round, hi]
    exact .inl (Worker.round_afterHook _ how)
  | watch hw =>
    unfold Line.watch
    cases hr : pool.isRunning with
    | true => exact .inr (.inl rfl)
    | false => exact .inr (.inr (.inl ⟨rfl, rfl⟩))
  | check hc =>
    have hround : worker.round = .lingering := by rw [Worker.round, hc]; rfl
    unfold Line.check
    by_cases ha : 0 < pool.admitted
    · rw [if_pos ha]
      exact .inl hround.symm
    · rw [if_neg ha]
      exact .inr (.inr (.inr ⟨Nat.eq_zero_of_not_pos ha, hround, rfl⟩))
  | skip hs _ =>
    rw [Worker.round, Worker.round, hs]
    exact .inl rfl
  | fail => exact .inr (.inl rfl)
  | @handOver round batch hs =>
    rw [Worker.round, Worker.round, hs]
    unfold Line.handOver Worker.moveTo
    split
    · exact .inl (Worker.round_afterRound round)
    · exact .inl rfl

/-- A round changes in three ways only. It becomes a running one, or a lingering one where the
worker has seen its pool not running, or from lingering a final one where the pool counts
nobody. -/
theorem round_of_step {pool : Pool (Parcel α)} {worker worker' : Worker (Parcel α)}
    (step : worker' = worker ∨ Stride s t pool worker worker') :
    worker'.round = worker.round ∨ worker'.round = .running ∨
      (pool.isRunning = false ∧ worker'.round = .lingering) ∨
      (pool.admitted = 0 ∧ t.calls = s.calls ∧ worker.round = .lingering ∧
        worker'.round = .final) := by
  rcases step with rfl | stride
  · exact .inl rfl
  cases stride with
  | pace pace hcalls =>
    rcases pace.round with h | h | h | ⟨ha, h⟩
    · exact .inl h
    · exact .inr (.inl h)
    · exact .inr (.inr (.inl h))
    · exact .inr (.inr (.inr ⟨ha, hcalls, h⟩))
  | sweep hs =>
    rw [Worker.round, Worker.round, hs]
    exact .inl rfl
  | @settle round batch e hs =>
    rw [Worker.round, Worker.round, hs]
    exact .inl (Worker.round_settled round batch e)

/-! ## The count -/

/-- Who is counted by the pools, and what their workers know from it. -/
structure Admits (s : Line α) : Prop where
  /-- A call that has not been admitted has no pass. -/
  asking : ∀ c ∈ s.calls, c.place.isAsking = true → c.pass = none
  admitted : ∀ (p : Nat) (pool : Pool (Parcel α)), s.pools[p]? = some pool →
    pool.admitted = s.calls.countP (Call.isEnrolled p)
  closed : ∀ (p : Nat) (pool : Pool (Parcel α)), s.pools[p]? = some pool →
    ∀ worker ∈ pool.workers, worker.round ≠ .running → pool.stage = .closed
  done : ∀ (p : Nat) (pool : Pool (Parcel α)), s.pools[p]? = some pool →
    ∀ worker ∈ pool.workers, worker.round = .final →
      ∀ c ∈ s.calls, c.pass = some p → c.isOver = true

/-- A count after one entry was replaced, without subtraction. -/
theorem countP_set_eq {β : Type v} {l : List β} {i : Nat} {a : β} (h : l[i]? = some a) (b : β)
    (f : β → Bool) : (l.set i b).countP f + (f a).toNat = l.countP f + (f b).toNat := by
  induction l generalizing i with
  | nil => cases h
  | cons c l ih =>
    cases i with
    | zero =>
      cases h
      simp only [List.set_cons_zero, List.countP_cons]
      cases f a <;> cases f b <;> simp
    | succ i =>
      have hl := ih (i := i) h
      simp only [List.set_cons_succ, List.countP_cons]
      omega

/-- What a call does on its own changes nothing about who counts it. -/
theorem Hop.isEnrolled {i : Nat} {c : Call α} {place : Place α} (hop : Hop s i c place) (p : Nat) :
    ({ c with place } : Call α).isEnrolled p = c.isEnrolled p := by
  cases hop with
  | refuse ht | wait ht | stray ht | fail ht =>
    rw [Call.isEnrolled_of_target ht]
    rfl
  | finish hp hpass =>
    simp [Call.isEnrolled, hp, hpass]
  | find hp | skip hp | start hp | insist hp | visit hp | turnAway hp | ask hp | callAway hp =>
    simp only [Call.isEnrolled, hp]

/-! ## Steps keep the count right -/

namespace Admits

/-- A call that is counted as before leaves all counts as they are. -/
theorem of_setCall (h : s.Admits) {i p : Nat} {c c' : Call α} {pool : Pool (Parcel α)}
    (hc : s.calls[i]? = some c) (hcount : c'.isEnrolled p = c.isEnrolled p)
    (hp : s.pools[p]? = some pool) :
    pool.admitted = (s.calls.set i c').countP (Call.isEnrolled p) := by
  have hset := countP_set_eq hc c' (Call.isEnrolled p)
  have hold := h.admitted p pool hp
  rw [hcount] at hset
  omega

/-- A pool with the old count, among the old calls. -/
theorem of_setPool (h : s.Admits) {p q : Nat} {pool pool₁ pool' : Pool (Parcel α)}
    (hq : s.pools[q]? = some pool) (hcount : pool₁.admitted = pool.admitted)
    (hp : (s.pools.set q pool₁)[p]? = some pool') :
    pool'.admitted = s.calls.countP (Call.isEnrolled p) := by
  rcases eq_of_getElem?_set hp with ⟨rfl, rfl⟩ | ⟨-, hold⟩
  · rw [hcount]
    exact h.admitted q pool hq
  · exact h.admitted p pool' hold

/-- The count of pool `q` and one of the calls it counts change together. -/
theorem of_set (h : s.Admits) {i p q : Nat} {c c' : Call α} {pool pool₁ pool' : Pool (Parcel α)}
    (hc : s.calls[i]? = some c) (hq : s.pools[q]? = some pool)
    (hother : ∀ p, p ≠ q → c'.isEnrolled p = c.isEnrolled p)
    (hcount : s.calls.countP (Call.isEnrolled q) = pool.admitted →
      pool₁.admitted + (c.isEnrolled q).toNat = pool.admitted + (c'.isEnrolled q).toNat)
    (hp : (s.pools.set q pool₁)[p]? = some pool') :
    pool'.admitted = (s.calls.set i c').countP (Call.isEnrolled p) := by
  rcases eq_of_getElem?_set hp with ⟨rfl, rfl⟩ | ⟨hne, hold⟩
  · have hset := countP_set_eq hc c' (Call.isEnrolled q)
    have hq' := h.admitted q pool hq
    have hcount := hcount hq'.symm
    omega
  · exact h.of_setCall hc (hother p (Ne.symm hne)) hold

/-- A call that is still asking has no pass. -/
theorem pass_eq_none (h : s.Admits) {i : Nat} {c : Call α} (hc : s.calls[i]? = some c)
    (ha : c.place.isAsking = true) : c.pass = none :=
  h.asking c (List.mem_of_getElem? hc) ha

/-- Who was admitted and is not counted any more is done. -/
theorem isOver_of_admitted (h : s.Admits) {p : Nat} {c : Call α} (hmem : c ∈ s.calls)
    (hpass : c.pass = some p) (hout : c.isEnrolled p ≠ true) : c.isOver = true := by
  have hasking := h.asking c hmem
  rw [hpass] at hasking
  cases hp : c.place <;> simp [Call.isEnrolled, Place.isAsking, hp, hpass] at hout hasking
  rw [Call.isOver, hp]

/-- Who is counted was counted before, so the count can be taken back. -/
theorem admitted_pos (h : s.Admits) {i p : Nat} {c : Call α} {pool : Pool (Parcel α)}
    (hc : s.calls[i]? = some c) (hp : s.pools[p]? = some pool) (he : c.isEnrolled p = true) :
    0 < pool.admitted := by
  rw [h.admitted p pool hp]
  exact List.countP_pos_iff.mpr ⟨c, List.mem_of_getElem? hc, he⟩

end Admits

/-- The counter goes up and down in the very steps that enroll and release a call. -/
theorem Effect.admitted (e : Effect s t) (hn : s.Named) (h : s.Admits) {p : Nat}
    {pool' : Pool (Parcel α)} (hp : t.pools[p]? = some pool') :
    pool'.admitted = t.calls.countP (Call.isEnrolled p) := by
  cases e with
  | offer =>
    rw [List.countP_append, h.admitted p pool' hp]
    rfl
  | hop hc hop => exact h.of_setCall hc (hop.isEnrolled p) hp
  | @enroll i q c pool hc hplace hq =>
    have hpass := h.pass_eq_none hc (by rw [hplace]; rfl)
    have hout : ∀ p, c.isEnrolled p = false := fun p => by simp [Call.isEnrolled, hplace, hpass]
    refine h.of_set hc hq ?_ ?_ hp
    · intro p hne
      rw [hout]
      exact decide_eq_false (Ne.symm hne)
    · intro _
      rw [hout]
      simp [Call.isEnrolled, Pool.enroll]
  | @enter i q c pool place hc hplace hq hrun hnew =>
    refine h.of_setCall hc ?_ hp
    rcases hnew with rfl | rfl <;> simp [Call.isEnrolled, hplace]
  | @turnBack i q c pool hc hplace hq =>
    have hpass := h.pass_eq_none hc (by rw [hplace]; rfl)
    have hin : ∀ p, c.isEnrolled p = decide (q = p) := fun p => by simp [Call.isEnrolled, hplace]
    have hpos := h.admitted_pos hc hq (by rw [hin]; exact decide_eq_true rfl)
    have hout : ∀ p, ({ c with
        place := c.item?.elim (.leaving .visited) fun a => .settled (.refused .noConsumer a) } :
          Call α).isEnrolled p = false := by
      intro p
      cases hi : c.item? <;> simp [Call.isEnrolled, hpass]
    refine h.of_set hc hq ?_ ?_ hp
    · intro p hne
      rw [hout, hin]
      exact (decide_eq_false (Ne.symm hne)).symm
    · intro _
      rw [hout, hin, decide_eq_true rfl]
      exact Nat.sub_add_cancel hpos
  | route hc hplace | misroute hc hplace | tally hc hplace =>
    refine h.of_setCall hc ?_ hp
    simp [Call.isEnrolled, hplace]
  | write hc ht =>
    refine h.of_setCall hc ?_ hp
    rw [Call.isEnrolled_of_target ht]
    rfl
  | @release i q c pool verdict hc hplace hpass hq =>
    have hin : ∀ p, c.isEnrolled p = decide (q = p) := fun p => by
      simp [Call.isEnrolled, hplace, hpass]
    have hpos := h.admitted_pos hc hq (by rw [hin]; exact decide_eq_true rfl)
    refine h.of_set hc hq ?_ ?_ hp
    · intro p hne
      rw [hin]
      exact (decide_eq_false (Ne.symm hne)).symm
    · intro _
      rw [hin, decide_eq_true rfl]
      exact Nat.sub_add_cancel hpos
  | build hq =>
    rw [List.getElem?_append] at hp
    split at hp
    · exact h.admitted p pool' hp
    · next hlt =>
      obtain rfl := List.mem_singleton.mp (List.mem_of_getElem? hp)
      rw [(Pool.fit_ofPlan hq).2.2.2]
      refine (List.countP_eq_zero.mpr fun c hmem he => hlt ?_).symm
      exact hn.calls c hmem p (Call.names_of_isEnrolled he)
  | begin hq hc =>
    refine h.of_setPool hq ?_ hp
    rw [Pool.begin, if_pos hc]
  | close hq | hold _ hq | pace hq | sweep hq | settle hq =>
    exact h.of_setPool hq (by rfl) hp
  | _ => exact h.admitted p pool' hp

/-- One step keeps the count right, and with it what the workers know. -/
theorem Effect.admits (e : Effect s t) (hn : s.Named) (hf : s.Fit) (h : s.Admits) : t.Admits where
  asking c' hmem ha := by
    obtain ⟨i, hi⟩ := List.getElem?_of_mem hmem
    rcases e.call_before hi with ⟨-, hnone⟩ | ⟨c, hc, rfl | turn⟩
    · exact hnone
    · exact h.pass_eq_none hc ha
    · obtain ⟨hasking, hpass⟩ := turn.isAsking ha
      exact hpass.trans (h.pass_eq_none hc hasking)
  admitted _ _ hp := e.admitted hn h hp
  closed p pool' hp worker' hmem hround := by
    obtain ⟨w, hw⟩ := List.getElem?_of_mem hmem
    rcases e.worker_before hf hp hw with hstart | ⟨pool, worker, hp, hw, hstage, step⟩
    · rw [Worker.round, hstart] at hround
      exact absurd rfl hround
    · refine hstage ?_
      have hold := h.closed p pool hp worker (List.mem_of_getElem? hw)
      rcases round_of_step step with hr | hr | ⟨hr, -⟩ | ⟨-, -, hr, -⟩
      · exact hold (hr ▸ hround)
      · exact absurd hr hround
      · -- The pool does not run, and it has begun, since it has workers.
        have hcreated := (hf.pool hp).stage_ne_created hw
        cases hs : pool.stage with
        | created => exact absurd hs hcreated
        | running => simp [Pool.isRunning, hs] at hr
        | closed => rfl
      · exact hold (by rw [hr]; decide)
  done p pool' hp worker' hmem hround c' hmem' hpass := by
    obtain ⟨w, hw⟩ := List.getElem?_of_mem hmem
    obtain ⟨i, hi⟩ := List.getElem?_of_mem hmem'
    rcases e.worker_before hf hp hw with hstart | ⟨pool, worker, hp, hw, -, step⟩
    · rw [Worker.round, hstart] at hround
      cases hround
    have hworker := List.mem_of_getElem? hw
    rcases round_of_step step with hr | hr | ⟨-, hr⟩ | ⟨hnought, hcalls, -, -⟩
    · have hfinal : worker.round = .final := hr.symm.trans hround
      have hclosed := h.closed p pool hp worker hworker (by rw [hfinal]; decide)
      rcases e.call_before hi with ⟨-, hnone⟩ | ⟨c, hc, rfl | turn⟩
      · rw [hnone] at hpass
        cases hpass
      · exact h.done p pool hp worker hworker hfinal _ (List.mem_of_getElem? hc) hpass
      · have hbefore := turn.pass_of_closed hp hclosed hpass
        have hover := h.done p pool hp worker hworker hfinal c (List.mem_of_getElem? hc) hbefore
        exact absurd (turn.isOver_eq_false.symm.trans hover) (by decide)
    · rw [hr] at hround
      cases hround
    · rw [hr] at hround
      cases hround
    · rw [hcalls] at hmem'
      refine h.isOver_of_admitted hmem' hpass ?_
      intro he
      have hpos : 0 < s.calls.countP (Call.isEnrolled p) :=
        List.countP_pos_iff.mpr ⟨c', hmem', he⟩
      have hcount := h.admitted p pool hp
      omega

theorem IsFresh.admits (h : s.IsFresh) : s.Admits := by
  obtain ⟨_, _, _, _, store, _, rfl⟩ := h
  constructor
  · intro c hc
    cases hc
  · intro p pool hp
    cases hp
  · intro p pool hp
    cases hp
  · intro p pool hp
    cases hp

/-- On every line that is reached, by induction over the run. -/
theorem Reachable.admits (h : s.Reachable) : s.Admits := by
  have hall : s.Named ∧ s.Fit ∧ s.Admits := by
    refine Reachable.induction (P := fun u => u.Named ∧ u.Fit ∧ u.Admits) h ?_ ?_
    · intro start hf
      have hr : start.Reachable := ⟨start, hf, .refl⟩
      exact ⟨hf.named, hr.fit, hf.admits⟩
    · rintro u v ⟨hn, hf, ha⟩ e
      exact ⟨e.named hn, e.fit hf, e.admits hn hf ha⟩
  exact hall.2.2

end Line

end Conveyor
