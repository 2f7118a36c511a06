/-
Conveyor.Proofs.LastRound — what the final rounds of a pool leave behind.

A worker has left a channel when it is on its final round, or past it, and
the channel is not ahead of it any more. A parcel is stranded by a pool
when it lies in a channel that a worker of the pool has left; and since the
worker emptied the channel on its last visit, such a parcel was written
after that (`Effect.stranded`). Calls that the pool admitted are over
before any of its workers goes on a final round, so none of their parcels
is ever stranded by it, nor is one that was written before the pool was
closed.
-/
import Conveyor.Proofs.Admission
import Conveyor.Proofs.Conservation

namespace Conveyor

variable {α : Type u}

/-- The worker does not come to channel `n` any more. -/
def Worker.HasLeft (worker : Worker α) (n : Nat) : Prop :=
  worker.round = .final ∧ n ∈ worker.channels ∧ n ∉ worker.station.ahead

namespace Line

variable {s t : Line α} {p n : Nat} {parcel : Parcel α}

/-! ## Channels that were left -/

/-- The parcel lies in channel `n`. -/
def Holds (s : Line α) (n : Nat) (parcel : Parcel α) : Prop :=
  ∃ lane, s.store.lanes[n]? = some lane ∧ parcel ∈ lane.toList

/-- A worker of pool `p` has left channel `n`. -/
def IsLeft (s : Line α) (p n : Nat) : Prop :=
  ∃ (pool : Pool (Parcel α)) (w : Nat) (worker : Worker (Parcel α)),
    s.pools[p]? = some pool ∧ pool.workers[w]? = some worker ∧ worker.HasLeft n

/-- The parcel lies in channel `n`, which a worker of pool `p` has left. -/
def Stranded (s : Line α) (p n : Nat) (parcel : Parcel α) : Prop :=
  s.IsLeft p n ∧ s.Holds n parcel

theorem holds_setLane {n m : Nat} {lane : Lane (Parcel α)}
    (hstore : t.store = s.store.setLane n lane) (h : t.Holds m parcel) :
    (n = m ∧ parcel ∈ lane.toList) ∨ s.Holds m parcel := by
  obtain ⟨lane', hl', hmem⟩ := h
  rw [hstore] at hl'
  rcases eq_of_getElem?_set hl' with ⟨rfl, rfl⟩ | ⟨-, hold⟩
  · exact .inl ⟨rfl, hmem⟩
  · exact .inr ⟨lane', hold, hmem⟩

/-- What a channel holds it held before, or it has just been written. -/
theorem Effect.holds (e : Effect s t) (hs : s.Sound) (h : t.Holds n parcel) :
    s.Holds n parcel ∨ t.written = s.written ++ [(n, parcel)] ∧
      ∃ c policy, s.calls[parcel.call]? = some c ∧ c.target? = some (n, policy) := by
  cases e with
  | @write i m c policy item lane lane' how out hc ht hi hl ha =>
    rcases holds_setLane (s := s) rfl h with ⟨rfl, hmem⟩ | hold
    · obtain ⟨-, rest, hbefore, hafter⟩ := (hs.lane hl).of_accepted ha
      rw [hafter] at hmem
      rcases List.mem_append.mp hmem with hrest | hnew
      · refine .inl ⟨lane, hl, ?_⟩
        rw [hbefore]
        exact List.mem_append_right _ hrest
      · obtain rfl := List.mem_singleton.mp hnew
        exact .inr ⟨rfl, c, policy, hc, ht⟩
    · exact .inl hold
  | closeLane hl =>
    rcases holds_setLane (s := s) rfl h with ⟨rfl, hmem⟩ | hold
    · exact .inl ⟨_, hl, hmem⟩
    · exact .inl hold
  | drain hl ht | sweep _ _ _ hl ht =>
    rcases holds_setLane (s := s) rfl h with ⟨rfl, hmem⟩ | hold
    · refine .inl ⟨_, hl, ?_⟩
      rw [((hs.lane hl).of_take ht).2]
      exact List.mem_append_right _ hmem
    · exact .inl hold
  | _ => exact .inl h

theorem hasLeft_of_ahead_eq_nil {worker : Worker α} {n : Nat} (hround : worker.round = .final)
    (hmem : n ∈ worker.channels) (hahead : worker.station.ahead = []) : worker.HasLeft n := by
  refine ⟨hround, hmem, ?_⟩
  rw [hahead]
  exact List.not_mem_nil

/-- A worker on its final round stays on it. -/
theorem Pace.round_final {pool : Pool (Parcel α)} {worker worker' : Worker (Parcel α)}
    (pace : Pace s pool worker worker') (hs : s.Sound) (h : worker.round = .final) :
    worker'.round = .final := by
  cases pace with
  | enter hd =>
    rw [Worker.round, hd] at h
    exact h
  | leave how hi =>
    rw [Worker.round, hi] at h
    exact (Worker.round_afterHook _ how).trans h
  | watch hst | check hst =>
    rw [Worker.round, hst] at h
    cases h
  | skip hst =>
    rw [Worker.round, hst] at h
    exact h
  | fail _ hl ht => exact absurd ht ((hs.lane hl).take_ne_error _ _)
  | handOver hst =>
    rw [Worker.round, hst] at h
    unfold Line.handOver Worker.round Worker.moveTo
    split
    · exact (Worker.round_afterRound _).trans h
    · exact h

theorem Stride.round_final {pool : Pool (Parcel α)} {worker worker' : Worker (Parcel α)}
    (stride : Stride s t pool worker worker') (hs : s.Sound) (h : worker.round = .final) :
    worker'.round = .final := by
  cases stride with
  | pace pace => exact pace.round_final hs h
  | sweep hst =>
    rw [Worker.round, hst] at h
    exact h
  | settle hst =>
    rw [Worker.round, hst] at h
    exact (Worker.round_settled ..).trans h

theorem Pace.hasLeft {pool : Pool (Parcel α)} {worker worker' : Worker (Parcel α)}
    (pace : Pace s pool worker worker') (h : worker'.HasLeft n) :
    worker.HasLeft n ∨ s.store.lanes[n]? = none := by
  obtain ⟨hround, hmem, hahead⟩ := h
  rw [pace.ahead.1] at hmem
  cases pace with
  | enter hd =>
    refine .inl (hasLeft_of_ahead_eq_nil ?_ hmem (by rw [hd]; rfl))
    rw [Worker.round, hd]
    exact hround
  | @leave hook how hi =>
    refine .inl (hasLeft_of_ahead_eq_nil ?_ hmem (by rw [hi]; rfl))
    rw [Worker.round, hi]
    exact (Worker.round_afterHook hook how).symm.trans hround
  | watch _ =>
    unfold Line.watch at hround
    split at hround <;> cases hround
  | check _ =>
    unfold Line.check at hround hahead
    split at hround
    · cases hround
    · next hnought =>
      rw [if_neg hnought] at hahead
      exact absurd hmem hahead
  | @skip round m rest batch hs hl =>
    by_cases hmn : n = m
    · exact .inr (hmn ▸ hl)
    · refine .inl ⟨?_, hmem, ?_⟩
      · rw [Worker.round, hs]
        exact hround
      · rw [hs]
        exact fun hin => (List.mem_cons.mp hin).elim hmn hahead
  | fail => cases hround
  | @handOver round batch hs =>
    refine .inl (hasLeft_of_ahead_eq_nil ?_ hmem (by rw [hs]; rfl))
    rw [Worker.round, hs]
    unfold Line.handOver Worker.moveTo at hround
    split at hround
    · exact (Worker.round_afterRound round).symm.trans hround
    · exact hround

/-- A worker that has left a channel had left it before, or has just been
there and emptied it. -/
theorem Stride.hasLeft (hs : s.Sound) {pool : Pool (Parcel α)} {worker worker' : Worker (Parcel α)}
    (stride : Stride s t pool worker worker') (h : worker'.HasLeft n) :
    worker.HasLeft n ∨ ∀ parcel, ¬ t.Holds n parcel := by
  cases stride with
  | pace pace hcalls hstore =>
    rcases pace.hasLeft h with hold | hnone
    · exact .inl hold
    · refine .inr ?_
      rintro parcel ⟨lane, hl, _⟩
      rw [hstore, hnone] at hl
      cases hl
  | @sweep round m rest batch lane taken hst hl ht hstore =>
    obtain ⟨hround, hmem, hahead⟩ := h
    by_cases hmn : n = m
    · -- On a final round the worker takes all there is.
      subst hmn
      have hfinal : round = .final := hround
      rw [hfinal] at ht
      refine .inr ?_
      rintro parcel ⟨lane', hl', hparcel⟩
      have hlt := (List.getElem?_eq_some_iff.mp hl).1
      rw [hstore, LaneSet.setLane, List.getElem?_set_self hlt] at hl'
      cases hl'
      rw [(hs.lane hl).of_take_noLimit ht] at hparcel
      cases hparcel
    · refine .inl ⟨?_, hmem, ?_⟩
      · rw [Worker.round, hst]
        exact hround
      · rw [hst]
        exact fun hin => (List.mem_cons.mp hin).elim hmn hahead
  | @settle round batch e hst =>
    obtain ⟨hround, hmem, -⟩ := h
    refine .inl (hasLeft_of_ahead_eq_nil ?_ hmem (by rw [hst]; rfl))
    rw [Worker.round, hst]
    exact (Worker.round_settled round batch e).symm.trans hround

/-- What is stranded was stranded before, or it has just been written to a
channel that had been left. -/
theorem Effect.stranded (e : Effect s t) (hs : s.Sound) (hf : s.Fit) (h : t.Stranded p n parcel) :
    s.IsLeft p n ∧ (s.Stranded p n parcel ∨ t.written = s.written ++ [(n, parcel)] ∧
      ∃ c policy, s.calls[parcel.call]? = some c ∧ c.target? = some (n, policy)) := by
  obtain ⟨⟨pool', w, worker', hp, hw, hleft⟩, hholds⟩ := h
  have hold : s.IsLeft p n := by
    rcases e.worker_before hf hp hw with hstart | ⟨pool, worker, hp, hw, -, rfl | stride⟩
    · have hround := hleft.1
      rw [Worker.round, hstart] at hround
      cases hround
    · exact ⟨pool, w, _, hp, hw, hleft⟩
    · rcases stride.hasLeft hs hleft with hbefore | hempty
      · exact ⟨pool, w, worker, hp, hw, hbefore⟩
      · exact absurd hholds (hempty parcel)
  rcases e.holds hs hholds with hbefore | hwritten
  · exact ⟨hold, .inl ⟨hold, hbefore⟩⟩
  · exact ⟨hold, .inr hwritten⟩

/-! ## What is never stranded -/

/-- What is known of every line that is reached. -/
structure Regular (s : Line α) : Prop where
  named : s.Named
  sound : s.Sound
  fit : s.Fit
  conserved : s.Conserved
  admits : s.Admits

theorem Effect.regular (e : Effect s t) (h : s.Regular) : t.Regular where
  named := e.named h.named
  sound := e.sound h.sound
  fit := e.fit h.fit
  conserved :=
    ⟨e.accepted h.conserved.accepted, e.located h.sound h.fit h.conserved.located⟩
  admits := e.admits h.named h.fit h.admits

theorem Reachable.regular (h : s.Reachable) : s.Regular where
  named := h.named
  sound := h.sound
  fit := h.fit
  conserved := h.conserved
  admits := h.admits

/-- A pool of which a worker has left a channel is closed, and the calls that
it admitted are over. -/
theorem Admits.of_isLeft (h : s.Admits) (hleft : s.IsLeft p n) :
    (∀ pool, s.pools[p]? = some pool → pool.stage = .closed) ∧
      ∀ c ∈ s.calls, c.pass = some p → c.isOver = true := by
  obtain ⟨pool, w, worker, hp, hw, hround, -⟩ := hleft
  have hmem := List.mem_of_getElem? hw
  refine ⟨?_, h.done p pool hp worker hmem hround⟩
  intro pool' hp'
  rw [hp] at hp'
  cases hp'
  exact h.closed p pool hp worker hmem (by rw [hround]; decide)

/-- No pool strands a parcel of a call that it admitted. -/
def Spares (s : Line α) : Prop :=
  ∀ p n parcel, s.Stranded p n parcel →
    ∀ c, s.calls[parcel.call]? = some c → c.pass ≠ some p

theorem Effect.spares (e : Effect s t) (h : s.Regular) (hk : s.Spares) : t.Spares := by
  intro p n parcel hstranded c' hc' hpass
  obtain ⟨hleft, hbefore⟩ := e.stranded h.sound h.fit hstranded
  obtain ⟨hclosed, hdone⟩ := h.admits.of_isLeft hleft
  rcases e.call_before hc' with ⟨-, hnone⟩ | ⟨c, hc, hstep⟩
  · rw [hnone] at hpass
    cases hpass
  · have hpass' : c.pass = some p := by
      obtain ⟨pool, _, _, hp, -⟩ := hleft
      rcases hstep with rfl | turn
      · exact hpass
      · exact turn.pass_of_closed hp (hclosed pool hp) hpass
    rcases hbefore with hstranded | ⟨-, d, policy, hd, htarget⟩
    · exact hk p n parcel hstranded c hc hpass'
    · rw [hc] at hd
      cases hd
      have hover := hdone c (List.mem_of_getElem? hc) hpass'
      exact absurd ((Call.isOver_of_target htarget).symm.trans hover) (by decide)

theorem Reachable.spares (h : s.Reachable) : s.Spares := by
  have hall : s.Regular ∧ s.Spares := by
    refine Reachable.induction (P := fun u => u.Regular ∧ u.Spares) h
      ?_ fun u v hu e => ⟨e.regular hu.1, e.spares hu.1 hu.2⟩
    intro start hf
    have hr : start.Reachable := ⟨start, hf, .refl⟩
    refine ⟨hr.regular, ?_⟩
    rintro p n parcel ⟨_, lane, hl, hmem⟩
    rw [(hf.lanes lane (List.mem_of_getElem? hl)).2] at hmem
    cases hmem
  exact hall.2

theorem Effect.mem_written (e : Effect s t) {x : Nat × Parcel α} (h : x ∈ s.written) :
    x ∈ t.written := by
  cases e with
  | write => exact List.mem_append_left _ h
  | _ => exact h

/-- Only calls that have not written have a channel to look at. -/
theorem Regular.target_of_written (h : s.Regular) {x : Nat × Parcel α} (hx : x ∈ s.written)
    {c : Call α} (hc : s.calls[x.2.call]? = some c) {m : Nat} {policy : WhenFull} :
    c.target? ≠ some (m, policy) := by
  intro htarget
  obtain ⟨d, hd, haccepted, -⟩ := h.conserved.accepted_of_written hx
  rw [hc] at hd
  cases hd
  rw [Call.isAccepted_of_result? (Call.result?_of_target htarget)] at haccepted
  cases haccepted

/-- A parcel that has been written, and is not stranded, never will be. -/
theorem Reaches.not_stranded (hr : Reaches s t) (h : s.Reachable) {x : Nat × Parcel α}
    (hx : x ∈ s.written) (hs : ∀ n, ¬ s.Stranded p n x.2) (n : Nat) : ¬ t.Stranded p n x.2 := by
  have hall : t.Regular ∧ x ∈ t.written ∧ ∀ n, ¬ t.Stranded p n x.2 := by
    refine Reaches.induction (P := fun u => u.Regular ∧ x ∈ u.written ∧ ∀ n, ¬ u.Stranded p n x.2)
      hr h ⟨h.regular, hx, hs⟩ ?_
    rintro u v ⟨hu, hxu, hsu⟩ e
    refine ⟨e.regular hu, e.mem_written hxu, ?_⟩
    intro n hstranded
    rcases (e.stranded hu.sound hu.fit hstranded).2 with hold | ⟨-, c, policy, hc, htarget⟩
    · exact hsu n hold
    · exact hu.target_of_written hxu hc htarget
  exact hall.2.2 n

/-! ## When all workers are done -/

theorem station_of_isFinished {pool : Pool (Parcel α)} (hdone : pool.isFinished = true)
    {worker : Worker (Parcel α)} (hworker : worker ∈ pool.workers) :
    worker.station = .finished := by
  have hf := List.all_eq_true.mp hdone worker hworker
  unfold Worker.isFinished at hf
  split at hf
  · assumption
  · cases hf

/-- Whatever is left when the workers of a pool are done, they left behind. -/
theorem Regular.stranded_of_isFinished (h : s.Regular) {pool : Pool (Parcel α)}
    (hp : s.pools[p]? = some pool) (hbegun : pool.workers ≠ []) (hdone : pool.isFinished = true)
    (hparcel : parcel ∈ s.buffered) : ∃ n, s.Stranded p n parcel := by
  obtain ⟨lane, hlane, hmem⟩ := List.mem_flatMap.mp hparcel
  obtain ⟨n, hn⟩ := List.getElem?_of_mem hlane
  have hlt : n < s.store.count := (List.getElem?_eq_some_iff.mp hn).1
  obtain ⟨worker, hworker, hown⟩ := (h.fit.pool hp).exists_owner hbegun hlt
  obtain ⟨w, hw⟩ := List.getElem?_of_mem hworker
  have hfinished := station_of_isFinished hdone hworker
  refine ⟨n, ⟨pool, w, worker, hp, hw, ?_⟩, lane, hn, hmem⟩
  refine hasLeft_of_ahead_eq_nil ?_ hown (by rw [hfinished]; rfl)
  rw [Worker.round, hfinished]
  rfl

/-- **A pool strands no write that it admitted.** When all workers of a pool
that has begun are done, no channel holds an item of a call that the pool
admitted, nor one that was written before the pool was closed; and the calls
that it admitted are over, so none of them waits for room. -/
theorem Reachable.admitted_delivered (h : s.Reachable) {pool : Pool (Parcel α)}
    (hp : s.pools[p]? = some pool) (hbegun : pool.workers ≠ [])
    (hdone : pool.isFinished = true) :
    (∀ parcel ∈ s.buffered, ∀ c, s.calls[parcel.call]? = some c → c.pass ≠ some p) ∧
      (∀ s₁ : Line α, s₁.Reachable → Reaches s₁ s →
        (∀ pool₁, s₁.pools[p]? = some pool₁ → pool₁.stage ≠ .closed) →
        ∀ x ∈ s₁.written, x.2 ∉ s.buffered) ∧
      ∀ c ∈ s.calls, c.pass = some p → c.isOver = true := by
  refine ⟨?_, ?_, ?_⟩
  · intro parcel hparcel
    obtain ⟨n, hstranded⟩ := h.regular.stranded_of_isFinished hp hbegun hdone hparcel
    exact h.spares p n parcel hstranded
  · intro s₁ h₁ hr hopen x hx hparcel
    obtain ⟨n, hstranded⟩ := h.regular.stranded_of_isFinished hp hbegun hdone hparcel
    refine hr.not_stranded h₁ hx ?_ n hstranded
    rintro m ⟨hleft, _⟩
    have hclosed := (h₁.admits.of_isLeft hleft).1
    obtain ⟨pool₁, _, _, hp₁, -⟩ := hleft
    exact hopen pool₁ hp₁ (hclosed pool₁ hp₁)
  · intro c hc hpass
    obtain ⟨worker, hworker⟩ := List.exists_mem_of_ne_nil _ hbegun
    refine h.admits.done p pool hp worker hworker ?_ c hc hpass
    rw [Worker.round, station_of_isFinished hdone hworker]
    rfl

/-- A pool with one worker on a channel with room for one item, and two calls
that it admits. The second waits for room when the pool is closed, and writes
while the worker lingers. -/
def lingering : List (Action Nat) :=
  let work : Action Nat := .work 0 0
  let back : Action Nat := .endHook 0 0 .returned
  [.install loner, .publish, .retire] ++
    (.offer 0 (.produce 7) :: List.replicate 8 (.advance 0)) ++
    (.offer 1 (.produce 8) :: List.replicate 6 (.advance 1)) ++
    [.shutdown, work, back, work, work, work, work, work, back, work] ++
    List.replicate 3 (.advance 1) ++
    [work, work, work, work, back, work, work, back]

/-- Both items are handed over, and the pool leaves nothing behind. -/
theorem admitted_delivered_lingering :
    let s := (blank 1 1 (by decide) .wait).after lingering
    s.handed.map Parcel.item = [7, 8] ∧ s.calls.map Call.pass = [some 0, some 0] ∧
      (s.pools.map Pool.stage = [.closed] ∧ s.pools.all Pool.isFinished = true) ∧
      (∀ parcel ∈ s.buffered, ∀ c, s.calls[parcel.call]? = some c → c.pass ≠ some 0) := by
  intro s
  refine ⟨by decide +kernel, by decide +kernel, by decide +kernel, ?_⟩
  obtain ⟨pool, hpool, hdone⟩ : ∃ pool, s.pools[0]? = some pool ∧
      (pool.isFinished = true ∧ 0 < pool.workers.length) := by
    have hany : s.pools[0]?.any (fun pool => pool.isFinished ∧ 0 < pool.workers.length) = true := by
      decide +kernel
    simpa [Option.any_eq_true] using hany
  exact (Reachable.admitted_delivered (reachable_after (by decide) (by decide) .wait lingering)
    hpool (List.ne_nil_of_length_pos hdone.2) hdone.1).1

end Line

end Conveyor
