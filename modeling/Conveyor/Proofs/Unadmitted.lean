/-
Conveyor.Proofs.Unadmitted — what becomes of a write that comes too late.

A pool waits, before the final rounds of its workers, for the calls that it
admitted. A call that came before the first pool has no admission; it may
have to wait for room, and write when the worker of its channel has been
there for the last time. Its item is accepted then, and stays where it is
(`Reachable.handed_iff`).
-/
import Conveyor.Proofs.LastRound

namespace Conveyor.Line

variable {α : Type u} {s t : Line α} {n : Nat} {parcel : Parcel α}

/-! ## A channel that was left stays so -/

/-- A worker on its final round does not turn back. -/
theorem Pace.hasLeft_after (hs : s.Sound) {pool : Pool (Parcel α)}
    {worker worker' : Worker (Parcel α)} (pace : Pace s pool worker worker')
    (h : worker.HasLeft n) : worker'.HasLeft n := by
  obtain ⟨hround, hmem, hahead⟩ := h
  refine ⟨pace.round_final hs hround, pace.ahead.1 ▸ hmem, ?_⟩
  cases pace with
  | enter => exact List.not_mem_nil
  | @leave hook how hi =>
    rw [Worker.leave, ahead_afterHook]
    exact List.not_mem_nil
  | watch hst | check hst =>
    rw [Worker.round, hst] at hround
    cases hround
  | skip hst =>
    rw [hst] at hahead
    exact fun hin => hahead (List.mem_cons_of_mem _ hin)
  | fail => exact List.not_mem_nil
  | handOver =>
    unfold Line.handOver Worker.moveTo
    split
    · rw [ahead_afterRound]
      exact List.not_mem_nil
    · exact List.not_mem_nil

theorem Stride.hasLeft_after (hs : s.Sound) {pool : Pool (Parcel α)}
    {worker worker' : Worker (Parcel α)} (stride : Stride s t pool worker worker')
    (h : worker.HasLeft n) : worker'.HasLeft n := by
  have hround := stride.round_final hs h.1
  cases stride with
  | pace pace => exact pace.hasLeft_after hs h
  | sweep hst =>
    obtain ⟨-, hmem, hahead⟩ := h
    rw [hst] at hahead
    exact ⟨hround, hmem, fun hin => hahead (List.mem_cons_of_mem _ hin)⟩
  | @settle round batch e hst =>
    obtain ⟨-, hmem, -⟩ := h
    exact hasLeft_of_ahead_eq_nil hround hmem (ahead_settled round batch e)

/-- So a channel that was left stays left, whoever makes the step. -/
theorem Effect.isLeft_after (e : Effect s t) (hs : s.Sound) (hf : s.Fit) {p : Nat}
    (h : s.IsLeft p n) : t.IsLeft p n := by
  obtain ⟨pool, w, worker, hp, hw, hleft⟩ := h
  obtain ⟨pool', worker', hp', hw', rfl | stride⟩ := e.worker_after hf hp hw
  · exact ⟨pool', w, _, hp', hw', hleft⟩
  · exact ⟨pool', w, worker', hp', hw', stride.hasLeft_after hs hleft⟩

/-! ## A stranded parcel stays -/

/-- What lies in another channel stays there. -/
theorem holds_setLane_of_ne {m : Nat} {lane : Lane (Parcel α)}
    (hstore : t.store = s.store.setLane m lane) (hne : m ≠ n) (h : s.Holds n parcel) :
    t.Holds n parcel := by
  obtain ⟨lane', hl', hmem⟩ := h
  refine ⟨lane', ?_, hmem⟩
  rw [hstore, LaneSet.setLane, List.getElem?_set_ne hne]
  exact hl'

theorem holds_setLane_self {lane lane' : Lane (Parcel α)} (hl : s.store.lanes[n]? = some lane)
    (hstore : t.store = s.store.setLane n lane') (h : parcel ∈ lane'.toList) :
    t.Holds n parcel := by
  refine ⟨lane', ?_, h⟩
  rw [hstore, LaneSet.setLane, List.getElem?_set_self (List.getElem?_eq_some_iff.mp hl).1]

/-- A parcel leaves its channel when it makes room for another, when a
reader takes it out, or when a worker comes that has the channel ahead. -/
theorem Effect.holds_after (e : Effect s t) (hs : s.Sound) (h : s.Holds n parcel) :
    t.Holds n parcel ∨ t.evicted ≠ [] ∨ t.viewed ≠ [] ∨
      ∃ (p : Nat) (pool : Pool (Parcel α)) (w : Nat) (worker : Worker (Parcel α)),
        s.pools[p]? = some pool ∧ pool.workers[w]? = some worker ∧ n ∈ worker.station.ahead := by
  have held : ∀ {lane}, s.store.lanes[n]? = some lane → parcel ∈ lane.toList := by
    intro lane hl
    obtain ⟨lane', hl', hmem⟩ := h
    rw [hl] at hl'
    cases hl'
    exact hmem
  cases e with
  | @write i m c policy item lane lane' how out hc ht hi hl ha =>
    by_cases hmn : m = n
    · subst hmn
      obtain ⟨-, rest, hbefore, hafter⟩ := (hs.lane hl).of_accepted ha
      cases out with
      | none =>
        refine .inl (holds_setLane_self hl rfl ?_)
        have hmem := held hl
        rw [hbefore] at hmem
        rw [hafter]
        exact List.mem_append_left _ hmem
      | some b => exact .inr (.inl (by simp))
    · exact .inl (holds_setLane_of_ne rfl hmn h)
  | @closeLane m lane hl =>
    by_cases hmn : m = n
    · subst hmn
      have hmem := held hl
      exact .inl (holds_setLane_self hl rfl hmem)
    · exact .inl (holds_setLane_of_ne rfl hmn h)
  | @drain m limit lane taken hl ht =>
    by_cases hmn : m = n
    · subst hmn
      cases hitems : taken.items with
      | nil =>
        refine .inl (holds_setLane_self hl rfl ?_)
        have hmem := held hl
        rw [((hs.lane hl).of_take ht).2, hitems] at hmem
        exact hmem
      | cons b items => exact .inr (.inr (.inl (by simp)))
    · exact .inl (holds_setLane_of_ne rfl hmn h)
  | @sweep p w m pool worker round rest batch lane taken hp hw hst hl ht =>
    by_cases hmn : m = n
    · refine .inr (.inr (.inr ⟨p, pool, w, worker, hp, hw, ?_⟩))
      rw [hst, hmn]
      exact List.mem_cons_self
    · exact .inl (holds_setLane_of_ne rfl hmn h)
  | _ => exact .inl h

/-- With one pool, a stranded parcel can be brought away only by an eviction or by a view. -/
theorem Effect.stranded_after (e : Effect s t) (hs : s.Sound) (hf : s.Fit)
    (hone : s.pools.length ≤ 1) (h : s.Stranded 0 n parcel) :
    t.Stranded 0 n parcel ∨ t.evicted ≠ [] ∨ t.viewed ≠ [] := by
  obtain ⟨hleft, hholds⟩ := h
  rcases e.holds_after hs hholds with
    hkept | hevicted | hviewed | ⟨q, pool', v, worker', hq, hv, hin⟩
  · exact .inl ⟨e.isLeft_after hs hf hleft, hkept⟩
  · exact .inr (.inl hevicted)
  · exact .inr (.inr hviewed)
  · -- The worker that has left the channel is the only one that would come.
    obtain ⟨pool, w, worker, hp, hw, -, hmem, hahead⟩ := hleft
    have hq0 : q = 0 := by
      have hlt := (List.getElem?_eq_some_iff.mp hq).1
      omega
    subst hq0
    rw [hp] at hq
    cases hq
    obtain rfl := (hf.pool hp).owner_unique hw hv hmem ((hf.pool hp).mem_of_ahead hv hin)
    rw [hw] at hv
    cases hv
    exact absurd hin hahead

/-- Evictions are never taken back. -/
theorem Effect.evicted_ne_nil (e : Effect s t) (h : s.evicted ≠ []) : t.evicted ≠ [] := by
  cases e with
  | write => exact List.append_ne_nil_of_left_ne_nil h _
  | _ => exact h

theorem Effect.viewed_ne_nil (e : Effect s t) (h : s.viewed ≠ []) : t.viewed ≠ [] := by
  cases e with
  | drain => exact List.append_ne_nil_of_left_ne_nil h _
  | _ => exact h

/-- Where one pool is all there is, nothing is evicted and nobody else reads,
a stranded parcel stays stranded. -/
theorem Reaches.stranded_after (hr : Reaches s t) (h : s.Reachable)
    (hstranded : s.Stranded 0 n parcel)
    (hone : t.pools.length ≤ 1) (hevicted : t.evicted = []) (hviewed : t.viewed = []) :
    t.Stranded 0 n parcel := by
  have hall : t.Regular ∧
      (t.Stranded 0 n parcel ∨ 1 < t.pools.length ∨ t.evicted ≠ [] ∨ t.viewed ≠ []) := by
    refine Reaches.induction (P := fun u => u.Regular ∧
      (u.Stranded 0 n parcel ∨ 1 < u.pools.length ∨ u.evicted ≠ [] ∨ u.viewed ≠ []))
      hr h ⟨h.regular, .inl hstranded⟩ fun u v ⟨hu, hcases⟩ e => ⟨e.regular hu, ?_⟩
    rcases hcases with hstr | hmany | hev | hvw
    · by_cases hmany : u.pools.length ≤ 1
      · rcases e.stranded_after hu.sound hu.fit hmany hstr with hstr | hev | hvw
        · exact .inl hstr
        · exact .inr (.inr (.inl hev))
        · exact .inr (.inr (.inr hvw))
      · have hle := e.length_pools_le
        exact .inr (.inl (by omega))
    · have hle := e.length_pools_le
      exact .inr (.inl (by omega))
    · exact .inr (.inr (.inl (e.evicted_ne_nil hev)))
    · exact .inr (.inr (.inr (e.viewed_ne_nil hvw)))
  rcases hall.2 with hstr | hmany | hev | hvw
  · exact hstr
  · omega
  · exact absurd hevicted hev
  · exact absurd hviewed hvw

/-! ## When the write comes too late -/

/-- What lies in a channel is buffered. -/
theorem Holds.mem_buffered (h : s.Holds n parcel) : parcel ∈ s.buffered := by
  obtain ⟨lane, hl, hmem⟩ := h
  exact List.mem_flatMap.mpr ⟨lane, List.mem_of_getElem? hl, hmem⟩

theorem mem_whereabouts_of_buffered (h : parcel ∈ s.buffered) : parcel ∈ s.whereabouts := by
  simp only [whereabouts, List.mem_append]
  exact .inl (.inl (.inl (.inl h)))

/-- A write puts the parcel of a call with that target at the end of its channel. -/
theorem Effect.of_written (e : Effect s t) (hs : s.Sound)
    (hw : t.written = s.written ++ [(n, parcel)]) :
    t.Holds n parcel ∧
      ∃ c policy, s.calls[parcel.call]? = some c ∧ c.target? = some (n, policy) := by
  cases e with
  | @write i m c policy item lane lane' how out hc ht hi hl ha =>
    cases List.append_cancel_left hw
    obtain ⟨-, rest, -, hafter⟩ := (hs.lane hl).of_accepted ha
    refine ⟨holds_setLane_self hl rfl ?_, c, policy, hc, ht⟩
    rw [hafter]
    exact List.mem_append_right _ (List.mem_singleton_self _)
  | _ => simp at hw

/-- A parcel that has just been written is stranded if its channel had been
left. -/
theorem Effect.stranded_of_written (e : Effect s t) (h : s.Regular)
    (hw : t.written = s.written ++ [(n, parcel)]) {p : Nat} :
    (∃ m, t.Stranded p m parcel) ↔ s.IsLeft p n := by
  obtain ⟨hholds, c, policy, hc, htarget⟩ := e.of_written h.sound hw
  constructor
  · rintro ⟨m, hstranded⟩
    obtain ⟨hleft, ⟨-, hbefore⟩ | ⟨hw', -⟩⟩ := e.stranded h.sound h.fit hstranded
    · -- It was in no channel before.
      have hmem := h.conserved.located.mem_iff.mpr
        (mem_whereabouts_of_buffered hbefore.mem_buffered)
      obtain ⟨x, hx, rfl⟩ := List.mem_map.mp hmem
      exact absurd htarget (h.target_of_written hx hc)
    · rw [hw] at hw'
      cases List.append_cancel_left hw'
      exact hleft
  · intro hleft
    exact ⟨n, e.isLeft_after h.sound h.fit hleft, hholds⟩

/-- Workers that are done hold nothing. -/
theorem held_of_isFinished {pool : Pool (Parcel α)} (hpools : s.pools = [pool])
    (hdone : pool.isFinished = true) : s.held = [] := by
  rw [held, hpools, List.flatMap_singleton]
  refine List.flatMap_eq_nil_iff.mpr ?_
  intro worker hmem
  rw [Worker.held, station_of_isFinished hdone hmem]
  rfl

theorem Reaches.mem_written (hr : Reaches s t) (h : s.Reachable) {x : Nat × Parcel α}
    (hx : x ∈ s.written) : x ∈ t.written :=
  Reaches.induction (P := fun u => x ∈ u.written) hr h hx fun _ _ hu e => e.mem_written hu

/-- Where one pool is all there ever was, what has been written ends up in a
channel if that had been left, and is handed over otherwise. -/
theorem Reachable.settles (h : s.Reachable) {a : Action α} (hstep : s.step a = some t)
    (e : Effect s t) (hw : t.written = s.written ++ [(n, parcel)]) {u : Line α}
    (hr : Reaches t u) {pool : Pool (Parcel α)} (hpools : u.pools = [pool])
    (hbegun : pool.workers ≠ []) (hdone : pool.isFinished = true)
    (hevicted : u.evicted = []) (hviewed : u.viewed = []) :
    (parcel ∈ u.handed ↔ ¬ s.IsLeft 0 n) ∧ (parcel ∈ u.buffered ↔ s.IsLeft 0 n) := by
  have ht : t.Reachable := h.reaches (.step a .refl hstep)
  have hu := (ht.reaches hr).regular
  have hx : (n, parcel) ∈ t.written := by
    rw [hw]
    exact List.mem_append_right _ (List.mem_singleton_self _)
  have hbuffered : parcel ∈ u.buffered ↔ s.IsLeft 0 n := by
    rw [← e.stranded_of_written h.regular hw]
    constructor
    · intro hmem
      have hp : u.pools[0]? = some pool := by rw [hpools]; rfl
      obtain ⟨m, hstranded⟩ := hu.stranded_of_isFinished hp hbegun hdone hmem
      by_contra hnone
      exact hr.not_stranded ht hx (fun k hk => hnone ⟨k, hk⟩) m hstranded
    · rintro ⟨m, hstranded⟩
      have hone : u.pools.length ≤ 1 := by rw [hpools]; exact Nat.le_refl 1
      exact (hr.stranded_after ht hstranded hone hevicted hviewed).2.mem_buffered
  refine ⟨?_, hbuffered⟩
  rw [← hbuffered]
  have hmem : parcel ∈ u.whereabouts :=
    hu.conserved.located.mem_iff.mp (List.mem_map_of_mem (hr.mem_written ht hx))
  have hnodup := hu.conserved.nodup
  rw [whereabouts, held_of_isFinished hpools hdone, hevicted, hviewed] at hmem hnodup
  simp only [List.append_nil, List.map_nil, List.mem_append, List.map_append] at hmem hnodup
  constructor
  · intro hhanded hbuf
    exact (List.nodup_append.mp hnodup).2.2 _ (List.mem_map_of_mem hbuf) _
      (List.mem_map_of_mem hhanded) rfl
  · exact fun hnot => hmem.resolve_left hnot

/-! ## The step that wrote -/

/-- What has been written after a step was before, or the step is its write. -/
theorem written_of_step (h : s.Reachable) {a : Action α} (hs : s.step a = some t)
    {x : Nat × Parcel α} (hx : x ∈ t.written) :
    x ∈ s.written ∨ Effect s t ∧ t.written = s.written ++ [x] := by
  have ht : t.Reachable := h.reaches (.step a .refl hs)
  rcases calls_of_step h.named hs with ⟨hcalls, -⟩ | e
  · have haccepted : t.accepted = s.accepted := by rw [Line.accepted, Line.accepted, hcalls]
    have hmem : x.2 ∈ s.written.map Prod.snd := by
      rw [← h.conserved.accepted.mem_iff, ← haccepted, ht.conserved.accepted.mem_iff]
      exact List.mem_map_of_mem hx
    obtain ⟨y, hy, hyx⟩ := List.mem_map.mp hmem
    have hy' : y ∈ t.written := Reaches.mem_written (.step a .refl hs) h hy
    exact .inl (ht.conserved.eq_of_call hy' hx (congrArg Parcel.call hyx) ▸ hy)
  · cases e with
    | @write i m c policy item lane lane' how out hc htarget hi hl ha =>
      rcases List.mem_append.mp hx with hold | hnew
      · exact .inl hold
      · obtain rfl := List.mem_singleton.mp hnew
        exact .inr ⟨.write hc htarget hi hl ha, rfl⟩
    | _ => exact .inl hx

/-- For every write there is a step in the run that made it. By induction over the run: the last
step made it, or it was there before. -/
theorem Reachable.exists_write (h : s.Reachable) {x : Nat × Parcel α} (hx : x ∈ s.written) :
    ∃ (u v : Line α) (a : Action α), u.Reachable ∧ u.step a = some v ∧ Effect u v ∧
      v.written = u.written ++ [x] ∧ Reaches v s := by
  obtain ⟨start, hfresh, hr⟩ := h
  have hstart : start.Reachable := ⟨start, hfresh, .refl⟩
  induction hr with
  | refl =>
    obtain ⟨_, _, _, _, store, _, rfl⟩ := hfresh
    cases hx
  | @step s t a hr hs ih =>
    have hs' := hstart.reaches hr
    rcases written_of_step hs' hs hx with hold | ⟨e, hw⟩
    · obtain ⟨u, v, b, hu, huv, e, hw, hvs⟩ := ih hold
      exact ⟨u, v, b, hu, huv, e, hw, .step a hvs hs⟩
    · exact ⟨s, t, a, hs', hs, e, hw, .refl⟩

/-- **When an accepted item is delivered.** Let all workers be done on a line
with one pool, on which nothing was evicted and nobody else has read. Then the
item of each accepted call was written in some step of the run; and it was
handed over if no worker had left its channel for the last time by then, and
still lies there otherwise. -/
theorem Reachable.handed_iff {u : Line α} (h : u.Reachable) {pool : Pool (Parcel α)}
    (hpools : u.pools = [pool]) (hbegun : pool.workers ≠ []) (hdone : pool.isFinished = true)
    (hevicted : u.evicted = []) (hviewed : u.viewed = []) {i : Nat} {c : Call α} {item : α}
    (hc : u.calls[i]? = some c) (haccepted : c.isAccepted = true) (hitem : c.item? = some item) :
    ∃ (s t : Line α) (a : Action α) (n : Nat), s.Reachable ∧ s.step a = some t ∧
      t.written = s.written ++ [(n, ⟨i, item⟩)] ∧ Reaches t u ∧
      (⟨i, item⟩ ∈ u.handed ↔ ¬ s.IsLeft 0 n) ∧ (⟨i, item⟩ ∈ u.buffered ↔ s.IsLeft 0 n) := by
  have hmem : ⟨i, item⟩ ∈ u.written.map Prod.snd :=
    h.conserved.accepted.mem_iff.mp (mem_accepted.mpr ⟨c, hc, haccepted, hitem⟩)
  obtain ⟨⟨n, parcel⟩, hx, rfl⟩ := List.mem_map.mp hmem
  obtain ⟨s, t, a, hs, hstep, e, hw, hr⟩ := h.exists_write hx
  exact ⟨s, t, a, n, hs, hstep, hw, hr,
    hs.settles hstep e hw hr hpools hbegun hdone hevicted hviewed⟩

/-- Before there is a pool, a call fills the only place and another waits. -/
def crowded : List (Action Nat) :=
  (.offer 0 (.produce 7) :: List.replicate 6 (.advance 0)) ++
    .offer 1 (.produce 8) :: List.replicate 4 (.advance 1)

/-- A pool comes and is shut down, and its worker makes its final round before
the call that waits goes on. -/
def tooLate : List (Action Nat) :=
  let work : Action Nat := .work 0 0
  let back : Action Nat := .endHook 0 0 .returned
  [.install loner, .publish, .retire, .shutdown] ++
    [work, back, work, work, work] ++ List.replicate 3 (.advance 1) ++
    [work, work, back, work, work, back]

/-- The call that waited is accepted, and its item is left behind. -/
theorem left_behind_tooLate :
    let s : Line Nat := (blank 1 1 (by decide) .wait).after crowded
    let u := s.after tooLate
    s.Reachable ∧ Reaches s u ∧
      (s.pools.length = 0 ∧
        s.calls.map Call.place = [.over (.answered (.accepted .stored)), .waiting 0]) ∧
      (u.pools.map Pool.stage = [.closed] ∧ u.pools.all Pool.isFinished = true) ∧
      (u.evicted.length = 0 ∧ u.viewed.length = 0) ∧
      u.calls.map Call.isAccepted = [true, true] ∧ u.calls.map Call.pass = [none, none] ∧
      u.handed.map Parcel.item = [7] ∧ u.buffered.map Parcel.item = [8] := by
  intro s u
  exact ⟨reachable_after (by decide) (by decide) .wait crowded, reaches_after s tooLate,
    by decide +kernel, by decide +kernel, by decide +kernel, by decide +kernel, by decide +kernel,
    by decide +kernel, by decide +kernel⟩

/-- The item that is left behind was written when the worker had left the
channel. -/
theorem handed_iff_tooLate :
    let u : Line Nat := (blank 1 1 (by decide) .wait).after (crowded ++ tooLate)
    (u.calls.map Call.isAccepted = [true, true] ∧ u.pools.all Pool.isFinished = true) ∧
      ∃ (s t : Line Nat) (a : Action Nat) (n : Nat), s.Reachable ∧ s.step a = some t ∧
        t.written = s.written ++ [(n, ⟨1, 8⟩)] ∧ Reaches t u ∧ s.IsLeft 0 n ∧
          ⟨1, 8⟩ ∉ u.handed := by
  intro u
  refine ⟨by decide +kernel, ?_⟩
  obtain ⟨pool, hpools, hdone, hbegun⟩ : ∃ pool, u.pools = [pool] ∧
      pool.isFinished = true ∧ 0 < pool.workers.length := by
    have hall : u.pools.all (fun pool => pool.isFinished ∧ 0 < pool.workers.length) = true := by
      decide +kernel
    obtain ⟨pool, hpools⟩ := List.length_eq_one_iff.mp (show u.pools.length = 1 by decide +kernel)
    rw [hpools] at hall
    exact ⟨pool, hpools, by simpa using hall⟩
  obtain ⟨c, hc, haccepted, hitem⟩ : ∃ c, u.calls[1]? = some c ∧ c.isAccepted = true ∧
      c.item? = some 8 := by
    have hany : u.calls[1]?.any (fun c => c.isAccepted ∧ c.item? = some 8) = true := by
      decide +kernel
    simpa [Option.any_eq_true] using hany
  obtain ⟨s, t, a, n, hs, hstep, hw, hr, hhanded, hbuffered⟩ :=
    Reachable.handed_iff (reachable_after (by decide) (by decide) .wait (crowded ++ tooLate))
      hpools (List.ne_nil_of_length_pos hbegun) hdone (by rfl) (by rfl) hc haccepted hitem
  have hleft : s.IsLeft 0 n := by
    refine hbuffered.mp ?_
    have hmap : u.buffered.map (fun q => (q.call, q.item)) = [(1, 8)] := by decide +kernel
    obtain ⟨⟨call, item⟩, hq, he⟩ := List.mem_map.mp (hmap ▸ List.mem_singleton_self (1, 8))
    cases he
    exact hq
  exact ⟨s, t, a, n, hs, hstep, hw, hr, hleft, fun hmem => hhanded.mp hmem hleft⟩

end Conveyor.Line
