/-
Conveyor.Proofs.Closing — closing a pool comes to an end.

While writes are admitted to a pool that has been closed, its workers go round their
channels again and again. On a lap every worker makes one pass, in any order, and
before each pass the calls go on until none has a step to make (`Lap`).

Room that a pass makes may be taken by calls that the pool did not admit, and a worker
may find nothing while calls wait in the channels of another. But if a call that the
pool admitted waits, some worker has its channel, and after the pass of this worker
there is room in it, unless calls have come to something before; so on every lap one
call comes to something at least (`Relay.pending_lt`), and their number bounds that of
the laps. On the first lap that starts without such a call every worker finishes
(`Relay.finished`).
-/
import Conveyor.Proofs.Passes

namespace Conveyor.Line

variable {α : Type u} {s t u v : Line α} {i n p w size : Nat} {c : Call α} {order : List Nat}
  {pool : Pool (Parcel α)} {worker : Worker (Parcel α)}

/-! ## Laps -/

/-- The workers of pool `p` make a pass each, in this order. Before each pass, and after
the last, the calls go on until none has a step to make. -/
inductive Relay (p : Nat) : List Nat → Line α → Line α → Prop
  | nil {s t : Line α} : s.Settles t → Relay p [] s t
  | cons {w : Nat} {order : List Nat} {s t u v : Line α} :
      s.Settles t → Pass p w t u → Relay p order u v → Relay p (w :: order) s v

/-- The number of workers of pool `p`. -/
def crew (s : Line α) (p : Nat) : Nat := s.pools[p]?.elim 0 fun pool => pool.workers.length

/-- Every worker of pool `p` makes a pass, in some order. -/
def Lap (p : Nat) (s t : Line α) : Prop :=
  ∃ order, order.Perm (List.range (s.crew p)) ∧ Relay p order s t

/-- The workers of pool `p` make so many laps. -/
inductive Laps (p : Nat) (s : Line α) : Nat → Line α → Prop
  | zero : Laps p s 0 s
  | succ {n : Nat} {t u : Line α} : Laps p s n t → Lap p t u → Laps p s (n + 1) u

theorem Relay.reaches (relay : Relay p order s t) : Reaches s t := by
  induction relay with
  | nil hs => exact hs.reaches
  | cons hs pass _ ih => exact (hs.reaches.trans pass.reaches).trans ih

theorem Lap.reaches (lap : Lap p s t) : Reaches s t := by
  obtain ⟨order, -, relay⟩ := lap
  exact relay.reaches

theorem Laps.reaches (laps : Laps p s n t) : Reaches s t := by
  induction laps with
  | zero => exact .refl
  | succ _ lap ih => exact ih.trans lap.reaches

/-- Once the calls have gone on as far as they can, the rest is a relay as well. -/
theorem Relay.exists_start (relay : Relay p order s t) :
    ∃ u, s.Settles u ∧ Relay p order u t := by
  cases relay with
  | nil hs => exact ⟨t, hs, .nil (.refl hs.2)⟩
  | cons hs pass rest => exact ⟨_, hs, .cons (.refl hs.2) pass rest⟩

theorem Relay.pending_le (relay : Relay p order s t) (h : s.Reachable) : t.pending ≤ s.pending := by
  induction relay with
  | nil hs => exact hs.pending_le h
  | @cons w order s t u v hs pass rest ih =>
    have ht := h.reaches hs.reaches
    have hrest := ih (ht.reaches pass.reaches)
    rw [pending_eq pass.calls] at hrest
    exact Nat.le_trans hrest (hs.pending_le h)

/-! ## Nothing gets stuck -/

theorem IsClosing.exists_worker (h : s.IsClosing p size) (hw : w < size) :
    ∃ worker, s.worker? p w = some worker := by
  obtain ⟨pool, hp, -, rfl⟩ := h.pool
  exact ⟨_, worker?_eq hp (List.getElem?_eq_getElem hw)⟩

theorem IsClosing.crew_eq (h : s.IsClosing p size) : s.crew p = size := by
  obtain ⟨pool, hp, -, hsize⟩ := h.pool
  rw [crew, hp, Option.elim_some, hsize]

theorem IsClosing.exists_relay (h : s.IsClosing p size) (horder : ∀ w ∈ order, w < size) :
    ∃ t, Relay p order s t := by
  induction order generalizing s with
  | nil =>
    obtain ⟨t, hs⟩ := h.reachable.exists_settles
    exact ⟨t, .nil hs⟩
  | cons w order ih =>
    obtain ⟨t, hs⟩ := h.reachable.exists_settles
    have ht := hs.reaches.isClosing h
    obtain ⟨worker, hw⟩ := ht.exists_worker (horder w List.mem_cons_self)
    obtain ⟨u, pass⟩ := ht.exists_pass hw
    obtain ⟨v, rest⟩ := ih (pass.reaches.isClosing ht) fun x hx =>
      horder x (List.mem_cons_of_mem _ hx)
    exact ⟨v, .cons hs pass rest⟩

/-- **The workers of a closed pool can make a lap.** -/
theorem IsClosing.exists_lap (h : s.IsClosing p size) : ∃ t, Lap p s t := by
  have horder : ∀ w ∈ List.range size, w < size := fun w hw => List.mem_range.mp hw
  obtain ⟨t, relay⟩ := h.exists_relay horder
  exact ⟨t, _, by rw [h.crew_eq], relay⟩

/-! ## Who is there -/

theorem Effect.workers_ne_nil (e : Effect s t) (hf : s.Fit) (hp : s.pools[p]? = some pool)
    (hne : pool.workers ≠ []) {pool' : Pool (Parcel α)} (hp' : t.pools[p]? = some pool') :
    pool'.workers ≠ [] := by
  obtain ⟨worker, hmem⟩ := List.exists_mem_of_ne_nil _ hne
  obtain ⟨w, hw⟩ := List.getElem?_of_mem hmem
  obtain ⟨pool₁, worker', hp₁, hw', -⟩ := e.worker_after hf hp hw
  rw [hp'] at hp₁
  cases hp₁
  exact List.ne_nil_of_mem (List.mem_of_getElem? hw')

/-- A pool that runs has workers, and so has one that has admitted a call. -/
structure Staffed (s : Line α) : Prop where
  running : ∀ (p : Nat) (pool : Pool (Parcel α)), s.pools[p]? = some pool →
    pool.stage = .running → pool.workers ≠ []
  calls : ∀ c ∈ s.calls, ∀ (p : Nat) (pool : Pool (Parcel α)), c.pass = some p →
    s.pools[p]? = some pool → pool.workers ≠ []

theorem Effect.staffed_running (e : Effect s t) (hf : s.Fit) (h : s.Staffed)
    {pool' : Pool (Parcel α)} (hp : t.pools[p]? = some pool') (hrun : pool'.stage = .running) :
    pool'.workers ≠ [] := by
  have keep : ∀ {q : Nat} {old new : Pool (Parcel α)}, s.pools[q]? = some old →
      (s.pools.set q new)[p]? = some pool' →
      (new.stage = .running → (old.stage = .running → old.workers ≠ []) → new.workers ≠ []) →
      pool'.workers ≠ [] := by
    intro q old new hq hp hnew
    rcases eq_of_getElem?_set hp with ⟨rfl, rfl⟩ | ⟨-, hold⟩
    · exact hnew hrun (h.running q old hq)
    · exact h.running p pool' hold hrun
  cases e with
  | enroll _ _ hq | turnBack _ _ hq | release _ _ _ hq | hold _ hq =>
    exact keep hq hp fun hs hold => hold hs
  | close hq => exact keep hq hp fun hs => nomatch hs
  | @begin q pool hq hc =>
    refine keep hq hp fun _ _ => List.ne_nil_of_length_pos ?_
    rw [Pool.begin, if_pos hc, List.length_map, ← Pool.size, (hf.pool hq).size_eq]
    exact (hf.pool hq).size
  | build hq =>
    rw [List.getElem?_append] at hp
    split at hp
    · exact h.running p pool' hp hrun
    · obtain rfl := List.mem_singleton.mp (List.mem_of_getElem? hp)
      rw [(Pool.fit_ofPlan hq).2.2.1] at hrun
      cases hrun
  | pace hq | sweep hq | settle hq =>
    refine keep hq hp fun hs hold hnil => hold hs ?_
    simpa [Pool.setWorker] using hnil
  | _ => exact h.running p pool' hp hrun

theorem Effect.staffed (e : Effect s t) (hn : s.Named) (hf : s.Fit) (h : s.Staffed) :
    t.Staffed where
  running _ _ hp hrun := e.staffed_running hf h hp hrun
  calls c' hmem p pool' hpass hp := by
    obtain ⟨i, hi⟩ := List.getElem?_of_mem hmem
    rcases e.call_before hi with ⟨-, hnone⟩ | ⟨c, hc, hstep⟩
    · rw [hnone] at hpass
      cases hpass
    · have hbefore : c.pass = some p ∨ ∃ pool, s.pools[p]? = some pool ∧ pool.stage = .running := by
        rcases hstep with rfl | turn
        · exact .inl hpass
        rcases turn.pass with hsame | ⟨q, pool, hq, hold, hrun⟩
        · exact .inl (hsame.symm.trans hpass)
        · rw [hpass] at hq
          cases hq
          exact .inr ⟨pool, hold, hrun⟩
      rcases hbefore with hold | ⟨pool, hq, hrun⟩
      · have hknown : c.Names p := .inr (.inr hold)
        obtain ⟨pool, hq⟩ := hn.pool_of_call hc hknown
        exact e.workers_ne_nil hf hq (h.calls c (List.mem_of_getElem? hc) p pool hold hq) hp
      · exact e.workers_ne_nil hf hq (h.running p pool hq hrun) hp

theorem Reachable.staffed (h : s.Reachable) : s.Staffed := by
  refine h.regular_induction ?_ fun _ _ hu hs e => e.staffed hu.named hu.fit hs
  rintro start ⟨_, _, _, _, store, _, rfl⟩
  exact ⟨fun p pool hp => by simp [ofStore] at hp, fun c hc => nomatch hc⟩

/-- The channel in which a call waits that the pool admitted has a worker there. -/
theorem IsClosing.exists_owner (h : s.IsClosing p size) (hc : s.calls[i]? = some c)
    (hpass : c.pass = some p) (hwait : c.place = .waiting n) :
    n < s.store.count ∧
      ∃ w worker, w < size ∧ s.worker? p w = some worker ∧ n ∈ worker.channels := by
  obtain ⟨pool, hp, -, rfl⟩ := h.pool
  have hlt : n < s.store.count := h.reachable.target_lt hc (by rw [Call.target?, hwait])
  have hne := h.reachable.staffed.calls c (List.mem_of_getElem? hc) p pool hpass hp
  obtain ⟨worker, hmem, hown⟩ := (h.reachable.fit.pool hp).exists_owner hne hlt
  obtain ⟨w, hw⟩ := List.getElem?_of_mem hmem
  exact ⟨hlt, w, worker, (List.getElem?_eq_some_iff.mp hw).1, worker?_eq hp hw, hown⟩

/-! ## A lap with a call that waits -/

/-- **On every lap a call comes to something**, as long as one waits that the pool
admitted, and whose channel is one of a worker on the lap. -/
theorem Relay.pending_lt (relay : Relay p order s t) (h : s.IsClosing p size)
    (hhalted : ∀ c ∈ s.calls, c.place.isHalted = true) (hc : s.calls[i]? = some c)
    (hpass : c.pass = some p) (hwait : c.place = .waiting n) (hlt : n < s.store.count)
    (hw : s.worker? p w = some worker) (hown : n ∈ worker.channels) (hmem : w ∈ order) :
    t.pending < s.pending := by
  induction relay generalizing worker with
  | nil => cases hmem
  | @cons w' order s s' u t hs pass rest ih =>
    rcases hs.eq_or_pending_lt h.reachable hhalted with rfl | hless
    · -- Up to the end of the pass nothing happens to the calls.
      have hu := pass.reaches.isClosing h
      have hcu : u.calls[i]? = some c := by rw [pass.calls, hc]
      have hhalted' : ∀ c ∈ u.calls, c.place.isHalted = true := by
        rw [pass.calls]
        exact hhalted
      have hpending := pending_eq pass.calls
      rcases List.mem_cons.mp hmem with rfl | hlater
      · -- The worker of the channel makes room, so that the calls do not stand still.
        have hopen : c.isOver = false := by rw [Call.isOver, hwait]
        have hroom := pass.hasRoom h hw hown hlt (List.mem_of_getElem? hc) hpass hopen
        obtain ⟨v, hv, rest'⟩ := rest.exists_start
        have hle := rest'.pending_le (hu.reachable.reaches hv.reaches)
        rcases hv.eq_or_pending_lt hu.reachable hhalted' with rfl | hless
        · exact absurd hv.2 (hu.reachable.not_isStill_of_room hcu hwait hroom)
        · omega
      · obtain ⟨worker', hw', hchannels⟩ := pass.reaches.worker_after h.reachable hw
        have hless := ih hu hhalted' hcu (pass.reaches.count h.reachable ▸ hlt) hw'
          (hchannels ▸ hown) hlater
        omega
    · have hrest := rest.pending_le (h.reachable.reaches (hs.reaches.trans pass.reaches))
      rw [pending_eq pass.calls] at hrest
      omega

/-! ## The last lap -/

/-- All calls that pool `p` admitted are over. -/
def AllOver (s : Line α) (p : Nat) : Prop := ∀ c ∈ s.calls, c.pass = some p → c.isOver = true

theorem Reaches.allOver (hr : Reaches s t) (h : s.IsClosing p size) (hover : s.AllOver p) :
    t.AllOver p := by
  obtain ⟨pool, hp, hclosed, -⟩ := h.pool
  intro c' hmem hpass
  obtain ⟨i, hi⟩ := List.getElem?_of_mem hmem
  obtain ⟨c, hc, hpass', hkeep⟩ := hr.call_of_closed h.reachable hp hclosed hi hpass
  exact hkeep (hover c (List.mem_of_getElem? hc) hpass')

theorem Stride.not_finished {worker' : Worker (Parcel α)} (stride : Stride s t pool worker worker') :
    worker.station ≠ .finished := by
  intro hst
  cases stride with
  | pace pace =>
    cases pace with
    | enter hq | leave _ hq | watch hq | check hq | skip hq | fail hq | handOver hq =>
      rw [hst] at hq
      cases hq
  | sweep hq | settle hq =>
    rw [hst] at hq
    cases hq

/-- A worker that is done remains so. -/
theorem Reaches.finished (hr : Reaches s t) (h : s.Reachable)
    (hst : s.station? p w = some .finished) : t.station? p w = some .finished := by
  have hall : t.Fit ∧ t.station? p w = some .finished := by
    refine hr.induction (P := fun u => u.Fit ∧ u.station? p w = some .finished) h ⟨h.fit, hst⟩ ?_
    rintro u v ⟨hu, hst⟩ e
    obtain ⟨pool, x, hp, hx, hxst⟩ := exists_worker hst
    obtain ⟨pool', x', hp', hx', rfl | stride⟩ := e.worker_after hu hp hx
    · exact ⟨e.fit hu, by rw [station?_eq (worker?_eq hp' hx'), hxst]⟩
    · exact absurd hxst stride.not_finished
  exact hall.2

/-- Nobody is counted by a closed pool when all calls that it admitted are over and no
other has a step to make. -/
theorem IsClosing.not_enrolled (h : s.IsClosing p size) (hs : s.IsStill) (hover : s.AllOver p) :
    ∀ c ∈ s.calls, c.isEnrolled p = false := by
  intro c hmem
  obtain ⟨i, hc⟩ := List.getElem?_of_mem hmem
  by_contra hin
  have hin : c.isEnrolled p = true := eq_true_of_ne_false hin
  have hout : c.pass ≠ some p := by
    intro hpass
    have hdone := hover c hmem hpass
    unfold Call.isOver at hdone
    split at hdone
    · next hp => simp [Call.isEnrolled, hp] at hin
    · cases hdone
  have hplace := h.reachable.halted_of_isStill hs c hmem
  cases hp : c.place <;> simp [Call.isEnrolled, Place.isHalted, hp, hout] at hin hplace

/-- **A lap that no admitted call waits for is the last.** -/
theorem Relay.finished (relay : Relay p order s t) (h : s.IsClosing p size) (hover : s.AllOver p)
    (hmem : w ∈ order) : t.station? p w = some .finished := by
  induction relay with
  | nil => cases hmem
  | @cons w' order s s' u t hs pass rest ih =>
    have hs' := hs.reaches.isClosing h
    have hover' := hs.reaches.allOver h hover
    have hu := pass.reaches.isClosing hs'
    rcases List.mem_cons.mp hmem with rfl | hlater
    · exact rest.reaches.finished hu.reachable
        (pass.isFinished hs' (hs'.not_enrolled hs.2 hover'))
    · exact ih hu (pass.reaches.allOver hs' hover') hlater

/-! ## All laps -/

/-- Pool `p` has come to its end. -/
structure HasEnded (s : Line α) (p : Nat) : Prop where
  /-- All its workers are done, so that whoever waits for them goes on. -/
  finished : ∃ pool, s.pools[p]? = some pool ∧ pool.isFinished = true
  /-- The last thing each of them did was to call `exit`. -/
  exited : ∀ (pool : Pool (Parcel α)), s.pools[p]? = some pool → ∀ worker ∈ pool.workers,
    ∃ before last, worker.diary = before ++ [.entered .exit, .left .exit last]
  /-- No call that it admitted is left waiting. -/
  calls : s.AllOver p

theorem IsClosing.hasEnded (h : s.IsClosing p size) (hover : s.AllOver p)
    (hdone : ∀ w < size, s.station? p w = some .finished) : s.HasEnded p := by
  obtain ⟨pool, hp, -, rfl⟩ := h.pool
  have hstation : ∀ worker ∈ pool.workers, worker.station = .finished := by
    intro worker hmem
    obtain ⟨w, hw⟩ := List.getElem?_of_mem hmem
    exact station_eq (worker?_eq hp hw) (hdone w (List.getElem?_eq_some_iff.mp hw).1)
  refine ⟨⟨pool, hp, ?_⟩, ?_, hover⟩
  · rw [Pool.isFinished, List.all_eq_true]
    intro worker hmem
    rw [Worker.isFinished, hstation worker hmem]
  · intro pool' hp' worker hmem
    rw [hp] at hp'
    cases hp'
    have horder := h.reachable.allKeepOrder pool (List.mem_of_getElem? hp) worker hmem
    rw [Worker.KeepsOrder, hstation worker hmem] at horder
    obtain ⟨before, last, -, hdiary⟩ := horder
    exact ⟨before, last, hdiary⟩

/-- On a lap all workers finish, or a call comes to something. -/
theorem Lap.finished_or_pending_lt (lap : Lap p s t) (h : s.IsClosing p size) :
    ((∀ w < size, t.station? p w = some .finished) ∧ t.AllOver p) ∨ t.pending < s.pending := by
  obtain ⟨order, hperm, relay⟩ := lap
  rw [h.crew_eq] at hperm
  have hmem : ∀ w < size, w ∈ order := fun w hw => hperm.mem_iff.mpr (List.mem_range.mpr hw)
  obtain ⟨u, hs, relay⟩ := relay.exists_start
  have hu := hs.reaches.isClosing h
  by_cases hover : u.AllOver p
  · exact .inl ⟨fun w hw => relay.finished hu hover (hmem w hw), relay.reaches.allOver hu hover⟩
  · obtain ⟨c, hc, hpass, hopen⟩ : ∃ c ∈ u.calls, c.pass = some p ∧ c.isOver ≠ true := by
      simpa [AllOver] using hover
    obtain ⟨i, hi⟩ := List.getElem?_of_mem hc
    rcases hu.reachable.cases_of_isStill hs.2 hi with hdone | hstay | ⟨n, hwait, -⟩
    · exact absurd hdone hopen
    · exact absurd hstay (hu.vacated c hc hpass)
    · obtain ⟨hlt, w, worker, hw, hworker, hown⟩ := hu.exists_owner hi hpass hwait
      have hless := relay.pending_lt hu (hu.reachable.halted_of_isStill hs.2) hi hpass hwait hlt
        hworker hown (hmem w hw)
      exact .inr (Nat.lt_of_lt_of_le hless (hs.pending_le h.reachable))

theorem Laps.finished_or_pending_le (laps : Laps p s n t) (h : s.IsClosing p size) :
    ((∀ w < size, t.station? p w = some .finished) ∧ t.AllOver p) ∨ t.pending + n ≤ s.pending := by
  induction laps with
  | zero => exact .inr (Nat.le_refl _)
  | succ laps lap ih =>
    have ht := laps.reaches.isClosing h
    rcases ih with ⟨hdone, hover⟩ | hle
    · exact .inl ⟨fun w hw => lap.reaches.finished ht.reachable (hdone w hw),
        lap.reaches.allOver ht hover⟩
    · rcases lap.finished_or_pending_lt ht with hdone | hless
      · exact .inl hdone
      · exact .inr (by omega)

/-- **Closing a pool finishes.** Whatever the calls on the line wait for, as long as none
stays in the pool for good, its workers can make a lap, and whatever happens then, another
one; and after more laps than there are calls that have not come to anything, the pool has
come to its end. -/
theorem Reachable.closing_finishes (h : s.Reachable) (hp : s.pools[p]? = some pool)
    (hclosed : pool.stage = .closed)
    (hvacated : ∀ c ∈ s.calls, c.pass = some p → c.place ≠ .staying) :
    (∀ t, Reaches s t → ∃ u, Lap p t u) ∧
      ∀ n t, s.pending < n → Laps p s n t → t.HasEnded p := by
  have hs : s.IsClosing p pool.workers.length := ⟨h, ⟨pool, hp, hclosed, rfl⟩, hvacated⟩
  constructor
  · intro t hr
    exact (hr.isClosing hs).exists_lap
  · intro n t hn laps
    rcases laps.finished_or_pending_le hs with ⟨hdone, hover⟩ | hle
    · exact (laps.reaches.isClosing hs).hasEnded hover hdone
    · omega

/-- Two workers who share a consumer, each with a channel that has room for one item.
Four items come; the third waits in the channel of the first worker, admitted to the
pool, and the last, which is not, in the channel of the second. -/
def jammed : List (Action Nat) :=
  [.install ⟨"", 2, 1, true, ⟨1, 0, nanosPerSecond_pos⟩⟩, .publish, .retire] ++
    (.offer 0 (.produce 5) :: List.replicate 8 (.advance 0)) ++
    (.offer 1 (.produce 6) :: List.replicate 8 (.advance 1)) ++
    (.offer 2 (.produce 7) :: List.replicate 6 (.advance 2)) ++
    (.offer 3 (.write 8 none) :: List.replicate 4 (.advance 3)) ++ [.shutdown]

/-- Two calls wait, so that three laps are enough. -/
theorem closing_finishes_jammed :
    let s := (blank 2 1 (by decide) .wait).after jammed
    (s.pending = 2 ∧ s.calls.map Call.pass = [some 0, some 0, some 0, none]) ∧
      (s.pools.map Pool.stage = [.closed] ∧ s.pools.map (fun pool => pool.workers.length) = [2]) ∧
      (∃ t, Laps 0 s 3 t) ∧ ∀ t, Laps 0 s 3 t → t.HasEnded 0 := by
  intro s
  have hpending : s.pending = 2 := by decide +kernel
  have hfew : s.pending < 3 := by rw [hpending]; decide
  have hplaces : s.calls.map Call.place =
      [.over (.answered (.accepted .stored)), .over (.answered (.accepted .stored)), .waiting 0,
        .waiting 1] := by decide +kernel
  obtain ⟨pool, hp, hclosed⟩ : ∃ pool, s.pools[0]? = some pool ∧ pool.stage = .closed := by
    have hany : s.pools[0]?.any (fun pool => pool.stage = .closed) = true := by decide +kernel
    simpa [Option.any_eq_true] using hany
  have hvacated : ∀ c ∈ s.calls, c.pass = some 0 → c.place ≠ .staying := by
    intro c hc _ hstay
    have hmem : c.place ∈ s.calls.map Call.place := List.mem_map_of_mem hc
    rw [hplaces, hstay] at hmem
    simp at hmem
  obtain ⟨hlap, hend⟩ := Reachable.closing_finishes
    (reachable_after (by decide) (by decide) .wait jammed) hp hclosed hvacated
  obtain ⟨t₁, ht₁⟩ := hlap s .refl
  obtain ⟨t₂, ht₂⟩ := hlap t₁ ht₁.reaches
  obtain ⟨t₃, ht₃⟩ := hlap t₂ (ht₁.reaches.trans ht₂.reaches)
  exact ⟨⟨hpending, by decide +kernel⟩, ⟨by decide +kernel, by decide +kernel⟩,
    ⟨t₃, .succ (.succ (.succ .zero ht₁) ht₂) ht₃⟩, fun t laps => hend 3 t hfew laps⟩

end Conveyor.Line
