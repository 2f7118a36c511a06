/-
Conveyor.Proofs.Hooks — the hooks that a worker calls, and in which order.

The diary of a worker that is done is the same for all consumers, but for how
their hooks end: `start`, then one delivery after the other, then `exit`
(`Reachable.hook_protocol`). A delivery is a call of `consume`, and a call of
`error` with the same batch if the first one failed (`IsDelivery`).

Where a worker stands says how far its diary has come (`Station.Follows`), and
each of its steps keeps the two together, however the hook ends that it was
inside. So no end of a hook stops a worker, or makes it leave a hook out.
-/
import Conveyor.Proofs.LastRound
import Conveyor.Proofs.Outcomes

namespace Conveyor

variable {α : Type u}

/-! ## The order of the hooks -/

/-- A delivery, as the diary notes it. -/
inductive IsDelivery : List (Deed α) → Prop
  | consumed {round : Round} {batch : Batch α} {how : HookEnd} :
      batch.items ≠ [] → how.consumeError? = none →
      IsDelivery [.entered (.consume round batch), .left (.consume round batch) how]
  | failed {round : Round} {batch : Batch α} {how : HookEnd} {e : ConsumeError}
      (after : HookEnd) : batch.items ≠ [] → how.consumeError? = some e →
      IsDelivery [.entered (.consume round batch), .left (.consume round batch) how,
        .entered (.error round batch e), .left (.error round batch e) after]

/-- The diary of a worker between two deliveries: `start` is over, and so is
each delivery. -/
def IsUnderWay (diary : List (Deed α)) : Prop :=
  ∃ (first : HookEnd) (deliveries : List (List (Deed α))), (∀ d ∈ deliveries, IsDelivery d) ∧
    diary = [.entered .start, .left .start first] ++ deliveries.flatten

/-- The last entries are a `consume` call that ended with `e`. -/
def HasConsumed (round : Round) (batch : Batch α) (e : Option ConsumeError)
    (diary : List (Deed α)) : Prop :=
  ∃ before how, IsUnderWay before ∧ batch.items ≠ [] ∧ how.consumeError? = e ∧
    diary = before ++ [.entered (.consume round batch), .left (.consume round batch) how]

/-- The diary of a worker that stands here. -/
def Station.Follows : Station α → List (Deed α) → Prop
  | .door .start, diary => diary = []
  | .inside .start, diary => diary = [.entered .start]
  | .door (.consume _ batch), diary => IsUnderWay diary ∧ batch.items ≠ []
  | .inside (.consume round batch), diary =>
    ∃ before, IsUnderWay before ∧ batch.items ≠ [] ∧
      diary = before ++ [.entered (.consume round batch)]
  | .settling round batch e, diary => HasConsumed round batch e diary
  | .door (.error round batch e), diary => HasConsumed round batch (some e) diary
  | .inside (.error round batch e), diary =>
    ∃ before, HasConsumed round batch (some e) before ∧
      diary = before ++ [.entered (.error round batch e)]
  | .watching, diary | .checking, diary | .sweeping .., diary | .door .exit, diary =>
    IsUnderWay diary
  | .inside .exit, diary => ∃ before, IsUnderWay before ∧ diary = before ++ [.entered .exit]
  | .finished, diary =>
    ∃ before last, IsUnderWay before ∧ diary = before ++ [.entered .exit, .left .exit last]
  | .broken _, _ => False

section
variable {round : Round} {batch : Batch α} {diary d : List (Deed α)}

theorem isUnderWay_start (how : HookEnd) :
    IsUnderWay ([.entered .start, .left .start how] : List (Deed α)) :=
  ⟨how, [], by simp, by simp⟩

theorem IsUnderWay.append (h : IsUnderWay diary) (hd : IsDelivery d) : IsUnderWay (diary ++ d) := by
  obtain ⟨first, deliveries, hall, rfl⟩ := h
  refine ⟨first, deliveries ++ [d], ?_, by simp⟩
  intro x hx
  rcases List.mem_append.mp hx with hold | hnew
  · exact hall x hold
  · rw [List.mem_singleton.mp hnew]
    exact hd

/-- A batch that was consumed needs nothing more. -/
theorem HasConsumed.isUnderWay (h : HasConsumed round batch none diary) : IsUnderWay diary := by
  obtain ⟨before, how, hbefore, hne, he, rfl⟩ := h
  exact hbefore.append (.consumed hne he)

/-- A batch that was not consumed needs a call of `error`, and nothing more. -/
theorem HasConsumed.append {e : ConsumeError} (h : HasConsumed round batch (some e) diary)
    (after : HookEnd) :
    IsUnderWay (diary ++ [.entered (.error round batch e), .left (.error round batch e) after]) := by
  obtain ⟨before, how, hbefore, hne, he, rfl⟩ := h
  rw [List.append_assoc]
  exact hbefore.append (.failed after hne he)

/-- Whatever the round was, a worker after it is between two deliveries. -/
theorem follows_afterRound (h : IsUnderWay diary) :
    (Worker.afterRound round).Follows diary := by
  cases round <;> exact h

end

namespace Worker

variable {worker : Worker α} {hook : Hook α}

/-- The diary is that of a worker that stands where this one does. -/
def KeepsOrder (worker : Worker α) : Prop := worker.station.Follows worker.diary

theorem keepsOrder_ofChannels (channels : List Nat) : (ofChannels channels : Worker α).KeepsOrder :=
  rfl

theorem KeepsOrder.enter (h : worker.KeepsOrder) (hd : worker.station = .door hook) :
    (worker.enter hook).KeepsOrder := by
  rw [KeepsOrder, hd] at h
  cases hook with
  | start => exact congrArg (· ++ [.entered .start]) h
  | consume round batch => exact ⟨_, h.1, h.2, rfl⟩
  | error round batch e => exact ⟨_, h, rfl⟩
  | exit => exact ⟨_, h, rfl⟩

/-- However the hook ends, the worker goes on in order. -/
theorem KeepsOrder.leave (h : worker.KeepsOrder) (hi : worker.station = .inside hook)
    (how : HookEnd) : (worker.leave hook how).KeepsOrder := by
  rw [KeepsOrder, hi] at h
  cases hook with
  | start =>
    show IsUnderWay (worker.diary ++ _)
    rw [show worker.diary = _ from h]
    exact isUnderWay_start how
  | consume round batch =>
    obtain ⟨before, hbefore, hne, hdiary⟩ := h
    refine ⟨before, how, hbefore, hne, rfl, ?_⟩
    rw [Worker.leave, hdiary, List.append_assoc]
    rfl
  | error round batch e =>
    obtain ⟨before, hbefore, hdiary⟩ := h
    refine follows_afterRound ?_
    rw [Worker.leave, hdiary, List.append_assoc]
    exact hbefore.append how
  | exit =>
    obtain ⟨before, hbefore, hdiary⟩ := h
    refine ⟨before, how, hbefore, ?_⟩
    rw [Worker.leave, hdiary, List.append_assoc]
    rfl

end Worker

namespace Line

variable {s t : Line α} {p w : Nat} {pool : Pool (Parcel α)} {worker worker' : Worker (Parcel α)}

/-! ## Steps of a worker -/

theorem Pace.keepsOrder (pace : Pace s pool worker worker') (hs : s.Sound) (h : worker.KeepsOrder) :
    worker'.KeepsOrder := by
  cases pace with
  | enter hd => exact h.enter hd
  | leave how hi => exact h.leave hi how
  | watch hw =>
    rw [Worker.KeepsOrder, hw] at h
    unfold Line.watch Worker.KeepsOrder Worker.moveTo
    split <;> exact h
  | check hc =>
    rw [Worker.KeepsOrder, hc] at h
    unfold Line.check Worker.KeepsOrder Worker.moveTo
    split <;> exact h
  | skip hst _ =>
    rw [Worker.KeepsOrder, hst] at h
    exact h
  | fail _ hl ht => exact absurd ht ((hs.lane hl).take_ne_error _ _)
  | @handOver round batch hst =>
    rw [Worker.KeepsOrder, hst] at h
    unfold Line.handOver Worker.KeepsOrder Worker.moveTo
    split
    · exact follows_afterRound h
    · next hne => exact ⟨h, by simpa using hne⟩

/-- A call of `consume` is followed by one of `error` if it failed. -/
theorem keepsOrder_settled {round : Round} {batch : Batch (Parcel α)} {e : Option ConsumeError}
    (hst : worker.station = .settling round batch e) (h : worker.KeepsOrder) :
    (worker.moveTo (e.elim (Worker.afterRound round) fun e =>
      .door (.error round batch e))).KeepsOrder := by
  rw [Worker.KeepsOrder, hst] at h
  have h : HasConsumed round batch e worker.diary := h
  cases e with
  | none => exact follows_afterRound h.isUnderWay
  | some e => exact h

/-- All workers keep their diaries in order. -/
def AllKeepOrder (s : Line α) : Prop := ∀ pool ∈ s.pools, ∀ worker ∈ pool.workers, worker.KeepsOrder

theorem AllKeepOrder.setPool (h : s.AllKeepOrder) (p : Nat) {pool' : Pool (Parcel α)}
    (hpool : ∀ worker ∈ pool'.workers, worker.KeepsOrder) :
    ∀ q ∈ s.pools.set p pool', ∀ worker ∈ q.workers, worker.KeepsOrder := by
  intro q hq
  rcases List.mem_or_eq_of_mem_set hq with hold | rfl
  · exact h q hold
  · exact hpool

theorem AllKeepOrder.setWorker (h : s.AllKeepOrder) (hp : s.pools[p]? = some pool)
    (hworker : worker'.KeepsOrder) :
    ∀ v ∈ pool.workers.set w worker', v.KeepsOrder := by
  intro v hv
  rcases List.mem_or_eq_of_mem_set hv with hold | rfl
  · exact h pool (List.mem_of_getElem? hp) v hold
  · exact hworker

theorem Effect.allKeepOrder (e : Effect s t) (hs : s.Sound) (h : s.AllKeepOrder) : t.AllKeepOrder := by
  have old : ∀ {p w : Nat} {pool : Pool (Parcel α)} {worker : Worker (Parcel α)},
      s.pools[p]? = some pool → pool.workers[w]? = some worker → worker.KeepsOrder :=
    fun hp hw => h _ (List.mem_of_getElem? hp) _ (List.mem_of_getElem? hw)
  cases e with
  | enroll _ _ hp | turnBack _ _ hp | release _ _ _ hp | hold _ hp | close hp =>
    have hworkers := h _ (List.mem_of_getElem? hp)
    exact h.setPool _ hworkers
  | build hp =>
    intro pool hmem
    rcases List.mem_append.mp hmem with hold | hnew
    · exact h pool hold
    · rw [List.mem_singleton.mp hnew, (Pool.fit_ofPlan hp).2.1]
      exact fun _ hworker => nomatch hworker
  | begin hp hc =>
    refine h.setPool _ ?_
    rw [Pool.begin, if_pos hc]
    intro worker hmem
    obtain ⟨channels, -, rfl⟩ := List.mem_map.mp hmem
    exact Worker.keepsOrder_ofChannels channels
  | pace hp hw pace => exact h.setPool _ (h.setWorker hp (pace.keepsOrder hs (old hp hw)))
  | sweep hp hw hst =>
    have hworker := old hp hw
    rw [Worker.KeepsOrder, hst] at hworker
    exact h.setPool _ (h.setWorker hp hworker)
  | settle hp hw hst => exact h.setPool _ (h.setWorker hp (keepsOrder_settled hst (old hp hw)))
  | _ => exact h

theorem Reachable.allKeepOrder (h : s.Reachable) : s.AllKeepOrder := by
  have hall : s.Sound ∧ s.AllKeepOrder := by
    refine Reachable.induction (P := fun u => u.Sound ∧ u.AllKeepOrder) h ?_ ?_
    · intro start hf
      have hr : start.Reachable := ⟨start, hf, .refl⟩
      refine ⟨hr.sound, ?_⟩
      obtain ⟨_, _, _, _, store, _, rfl⟩ := hf
      exact fun _ hmem => nomatch hmem
    · rintro u v ⟨hs, ho⟩ e
      exact ⟨e.sound hs, e.allKeepOrder hs ho⟩
  exact hall.2

/-! ## What a worker does next -/

/-- Worker `w` of pool `p` goes on: by itself, when the hook that it is inside
ends, or when the shared consumer that it wants to call is free. -/
def GoesOn (s : Line α) (p w : Nat) (pool : Pool (Parcel α)) (worker : Worker (Parcel α)) : Prop :=
  (∃ t, s.work p w = some t) ∨
    ∃ hook, (worker.station = .inside hook ∧ ∀ how, ∃ t, s.endHook p w how = some t) ∨
      (worker.station = .door hook ∧ pool.mayEnter = false)

theorem goesOn_of_not_finished (hp : s.pools[p]? = some pool) (hw : pool.workers[w]? = some worker)
    (horder : worker.KeepsOrder) (hf : worker.isFinished = false) : s.GoesOn p w pool worker := by
  cases hst : worker.station with
  | door hook =>
    cases hm : pool.mayEnter with
    | true => exact .inl (by simp [work, hp, hw, hst, hm])
    | false => exact .inr ⟨hook, .inr ⟨hst, hm⟩⟩
  | inside hook => exact .inr ⟨hook, .inl ⟨hst, fun how => by simp [endHook, hp, hw, hst]⟩⟩
  | sweeping round todo batch => cases todo <;> exact .inl (by simp [work, hp, hw, hst])
  | watching | checking | settling => exact .inl (by simp [work, hp, hw, hst])
  | finished => simp [Worker.isFinished, hst] at hf
  | broken fault =>
    rw [Worker.KeepsOrder, hst] at horder
    exact horder.elim

/-- A worker comes to its last hook only when its pool is closed and no call that was
admitted to it is open; nothing that a hook comes to brings it there earlier. -/
theorem Reachable.closed_of_exit (h : s.Reachable) (hp : s.pools[p]? = some pool)
    (hw : pool.workers[w]? = some worker)
    (hexit : worker.station = .door .exit ∨ worker.station = .inside .exit ∨
      worker.station = .finished) :
    pool.stage = .closed ∧ ∀ c ∈ s.calls, c.pass = some p → c.isOver = true := by
  have hround : worker.round = .final := by
    rcases hexit with hst | hst | hst <;> rw [Worker.round, hst] <;> rfl
  have hmem := List.mem_of_getElem? hw
  exact ⟨h.admits.closed p pool hp worker hmem (by simp [hround]),
    h.admits.done p pool hp worker hmem hround⟩

/-- **A worker calls its hooks in order, whatever they come to.** When it is
done, its diary is `start`, deliveries, `exit`, each hook entered and left once;
a delivery has a batch that is not empty, and a call of `error` with this batch
and the error exactly if `consume` failed. No item is in two batches.

No hook ends the worker early. `GoesOn` is one half of this: as long as the worker is
not done it has a step to make, or is inside a hook that may end in every way, or waits
for the shared consumer. The other half is where its steps lead: it leaves its running
rounds only when its pool is closed (`Admits.closed`), and comes to `exit` only when, in
addition, no admitted call is open (`Reachable.closed_of_exit`). -/
theorem Reachable.hook_protocol (h : s.Reachable) (hp : s.pools[p]? = some pool)
    (hw : pool.workers[w]? = some worker) :
    (worker.isFinished = true →
      ∃ (first last : HookEnd) (deliveries : List (List (Deed (Parcel α)))),
        (∀ d ∈ deliveries, IsDelivery d) ∧
          worker.diary = [.entered .start, .left .start first] ++ deliveries.flatten ++
            [.entered .exit, .left .exit last]) ∧
      (s.handed.map Parcel.call).Nodup ∧
      (worker.isFinished = false → s.GoesOn p w pool worker) := by
  have horder : worker.KeepsOrder :=
    h.allKeepOrder pool (List.mem_of_getElem? hp) worker (List.mem_of_getElem? hw)
  refine ⟨?_, ?_, goesOn_of_not_finished hp hw horder⟩
  · intro hf
    cases hst : worker.station with
    | finished =>
      rw [Worker.KeepsOrder, hst] at horder
      obtain ⟨before, last, ⟨first, deliveries, hall, rfl⟩, hdiary⟩ := horder
      exact ⟨first, last, deliveries, hall, hdiary⟩
    | _ => simp [Worker.isFinished, hst] at hf
  · have hnodup := h.conserved.nodup
    rw [whereabouts, List.map_append, List.map_append, List.map_append] at hnodup
    exact (List.nodup_append.mp (List.nodup_append.mp (List.nodup_append.mp hnodup).1).1).2.1

/-- A worker whose consumer never succeeds: `start` panics, the first item is
refused and the second makes it panic, `error` panics the first time, and so does
`exit`. -/
def stumbling : List (Action Nat) :=
  let work : Action Nat := .work 0 0
  let back (how : HookEnd) : Action Nat := .endHook 0 0 how
  [.install loner, .publish, .retire] ++
    (.offer 0 (.produce 7) :: List.replicate 8 (.advance 0)) ++
    (.offer 1 (.produce 8) :: List.replicate 8 (.advance 1)) ++
    [work, back (.panicked .other)] ++
    [work, work, work, work, back (.failed "no"), work, work, back (.panicked .other)] ++
    [work, work, work, work, back (.panicked (.text "boom")), work, work, back .returned] ++
    [.shutdown, work, work, work, work, work, back (.panicked .other)]

/-- The worker has called all its hooks, six of them, and is done. -/
theorem hook_protocol_stumbling :
    let s := (blank 1 2 (by decide) .wait).after stumbling
    ∃ pool worker, s.pools[0]? = some pool ∧ pool.workers[0]? = some worker ∧
      (worker.isFinished = true ∧ worker.diary.length = 12) ∧
      (worker.outcomes.map Prod.snd = [some (.failed "no"), some (.panicked "boom")] ∧
        s.handed.map Parcel.item = [7, 8]) ∧
      ∃ (first last : HookEnd) (deliveries : List (List (Deed (Parcel Nat)))),
        (∀ d ∈ deliveries, IsDelivery d) ∧
          worker.diary = [.entered .start, .left .start first] ++ deliveries.flatten ++
            [.entered .exit, .left .exit last] := by
  intro s
  obtain ⟨pool, hp, worker, hw, hdone, hlen, hends⟩ : ∃ pool, s.pools[0]? = some pool ∧
      ∃ worker, pool.workers[0]? = some worker ∧ worker.isFinished = true ∧
        worker.diary.length = 12 ∧
        worker.outcomes.map Prod.snd = [some (.failed "no"), some (.panicked "boom")] := by
    have hany : s.pools[0]?.any (fun pool => pool.workers[0]?.any fun worker =>
        worker.isFinished ∧ worker.diary.length = 12 ∧
          worker.outcomes.map Prod.snd = [some (.failed "no"), some (.panicked "boom")]) = true := by
      decide +kernel
    simpa [Option.any_eq_true] using hany
  have hreach : s.Reachable := reachable_after (by decide) (by decide) .wait stumbling
  exact ⟨pool, worker, hp, hw, ⟨hdone, hlen⟩, ⟨hends, by decide +kernel⟩,
    (Reachable.hook_protocol hreach hp hw).1 hdone⟩

end Line

end Conveyor
