/-
Conveyor.Proofs.Outcomes — the counters of a pool are what the diaries of its
workers come to.

A worker puts down how each `consume` call ended, and adds it to the counters of
its pool a step later. So the counters show what stands in the diaries, without
the one call that each worker may still have to add (`Tallied.tally`). And what a
worker handed over are the batches of the calls that are over, and the batch of
the call it is in (`Worker.IsFaithful`).
-/
import Conveyor.Proofs.Conservation
import Mathlib.Data.List.Perm.Basic

namespace Conveyor

variable {α : Type u}

/-! ## Ends of `consume` calls -/

/-- How a `consume` call ended: with its batch, and the error if there was one. -/
abbrev Outcome (α : Type u) := Batch α × Option ConsumeError

namespace DeliveryTally

variable {l l' : List (Outcome α)}

/-- What some `consume` calls come to. -/
def ofOutcomes (l : List (Outcome α)) : DeliveryTally where
  consumed := ((l.filter fun o => o.2.isNone).flatMap fun o => o.1.items).length
  batches := l.countP fun o => o.2.isNone
  errors := l.countP fun o => o.2.isSome

/-- Calls on either side are counted on their own. -/
theorem ofOutcomes_append (l l' : List (Outcome α)) :
    ofOutcomes (l ++ l') = (ofOutcomes l).add (ofOutcomes l') := by
  simp [ofOutcomes, add]

/-- It does not matter in which order they came to an end. -/
theorem ofOutcomes_perm (h : l.Perm l') : ofOutcomes l = ofOutcomes l' := by
  have hconsumed := ((h.filter fun o => o.2.isNone).flatMap_right fun o => o.1.items).length_eq
  rw [ofOutcomes, hconsumed, h.countP_eq, h.countP_eq]
  rfl

/-- One more call, as a worker counts it. -/
theorem add_ofOutcomes (t : DeliveryTally) (batch : Batch α) (e : Option ConsumeError) :
    t.add (ofOutcomes [(batch, e)]) =
      e.elim (t.succeed batch.items.length) fun _ => t.fail := by
  cases e with
  | none => simp [ofOutcomes, add, succeed]
  | some e => simp [ofOutcomes, add, fail]

/-- Every call has either been consumed or not. -/
theorem batches_add_errors (l : List (Outcome α)) :
    (ofOutcomes l).batches + (ofOutcomes l).errors = l.length := by
  induction l with
  | nil => rfl
  | cons o l ih =>
    obtain ⟨batch, e⟩ := o
    cases e with
    | none => simp [ofOutcomes] at ih ⊢; omega
    | some e => simp [ofOutcomes] at ih ⊢; omega

end DeliveryTally

/-- The items of the batches that were not consumed. -/
def failedItems (l : List (Outcome α)) : List α :=
  (l.filter fun o => o.2.isSome).flatMap fun o => o.1.items

/-- Each item was consumed or failed with its batch. -/
theorem consumed_add_failed (l : List (Outcome α)) :
    (DeliveryTally.ofOutcomes l).consumed + (failedItems l).length =
      (l.flatMap fun o => o.1.items).length := by
  induction l with
  | nil => rfl
  | cons o l ih =>
    obtain ⟨batch, e⟩ := o
    cases e with
    | none => simp [DeliveryTally.ofOutcomes, failedItems] at ih ⊢; omega
    | some e => simp [DeliveryTally.ofOutcomes, failedItems] at ih ⊢; omega

/-! ## Workers -/

/-- Whether a `consume` call is over and has still to be counted. -/
def Station.isSettling : Station α → Bool
  | .settling .. => true
  | _ => false

/-- The items of the `consume` call that a worker is in. -/
def Station.consuming : Station α → List α
  | .inside (.consume _ batch) => batch.items
  | _ => []

/-- Whether a worker is between two `consume` calls here, with the last one
counted. -/
def Station.isCalm : Station α → Bool
  | .inside (.consume ..) | .settling .. => false
  | _ => true

theorem Station.consuming_of_isCalm {station : Station α} (h : station.isCalm = true) :
    station.consuming = [] := by
  unfold consuming
  split
  · cases h
  · rfl

theorem Station.isSettling_of_isCalm {station : Station α} (h : station.isCalm = true) :
    station.isSettling = false := by
  unfold isSettling
  split
  · cases h
  · rfl

namespace Worker

variable {worker worker' : Worker α}

/-- The `consume` calls that are over. -/
def outcomes (worker : Worker α) : List (Outcome α) :=
  worker.diary.filterMap fun
    | .left (.consume _ batch) how => some (batch, how.consumeError?)
    | _ => none

/-- The `consume` calls that have been counted: all that are over, but for the one
that the worker is about to count. -/
def counted (worker : Worker α) : List (Outcome α) :=
  if worker.station.isSettling then worker.outcomes.dropLast else worker.outcomes

/-- What the worker has handed over are the batches of the calls that are over, and
that of the call it is in; and the call it is about to count is the last one. -/
structure IsFaithful (worker : Worker α) : Prop where
  handed : worker.handed =
    (worker.outcomes.flatMap fun o => o.1.items) ++ worker.station.consuming
  last : ∀ round batch e, worker.station = .settling round batch e →
    ∃ rest, worker.outcomes = rest ++ [(batch, e)]

/-- Unless one is still to be counted, all are. -/
theorem counted_of_not_settling (h : worker.station.isSettling = false) :
    worker.counted = worker.outcomes := by
  rw [counted, if_neg (by rw [h]; exact Bool.false_ne_true)]

/-- A worker starts with an empty diary. -/
theorem isFaithful_ofChannels (channels : List Nat) :
    (ofChannels channels : Worker α).IsFaithful :=
  ⟨rfl, fun _ _ _ h => nomatch h⟩

theorem outcomes_enter (worker : Worker α) (hook : Hook α) :
    (worker.enter hook).outcomes = worker.outcomes := by
  simp [outcomes, enter]

/-- To enter a hook ends no call. If it is `consume`, its batch is handed over. -/
theorem IsFaithful.enter (h : worker.IsFaithful) {hook : Hook α}
    (hd : worker.station = .door hook) :
    (worker.enter hook).IsFaithful ∧ (worker.enter hook).counted = worker.counted := by
  refine ⟨⟨?_, fun _ _ _ hst => nomatch hst⟩, ?_⟩
  · have hhanded := h.handed
    rw [hd] at hhanded
    rw [handed_enter, outcomes_enter, hhanded]
    cases hook <;> simp [Worker.enter, Station.load, Station.consuming]
  · have hold : worker.counted = worker.outcomes := counted_of_not_settling (by rw [hd]; rfl)
    have hnew : (worker.enter hook).counted = (worker.enter hook).outcomes :=
      counted_of_not_settling rfl
    rw [hold, hnew, outcomes_enter]

/-- A worker between two `consume` calls, at which no call ends or begins. -/
theorem IsFaithful.keep (h : worker.IsFaithful) (hhanded : worker'.handed = worker.handed)
    (houtcomes : worker'.outcomes = worker.outcomes) (hold : worker.station.isCalm = true)
    (hnew : worker'.station.isCalm = true) :
    worker'.IsFaithful ∧ worker'.counted = worker.counted := by
  refine ⟨⟨?_, ?_⟩, ?_⟩
  · rw [hhanded, houtcomes, h.handed, Station.consuming_of_isCalm hold,
      Station.consuming_of_isCalm hnew]
  · intro round batch e hst
    rw [hst] at hnew
    cases hnew
  · rw [counted_of_not_settling (Station.isSettling_of_isCalm hnew),
      counted_of_not_settling (Station.isSettling_of_isCalm hold), houtcomes]

theorem isCalm_afterRound (round : Round) : (afterRound round : Station α).isCalm = true := by
  cases round <;> rfl

/-- To leave `consume` ends a call, which is then the last one and the next to be counted. -/
theorem IsFaithful.leave (h : worker.IsFaithful) {hook : Hook α}
    (hi : worker.station = .inside hook) (how : HookEnd) :
    (worker.leave hook how).IsFaithful ∧ (worker.leave hook how).counted = worker.counted := by
  have hhanded := handed_leave worker hook how
  cases hook with
  | consume round batch =>
    have hbefore := h.handed
    rw [hi] at hbefore
    have houtcomes : (worker.leave (.consume round batch) how).outcomes =
        worker.outcomes ++ [(batch, how.consumeError?)] := by
      simp [outcomes, Worker.leave]
    have hold : worker.counted = worker.outcomes := counted_of_not_settling (by rw [hi]; rfl)
    refine ⟨⟨?_, ?_⟩, ?_⟩
    · rw [hhanded, houtcomes, hbefore]
      simp [Worker.leave, afterHook, Station.consuming]
    · rintro round' batch' e hst
      cases hst
      exact ⟨_, houtcomes⟩
    · rw [hold, counted, houtcomes, List.dropLast_concat]
      rfl
  | start => exact h.keep hhanded (by simp [outcomes, Worker.leave]) (by rw [hi]; rfl) rfl
  | error round batch e =>
    exact h.keep hhanded (by simp [outcomes, Worker.leave]) (by rw [hi]; rfl)
      (isCalm_afterRound round)
  | exit => exact h.keep hhanded (by simp [outcomes, Worker.leave]) (by rw [hi]; rfl) rfl

/-- A worker that has counted its last call has counted all. -/
theorem IsFaithful.settle (h : worker.IsFaithful) {round : Round} {batch : Batch α}
    {e : Option ConsumeError} (hst : worker.station = .settling round batch e) {station : Station α}
    (hnew : station.isCalm = true) :
    (worker.moveTo station).IsFaithful ∧
      (worker.moveTo station).counted = worker.counted ++ [(batch, e)] := by
  have hhanded := h.handed
  rw [hst] at hhanded
  refine ⟨⟨?_, ?_⟩, ?_⟩
  · rw [handed_moveTo, hhanded]
    show _ ++ [] = _ ++ station.consuming
    rw [Station.consuming_of_isCalm hnew]
    rfl
  · intro round' batch' e' hst'
    have hst' : station = .settling round' batch' e' := hst'
    rw [hst'] at hnew
    cases hnew
  · obtain ⟨rest, hrest⟩ := h.last round batch e hst
    have hafter : (worker.moveTo station).counted = worker.outcomes :=
      counted_of_not_settling (Station.isSettling_of_isCalm hnew)
    rw [hafter, counted, hst, hrest, List.dropLast_concat]
    rfl

end Worker

namespace Line

variable {s t : Line α}

/-- A step that leaves the counters alone. -/
theorem Pace.faithful {pool : Pool (Parcel α)} {worker worker' : Worker (Parcel α)}
    (pace : Pace s pool worker worker') (h : worker.IsFaithful) :
    worker'.IsFaithful ∧ worker'.counted = worker.counted := by
  cases pace with
  | enter hd => exact h.enter hd
  | leave how hi => exact h.leave hi how
  | watch hw =>
    refine h.keep rfl rfl (by rw [hw]; rfl) ?_
    unfold Line.watch Worker.moveTo
    split <;> rfl
  | check hc =>
    refine h.keep rfl rfl (by rw [hc]; rfl) ?_
    unfold Line.check Worker.moveTo
    split <;> rfl
  | skip hw _ => exact h.keep rfl rfl (by rw [hw]; rfl) rfl
  | fail hw _ _ => exact h.keep rfl rfl (by rw [hw]; rfl) rfl
  | @handOver round batch hw =>
    refine h.keep rfl rfl (by rw [hw]; rfl) ?_
    unfold Line.handOver Worker.moveTo
    split
    · exact Worker.isCalm_afterRound round
    · rfl

end Line

/-! ## Pools -/

/-- The workers of the pool keep faithful diaries, and its counters show what has
been counted. -/
structure Pool.IsTallied (pool : Pool α) : Prop where
  faithful : ∀ worker ∈ pool.workers, worker.IsFaithful
  tally : pool.tally = .ofOutcomes (pool.workers.flatMap Worker.counted)

/-- A pool starts with all counters at zero. -/
theorem Pool.tally_ofPlan {plan : PoolPlan} {count : Nat} {pool : Pool α}
    (h : ofPlan plan count = .ok pool) : pool.tally = {} := by
  obtain ⟨-, -, rfl⟩ := ofPlan_eq_ok_iff.mp h
  rfl

namespace Pool.IsTallied

variable {pool pool' : Pool α} {w : Nat} {worker worker' : Worker α}

theorem of_eq (h : pool.IsTallied) (hworkers : pool'.workers = pool.workers)
    (htally : pool'.tally = pool.tally) : pool'.IsTallied :=
  ⟨hworkers ▸ h.faithful, by rw [htally, hworkers, h.tally]⟩

theorem of_nil (hworkers : pool.workers = []) (htally : pool.tally = {}) : pool.IsTallied := by
  refine ⟨?_, ?_⟩
  · intro worker hmem
    rw [hworkers] at hmem
    cases hmem
  · rw [htally, hworkers]
    rfl

/-- Workers that have just started have nothing in their diaries. -/
theorem begin (h : pool.IsTallied) (hs : pool.stage = .created) (hnil : pool.workers = []) :
    pool.begin.IsTallied := by
  have hzero : pool.tally = .ofOutcomes ([] : List (Outcome α)) := by
    rw [h.tally, hnil]
    rfl
  rw [Pool.begin, if_pos hs]
  refine ⟨?_, ?_⟩
  · intro worker hmem
    obtain ⟨channels, -, rfl⟩ := List.mem_map.mp hmem
    exact Worker.isFaithful_ofChannels channels
  · have hcounted : (pool.assignment.map Worker.ofChannels).flatMap Worker.counted =
        ([] : List (Outcome α)) := by
      refine List.flatMap_eq_nil_iff.mpr ?_
      intro worker hmem
      obtain ⟨channels, -, rfl⟩ := List.mem_map.mp hmem
      rfl
    exact hzero.trans (congrArg _ hcounted.symm)

/-- A worker makes a step, and the calls that it has counted with this step are
added to the counters. -/
theorem setWorker (h : pool.IsTallied) (hw : pool.workers[w]? = some worker)
    (hfaithful : worker'.IsFaithful) {more : List (Outcome α)}
    (hcounted : worker'.counted = worker.counted ++ more)
    (hworkers : pool'.workers = pool.workers.set w worker')
    (htally : pool'.tally = pool.tally.add (.ofOutcomes more)) : pool'.IsTallied := by
  refine ⟨?_, ?_⟩
  · intro v hmem
    rw [hworkers] at hmem
    rcases List.mem_or_eq_of_mem_set hmem with hold | rfl
    · exact h.faithful v hold
    · exact hfaithful
  · rw [htally, h.tally, hworkers, ← DeliveryTally.ofOutcomes_append]
    refine DeliveryTally.ofOutcomes_perm ?_
    have hperm := perm_flatMap_set hw worker' Worker.counted
    rw [hcounted] at hperm
    have hswap : (worker.counted ++ more).Perm (more ++ worker.counted) := List.perm_append_comm
    have hall := hperm.trans (hswap.append_left _)
    rw [← List.append_assoc] at hall
    exact ((List.perm_append_right_iff _).mp hall).symm

end Pool.IsTallied

namespace Line

variable {s t : Line α}

/-- All pools have the counters that their diaries come to. -/
def IsTallied (s : Line α) : Prop := ∀ pool ∈ s.pools, pool.IsTallied

theorem IsTallied.set (h : s.IsTallied) (p : Nat) {pool : Pool (Parcel α)} (hp : pool.IsTallied) :
    ∀ q ∈ s.pools.set p pool, q.IsTallied := by
  intro q hq
  rcases List.mem_or_eq_of_mem_set hq with hold | rfl
  · exact h q hold
  · exact hp

/-- A counter goes up in the very step in which a worker settles a call. -/
theorem Effect.tallied (e : Effect s t) (hf : s.Fit) (h : s.IsTallied) : t.IsTallied := by
  have old : ∀ {p : Nat} {pool : Pool (Parcel α)}, s.pools[p]? = some pool → pool.IsTallied :=
    fun hp => h _ (List.mem_of_getElem? hp)
  cases e with
  | enroll _ _ hp | turnBack _ _ hp | release _ _ _ hp | hold _ hp | close hp =>
    exact h.set _ ((old hp).of_eq rfl rfl)
  | build hp =>
    intro pool hmem
    rcases List.mem_append.mp hmem with hold | hnew
    · exact h pool hold
    · rw [List.mem_singleton.mp hnew]
      exact .of_nil (Pool.fit_ofPlan hp).2.1 (Pool.tally_ofPlan hp)
  | begin hp hc => exact h.set _ ((old hp).begin hc ((hf.pool hp).created hc))
  | @pace p w pool worker worker' hp hw pace =>
    obtain ⟨hfaithful, hcounted⟩ := pace.faithful ((old hp).faithful _ (List.mem_of_getElem? hw))
    have hmore : worker'.counted = worker.counted ++ [] := by rw [hcounted, List.append_nil]
    exact h.set _ ((old hp).setWorker hw hfaithful hmore rfl rfl)
  | @sweep p w n pool worker round rest batch lane taken hp hw hst =>
    have hkeep : (worker.moveTo (.sweeping round rest (batch ++ [⟨n, taken.items⟩]))).IsFaithful ∧
        (worker.moveTo (.sweeping round rest (batch ++ [⟨n, taken.items⟩]))).counted =
          worker.counted :=
      ((old hp).faithful _ (List.mem_of_getElem? hw)).keep rfl rfl (by rw [hst]; rfl) rfl
    obtain ⟨hfaithful, hcounted⟩ := hkeep
    have hmore := hcounted.trans (List.append_nil _).symm
    exact h.set _ ((old hp).setWorker hw hfaithful hmore rfl rfl)
  | @settle p w pool worker round batch e hp hw hst =>
    have hcalm : (e.elim (Worker.afterRound round) fun e =>
        Station.door (.error round batch e)).isCalm = true := by
      cases e with
      | none => exact Worker.isCalm_afterRound round
      | some e => rfl
    obtain ⟨hfaithful, hcounted⟩ :=
      ((old hp).faithful _ (List.mem_of_getElem? hw)).settle hst hcalm
    exact h.set _ ((old hp).setWorker hw hfaithful hcounted rfl
      (DeliveryTally.add_ofOutcomes pool.tally batch e).symm)
  | _ => exact h

/-- By induction over the run. -/
theorem Reachable.tallied (h : s.Reachable) : s.IsTallied := by
  have hall : s.Fit ∧ s.IsTallied := by
    refine Reachable.induction (P := fun u => u.Fit ∧ u.IsTallied) h ?_ ?_
    · intro start hf
      have hr : start.Reachable := ⟨start, hf, .refl⟩
      obtain ⟨_, _, _, _, store, _, rfl⟩ := hf
      exact ⟨hr.fit, fun _ hmem => nomatch hmem⟩
    · rintro u v ⟨hf, ht⟩ e
      exact ⟨e.fit hf, e.tallied hf ht⟩
  exact hall.2

/-! ## All pools together -/

/-- The `consume` calls of all workers that are over. -/
def outcomes (s : Line α) : List (Outcome (Parcel α)) :=
  s.pools.flatMap fun pool => pool.workers.flatMap Worker.outcomes

/-- The items of the `consume` calls that workers are in. -/
def consuming (s : Line α) : List (Parcel α) :=
  s.pools.flatMap fun pool => pool.workers.flatMap fun worker => worker.station.consuming

/-- No worker has a `consume` call still to count. -/
def IsSettled (s : Line α) : Prop :=
  ∀ pool ∈ s.pools, ∀ worker ∈ pool.workers, worker.station.isSettling = false

/-- The pools' counters summed up one after the other, with what was there before. -/
theorem foldl_add (pools : List (Pool (Parcel α))) (h : ∀ pool ∈ pools, pool.IsTallied)
    (l : List (Outcome (Parcel α))) :
    pools.foldl (fun (t : DeliveryTally) pool => t.add pool.tally) (.ofOutcomes l) =
      .ofOutcomes (l ++ pools.flatMap fun pool => pool.workers.flatMap Worker.counted) := by
  induction pools generalizing l with
  | nil => rw [List.flatMap_nil, List.append_nil]; rfl
  | cons pool pools ih =>
    rw [List.foldl_cons, (h pool List.mem_cons_self).tally, ← DeliveryTally.ofOutcomes_append,
      ih (fun q hq => h q (List.mem_cons_of_mem _ hq)), List.flatMap_cons, List.append_assoc]

/-- When no worker has a call still to count, the counters show all calls. -/
theorem Reachable.deliveries_eq (h : s.Reachable) (hsettled : s.IsSettled) :
    s.deliveries = .ofOutcomes s.outcomes := by
  have hfold := foldl_add s.pools h.tallied []
  have hcounted : (s.pools.flatMap fun pool => pool.workers.flatMap Worker.counted) =
      s.outcomes := by
    refine List.flatMap_congr ?_
    intro pool hpool
    refine List.flatMap_congr ?_
    intro worker hworker
    exact Worker.counted_of_not_settling (hsettled pool hpool worker hworker)
  rw [hcounted, List.nil_append] at hfold
  exact hfold

/-- What was handed over is in the batches of calls that are over, or in those of
calls that workers are in. -/
theorem Reachable.handed_perm (h : s.Reachable) :
    s.handed.Perm ((s.outcomes.flatMap fun o => o.1.items) ++ s.consuming) := by
  let ended (worker : Worker (Parcel α)) := worker.outcomes.flatMap fun o => o.1.items
  let going (worker : Worker (Parcel α)) := worker.station.consuming
  have houtcomes : (s.outcomes.flatMap fun o => o.1.items) =
      s.pools.flatMap fun pool => pool.workers.flatMap ended := by
    simp only [outcomes, List.flatMap_assoc, ended]
  have hhanded : s.handed =
      s.pools.flatMap fun pool =>
        pool.workers.flatMap fun worker => ended worker ++ going worker := by
    refine List.flatMap_congr ?_
    intro pool hpool
    refine List.flatMap_congr ?_
    intro worker hworker
    exact ((h.tallied pool hpool).faithful worker hworker).handed
  rw [hhanded, houtcomes]
  have hpools : (s.pools.flatMap fun pool =>
      pool.workers.flatMap fun worker => ended worker ++ going worker).Perm
        (s.pools.flatMap fun pool => pool.workers.flatMap ended ++ pool.workers.flatMap going) :=
    List.Perm.flatMap_left _ fun pool _ => (List.flatMap_append_perm pool.workers ended going).symm
  exact hpools.trans (List.flatMap_append_perm s.pools _ _).symm

end Line

end Conveyor
