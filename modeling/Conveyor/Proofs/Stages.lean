/-
Conveyor.Proofs.Stages — a pool is created, runs once, and is closed for good.

A pool is asked to begin, or to close: by its owner, by whoever holds a signal of it, by
the carrier that has it. `Line.asked` lists what it was asked for in a run, in order. That
list alone decides what becomes of the pool, whatever else goes on (`LivesOnce`): the stages
it comes to, one after the other (`course`), whether its workers are started, whom its closing wakes,
and what is put down for the log. Everything it is asked for after the first closing leaves
the line as it is.
-/
import Conveyor.Proofs.Closing
import Conveyor.Proofs.Entries

namespace Conveyor

variable {α : Type u}

/-- What a pool can be asked for. -/
inductive Ask where
  | begin
  | close
  deriving DecidableEq, Repr

namespace Stage

/-- How far a pool is when it has been asked for this. -/
def answer : Stage → Ask → Stage
  | created, .begin => running
  | stage, .begin => stage
  | _, .close => closed

/-- The stages that a pool leaves and comes to when it is asked for these things, one after
the other. -/
def changes (stage : Stage) : List Ask → List (Stage × Stage)
  | [] => []
  | ask :: rest =>
    (if stage.answer ask = stage then [] else [(stage, stage.answer ask)]) ++
      (stage.answer ask).changes rest

end Stage

/-- The stages that a pool leaves and comes to, if it has been created and is asked for these
things one after the other. -/
def course : List Ask → List (Stage × Stage)
  | [] => []
  | .begin :: rest => (.created, .running) :: if .close ∈ rest then [(.running, .closed)] else []
  | .close :: _ => [(.created, .closed)]

namespace Stage

/-- A closed pool changes its stage no more. -/
theorem changes_closed (asks : List Ask) : closed.changes asks = [] := by
  induction asks with
  | nil => rfl
  | cons ask rest ih => cases ask <;> exact ih

/-- A running pool has one change to come, and only a close makes it. -/
theorem changes_running (asks : List Ask) :
    running.changes asks = if .close ∈ asks then [(running, closed)] else [] := by
  induction asks with
  | nil => rfl
  | cons ask rest ih =>
    cases ask with
    | begin => simpa [changes, answer] using ih
    | close => simp [changes, answer, changes_closed]

/-- **A pool that has been created goes forward only**, and each stage it comes to, it comes to
once. -/
theorem changes_created (asks : List Ask) : created.changes asks = course asks := by
  cases asks with
  | nil => rfl
  | cons ask rest =>
    cases ask with
    | begin => simp [changes, answer, changes_running, course]
    | close => simp [changes, answer, changes_closed, course]

/-- Closed is where a pool stays. -/
theorem foldl_answer_closed (asks : List Ask) : asks.foldl answer closed = closed := by
  induction asks with
  | nil => rfl
  | cons ask rest ih => cases ask <;> exact ih

/-- From running it goes to closed at the first close, and nowhere else. -/
theorem foldl_answer_running (asks : List Ask) :
    asks.foldl answer running = if .close ∈ asks then closed else running := by
  induction asks with
  | nil => rfl
  | cons ask rest ih =>
    cases ask with
    | begin => simpa [answer] using ih
    | close => simp [answer, foldl_answer_closed]

/-- A single closing closes a pool for good, and short of that any begin makes it run. -/
theorem foldl_answer_created (asks : List Ask) :
    asks.foldl answer created =
      if .close ∈ asks then closed else if .begin ∈ asks then running else created := by
  cases asks with
  | nil => rfl
  | cons ask rest =>
    cases ask with
    | begin => simp [answer, foldl_answer_running]
    | close => simp [answer, foldl_answer_closed]

end Stage

/-- Whether a pool that is asked for this begins: what it is asked for first, before any closing,
is to begin. -/
def begins : List Ask → Bool
  | .begin :: _ => true
  | _ => false

@[simp] theorem begins_nil : begins [] = false := rfl

@[simp] theorem begins_begin (asks : List Ask) : begins (.begin :: asks) = true := rfl

@[simp] theorem begins_close (asks : List Ask) : begins (.close :: asks) = false := rfl

/-- What has been begun stays begun, whatever is asked for later. -/
theorem begins_append {before : List Ask} (h : begins before = true) (after : List Ask) :
    begins (before ++ after) = true := by
  cases before with
  | nil => cases h
  | cons ask rest => cases ask <;> first | rfl | cases h

/-- Whether the notice says that a pool has come to another stage. -/
def Notice.isMilestone : Notice → Bool
  | .poolStarted .. | .poolClosing _ => true
  | _ => false

/-- What is noted when a pool with this plan comes to a stage, on a line with `count`
channels. -/
def PoolPlan.milestone (plan : PoolPlan) (count : Nat) : Stage → Notice
  | .closed => .poolClosing plan.name
  | _ => .poolStarted plan.name plan.workers count plan.cycle

namespace Line

variable {s t : Line α} {a : Action α} {p q : Nat} {stage : Stage}

/-- What pool `p` is asked for by this action. -/
def ask? (s : Line α) (p : Nat) : Action α → Option Ask
  | .begin q => if q = p then some .begin else none
  | .closePool q => if q = p then some .close else none
  | .retire | .shutdown => s.installed.bind fun q => if q = p then some .close else none
  | _ => none

/-- What pool `p` is asked for in a run. -/
def asked (s : Line α) (p : Nat) (actions : List (Action α)) : List Ask :=
  trace (fun s a _ => s.ask? p a) s actions

/-- What was noted of pool `p` when it came to another stage. -/
def milestones (s : Line α) (p : Nat) : List Notice :=
  (s.journal.filter fun x => x.1 = p && x.2.isMilestone).map Prod.snd

/-- Whom the closing of pool `p` woke, each time that it was closed. -/
def wakingsOf (s : Line α) (p : Nat) : List (List Nat) :=
  (s.wakings.filter fun x => x.1 = p).map Prod.snd

/-- What is put down about pool `p` when it comes to another stage. -/
def record (s : Line α) (p : Nat) : List Notice × List (List Nat) :=
  (s.milestones p, s.wakingsOf p)

/-! ## One step -/

/-- A notice adds to the milestones of its own pool, if it is one. -/
theorem milestones_note (s : Line α) (q : Nat) (n : Notice) (p : Nat) :
    (s.note q n).milestones p =
      s.milestones p ++ if q = p ∧ n.isMilestone = true then [n] else [] := by
  unfold milestones note
  rw [List.filter_append, List.map_append, List.filter_singleton]
  by_cases hq : q = p <;> cases n.isMilestone <;> simp [hq]

/-- To wake a pool adds one waking, of all its workers, to its own record. -/
theorem wakingsOf_wake (s : Line α) (q : Nat) (pool : Pool (Parcel α)) (p : Nat) :
    (s.wake q pool).wakingsOf p =
      s.wakingsOf p ++ if q = p then [List.range pool.workers.length] else [] := by
  unfold wakingsOf wake
  rw [List.filter_append, List.map_append, List.filter_singleton]
  by_cases hq : q = p <;> simp [hq]

/-- A notice of another pool adds nothing. -/
theorem record_note_of_ne (s : Line α) (hqp : q ≠ p) (n : Notice) :
    (s.note q n).record p = s.record p := by
  refine Prod.ext ?_ rfl
  exact (milestones_note ..).trans (by rw [if_neg fun h => hqp h.1, List.append_nil]; rfl)

/-- Nor does the waking of another pool. -/
theorem record_wake_of_ne (s : Line α) (hqp : q ≠ p) (pool : Pool (Parcel α)) :
    (s.wake q pool).record p = s.record p := by
  refine Prod.ext rfl ?_
  exact (wakingsOf_wake ..).trans (by rw [if_neg hqp, List.append_nil]; rfl)

/-- What a step makes of pool `p`, which was at this stage and had this plan, if it asks this
of the pool. -/
structure Answers (s t : Line α) (p : Nat) (pool : Pool (Parcel α)) (ask? : Option Ask) :
    Prop where
  stage : t.stage? p = some (ask?.elim pool.stage pool.stage.answer)
  crew : t.crew p = if pool.stage = .created ∧ ask? = some .begin then pool.size else s.crew p
  milestones : t.milestones p = s.milestones p ++
    if ask?.elim pool.stage pool.stage.answer = pool.stage then []
    else [pool.plan.milestone s.store.count (ask?.elim pool.stage pool.stage.answer)]
  wakings : t.wakingsOf p = s.wakingsOf p ++
    if pool.stage ≠ .closed ∧ ask? = some .close then [List.range (s.crew p)] else []

variable {pool pool' : Pool (Parcel α)}

theorem crew_eq (hp : s.pools[p]? = some pool) : s.crew p = pool.workers.length := by
  rw [crew, hp, Option.elim_some]

/-- What is known of pool `p` after a step, if it is `pool'` then and a notice of it is `notes`
at most. -/
theorem answers_of_pool {ask? : Option Ask} (hp' : t.pools[p]? = some pool')
    (hstage : pool'.stage = ask?.elim pool.stage pool.stage.answer)
    (hcrew : pool'.workers.length =
      if pool.stage = .created ∧ ask? = some .begin then pool.size else s.crew p)
    (hnotes : t.milestones p = s.milestones p ++
      if ask?.elim pool.stage pool.stage.answer = pool.stage then []
      else [pool.plan.milestone s.store.count (ask?.elim pool.stage pool.stage.answer)])
    (hwakings : t.wakingsOf p = s.wakingsOf p ++
      if pool.stage ≠ .closed ∧ ask? = some .close then [List.range (s.crew p)] else []) :
    Answers s t p pool ask? where
  stage := by rw [stage?_eq hp', hstage]
  crew := by rw [crew_eq hp', hcrew]
  milestones := hnotes
  wakings := hwakings

/-- The number of workers in terms of what `SparesPools` keeps. -/
theorem crew_eq_getD (s : Line α) (p : Nat) :
    s.crew p = ((s.pools.map fun pool => pool.workers.length)[p]?).getD 0 := by
  rw [crew, List.getElem?_map]
  cases s.pools[p]? <;> rfl

/-- Whoever asks nothing of the pool leaves it at its stage, with the workers it has. -/
theorem answers_none (hp : s.pools[p]? = some pool) (hp' : t.pools[p]? = some pool')
    (hstage : pool'.stage = pool.stage) (hcrew : pool'.workers.length = pool.workers.length)
    (hrecord : t.record p = s.record p) : Answers s t p pool none := by
  obtain ⟨hnotes, hwakings⟩ := Prod.mk.inj hrecord
  exact answers_of_pool hp' hstage (by simp [crew_eq hp, hcrew]) (by simpa using hnotes)
    (by simpa using hwakings)

theorem getElem?_mapPool (s : Line α) (q p : Nat) (f : Pool (Parcel α) → Pool (Parcel α)) :
    (s.mapPool q f).pools[p]? = s.pools[p]?.map fun pool => if q = p then f pool else pool := by
  simp [mapPool, List.getElem?_modify]

/-- Another pool comes to another stage. -/
theorem answers_other (hp : s.pools[p]? = some pool) (hqp : q ≠ p)
    (f : Pool (Parcel α) → Pool (Parcel α)) (n : Notice) :
    Answers s ((s.mapPool q f).note q n) p pool none := by
  have hp' : ((s.mapPool q f).note q n).pools[p]? = some pool := by
    show (s.mapPool q f).pools[p]? = some pool
    rw [getElem?_mapPool, hp, Option.map_some, if_neg hqp]
  exact answers_none hp hp' rfl rfl (record_note_of_ne (s.mapPool q f) hqp n)

/-- What is put in between, and has nothing to do with the pool, does not matter. -/
theorem Answers.congr {ask? : Option Ask} {s' t' : Line α} (h : Answers s t p pool ask?)
    (hcrew : s.crew p = s'.crew p) (hrecord : s.record p = s'.record p)
    (hcount : s.store.count = s'.store.count) (hpool : t'.pools = t.pools)
    (hrecord' : t'.record p = t.record p) : Answers s' t' p pool ask? where
  stage := by rw [stage?, hpool, ← stage?, h.stage]
  crew := by
    have hsame : t'.crew p = t.crew p := by rw [Line.crew, hpool, Line.crew]
    rw [hsame, h.crew, hcrew]
  milestones := by
    rw [(Prod.mk.inj hrecord').1, h.milestones, (Prod.mk.inj hrecord).1, hcount]
  wakings := by
    rw [(Prod.mk.inj hrecord').2, h.wakings, (Prod.mk.inj hrecord).2, hcrew]

/-- To begin pool `q` asks pool `q` to begin and asks the others nothing. Only a pool that was
created starts its workers and reports them. -/
theorem answers_begin (hp : s.pools[p]? = some pool) (hsize : pool.size = pool.plan.workers)
    (q : Nat) : Answers s (s.begin q) p pool (if q = p then some .begin else none) := by
  by_cases hqp : q = p
  · subst hqp
    rw [if_pos rfl, begin, hp]
    simp only
    split
    · next hc =>
      have hp' : ((s.mapPool q Pool.begin).note q (.poolStarted pool.plan.name pool.size
          s.store.count pool.plan.cycle)).pools[q]? = some pool.begin := by
        show (s.mapPool q Pool.begin).pools[q]? = some pool.begin
        rw [getElem?_mapPool, hp, Option.map_some, if_pos rfl]
      have hbegin : pool.begin = { pool with
          stage := .running, workers := pool.assignment.map Worker.ofChannels } := if_pos hc
      refine answers_of_pool hp' ?_ ?_ ?_ ?_
      · rw [hbegin, hc]
        rfl
      · rw [hbegin, hc, if_pos ⟨rfl, rfl⟩, List.length_map, Pool.size]
      · rw [milestones_note, if_pos ⟨rfl, rfl⟩, hc, hsize]
        rfl
      · rw [if_neg (by simp), List.append_nil]
        rfl
    · next hc =>
      have hstage : pool.stage.answer .begin = pool.stage := by
        cases hs : pool.stage <;> first | rfl | exact absurd hs hc
      exact answers_of_pool hp hstage.symm (by simp [hc, crew_eq hp]) (by simp [hstage]) (by simp)
  · rw [if_neg hqp, begin]
    split
    · split
      · exact answers_other hp hqp ..
      · exact answers_none hp hp rfl rfl rfl
    · exact answers_none hp hp rfl rfl rfl

/-- To close pool `q` asks it to close. Only a pool that was running reports it and wakes its
workers, so that to do it again comes to nothing. -/
theorem answers_closePool (hp : s.pools[p]? = some pool) (q : Nat) :
    Answers s (s.closePool q) p pool (if q = p then some .close else none) := by
  have hclosed : pool.stage.answer .close = .closed := by cases pool.stage <;> rfl
  by_cases hqp : q = p
  · subst hqp
    rw [if_pos rfl, closePool, hp]
    simp only
    split
    · next hc =>
      have hstage : pool.stage.answer .close = pool.stage := hclosed.trans hc.symm
      exact answers_of_pool hp hstage.symm (by simp [crew_eq hp]) (by simp [hstage]) (by simp [hc])
    · next hc =>
      have hp' : (((s.mapPool q Pool.close).note q (.poolClosing pool.plan.name)).wake q
          pool).pools[q]? = some pool.close := by
        show (s.mapPool q Pool.close).pools[q]? = some pool.close
        rw [getElem?_mapPool, hp, Option.map_some, if_pos rfl]
      refine answers_of_pool hp' hclosed.symm ?_ ?_ ?_
      · simp [crew_eq hp, Pool.close]
      · refine (milestones_note (s.mapPool q Pool.close) q _ q).trans ?_
        rw [if_pos ⟨rfl, rfl⟩, Option.elim_some, hclosed, if_neg (Ne.symm hc)]
        rfl
      · rw [wakingsOf_wake, if_pos rfl, if_pos ⟨hc, rfl⟩, crew_eq hp]
        rfl
  · rw [if_neg hqp, closePool]
    split
    · split
      · exact answers_none hp hp rfl rfl rfl
      · exact (answers_other hp hqp Pool.close _).congr rfl rfl rfl rfl
          (record_wake_of_ne _ hqp _)
    · exact answers_none hp hp rfl rfl rfl

/-- An installation asks the pools that exist already for nothing: the pool it begins is new. -/
theorem answers_install (hp : s.pools[p]? = some pool) (hsize : pool.size = pool.plan.workers)
    {plan : PoolPlan} (hi : s.install plan = .ok t) : Answers s t p pool none := by
  obtain ⟨new, -, rfl⟩ := of_install_eq_ok hi
  have hlt := (List.getElem?_eq_some_iff.mp hp).1
  have hp' : ({ s with pools := s.pools ++ [new] } : Line α).pools[p]? = some pool := by
    rw [List.getElem?_append_left hlt, hp]
  have hanswers := answers_begin hp' hsize s.pools.length
  rw [if_neg (Nat.ne_of_gt hlt)] at hanswers
  exact hanswers.congr ((crew_eq hp').trans (crew_eq hp).symm) rfl rfl rfl rfl

/-- The end of an exchange closes the pool that was active before. -/
theorem answers_retire (hp : s.pools[p]? = some pool) (hr : s.retire = some t) :
    Answers s t p pool (s.ask? p .retire) := by
  rw [ask?]
  unfold retire at hr
  split at hr
  · next new _ =>
    have hanswers : ∀ old, Answers s ((s.adopt new).closePool old) p pool
        (if old = p then some .close else none) := fun old =>
      (answers_closePool (s := s.adopt new) hp old).congr rfl rfl rfl rfl rfl
    split at hr
    · next old pool' hold _ =>
      cases hr
      rw [hold]
      refine (hanswers old).congr rfl rfl rfl rfl (Prod.ext ((milestones_note ..).trans ?_) rfl)
      rw [if_neg fun h => nomatch h.2]
      exact List.append_nil _
    · next old hold _ =>
      cases hr
      rw [hold]
      exact hanswers old
    · next hnone =>
      cases hr
      rw [hnone]
      exact answers_none hp hp rfl rfl rfl
  · cases hr

/-- Steps that spare the pools report nothing of them and wake nobody. -/
theorem SparesPools.record (h : s.SparesPools t) (p : Nat) : t.record p = s.record p := by
  rw [Line.record, milestones, h.journal, wakingsOf, h.wakings]
  rfl

/-- **What a step does to a pool is what it asks of the pool.** -/
theorem answers_of_step (hf : s.Fit) (hs : s.step a = some t) (hp : s.pools[p]? = some pool) :
    Answers s t p pool (s.ask? p a) := by
  have hsize : pool.size = pool.plan.workers := (hf.pool hp).size_eq
  cases htraffic : a.isTraffic with
  | true =>
    have hask : s.ask? p a = none := by
      cases a <;> first | rfl | cases htraffic
    have hspares := sparesPools_traffic htraffic hs
    have hcrew : t.crew p = s.crew p := by rw [crew_eq_getD, hspares.crews, crew_eq_getD]
    obtain ⟨hnotes, hwakings⟩ := Prod.mk.inj (hspares.record p)
    rw [hask]
    exact ⟨(stage?_of_standing hspares.standing p).trans (stage?_eq hp), by simp [hcrew],
      by simpa using hnotes, by simpa using hwakings⟩
  | false =>
    cases a with
    | build plan =>
      obtain ⟨new, -, rfl⟩ := of_build_eq_ok (of_step_build hs)
      have hp' : (s.pools ++ [new])[p]? = some pool := by
        rw [List.getElem?_append_left (List.getElem?_eq_some_iff.mp hp).1, hp]
      exact answers_none hp hp' rfl rfl rfl
    | begin q =>
      cases hs
      exact answers_begin hp hsize q
    | install plan => exact answers_install hp hsize (of_step_install hs).2
    | publish =>
      obtain ⟨q, -, rfl⟩ := of_publish hs
      exact answers_none hp hp rfl rfl rfl
    | retire => exact answers_retire hp hs
    | shutdown =>
      simp only [step, Option.ite_none_right_eq_some, Option.some.injEq] at hs
      obtain ⟨-, rfl⟩ := hs
      rw [ask?, shutdown]
      cases s.installed with
      | none => exact answers_none hp hp rfl rfl rfl
      | some q => exact answers_closePool hp q
    | closePool q =>
      cases hs
      exact answers_closePool hp q
    | _ => cases htraffic

/-! ## Pools that have not come to a stage yet -/

theorem record_begin_of_ne (s : Line α) (hqp : q ≠ p) : (s.begin q).record p = s.record p := by
  unfold begin
  split
  · split
    · exact record_note_of_ne (s.mapPool q Pool.begin) hqp _
    · exact rfl
  · exact rfl

theorem record_closePool_of_ne (s : Line α) (hqp : q ≠ p) :
    (s.closePool q).record p = s.record p := by
  unfold closePool
  split
  · split
    · exact rfl
    · have hnote := record_note_of_ne (s.mapPool q Pool.close) hqp
      exact (record_wake_of_ne _ hqp _).trans (hnote _)
  · exact rfl

/-- Nobody puts anything down about a pool that is not there. -/
theorem record_of_none (hp : s.pools[p]? = none) (q : Nat) :
    (s.begin q).record p = s.record p ∧ (s.closePool q).record p = s.record p := by
  by_cases hqp : q = p
  · subst hqp
    rw [begin, closePool, hp]
    exact ⟨rfl, rfl⟩
  · exact ⟨s.record_begin_of_ne hqp, s.record_closePool_of_ne hqp⟩

/-- A pool that does not exist is not closed at the end of an exchange. -/
theorem record_retire (hp : s.pools[p]? = none) (hr : s.retire = some t) :
    t.record p = s.record p := by
  unfold retire at hr
  split at hr
  · next new _ =>
    have hclose : ∀ old, ((s.adopt new).closePool old).record p = s.record p := fun old =>
      (record_of_none (s := s.adopt new) hp old).2
    split at hr
    · next old pool' _ hnew =>
      cases hr
      refine (record_note_of_ne _ ?_ _).trans (hclose old)
      rintro rfl
      cases hp.symm.trans hnew
    · next old _ _ =>
      cases hr
      exact hclose old
    · cases hr
      exact rfl
  · cases hr

/-- A pool that a step builds, and does not begin, has not come to a stage. -/
theorem record_of_absent (hs : s.step a = some t) (hp : s.pools[p]? = none)
    (hstage : t.stage? p = none ∨ t.stage? p = some .created) : t.record p = s.record p := by
  cases htraffic : a.isTraffic with
  | true => exact (sparesPools_traffic htraffic hs).record p
  | false =>
    cases a with
    | build plan =>
      obtain ⟨new, -, rfl⟩ := of_build_eq_ok (of_step_build hs)
      exact rfl
    | begin q =>
      cases hs
      exact (record_of_none hp q).1
    | install plan =>
      have hi := (of_step_install hs).2
      have hne : s.pools.length ≠ p := by
        rintro rfl
        rw [stage?_install hi] at hstage
        rcases hstage with hstage | hstage <;> cases hstage
      obtain ⟨new, -, rfl⟩ := of_install_eq_ok hi
      exact record_begin_of_ne { s with pools := s.pools ++ [new] } hne
    | publish =>
      obtain ⟨q, -, rfl⟩ := of_publish hs
      exact rfl
    | retire => exact record_retire hp hs
    | shutdown =>
      rcases of_step_shutdown hs with rfl | ⟨q, rfl⟩
      · exact rfl
      · exact (record_of_none hp q).2
    | closePool q =>
      cases hs
      exact (record_of_none hp q).2
    | _ => cases htraffic

/-- Nothing is put down about a pool before it comes to another stage than its first. -/
theorem Reachable.record_eq_nil (h : s.Reachable)
    (hstage : s.stage? p = none ∨ s.stage? p = some .created) :
    s.record p = ([], []) := by
  obtain ⟨start, hfresh, hr⟩ := h
  induction hr with
  | refl =>
    obtain ⟨_, _, _, _, store, _, rfl⟩ := hfresh
    rfl
  | @step u v a hr hs ih =>
    cases hp : u.pools[p]? with
    | none =>
      have habsent : u.stage? p = none := by rw [stage?, List.getElem?_map, hp, Option.map_none]
      rw [record_of_absent hs hp hstage]
      exact ih (.inl habsent)
    | some pool =>
      have hu : u.Reachable := ⟨start, hfresh, hr⟩
      have hanswers := answers_of_step hu.fit hs hp
      have hcreated : (u.ask? p a).elim pool.stage pool.stage.answer = .created := by
        rw [hanswers.stage] at hstage
        rcases hstage with hstage | hstage
        · cases hstage
        · exact Option.some.inj hstage
      -- A pool that has been asked for anything is past its first stage.
      have hnone : u.ask? p a = none := by
        cases hask : u.ask? p a with
        | none => rfl
        | some ask =>
          rw [hask] at hcreated
          cases ask <;> cases hold : pool.stage <;> rw [hold] at hcreated <;> cases hcreated
      rw [hnone, Option.elim_none] at hcreated
      rw [record, hanswers.milestones, hanswers.wakings, hnone, Option.elim_none, if_pos rfl,
        if_neg (by simp), List.append_nil, List.append_nil]
      exact ih (.inr (by rw [stage?_eq hp, hcreated]))

/-! ## A run -/

/-- The stage that pool `p` leaves in a step from `s` to `t`, and the one it comes to. -/
def stageChange? (p : Nat) (s : Line α) (_ : Action α) (t : Line α) : Option (Stage × Stage) :=
  match s.stage? p, t.stage? p with
  | some old, some new => if new = old then none else some (old, new)
  | _, _ => none

/-- How many workers pool `p` had before a step from `s` to `t`, and how many after it, if
that has changed. -/
def crewChange? (p : Nat) (s : Line α) (_ : Action α) (t : Line α) : Option (Nat × Nat) :=
  if t.crew p = s.crew p then none else some (s.crew p, t.crew p)

/-- What a run makes of pool `p`, whatever stage it was at before. -/
structure Lives (s : Line α) (p : Nat) (pool : Pool (Parcel α)) (actions : List (Action α)) :
    Prop where
  stage : (s.after actions).stage? p = some ((s.asked p actions).foldl Stage.answer pool.stage)
  stages : trace (stageChange? p) s actions = pool.stage.changes (s.asked p actions)
  crew : (s.after actions).crew p =
    if pool.stage = .created ∧ begins (s.asked p actions) = true then pool.plan.workers
    else s.crew p
  crews : trace (crewChange? p) s actions =
    if pool.stage = .created ∧ begins (s.asked p actions) = true
    then [(0, pool.plan.workers)] else []
  milestones : (s.after actions).milestones p = s.milestones p ++
    (pool.stage.changes (s.asked p actions)).map fun x => pool.plan.milestone s.store.count x.2
  wakings : (s.after actions).wakingsOf p = s.wakingsOf p ++
    if pool.stage ≠ .closed ∧ .close ∈ s.asked p actions
    then [List.range ((s.after actions).crew p)] else []

/-- The stages left in a run: what the first step leaves, then the rest. -/
theorem trace_stageChange_cons {pool' : Pool (Parcel α)} (hs : s.step a = some t)
    (hp : s.pools[p]? = some pool) (hp' : t.pools[p]? = some pool') (rest : List (Action α)) :
    trace (stageChange? p) s (a :: rest) =
      (if pool'.stage = pool.stage then [] else [(pool.stage, pool'.stage)]) ++
        trace (stageChange? p) t rest := by
  rw [trace_cons_of_some _ hs, stageChange?, stage?_eq hp, stage?_eq hp']
  by_cases h : pool'.stage = pool.stage <;> simp [h]

theorem lives_nil (hp : s.pools[p]? = some pool) : s.Lives p pool [] :=
  ⟨stage?_eq hp, rfl, by simp [asked, trace, after], by simp [asked, trace],
    by simp [asked, trace, after, Stage.changes], by simp [asked, trace, after]⟩

/-- An action that cannot happen is left out. -/
theorem Lives.cons_of_none {rest : List (Action α)} (hs : s.step a = none)
    (h : s.Lives p pool rest) : s.Lives p pool (a :: rest) := by
  have hasked : s.asked p (a :: rest) = s.asked p rest := trace_cons_of_none _ hs rest
  obtain ⟨hstage, hstages, hcrew, hcrews, hnotes, hwakings⟩ := h
  exact ⟨by rw [after_cons_of_none hs, hasked, hstage],
    by rw [trace_cons_of_none _ hs, hasked, hstages],
    by rw [after_cons_of_none hs, hasked, hcrew],
    by rw [trace_cons_of_none _ hs, hasked, hcrews],
    by rw [after_cons_of_none hs, hasked, hnotes],
    by rw [after_cons_of_none hs, hasked, hwakings]⟩

/-- A step does to the pool what it asks of it, and then comes the rest of the run. -/
theorem Lives.cons_of_some {rest : List (Action α)} (hfit : pool.Fit s.store.count)
    (hs : s.step a = some t) (hanswers : Answers s t p pool (s.ask? p a))
    (hp : s.pools[p]? = some pool) (hp' : t.pools[p]? = some pool')
    (hplan : pool'.plan = pool.plan) (hcount : t.store.count = s.store.count)
    (h : t.Lives p pool' rest) : s.Lives p pool (a :: rest) := by
  have hstage : pool'.stage = (s.ask? p a).elim pool.stage pool.stage.answer :=
    Option.some.inj ((stage?_eq hp').symm.trans hanswers.stage)
  have hasked : s.asked p (a :: rest) = (s.ask? p a).toList ++ t.asked p rest :=
    trace_cons_of_some _ hs rest
  refine ⟨?_, ?_, ?_, ?_, ?_, ?_⟩
  · rw [after_cons_of_some hs, h.stage, hasked, hstage]
    cases s.ask? p a <;> rfl
  · rw [trace_stageChange_cons hs hp hp', h.stages, hasked, hstage]
    cases s.ask? p a with
    | none => simp
    | some ask => rfl
  · rw [after_cons_of_some hs, h.crew, hasked, hstage, hplan, hanswers.crew, hfit.size_eq]
    cases s.ask? p a with
    | none =>
      simp only [Option.elim_none, Option.toList_none, List.nil_append, reduceCtorEq, and_false,
        if_false]
      exact if_congr Iff.rfl rfl rfl
    | some ask => cases ask <;> cases pool.stage <;> simp [Stage.answer]
  · rw [trace_cons_of_some _ hs, h.crews, hasked, hstage, hplan, crewChange?, hanswers.crew,
      hfit.size_eq]
    cases s.ask? p a with
    | none =>
      simp only [Option.elim_none, Option.toList_none, List.nil_append, reduceCtorEq, and_false,
        if_false, if_true]
      exact if_congr Iff.rfl rfl rfl
    | some ask =>
      cases hc : pool.stage with
      | created =>
        -- There was nobody before, so that the workers who come are a change.
        have hnobody : s.crew p = 0 := by rw [crew_eq hp, hfit.created hc, List.length_nil]
        have hpos : pool.plan.workers ≠ 0 := Nat.ne_of_gt hfit.size
        cases ask <;> simp [Stage.answer, hnobody, hpos]
      | running => cases ask <;> simp [Stage.answer]
      | closed => cases ask <;> simp [Stage.answer]
  · rw [after_cons_of_some hs, h.milestones, hanswers.milestones, hasked, hstage, hplan, hcount,
      List.append_assoc]
    cases s.ask? p a with
    | none => simp
    | some ask =>
      rw [Option.elim_some, Option.toList_some, List.singleton_append, Stage.changes,
        List.map_append]
      split <;> rfl
  · rw [after_cons_of_some hs, h.wakings, hanswers.wakings, hasked, hstage]
    cases hask : s.ask? p a with
    | none =>
      simp only [Option.elim_none, Option.toList_none, List.nil_append, reduceCtorEq, and_false,
        if_false, List.append_nil]
      exact congrArg _ (if_congr Iff.rfl rfl rfl)
    | some ask =>
      cases ask with
      | begin => cases pool.stage <;> simp [Stage.answer]
      | close =>
        -- Nobody joins a pool that is closed, so those who are woken are all there will be.
        have hclosed : pool.stage.answer .close = .closed := by cases pool.stage <;> rfl
        have hcrew : (t.after rest).crew p = s.crew p := by
          rw [h.crew, hstage, hask, Option.elim_some, hclosed, if_neg fun h => (nomatch h.1),
            hanswers.crew, hask, if_neg fun h => (nomatch h.2)]
        simp [hclosed, hcrew]

/-- The life of a pool goes by what it was asked for. By induction over the actions:
`answers_of_step` says it for the first one, and `Lives.cons_of_some` puts it before what the
others come to. -/
theorem Reachable.lives (h : s.Reachable) (hp : s.pools[p]? = some pool)
    (actions : List (Action α)) : s.Lives p pool actions := by
  induction actions generalizing s pool with
  | nil => exact lives_nil hp
  | cons a rest ih =>
    cases hs : s.step a with
    | none => exact (ih h hp).cons_of_none hs
    | some t =>
      have hr : Reaches s t := .step a .refl hs
      obtain ⟨pool', hp', hplan⟩ := hr.plan_after h hp
      exact .cons_of_some (h.fit.pool hp) hs (answers_of_step h.fit hs hp) hp hp' hplan
        (hr.count h) (ih (h.reaches hr) hp')

/-! ## The life of a pool -/

/-- Pool `p` has no worker: no hook is called for it, and nothing is taken from the channels. -/
structure Deserted (s : Line α) (p : Nat) : Prop where
  workers : ∀ pool, s.pools[p]? = some pool → pool.workers = []
  work : ∀ w, s.step (.work p w) = none
  endHook : ∀ w how, s.step (.endHook p w how) = none
  took : ∀ w, s.took p w = []

/-- Pool `p` is closed: it is asked for nothing any more that would change anything. -/
structure ClosedForGood (s : Line α) (p : Nat) : Prop where
  begin : s.begin p = s
  closePool : s.closePool p = s

/-- Pool `p` admits those who ask for it while it runs, and nobody else. -/
structure AdmitsWhileRunning (s : Line α) (p : Nat) : Prop where
  asked : ∀ (i : Nat) c, s.calls[i]? = some c → c.place = .counted p →
    ∃ t c', s.step (.advance i) = some t ∧ t.calls[i]? = some c' ∧
      c'.pass = if s.stage? p = some .running then some p else none
  granted : ∀ a t (i : Nat) c', s.step a = some t → t.calls[i]? = some c' → c'.pass = some p →
    ∃ c, s.calls[i]? = some c ∧
      (c.pass = some p ∨ c.place = .counted p ∧ s.stage? p = some .running)

/-- What becomes in a run of pool `p`, which has been created by this plan. -/
structure LivesOnce (s : Line α) (p : Nat) (plan : PoolPlan) (actions : List (Action α)) :
    Prop where
  /-- It goes forward only, from one stage to the next. -/
  stages : trace (stageChange? p) s actions = course (s.asked p actions)
  stage : (s.after actions).stage? p = some
    (if .close ∈ s.asked p actions then .closed
    else if .begin ∈ s.asked p actions then .running else .created)
  /-- Its workers are started all together and once, if it is asked to begin before it is asked
  to close. -/
  crews : trace (crewChange? p) s actions =
    if begins (s.asked p actions) then [(0, plan.workers)] else []
  workers : ∃ pool, (s.after actions).pools[p]? = some pool ∧ pool.plan = plan ∧
    pool.workers.map Worker.channels =
      if begins (s.asked p actions) then Assignment.deal plan.workers s.store.count else []
  /-- If not, it never has a worker. -/
  deserted : begins (s.asked p actions) = false →
    ∀ before, before <+: actions → (s.after before).Deserted p
  /-- It is noted once that it has begun, and once that it closes, if it does. -/
  milestones : (s.after actions).milestones p =
    (course (s.asked p actions)).map fun x => plan.milestone s.store.count x.2
  /-- Its workers are woken once, all that it has, if it is closed, and never if it is not. -/
  wakings : (s.after actions).wakingsOf p =
    if .close ∈ s.asked p actions then
      [if begins (s.asked p actions) then List.range plan.workers else []]
    else []
  closed : .close ∈ s.asked p actions → (s.after actions).ClosedForGood p
  admits : (s.after actions).AdmitsWhileRunning p

/-- A pool without workers has nothing that could take, deliver or leave. -/
theorem deserted_of_workers (hp : s.pools[p]? = some pool) (hnil : pool.workers = []) :
    s.Deserted p where
  workers pool' hp' := by
    rw [hp] at hp'
    cases hp'
    exact hnil
  work w := by simp [step, work, hp, hnil]
  endHook w how := by simp [step, endHook, hp, hnil]
  took w := by simp [took, worker?, hp, hnil]

/-- Whoever asks a closed pool again leaves everything as it is. -/
theorem closedForGood_of_closed (hp : s.pools[p]? = some pool) (hclosed : pool.stage = .closed) :
    s.ClosedForGood p where
  begin := by simp [begin, hp, hclosed]
  closePool := by simp [closePool, hp, hclosed]

/-- The gate lets a call in exactly while the pool runs. -/
theorem Reachable.admitsWhileRunning (h : s.Reachable) (p : Nat) : s.AdmitsWhileRunning p where
  asked i c hc hplace := by
    have hlt := (List.getElem?_eq_some_iff.mp hc).1
    have hnone : c.pass = none := h.admits.pass_eq_none hc (by rw [hplace]; rfl)
    have hs : s.step (.advance i) = some (s.enter i p c.errand) := by
      simp [step, advance, hc, hplace]
    refine ⟨_, _, hs, List.getElem?_eq_getElem ?_, ?_⟩
    · unfold enter
      split <;> simpa [mapCall, moveCall] using hlt
    · have hget : s.calls[i] = c := (List.getElem?_eq_some_iff.mp hc).2
      by_cases hrun : s.isRunning p = true
      · simp [enter, hrun, isRunning_iff.mp hrun, mapCall]
      · have hstage : s.stage? p ≠ some .running := fun he => hrun (isRunning_iff.mpr he)
        simp [enter, hrun, hstage, moveCall, mapCall, hget, hnone]
  granted a t i c' hs hc' hpass := by
    rcases calls_of_step h.named hs with ⟨hsame, -⟩ | e
    · exact ⟨c', hsame ▸ hc', .inl hpass⟩
    · rcases e.call_before hc' with ⟨-, hnone⟩ | ⟨c, hc, rfl | turn⟩
      · rw [hnone] at hpass
        cases hpass
      · exact ⟨_, hc, .inl hpass⟩
      · refine ⟨c, hc, ?_⟩
        cases turn with
        | enter hplace hq hrun =>
          cases hpass
          exact .inr ⟨hplace, by rw [stage?_eq hq, hrun]⟩
        | _ => exact .inl hpass

/-- **A pool lives once.** -/
theorem Reachable.livesOnce (h : s.Reachable) (hp : s.pools[p]? = some pool)
    (hcreated : pool.stage = .created) (actions : List (Action α)) :
    s.LivesOnce p pool.plan actions := by
  have hlives : ∀ actions, s.Lives p pool actions := fun actions => h.lives hp actions
  have hreached : ∀ actions, (s.after actions).Reachable := fun actions =>
    h.reaches (s.reaches_after actions)
  have hnobody : s.crew p = 0 := by
    rw [crew_eq hp, (h.fit.pool hp).created hcreated, List.length_nil]
  obtain ⟨hunnoted, hasleep⟩ :=
    Prod.mk.inj (h.record_eq_nil (p := p) (.inr (by rw [stage?_eq hp, hcreated])))
  have hsize := (h.fit.pool hp).size
  have hcrew : ∀ actions, (s.after actions).crew p =
      if begins (s.asked p actions) then pool.plan.workers else 0 := by
    intro actions
    rw [(hlives actions).crew, hcreated, hnobody]
    simp
  obtain ⟨pool', hp', hplan⟩ := (s.reaches_after actions).plan_after h hp
  have hfit := (hreached actions).fit.pool hp'
  refine
    { stages := by rw [(hlives actions).stages, hcreated, Stage.changes_created]
      stage := by rw [(hlives actions).stage, hcreated, Stage.foldl_answer_created]
      crews := by rw [(hlives actions).crews, hcreated]; simp
      workers := ⟨pool', hp', hplan, ?_⟩
      deserted := ?_
      milestones := ?_
      wakings := ?_
      closed := ?_
      admits := (hreached actions).admitsWhileRunning p }
  · have hlength := hcrew actions
    rw [crew_eq hp'] at hlength
    split
    · next hbegin =>
      rw [if_pos hbegin] at hlength
      have hne : pool'.workers ≠ [] := List.ne_nil_of_length_pos (by omega)
      rw [hfit.channels.resolve_left hne, hfit.assignment, hplan,
        (s.reaches_after actions).count h]
    · next hbegin =>
      rw [if_neg hbegin] at hlength
      rw [List.length_eq_zero_iff.mp hlength, List.map_nil]
  · rintro hbegin before ⟨rest, rfl⟩
    have hbefore : begins (s.asked p before) ≠ true := by
      intro hbefore
      rw [asked, trace_append, ← asked, begins_append hbefore] at hbegin
      cases hbegin
    obtain ⟨pool'', hp'', -⟩ := (s.reaches_after before).plan_after h hp
    have hlength := hcrew before
    rw [if_neg hbefore, crew_eq hp''] at hlength
    exact deserted_of_workers hp'' (List.length_eq_zero_iff.mp hlength)
  · rw [(hlives actions).milestones, hunnoted, List.nil_append, hcreated, Stage.changes_created]
  · rw [(hlives actions).wakings, hasleep, List.nil_append, hcrew, hcreated]
    by_cases hclose : Ask.close ∈ s.asked p actions
    · rw [if_pos ⟨Stage.noConfusion, hclose⟩, if_pos hclose]
      split <;> rfl
    · rw [if_neg fun h => hclose h.2, if_neg hclose]
  · intro hclose
    refine closedForGood_of_closed hp' ?_
    have hstage := (hlives actions).stage
    rw [hcreated, Stage.foldl_answer_created, if_pos hclose, stage?_eq hp'] at hstage
    exact Option.some.inj hstage

end Line

end Conveyor
