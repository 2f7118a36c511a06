/-
Conveyor.Proofs.Rest — a line whose threads take turns comes to a rest.

Calls go on, hooks end when the consumers want them to, and workers go round their
channels unless they have no reason to. Each such turn lowers `Line.turnBound`
(`Reachable.turnBound_lt`), so there are no more of them than this number, in whatever
order they come. The schedule of `Conveyor.Line.Schedule` therefore goes on until nobody
has anything to do (`Reachable.comes_to_rest`).
-/
import Conveyor.Proofs.Workers

namespace Conveyor

variable {α : Type u}

/-! ## The turns that one worker has left -/

namespace Worker

variable (worker : Worker α) {empty empty' : List Nat → Bool}

theorem lastTurns_le (round : Round) : round.lastTurns ≤ worker.turnsAfter round :=
  Nat.le_add_right ..

theorem turnsAfter_le (round : Round) :
    worker.turnsAfter round ≤ round.lastTurns + worker.roundLength := by
  unfold turnsAfter
  split <;> omega

theorem turnsLeft_afterRound (round : Round) :
    (worker.moveTo (afterRound round)).turnsLeft empty = worker.turnsAfter round := by
  cases round <;> rfl

theorem turnsLeft_of_sweeping {round : Round} {todo : List Nat} {batch : Batch α}
    (h : worker.station = .sweeping round todo batch) :
    worker.turnsLeft empty = todo.length + 6 +
      if empty todo then worker.turnsAfter round else round.lastTurns := by
  rw [turnsLeft, h]

/-- Items that come in put no worker further away. -/
theorem turnsLeft_le_of_empty (h : ∀ channels, empty' channels = true → empty channels = true) :
    worker.turnsLeft empty' ≤ worker.turnsLeft empty := by
  cases hst : worker.station with
  | sweeping round todo batch =>
    simp only [turnsLeft, hst]
    have hlast := worker.lastTurns_le round
    cases he : empty' todo with
    | true => simp [h todo he]
    | false =>
      rw [if_neg Bool.false_ne_true]
      split <;> omega
  | _ => simp [turnsLeft, hst]

/-- Items that go out put a worker no more than a round further away. -/
theorem turnsLeft_le_add :
    worker.turnsLeft empty' ≤ worker.turnsLeft empty + worker.roundLength := by
  cases hst : worker.station with
  | sweeping round todo batch =>
    simp only [turnsLeft, hst]
    have hlast := worker.lastTurns_le round
    have hafter := worker.turnsAfter_le round
    split <;> split <;> omega
  | _ => simp [turnsLeft, hst]

variable {worker} {round : Round} {n : Nat} {rest : List Nat} {batch batch' : Batch α}

/-- A channel without items is one channel less ahead. -/
theorem turnsLeft_swept_lt (h : worker.station = .sweeping round (n :: rest) batch)
    (hempty : empty (n :: rest) = empty rest) :
    (worker.moveTo (.sweeping round rest batch')).turnsLeft empty < worker.turnsLeft empty := by
  rw [worker.turnsLeft_of_sweeping h, hempty, List.length_cons, turnsLeft_of_sweeping _ rfl]
  exact Nat.add_lt_add_right (by omega) _

/-- After a channel with items the worker has a round more to go at most, which it did not
count before. -/
theorem turnsLeft_swept_lt_add (h : worker.station = .sweeping round (n :: rest) batch)
    (hfull : empty (n :: rest) = false) :
    (worker.moveTo (.sweeping round rest batch')).turnsLeft empty' <
      worker.turnsLeft empty + worker.roundLength := by
  have hnext : (worker.moveTo (.sweeping round rest batch')).turnsLeft empty' =
      rest.length + 6 + if empty' rest then worker.turnsAfter round else round.lastTurns := rfl
  have hafter := worker.turnsAfter_le round
  have hlast := worker.lastTurns_le round
  rw [hnext, worker.turnsLeft_of_sweeping h, hfull, if_neg Bool.false_ne_true, List.length_cons]
  split <;> omega

end Worker

/-- What a reader leaves. -/
theorem Lane.IsSound.size_of_take {l : Lane α} (h : l.IsSound) {limit : Nat} {taken : Taken α}
    (ht : l.take limit = .ok taken) : taken.lane.size = l.size - limit := by
  obtain ⟨l', htake, hl', -⟩ := Holds.take h limit
  rw [htake] at ht
  cases ht
  rw [hl'.size_eq, Holds.size_eq h, List.length_drop]

/-- A write adds one item at most, and leaves one at least. -/
theorem Lane.IsSound.size_of_accepted {l l' : Lane α} (h : l.IsSound) {policy : WhenFull} {a : α}
    {how : Acceptance} {out : Option α} (ha : l.attempt policy a = .ok (.accepted how out l')) :
    0 < l'.size ∧ l'.size ≤ l.size + 1 := by
  obtain ⟨hl', rest, hold, hnew⟩ := h.of_accepted ha
  rw [Holds.size_eq hl', Holds.size_eq h, hold, hnew, List.length_append, List.length_append,
    List.length_singleton]
  omega

namespace Line

variable {s t : Line α} {p w i : Nat} {pool pool' : Pool (Parcel α)}
  {worker worker' : Worker (Parcel α)} {cast : Cast α}

theorem turnBound_eq (s : Line α) : s.turnBound =
    (s.overWorkers Worker.roundLength + 1) * s.stepsLeft +
      s.overWorkers Worker.roundLength * s.store.size +
        s.overWorkers fun worker => worker.turnsLeft s.areEmpty := rfl

theorem channelsEmpty_eq (s : Line α) (worker : Worker (Parcel α)) :
    s.channelsEmpty worker = s.areEmpty worker.channels := rfl

theorem areEmpty_cons {n : Nat} {rest : List Nat}
    (h : (s.store.lanes[n]?.all Lane.isEmpty) = true) :
    s.areEmpty (n :: rest) = s.areEmpty rest := by
  simp [areEmpty, h]

/-- A worker that goes on by itself, and does not rest, has a turn less. -/
theorem Pace.turnsLeft_lt (pace : Pace s pool worker worker')
    (hrest : s.isResting pool worker = false) :
    worker'.turnsLeft s.areEmpty < worker.turnsLeft s.areEmpty := by
  cases pace with
  | @enter hook hd =>
    have hleft : worker.turnsLeft s.areEmpty = worker.turnsAfterHook hook + 2 := by
      rw [Worker.turnsLeft, hd]
    rw [hleft]
    exact Nat.lt_succ_self _
  | @leave hook how hi =>
    have hleft : worker.turnsLeft s.areEmpty = worker.turnsAfterHook hook + 1 := by
      rw [Worker.turnsLeft, hi]
    rw [hleft]
    cases hook with
    | error round => exact Nat.lt_succ_of_le (Nat.le_of_eq (worker.turnsLeft_afterRound round))
    | start | consume | exit => exact Nat.lt_succ_self _
  | watch hw =>
    have hleft : worker.turnsLeft s.areEmpty = 3 + (worker.channels.length + 7) := by
      rw [Worker.turnsLeft, hw]
      rfl
    rw [hleft, Line.watch]
    cases hr : pool.isRunning with
    | true =>
      have hfull : s.areEmpty worker.channels = false := by
        simpa [isResting, hw, hr, channelsEmpty_eq] using hrest
      have hnext : (worker.moveTo (.sweeping .running worker.channels [])).turnsLeft s.areEmpty =
          worker.channels.length + 6 + if s.areEmpty worker.channels then
            worker.turnsAfter .running else 3 := rfl
      rw [if_pos rfl, hnext, hfull, if_neg Bool.false_ne_true]
      omega
    | false =>
      have hnext : (worker.moveTo .checking).turnsLeft s.areEmpty =
          2 + (worker.channels.length + 7) := rfl
      rw [if_neg Bool.false_ne_true, hnext]
      omega
  | check hc =>
    have hleft : worker.turnsLeft s.areEmpty = 2 + (worker.channels.length + 7) := by
      rw [Worker.turnsLeft, hc]
      rfl
    rw [hleft, Line.check]
    split
    · next ha =>
      have hfull : s.areEmpty worker.channels = false := by
        simpa [isResting, hc, ha, channelsEmpty_eq] using hrest
      have hnext : (worker.moveTo (.sweeping .lingering worker.channels [])).turnsLeft
          s.areEmpty = worker.channels.length + 6 + if s.areEmpty worker.channels then
            worker.turnsAfter .lingering else 2 := rfl
      rw [hnext, hfull, if_neg Bool.false_ne_true]
      omega
    · have hnext : (worker.moveTo (.sweeping .final worker.channels [])).turnsLeft s.areEmpty =
          worker.channels.length + 6 + if s.areEmpty worker.channels then 2 else 2 := rfl
      rw [hnext, ite_self]
      omega
  | skip hst hl => exact Worker.turnsLeft_swept_lt hst (areEmpty_cons (by rw [hl]; rfl))
  | fail hst =>
    rw [worker.turnsLeft_of_sweeping hst]
    exact Nat.lt_of_lt_of_le (Nat.succ_pos _) (Nat.le_add_right ..)
  | @handOver round batch hst =>
    have hleft : worker.turnsLeft s.areEmpty = 6 + worker.turnsAfter round := by
      rw [worker.turnsLeft_of_sweeping hst, List.length_nil, Nat.zero_add]
      rfl
    rw [hleft, Line.handOver]
    split
    · rw [worker.turnsLeft_afterRound]
      omega
    · have hnext : (worker.moveTo (.door (.consume round batch))).turnsLeft s.areEmpty =
          worker.turnsAfter round + 3 + 2 := rfl
      rw [hnext]
      omega

/-- A worker has a turn less when it has counted what became of its batch. -/
theorem turnsLeft_settled_lt {round : Round} {batch : Batch (Parcel α)}
    {e : Option ConsumeError} (hst : worker.station = .settling round batch e)
    (empty : List Nat → Bool) :
    (worker.moveTo (e.elim (Worker.afterRound round) fun e =>
      .door (.error round batch e))).turnsLeft empty < worker.turnsLeft empty := by
  have hleft : worker.turnsLeft empty = worker.turnsAfter round + 3 := by
    rw [Worker.turnsLeft, hst]
  rw [hleft]
  cases e with
  | none =>
    rw [Option.elim_none, worker.turnsLeft_afterRound]
    omega
  | some e => exact Nat.lt_succ_self _

/-! ## Items and channels -/

/-- Where a channel with items still has some, no channel has come to be empty. -/
theorem areEmpty_of_setLane {n : Nat} {lane lane' : Lane (Parcel α)}
    (hl : s.store.lanes[n]? = some lane) (hstore : t.store = s.store.setLane n lane')
    (hempty : lane'.isEmpty = true → lane.isEmpty = true) (channels : List Nat)
    (h : t.areEmpty channels = true) : s.areEmpty channels = true := by
  rw [areEmpty, List.all_eq_true] at h ⊢
  intro c hc
  have hnow := h c hc
  rw [hstore, LaneSet.setLane, List.getElem?_set] at hnow
  split at hnow
  · next heq =>
    subst heq
    rw [hl]
    rw [if_pos (List.getElem?_eq_some_iff.mp hl).1] at hnow
    exact hempty hnow
  · exact hnow

/-- A channel that is replaced changes the number of items by its own. -/
theorem size_setLane_le {n k m : Nat} {lane lane' : Lane (Parcel α)}
    (hl : s.store.lanes[n]? = some lane) (hsize : lane'.size + k ≤ lane.size + m) :
    (s.store.setLane n lane').size + k ≤ s.store.size + m :=
  foldr_map_set_le hl (fun _ => Nat.le_refl _) hsize

/-! ## Sums over the workers -/

theorem overWorkers_le (s : Line α) {f g : Worker (Parcel α) → Nat}
    (hle : ∀ worker, f worker ≤ g worker) : s.overWorkers f ≤ s.overWorkers g :=
  foldr_map_le _ fun pool => foldr_map_le pool.workers hle

theorem overWorkers_add (s : Line α) (f g : Worker (Parcel α) → Nat) :
    s.overWorkers (fun worker => f worker + g worker) = s.overWorkers f + s.overWorkers g := by
  have hadd : ∀ {β : Type u} (l : List β) (f g : β → Nat),
      (l.map fun d => f d + g d).foldr (· + ·) 0 =
        (l.map f).foldr (· + ·) 0 + (l.map g).foldr (· + ·) 0 := by
    intro β l f g
    induction l with
    | nil => rfl
    | cons d l ih =>
      simp only [List.map_cons, List.foldr_cons, ih]
      omega
  simp only [overWorkers, hadd]

/-- Calls that go on leave the workers and their channels alone. -/
theorem overWorkers_eq (h : t.pools.map Pool.workers = s.pools.map Pool.workers)
    (f : Worker (Parcel α) → Nat) : t.overWorkers f = s.overWorkers f := by
  have hmap : ∀ u : Line α, u.overWorkers f =
      ((u.pools.map Pool.workers).map fun l => (l.map f).foldr (· + ·) 0).foldr (· + ·) 0 := by
    intro u
    rw [List.map_map]
    rfl
  rw [hmap, h, ← hmap]

theorem overWorkers_set_lt (hp : s.pools[p]? = some pool) (hw : pool.workers[w]? = some worker)
    (hpools : t.pools = s.pools.set p pool') (hworkers : pool'.workers = pool.workers.set w worker')
    {f g : Worker (Parcel α) → Nat} (hle : ∀ worker, f worker ≤ g worker)
    (hlt : f worker' < g worker) : t.overWorkers f < s.overWorkers g := by
  rw [overWorkers, hpools]
  refine foldr_map_set_lt hp (fun pool => foldr_map_le pool.workers hle) ?_
  rw [hworkers]
  exact foldr_map_set_lt hw hle hlt

theorem overWorkers_roundLength (hp : s.pools[p]? = some pool)
    (hw : pool.workers[w]? = some worker) (hpools : t.pools = s.pools.set p pool')
    (hworkers : pool'.workers = pool.workers.set w worker')
    (hchannels : worker'.channels = worker.channels) :
    t.overWorkers Worker.roundLength = s.overWorkers Worker.roundLength := by
  have hsame : pool'.workers.map Worker.roundLength = pool.workers.map Worker.roundLength := by
    rw [hworkers]
    exact map_set_of_eq hw (by rw [Worker.roundLength, hchannels, Worker.roundLength])
  rw [overWorkers, hpools, overWorkers, map_set_of_eq hp (by rw [hsame])]

/-! ## Every turn counts -/

/-- A worker that moves has a turn less, or takes an item, on which each worker may have
counted. -/
theorem MovesAlone.turnBound_lt (h : s.MovesAlone t p w pool worker) (hs : s.Sound)
    (hlimit : pool.plan.limit ≠ 0) (hp : s.pools[p]? = some pool)
    (hw : pool.workers[w]? = some worker) (hrest : s.isResting pool worker = false) :
    t.turnBound < s.turnBound := by
  obtain ⟨hcalls, pool', worker', hpools, hworkers, stride⟩ := h
  have hprice := overWorkers_roundLength hp hw hpools hworkers stride.channels
  have hsteps : t.stepsLeft = s.stepsLeft := by rw [stepsLeft, hcalls, stepsLeft]
  have hmove : ∀ {f g : Worker (Parcel α) → Nat}, (∀ v, f v ≤ g v) → f worker' < g worker →
      t.overWorkers f < s.overWorkers g := overWorkers_set_lt hp hw hpools hworkers
  have stays : t.store = s.store → worker'.turnsLeft s.areEmpty < worker.turnsLeft s.areEmpty →
      t.turnBound < s.turnBound := by
    intro hstore hlt
    have hempty : t.areEmpty = s.areEmpty := by
      funext channels
      rw [areEmpty, hstore, areEmpty]
    rw [turnBound, turnBound, hprice, hsteps, hstore, hempty]
    exact Nat.add_lt_add_left (hmove (fun _ => Nat.le_refl _) hlt) _
  cases stride with
  | pace pace _ hstore => exact stays hstore (pace.turnsLeft_lt hrest)
  | settle hst hstore => exact stays hstore (turnsLeft_settled_lt hst _)
  | @sweep round n rest batch lane taken hst hl ht hstore =>
    have hsize := (hs.lane hl).size_of_take ht
    have hpos := Pool.limitOf_pos hlimit round
    rw [turnBound_eq, turnBound_eq, hprice, hsteps, hstore]
    cases he : lane.isEmpty with
    | true =>
      -- Nothing is taken, and the worker has a channel less ahead.
      have hzero : lane.size = 0 := of_decide_eq_true he
      have hempty := areEmpty_of_setLane hl hstore fun _ => he
      have hless : (s.store.setLane n taken.lane).size ≤ s.store.size :=
        size_setLane_le (k := 0) (m := 0) hl (by omega)
      have hworker : (worker.moveTo (.sweeping round rest
          (batch ++ [⟨n, taken.items⟩]))).turnsLeft s.areEmpty < worker.turnsLeft s.areEmpty :=
        Worker.turnsLeft_swept_lt hst (areEmpty_cons (by rw [hl]; exact he))
      have hsum := hmove (fun worker => worker.turnsLeft_le_of_empty hempty)
        (Nat.lt_of_le_of_lt (Worker.turnsLeft_le_of_empty _ hempty) hworker)
      have hitems := Nat.mul_le_mul_left (s.overWorkers Worker.roundLength) hless
      omega
    | false =>
      -- An item is taken, and with it goes a round of every worker.
      have hfull : 0 < lane.size := Nat.pos_of_ne_zero (of_decide_eq_false he)
      have hless : (s.store.setLane n taken.lane).size + 1 ≤ s.store.size :=
        size_setLane_le (k := 1) (m := 0) hl (by omega)
      have hbound : s.areEmpty (n :: rest) = false := by simp [areEmpty, hl, he]
      have hsum : t.overWorkers (fun worker => worker.turnsLeft t.areEmpty) <
          s.overWorkers fun worker => worker.turnsLeft s.areEmpty + worker.roundLength :=
        hmove (fun worker => worker.turnsLeft_le_add) (Worker.turnsLeft_swept_lt_add hst hbound)
      rw [overWorkers_add] at hsum
      have hitems := Nat.mul_le_mul_left (s.overWorkers Worker.roundLength) hless
      rw [Nat.mul_succ] at hitems
      omega

/-- A step of a call leaves the workers alone, and adds one item at most. -/
theorem Effect.of_calls (e : Effect s t) (hs : s.Sound) (hne : t.calls ≠ s.calls) :
    t.pools.map Pool.workers = s.pools.map Pool.workers ∧ t.store.size ≤ s.store.size + 1 ∧
      ∀ channels, t.areEmpty channels = true → s.areEmpty channels = true := by
  cases e with
  | write _ _ _ hl ha =>
    obtain ⟨hpos, hle⟩ := (hs.lane hl).size_of_accepted ha
    refine ⟨rfl, size_setLane_le (k := 0) hl hle, areEmpty_of_setLane hl rfl fun he => ?_⟩
    exact absurd (of_decide_eq_true he) (Nat.ne_of_gt hpos)
  | enroll _ _ hp | turnBack _ _ hp | release _ _ _ hp =>
    exact ⟨map_set_of_eq hp rfl, Nat.le_succ _, fun _ => id⟩
  | offer | hop | enter | route | misroute | tally =>
    exact ⟨rfl, Nat.le_succ _, fun _ => id⟩
  | _ => exact absurd rfl hne

/-- A call that goes on has a step less, with which it may add an item. -/
theorem Reachable.turnBound_lt_of_advance (h : s.Reachable) (ha : s.advance i = some t) :
    t.turnBound < s.turnBound := by
  obtain ⟨c, c', hc, hset, -, hrank⟩ := h.named.turn_of_advance ha
  have hsteps : t.stepsLeft < s.stepsLeft := by
    rw [stepsLeft, hset]
    exact foldr_map_set_lt hc (fun _ => Nat.le_refl _) hrank
  have hne : t.calls ≠ s.calls := by
    intro hsame
    rw [stepsLeft, hsame] at hsteps
    exact Nat.lt_irrefl _ hsteps
  obtain ⟨hworkers, hsize, hempty⟩ := (advance_effect h.named ha).of_calls h.sound hne
  have hleft := s.overWorkers_le fun worker => worker.turnsLeft_le_of_empty hempty
  have hitems := Nat.mul_le_mul_left (s.overWorkers Worker.roundLength) hsize
  have hcalls := Nat.mul_le_mul_left (s.overWorkers Worker.roundLength + 1)
    (Nat.succ_le_of_lt hsteps)
  rw [Nat.mul_succ] at hitems hcalls
  rw [turnBound_eq, turnBound_eq, overWorkers_eq hworkers, overWorkers_eq hworkers]
  omega

/-! ## The schedule -/

/-- Somebody has a turn: a call goes on, a hook ends, or a worker goes on that does not rest. -/
inductive TakesTurn (s t : Line α) : Prop
  | call {i : Nat} : s.advance i = some t → TakesTurn s t
  | hook {p w : Nat} {how : HookEnd} : s.endHook p w how = some t → TakesTurn s t
  | worker {p w : Nat} {pool : Pool (Parcel α)} {worker : Worker (Parcel α)} :
      s.pools[p]? = some pool → pool.workers[w]? = some worker →
      s.isResting pool worker = false → s.work p w = some t → TakesTurn s t

/-- Turns are traffic: nobody opens, closes or exchanges a pool in them. -/
theorem TakesTurn.traffic (turn : s.TakesTurn t) :
    ReachesBy (fun a : Action α => a.isTraffic = true) s t := by
  cases turn with
  | @call i hs => exact .step (.advance i) .refl rfl hs
  | @hook p w how hs => exact .step (.endHook p w how) .refl rfl hs
  | @worker p w _ _ _ _ _ hs => exact .step (.work p w) .refl rfl hs

/-- **Every turn counts**, whoever has it. -/
theorem Reachable.turnBound_lt (h : s.Reachable) (turn : s.TakesTurn t) :
    t.turnBound < s.turnBound := by
  have limit : ∀ {p : Nat} {pool : Pool (Parcel α)}, s.pools[p]? = some pool →
      pool.plan.limit ≠ 0 := fun hp => h.limit_ne_zero _ (List.mem_of_getElem? hp)
  cases turn with
  | call hs => exact h.turnBound_lt_of_advance hs
  | hook hs =>
    obtain ⟨pool, worker, hook, hp, hw, hi, moves⟩ := exists_movesAlone_of_endHook hs
    exact moves.turnBound_lt h.sound (limit hp) hp hw (by rw [isResting, hi])
  | worker hp hw hrest hs =>
    exact (movesAlone_of_work hp hw hs).turnBound_lt h.sound (limit hp) hp hw hrest

theorem takesTurn_of_turn (h : s.turn cast = some t) : s.TakesTurn t := by
  simp only [turn, Option.orElse_eq_orElse, Option.orElse_eq_or, Option.or_eq_some_iff] at h
  rcases h with hcall | ⟨-, hworker⟩
  · obtain ⟨⟨c, i⟩, -, hs⟩ := List.exists_of_findSome?_eq_some hcall
    dsimp only at hs
    split at hs
    · cases hs
    · exact .call hs
  · obtain ⟨⟨pool, p⟩, hp, hpool⟩ := List.exists_of_findSome?_eq_some hworker
    obtain ⟨⟨worker, w⟩, hw, hs⟩ := List.exists_of_findSome?_eq_some hpool
    rw [List.mem_zipIdx_iff_getElem?] at hp hw
    simp only [turnOfWorker] at hs
    split at hs
    · obtain ⟨how, -, hend⟩ := Option.bind_eq_some_iff.mp hs
      exact .hook hend
    · split at hs
      · cases hs
      · next hrest => exact .worker hp hw (Bool.eq_false_iff.mpr hrest) hs

/-- A schedule is a run of the line. -/
theorem traffic_turns (s : Line α) (cast : Cast α) (n : Nat) :
    ReachesBy (fun a : Action α => a.isTraffic = true) s (s.turns cast n) := by
  induction n generalizing s with
  | zero => exact .refl
  | succ n ih =>
    unfold turns
    split
    · exact .refl
    · next t hturn => exact (takesTurn_of_turn hturn).traffic.trans (ih t)

theorem Reachable.turnBound_turns_le (h : s.Reachable) (cast : Cast α) (n : Nat) :
    (s.turns cast n).turnBound ≤ s.turnBound := by
  induction n generalizing s with
  | zero => exact Nat.le_refl _
  | succ n ih =>
    unfold turns
    split
    · exact Nat.le_refl _
    · next t hturn =>
      have turn := takesTurn_of_turn hturn
      exact Nat.le_trans (ih (h.reaches turn.traffic.reaches)) (Nat.le_of_lt (h.turnBound_lt turn))

/-- **The turns that the schedule is given are enough.** -/
theorem Reachable.turn_turns {n : Nat} (h : s.Reachable) (hn : s.turnBound ≤ n) :
    (s.turns cast n).turn cast = none := by
  induction n generalizing s with
  | zero =>
    show s.turn cast = none
    cases hturn : s.turn cast with
    | none => rfl
    | some t =>
      have hless := h.turnBound_lt (takesTurn_of_turn hturn)
      omega
  | succ n ih =>
    unfold turns
    split
    · next hnone => exact hnone
    · next t hturn =>
      have turn := takesTurn_of_turn hturn
      have hless := h.turnBound_lt turn
      exact ih (h.reaches turn.traffic.reaches) (by omega)

/-- Nobody on the line has anything to do: no call has a step to make, and each worker is
done, or rests, or waits for the end of a hook or for the shared consumer. -/
structure AtRest (s : Line α) (cast : Cast α) : Prop where
  calls : s.IsStill
  workers : ∀ (p w : Nat) (pool : Pool (Parcel α)) (worker : Worker (Parcel α)),
    s.pools[p]? = some pool → pool.workers[w]? = some worker →
      worker.isFinished = true ∨ s.isResting pool worker = true ∨
        ∃ hook, (worker.station = .inside hook ∧ cast s p w hook = none) ∨
          (worker.station = .door hook ∧ pool.mayEnter = false)

theorem advance_of_isOver {c : Call α} (hc : s.calls[i]? = some c) (hover : c.isOver = true) :
    s.advance i = none := by
  unfold Call.isOver at hover
  split at hover
  · next hp => simp [advance, hc, hp]
  · cases hover

theorem Reachable.atRest_of_turn (h : s.Reachable) (hturn : s.turn cast = none) :
    s.AtRest cast := by
  simp only [turn, Option.orElse_eq_orElse, Option.orElse_eq_or, Option.or_eq_none_iff] at hturn
  obtain ⟨hcalls, hworkers⟩ := hturn
  refine ⟨fun i => ?_, fun p w pool worker hp hw => ?_⟩
  · cases hc : s.calls[i]? with
    | none => rw [advance, hc]
    | some c =>
      have hnone := List.findSome?_eq_none_iff.mp hcalls (c, i)
        (List.mem_zipIdx_iff_getElem?.mpr hc)
      cases hover : c.isOver with
      | true => exact advance_of_isOver hc hover
      | false => simpa [hover] using hnone
  · have hnone := List.findSome?_eq_none_iff.mp
      (List.findSome?_eq_none_iff.mp hworkers (pool, p) (List.mem_zipIdx_iff_getElem?.mpr hp))
      (worker, w) (List.mem_zipIdx_iff_getElem?.mpr hw)
    simp only [turnOfWorker] at hnone
    cases hf : worker.isFinished with
    | true => exact .inl rfl
    | false =>
      have horder : worker.KeepsOrder :=
        h.allKeepOrder pool (List.mem_of_getElem? hp) worker (List.mem_of_getElem? hw)
      rcases goesOn_of_not_finished hp hw horder hf with ⟨t, ht⟩ | ⟨hook, ⟨hi, -⟩ | hdoor⟩
      · split at hnone
        · next hook hi => simp [work, hp, hw, hi] at ht
        · split at hnone
          · next hrest => exact .inr (.inl hrest)
          · rw [hnone] at ht
            cases ht
      · simp only [hi, Option.bind_eq_none_iff] at hnone
        refine .inr (.inr ⟨hook, .inl ⟨hi, Option.eq_none_iff_forall_ne_some.mpr ?_⟩⟩)
        intro how hcast
        have hstuck := hnone how hcast
        rw [endHook_eq hp hw hi] at hstuck
        cases hstuck
      · exact .inr (.inr ⟨hook, .inr hdoor⟩)

/-- **A line comes to a rest**, however its hooks end, if nothing new happens. -/
theorem Reachable.comes_to_rest (h : s.Reachable) (cast : Cast α) :
    Reaches s (s.rest cast) ∧ (s.rest cast).AtRest cast := by
  have hr := (traffic_turns s cast s.turnBound).reaches
  exact ⟨hr, (h.reaches hr).atRest_of_turn (h.turn_turns (Nat.le_refl _))⟩

end Line

end Conveyor
