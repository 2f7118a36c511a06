/-
Conveyor.Proofs.Conservation — every accepted item is in one place, and no
other item is anywhere.

An item that was accepted lies in a channel, or a worker holds it, or it
was handed to a consumer, or it made room for another, or a reader that is
no worker took it. The parcels that were written are counted against both
sides: against the calls that were accepted, and against these five places.
An effect moves a parcel from one place to the next, and only a write
brings a parcel in.
-/
import Conveyor.Proofs.Calls
import Conveyor.Proofs.Lanes
import Conveyor.Proofs.Pools
import Mathlib.Data.List.Nodup

namespace Conveyor

variable {α : Type u}

/-! ## Counting in a list of lists -/

/-- One entry of a list of lists is replaced: what it had goes, what the new one has comes. -/
theorem count_flatMap_set {β : Type v} {γ : Type w} [DecidableEq γ] {l : List β} {i : Nat}
    {a : β} (h : l[i]? = some a) (b : β) (f : β → List γ) (x : γ) :
    ((l.set i b).flatMap f).count x + (f a).count x =
      (l.flatMap f).count x + (f b).count x := by
  induction l generalizing i with
  | nil => cases h
  | cons c l ih =>
    cases i with
    | zero =>
      cases h
      simp only [List.set_cons_zero, List.flatMap_cons, List.count_append]
      omega
    | succ i =>
      have hl := ih (i := i) h
      simp only [List.set_cons_succ, List.flatMap_cons, List.count_append]
      omega

/-- The same for all elements at once. -/
theorem perm_flatMap_set {β : Type v} {γ : Type w} {l : List β} {n : Nat} {a : β}
    (h : l[n]? = some a) (b : β) (f : β → List γ) :
    ((l.set n b).flatMap f ++ f a).Perm (l.flatMap f ++ f b) := by
  classical
  rw [List.perm_iff_count]
  intro x
  have hcount := count_flatMap_set h b f x
  simpa only [List.count_append] using hcount

/-! ## Accepted calls -/

namespace Call

variable {i : Nat} {c : Call α}

/-- Whether the item of the call was taken. -/
def isAccepted (c : Call α) : Bool := c.place.result?.any WriteResult.isAccepted

/-- The parcel of call `i`, if it was taken. -/
def taken (i : Nat) (c : Call α) : List (Parcel α) :=
  if c.isAccepted then (c.item?.map (Parcel.mk i)).toList else []

theorem isAccepted_of_result? (h : c.place.result? = none) : c.isAccepted = false := by
  rw [isAccepted, h]
  rfl

/-- A call that is accepted as before has taken what it had. -/
theorem taken_of_place {place : Place α} {pass : Option Nat}
    (h : ({ c with place, pass } : Call α).isAccepted = c.isAccepted) :
    ({ c with place, pass } : Call α).taken i = c.taken i := by
  rw [taken, h]
  rfl

theorem mem_taken {i : Nat} {c : Call α} {parcel : Parcel α} :
    parcel ∈ c.taken i ↔ parcel.call = i ∧ c.isAccepted = true ∧ c.item? = some parcel.item := by
  unfold taken
  by_cases ha : c.isAccepted = true
  · cases hi : c.item? with
    | none => simp [ha]
    | some item =>
      obtain ⟨j, a⟩ := parcel
      simp [ha, eq_comm]
  · simp [ha]

end Call

namespace Line

variable {s t : Line α} {i : Nat} {c : Call α}

/-- The parcels whose writes were accepted, in the order of their calls. -/
def accepted (s : Line α) : List (Parcel α) :=
  (s.calls.mapIdx fun i c => c.taken i).flatten

/-- An accepted parcel is the item of the call whose number it bears. -/
theorem mem_accepted {parcel : Parcel α} :
    parcel ∈ s.accepted ↔
      ∃ c, s.calls[parcel.call]? = some c ∧ c.isAccepted = true ∧ c.item? = some parcel.item := by
  rw [accepted, List.mem_flatten]
  constructor
  · rintro ⟨l, hl, hmem⟩
    obtain ⟨i, hi, rfl⟩ := List.mem_mapIdx.mp hl
    obtain ⟨rfl, hc⟩ := Call.mem_taken.mp hmem
    exact ⟨_, List.getElem?_eq_getElem hi, hc⟩
  · rintro ⟨c, hc, ha⟩
    obtain ⟨hi, rfl⟩ := List.getElem?_eq_some_iff.mp hc
    exact ⟨_, List.mem_mapIdx.mpr ⟨parcel.call, hi, rfl⟩, Call.mem_taken.mpr ⟨rfl, ha⟩⟩

/-- No two accepted parcels come from one call. -/
theorem nodup_accepted (s : Line α) : (s.accepted.map Parcel.call).Nodup := by
  rw [accepted, List.map_flatten, List.nodup_flatten]
  constructor
  · intro l hl
    obtain ⟨l', hl', rfl⟩ := List.mem_map.mp hl
    obtain ⟨i, hi, rfl⟩ := List.mem_mapIdx.mp hl'
    unfold Call.taken
    split
    · cases (s.calls[i]).item? <;> simp
    · simp
  · rw [List.pairwise_map, List.pairwise_iff_getElem]
    intro i j hi hj hij
    rw [List.getElem_mapIdx, List.getElem_mapIdx]
    intro k hk hk'
    obtain ⟨parcel, hmem, rfl⟩ := List.mem_map.mp hk
    obtain ⟨parcel', hmem', he⟩ := List.mem_map.mp hk'
    have h₁ := (Call.mem_taken.mp hmem).1
    have h₂ := (Call.mem_taken.mp hmem').1
    omega

/-- One call is replaced among all of them. -/
theorem count_accepted_set [DecidableEq (Parcel α)] (hc : s.calls[i]? = some c) (c' : Call α)
    (x : Parcel α) :
    (((s.calls.set i c').mapIdx fun i c => c.taken i).flatten).count x + (c.taken i).count x =
      s.accepted.count x + (c'.taken i).count x := by
  have hi : (s.calls.mapIdx fun i c => c.taken i)[i]? = some (c.taken i) := by
    rw [List.getElem?_mapIdx, hc]
    rfl
  have hcount := count_flatMap_set hi (c'.taken i) id x
  simp only [List.flatMap_id, id] at hcount
  rw [List.mapIdx_set]
  exact hcount

/-! ## Where parcels are -/

end Line

/-- What a worker has in hand where it stands. -/
def Station.load : Station α → List α
  | .sweeping _ _ batch | .door (.consume _ batch) => batch.items
  | _ => []

namespace Worker

/-- What a worker has taken from its channels and not handed over. -/
def held (worker : Worker α) : List α := worker.station.load

/-- What a worker has handed to its consumer. -/
def handed (worker : Worker α) : List α := worker.deliveries.flatMap fun d => d.2.items

/-- A worker between two rounds holds nothing. -/
theorem load_afterRound (round : Round) : (afterRound round : Station α).load = [] := by
  cases round <;> rfl

theorem load_afterHook (hook : Hook α) (how : HookEnd) : (afterHook hook how).load = [] := by
  cases hook with
  | error round => exact load_afterRound round
  | _ => rfl

/-- Nor does one that has counted a `consume` call. -/
theorem load_settled (round : Round) (batch : Batch α) (e : Option ConsumeError) :
    (e.elim (afterRound round) fun e => Station.door (.error round batch e)).load = [] := by
  cases e with
  | none => exact load_afterRound round
  | some e => rfl

theorem held_moveTo (worker : Worker α) (station : Station α) :
    (worker.moveTo station).held = station.load := rfl

theorem handed_moveTo (worker : Worker α) (station : Station α) :
    (worker.moveTo station).handed = worker.handed := rfl

theorem handed_leave (worker : Worker α) (hook : Hook α) (how : HookEnd) :
    (worker.leave hook how).handed = worker.handed := by
  simp [handed, deliveries, leave]

/-- What a worker takes through the door, it hands over. -/
theorem handed_enter (worker : Worker α) (hook : Hook α) :
    (worker.enter hook).handed = worker.handed ++ (Station.door hook).load := by
  cases hook <;> simp [handed, deliveries, enter, Station.load]

end Worker

namespace Line

variable {s t : Line α} {i : Nat} {c : Call α}

/-- What lies in the channels. -/
def buffered (s : Line α) : List (Parcel α) := s.store.lanes.flatMap Lane.toList

/-- What workers have in hand. -/
def held (s : Line α) : List (Parcel α) :=
  s.pools.flatMap fun pool => pool.workers.flatMap Worker.held

/-- What was handed to consumers. -/
def handed (s : Line α) : List (Parcel α) :=
  s.pools.flatMap fun pool => pool.workers.flatMap Worker.handed

/-- What lies in a channel, is in the hands of a worker, was handed to a
consumer, made room for another item, or was taken out by a reader that is
no worker, in this order. -/
def whereabouts (s : Line α) : List (Parcel α) :=
  s.buffered ++ s.held ++ s.handed ++ s.evicted.map Prod.snd ++ s.viewed.map Prod.snd

/-- The parcels written are those of the accepted calls, and are in one of
the five places each. -/
structure Conserved (s : Line α) : Prop where
  accepted : s.accepted.Perm (s.written.map Prod.snd)
  located : (s.written.map Prod.snd).Perm s.whereabouts

/-! ## Calls -/

/-- A call that has no more to show than before changes nothing. -/
theorem accepted_set (hc : s.calls[i]? = some c) {c' : Call α} (h : c'.taken i = c.taken i) :
    ((s.calls.set i c').mapIdx fun i c => c.taken i).flatten = s.accepted := by
  have hi : (s.calls.mapIdx fun i c => c.taken i)[i]? = some (c.taken i) := by
    rw [List.getElem?_mapIdx, hc]
    rfl
  rw [List.mapIdx_set, h, ← List.map_id ((s.calls.mapIdx _).set _ _), map_set_of_eq hi rfl,
    List.map_id]
  rfl

/-- What a call does on its own does not accept its item. -/
theorem Hop.isAccepted {place : Place α} (hop : Hop s i c place) :
    ({ c with place } : Call α).isAccepted = c.isAccepted := by
  cases hop with
  | refuse ht | wait ht | stray ht | fail ht =>
    rw [Call.isAccepted_of_result? (Call.result?_of_target ht)]
    rfl
  | finish hp =>
    rw [Call.isAccepted, Call.isAccepted, hp, Place.result?_over]
  | find hp | skip hp | start hp | insist hp | visit hp | turnAway hp | ask hp | callAway hp =>
    rw [Call.isAccepted, Call.isAccepted, hp]
    rfl

theorem Hop.taken {place : Place α} (hop : Hop s i c place) :
    ({ c with place } : Call α).taken i = c.taken i :=
  Call.taken_of_place hop.isAccepted

/-- A write is the only effect that adds to the accepted parcels. -/
theorem Effect.accepted (e : Effect s t) (h : s.accepted.Perm (s.written.map Prod.snd)) :
    t.accepted.Perm (t.written.map Prod.snd) := by
  have keep : ∀ {i : Nat} {c c' : Call α}, s.calls[i]? = some c → c'.taken i = c.taken i →
      ((s.calls.set i c').mapIdx fun i c => c.taken i).flatten.Perm (s.written.map Prod.snd) :=
    fun hc he => (List.Perm.of_eq (accepted_set hc he)).trans h
  cases e with
  | offer =>
    rw [Line.accepted, List.mapIdx_concat, List.flatten_append]
    exact (List.append_nil _).symm ▸ h
  | hop hc hop => exact keep hc hop.taken
  | enroll hc hp _ =>
    refine keep hc (Call.taken_of_place ?_)
    rw [Call.isAccepted, Call.isAccepted, hp]
    rfl
  | enter hc hp _ _ hplace =>
    refine keep hc (Call.taken_of_place ?_)
    rw [Call.isAccepted, Call.isAccepted, hp]
    rcases hplace with rfl | rfl <;> rfl
  | @turnBack _ _ c _ hc hp _ =>
    refine keep hc (Call.taken_of_place ?_)
    rw [Call.isAccepted, Call.isAccepted, hp]
    cases c.item? <;> rfl
  | route hc hp | misroute hc hp =>
    refine keep hc (Call.taken_of_place ?_)
    rw [Call.isAccepted, Call.isAccepted, hp]
    rfl
  | tally hc hp =>
    refine keep hc (Call.taken_of_place ?_)
    rw [Call.isAccepted, Call.isAccepted, hp]
    rfl
  | release hc hp =>
    refine keep hc (Call.taken_of_place ?_)
    rw [Call.isAccepted, Call.isAccepted, hp, Place.result?_over]
  | @write i n c policy item _ _ how out hc ht hi =>
    classical
    have hold : c.taken i = [] := by
      rw [Call.taken, Call.isAccepted_of_result? (Call.result?_of_target ht)]
      rfl
    have hnew : ({ c with place := .settled (.accepted how) } : Call α).taken i = [⟨i, item⟩] := by
      have hi' : ({ c with place := .settled (.accepted how) } : Call α).item? = some item := hi
      rw [Call.taken, hi']
      rfl
    refine List.perm_iff_count.mpr ?_
    intro x
    have hcount := count_accepted_set hc { c with place := .settled (.accepted how) } x
    rw [hold, hnew, List.count_nil, h.count_eq] at hcount
    rw [List.map_append, List.count_append]
    exact hcount
  | _ => exact h

/-! ## Parcels on the move -/

/-- What a pool has, before and after one of its workers did something. -/
theorem count_setWorker [DecidableEq (Parcel α)] {p w : Nat} {pool : Pool (Parcel α)}
    {worker : Worker (Parcel α)} (hp : s.pools[p]? = some pool)
    (hw : pool.workers[w]? = some worker) (worker' : Worker (Parcel α))
    (pool' : Pool (Parcel α)) (hp' : pool'.workers = pool.workers.set w worker')
    (f : Worker (Parcel α) → List (Parcel α)) (x : Parcel α) :
    ((s.pools.set p pool').flatMap fun pool => pool.workers.flatMap f).count x +
        (f worker).count x =
      (s.pools.flatMap fun pool => pool.workers.flatMap f).count x + (f worker').count x := by
  have hpools := count_flatMap_set hp pool' (fun pool => pool.workers.flatMap f) x
  have hworkers := count_flatMap_set hw worker' f x
  rw [hp'] at hpools
  omega

/-- A pool with as much as the old one changes nothing. -/
theorem flatMap_setPool {p : Nat} {pool pool' : Pool (Parcel α)} (hp : s.pools[p]? = some pool)
    {f : Pool (Parcel α) → List (Parcel α)} (hf : f pool' = f pool) :
    (s.pools.set p pool').flatMap f = s.pools.flatMap f := by
  rw [List.flatMap_def, List.flatMap_def, map_set_of_eq hp hf]

/-- A worker that goes on without taking items has the ones it had, in hand
or handed over. -/
theorem Pace.count [DecidableEq (Parcel α)] (hs : s.Sound) {pool : Pool (Parcel α)}
    {worker worker' : Worker (Parcel α)} (pace : Pace s pool worker worker') (x : Parcel α) :
    worker'.held.count x + worker'.handed.count x =
      worker.held.count x + worker.handed.count x := by
  cases pace with
  | @enter hook hd =>
    have hheld : (worker.enter hook).held = [] := rfl
    rw [hheld, Worker.handed_enter, Worker.held, hd, List.count_nil, List.count_append]
    omega
  | @leave hook how hi =>
    have hheld : (worker.leave hook how).held = [] := Worker.load_afterHook hook how
    rw [hheld, Worker.handed_leave, Worker.held, hi]
    rfl
  | watch hw =>
    have hheld : (Line.watch pool worker).held = [] := by
      unfold Line.watch
      split <;> rfl
    rw [hheld, Worker.held, hw]
    rfl
  | check hc =>
    have hheld : (Line.check pool worker).held = [] := by
      unfold Line.check
      split <;> rfl
    rw [hheld, Worker.held, hc]
    rfl
  | skip hw hl =>
    rw [Worker.held, Worker.held, hw]
    rfl
  | fail _ hl ht => exact absurd ht ((hs.lane hl).take_ne_error _ _)
  | @handOver round batch hw =>
    have hheld : (Line.handOver worker round batch).held = batch.items := by
      unfold Line.handOver Worker.held Worker.moveTo
      split
      · next he =>
        rw [Worker.load_afterRound, List.isEmpty_iff.mp he]
      · rfl
    rw [hheld, Worker.held, hw]
    rfl

/-- No effect loses a parcel, or makes one out of nothing. -/
theorem Effect.located (e : Effect s t) (hs : s.Sound) (hf : s.Fit)
    (h : (s.written.map Prod.snd).Perm s.whereabouts) :
    (t.written.map Prod.snd).Perm t.whereabouts := by
  classical
  rw [List.perm_iff_count] at h ⊢
  intro x
  have hx := h x
  simp only [whereabouts, List.count_append, buffered, held, handed] at hx ⊢
  cases e with
  | enroll _ _ hp | turnBack _ _ hp | release _ _ _ hp | hold _ hp | close hp =>
    rw [flatMap_setPool hp, flatMap_setPool hp]
    · exact hx
    · rfl
    · rfl
  | begin hp hc =>
    -- Nobody worked in a pool that had not begun, and nobody has done anything yet.
    have hnil := (hf.pool hp).created hc
    rw [flatMap_setPool hp, flatMap_setPool hp]
    · exact hx
    · rw [hnil, Pool.begin, if_pos hc]
      simp [Worker.handed, Worker.deliveries, Worker.ofChannels]
    · rw [hnil, Pool.begin, if_pos hc]
      simp [Worker.held, Worker.ofChannels, Station.load]
  | build hp =>
    have hnil := (Pool.fit_ofPlan hp).2.1
    simp only [List.flatMap_append, List.flatMap_singleton, hnil, List.flatMap_nil,
      List.append_nil]
    exact hx
  | @pace p w pool _ worker' hp hw pace =>
    have hset := count_setWorker hp hw worker' (pool.setWorker w worker') rfl
    have hheld := hset Worker.held x
    have hhanded := hset Worker.handed x
    have hpace := pace.count hs x
    dsimp only
    omega
  | @settle p w pool worker round batch e hp hw hst =>
    have hload := Worker.load_settled round batch e
    generalize (e.elim (Worker.afterRound round) fun e => Station.door (.error round batch e)) =
      station at hload ⊢
    generalize (e.elim (pool.tally.succeed batch.items.length) fun _ => pool.tally.fail) = tally
    have hset := count_setWorker hp hw (worker.moveTo station)
      { pool.setWorker w (worker.moveTo station) with tally } rfl
    have hheld := hset Worker.held x
    have hhanded := hset Worker.handed x
    rw [Worker.held, hst, Worker.held_moveTo, hload] at hheld
    rw [Worker.handed_moveTo] at hhanded
    dsimp only [Station.load] at hheld hhanded ⊢
    omega
  | @sweep p w n pool worker round rest batch lane taken hp hw hst hl ht =>
    obtain ⟨-, htake⟩ := (hs.lane hl).of_take ht
    have hlane := count_flatMap_set hl taken.lane Lane.toList x
    rw [htake, List.count_append] at hlane
    have hset := count_setWorker hp hw
      (worker.moveTo (.sweeping round rest (batch ++ [⟨n, taken.items⟩]))) (pool.setWorker w _) rfl
    have hheld := hset Worker.held x
    have hhanded := hset Worker.handed x
    rw [Worker.held, hst, Worker.held_moveTo] at hheld
    rw [Worker.handed_moveTo] at hhanded
    simp only [Station.load, Batch.items, List.flatMap_append, List.flatMap_singleton,
      List.count_append] at hheld
    simp only [LaneSet.setLane]
    omega
  | @write i n c policy item lane lane' how out hc htgt hi hl ha =>
    obtain ⟨-, rest, hbefore, hafter⟩ := (hs.lane hl).of_accepted ha
    have hlane := count_flatMap_set hl lane' Lane.toList x
    rw [hbefore, hafter, List.count_append, List.count_append] at hlane
    have hout : ((out.map fun parcel => (n, parcel)).toList.map Prod.snd) = out.toList := by
      cases out <;> rfl
    simp only [List.map_append, List.count_append, List.map_cons, List.map_nil, hout,
      LaneSet.setLane]
    omega
  | @drain n limit lane taken hl ht =>
    obtain ⟨-, htake⟩ := (hs.lane hl).of_take ht
    have hlane := count_flatMap_set hl taken.lane Lane.toList x
    rw [htake, List.count_append] at hlane
    simp only [List.map_append, List.count_append, List.map_map, Function.comp_def, List.map_id',
      LaneSet.setLane]
    omega
  | @closeLane n lane hl =>
    have hlane := count_flatMap_set hl lane.close Lane.toList x
    rw [show lane.close.toList = lane.toList from rfl] at hlane
    simp only [LaneSet.setLane]
    omega
  | _ => exact hx

/-! ## On every line that is reached -/

theorem IsFresh.conserved (h : s.IsFresh) : s.Conserved := by
  have hempty : s.buffered = [] := by
    refine List.flatMap_eq_nil_iff.mpr ?_
    intro lane hmem
    exact (h.lanes lane hmem).2
  obtain ⟨_, _, _, _, store, _, rfl⟩ := h
  refine ⟨List.Perm.refl _, ?_⟩
  rw [whereabouts, hempty]
  exact List.Perm.refl _

/-- On every line that is reached, by induction over the run. -/
theorem Reachable.conserved (h : s.Reachable) : s.Conserved := by
  have hall : s.Sound ∧ s.Fit ∧ s.Conserved := by
    refine Reachable.induction (P := fun u => u.Sound ∧ u.Fit ∧ u.Conserved) h ?_ ?_
    · intro start hf
      have hr : start.Reachable := ⟨start, hf, .refl⟩
      exact ⟨hr.sound, hr.fit, hf.conserved⟩
    · rintro u v ⟨hs, hf, hc⟩ e
      exact ⟨e.sound hs, e.fit hf, e.accepted hc.accepted, e.located hs hf hc.located⟩
  exact hall.2.2

/-- The count of each parcel is the same on both sides, so the lists are the same but for the
order. -/
theorem Conserved.perm (h : s.Conserved) : s.accepted.Perm s.whereabouts :=
  h.accepted.trans h.located

/-- No call has two parcels, or one in two places. -/
theorem Conserved.nodup (h : s.Conserved) : (s.whereabouts.map Parcel.call).Nodup :=
  (h.perm.map Parcel.call).nodup_iff.mp s.nodup_accepted

/-- No call has written twice. -/
theorem Conserved.nodup_written (h : s.Conserved) :
    ((s.written.map Prod.snd).map Parcel.call).Nodup :=
  (h.accepted.map Parcel.call).nodup_iff.mp s.nodup_accepted

/-- A call has written one parcel, to one channel. -/
theorem Conserved.eq_of_call (h : s.Conserved) {x y : Nat × Parcel α} (hx : x ∈ s.written)
    (hy : y ∈ s.written) (he : x.2.call = y.2.call) : x = y := by
  have hnodup := h.nodup_written
  rw [List.map_map] at hnodup
  exact List.inj_on_of_nodup_map hnodup hx hy he

/-- A parcel that was written belongs to an accepted call. -/
theorem Conserved.accepted_of_written (h : s.Conserved) {x : Nat × Parcel α} (hx : x ∈ s.written) :
    ∃ c, s.calls[x.2.call]? = some c ∧ c.isAccepted = true ∧ c.item? = some x.2.item :=
  mem_accepted.mp (h.accepted.mem_iff.mpr (List.mem_map_of_mem hx))

/-- **Every accepted item is in exactly one place.** On every line that is
reached, the parcels of the accepted calls are those in the channels, in the
hands of workers, handed to consumers, evicted, and taken out by readers that
are no workers, and no call has two of them; so nothing that was accepted is
lost or handed over twice, and nothing that was refused is anywhere. -/
theorem Reachable.exactly_once (h : s.Reachable) :
    s.accepted.Perm
        (s.buffered ++ s.held ++ s.handed ++ s.evicted.map Prod.snd ++ s.viewed.map Prod.snd) ∧
      (s.whereabouts.map Parcel.call).Nodup ∧
      (∀ parcel, parcel ∈ s.whereabouts ↔
        ∃ c, s.calls[parcel.call]? = some c ∧ c.isAccepted = true ∧
          c.item? = some parcel.item) ∧
      ∀ i c why item, s.calls[i]? = some c → c.place.result? = some (.refused why item) →
        ∀ parcel ∈ s.whereabouts, parcel.call ≠ i := by
  have hperm := h.conserved.perm
  have hmem : ∀ parcel, parcel ∈ s.whereabouts ↔
      ∃ c, s.calls[parcel.call]? = some c ∧ c.isAccepted = true ∧ c.item? = some parcel.item :=
    fun parcel => hperm.mem_iff.symm.trans mem_accepted
  refine ⟨hperm, h.conserved.nodup, hmem, ?_⟩
  intro i c why item hc hrefused parcel hp hi
  obtain ⟨c', hc', ha, -⟩ := (hmem parcel).mp hp
  rw [hi, hc] at hc'
  cases hc'
  rw [Call.isAccepted, hrefused] at ha
  cases ha

/-- Six writes to a channel with room for one item, a reader and a worker. -/
def sixWrites : List (Action Nat) :=
  let write (i item : Nat) (policy : WhenFull) : List (Action Nat) :=
    [.offer i (.write item policy), .advance i, .advance i, .advance i]
  let work : Action Nat := .work 0 0
  write 0 5 .evict ++ write 1 6 .evict ++ [.drain 0 1] ++ write 2 7 .wait ++
    [.install loner, work, .endHook 0 0 .returned] ++
    [work, work, work, work, .endHook 0 0 (.panicked .other), work] ++
    [work, .endHook 0 0 .returned] ++ write 3 8 .wait ++ [work, work] ++ write 4 9 .wait ++
    write 5 10 .refuse

/-- The first item made room for the second, which the reader took; the third
was handed to a consumer that panicked, the worker has the fourth in hand, the
fifth lies in the channel, and the sixth was refused. -/
theorem exactly_once_sixWrites :
    let s := (blank 1 1 (by decide) .wait).after sixWrites
    s.accepted.map Parcel.item = [5, 6, 7, 8, 9] ∧ s.buffered.map Parcel.item = [9] ∧
      s.held.map Parcel.item = [8] ∧ s.handed.map Parcel.item = [7] ∧
      s.evicted.map (fun e => e.2.item) = [5] ∧ s.viewed.map (fun e => e.2.item) = [6] ∧
      s.accepted.Perm s.whereabouts := by
  refine ⟨by decide +kernel, by decide +kernel, by decide +kernel, by decide +kernel,
    by decide +kernel, by decide +kernel, ?_⟩
  exact (Reachable.exactly_once (reachable_after (by decide) (by decide) .wait sixWrites)).1

end Line

end Conveyor
