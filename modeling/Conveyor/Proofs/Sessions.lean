/-
Conveyor.Proofs.Sessions — what a session does on its lines.

Whatever commands a session is given, each of its lines comes about by actions of
`Line.step`, and is in the middle of no exchange (`isSound_after`); so what is shown of all
lines that are reached holds for the lines of every session. Between two commands nobody on
them has anything to do (`isRested_after`).

A worker that is stopped inside a hook can be let go, and this takes one of the turns that
`Session.releaseBound` counts. So a session that lets one worker go after the other is
through before they are used up (`IsSound.run`).
-/
import Conveyor.Proofs.Entries
import Conveyor.Proofs.Rest
import Conveyor.Session.Play

namespace Conveyor

/-! ## Lines between two exchanges -/

namespace Line

variable {α : Type} {s t : Line α}

/-- The line was reached, and no exchange is under way on it. -/
structure Ready (s : Line α) : Prop where
  reachable : s.Reachable
  idle : s.exchange = .idle

theorem IsFresh.ready (h : s.IsFresh) : s.Ready := by
  refine ⟨⟨s, h, .refl⟩, ?_⟩
  obtain ⟨_, _, _, _, store, _, rfl⟩ := h
  rfl

theorem Ready.keep (h : s.Ready) (hk : s.KeepsPools t) : t.Ready :=
  ⟨h.reachable.reaches hk.reaches, (hk.same h.reachable).2.trans h.idle⟩

/-- Traffic leaves a line between two exchanges. -/
theorem Ready.traffic (h : s.Ready) (hr : ReachesBy (fun a : Action α => a.isTraffic = true) s t) :
    t.Ready := by
  refine h.keep (hr.mono ?_)
  intro a ha
  cases a <;> first | rfl | cases ha

theorem Ready.build (h : s.Ready) {plan : PoolPlan} (hb : s.build plan = .ok t) : t.Ready := by
  have hs : s.step (.build plan) = some t := by simp [step, hb, Except.toOption]
  obtain ⟨pool, -, rfl⟩ := of_build_eq_ok hb
  exact ⟨h.reachable.reaches (.step _ .refl hs), h.idle⟩

theorem Ready.begin (h : s.Ready) (p : Nat) : (s.begin p).Ready :=
  ⟨h.reachable.reaches (.step (.begin p) .refl rfl), (carrier_begin s p).2.2.trans h.idle⟩

/-- A whole exchange leads from one such line to another. -/
theorem Ready.renewed (h : s.Ready) {plan : PoolPlan} (hi : s.install plan = .ok t) :
    t.renewed.Ready := by
  obtain ⟨hr, hidle, -⟩ := reachesBy_renewed h.idle hi
  exact ⟨h.reachable.reaches hr.reaches, hidle⟩

theorem Ready.run (h : s.Ready) (i : Nat) : (s.run i).Ready := by
  refine h.traffic ((s.reachesBy_run i).mono ?_)
  rintro a rfl
  rfl

/-- A call is offered, if it can be, and goes on until it is over or has to wait. -/
theorem Ready.offered (h : s.Ready) (i : Nat) (errand : Errand α) :
    (((s.offer i errand).getD s).run i).Ready := by
  cases ho : s.offer i errand with
  | none => exact h.run i
  | some t => exact (h.traffic (.step (.offer i errand) .refl rfl ho)).run i

end Line

/-! ## Hubs -/

namespace Hub

variable {α : Type} {h h' : Hub α} {i : Nat} {f : Line α → Line α} {s : Line α} {c : Carrier}

/-- Every line of the hub is between two exchanges. -/
def AllReady (h : Hub α) : Prop := ∀ s ∈ h.lines, s.Ready

theorem AllReady.line (hr : h.AllReady) (hs : h.lines[i]? = some s) : s.Ready :=
  hr s (List.mem_of_getElem? hs)

theorem AllReady.set (hr : h.AllReady) (hlines : h'.lines = h.lines.set i s) (hs : s.Ready) :
    h'.AllReady := by
  intro t ht
  rw [hlines] at ht
  rcases List.mem_or_eq_of_mem_set ht with hold | rfl
  · exact hr t hold
  · exact hs

theorem AllReady.append (hr : h.AllReady) (hlines : h'.lines = h.lines ++ [s]) (hs : s.Ready) :
    h'.AllReady := by
  intro t ht
  rw [hlines] at ht
  rcases List.mem_append.mp ht with hold | hnew
  · exact hr t hold
  · exact List.mem_singleton.mp hnew ▸ hs

theorem lines_mapLine_eq (hs : h.lines[i]? = some s) :
    (h.mapLine i f).lines = h.lines.set i (f s) := by
  rw [mapLine, hs]
  rfl

theorem mapLine_of_none (hs : h.lines[i]? = none) : h.mapLine i f = h := by
  rw [mapLine, hs]

theorem pools_mapLine_eq (h : Hub α) (i : Nat) (f : Line α → Line α) :
    (h.mapLine i f).pools = h.pools :=
  (desk_eq_iff.mp (h.desk_mapLine i f)).2.1

theorem AllReady.mapLine (hr : h.AllReady) (hf : ∀ s, h.lines[i]? = some s → (f s).Ready) :
    (h.mapLine i f).AllReady := by
  cases hs : h.lines[i]? with
  | none => rwa [mapLine_of_none hs]
  | some s => exact hr.set (lines_mapLine_eq hs) (hf s hs)

/-- What gives no carrier another pool is no exchange. -/
theorem AllReady.tended (hr : h.AllReady) (ht : h.Tended h') : h'.AllReady := by
  intro t hmem
  obtain ⟨i, hi⟩ := List.mem_iff_getElem?.mp hmem
  obtain ⟨s, hs, hk⟩ := ht.lines i t hi
  exact (hr.line hs).keep hk

theorem AllReady.beginPool (hr : h.AllReady) (n : Nat) : (h.beginPool n).AllReady := by
  unfold Hub.beginPool
  split
  · exact hr
  · exact hr.mapLine fun s hs => (hr.line hs).begin _

theorem AllReady.addLine (hr : h.AllReady) {channels room : Nat} {router : Router α}
    {policy : WhenFull} (ha : h.addLine channels room router policy = .ok h') :
    h'.AllReady ∧ h'.pools = h.pools := by
  unfold Hub.addLine at ha
  cases ho : LaneSet.ofCounts channels room (router.comap Parcel.item) policy with
  | error e =>
    rw [ho] at ha
    cases ha
  | ok store =>
    rw [ho] at ha
    cases ha
    have hfresh : (Line.ofStore store).IsFresh := ⟨_, _, _, _, store, ho, rfl⟩
    exact ⟨hr.append rfl hfresh.ready, rfl⟩

/-- A pool on a bare row is the only one that is new. -/
theorem AllReady.addPool (hr : h.AllReady) {plan : PoolPlan} (ha : h.addPool i plan = .ok h') :
    h'.AllReady ∧ h'.pools.length ≤ h.pools.length + 1 := by
  unfold Hub.addPool at ha
  cases hs : h.lines[i]? with
  | none =>
    rw [hs] at ha
    cases ha
    exact ⟨hr, Nat.le_succ _⟩
  | some s =>
    simp only [hs] at ha
    cases hb : s.build plan with
    | error e =>
      rw [hb] at ha
      cases ha
    | ok t =>
      rw [hb] at ha
      cases ha
      exact ⟨hr.set rfl ((hr.line hs).build hb), by simp⟩

/-- And so is the one that a carrier gets. -/
theorem AllReady.consume (hr : h.AllReady) {order : PoolOrder} (ho : h.consume c order = .ok h') :
    h'.AllReady ∧ h'.pools.length ≤ h.pools.length + 1 := by
  cases hs : h.lines[c.line]? with
  | none =>
    rw [Hub.consume, hs] at ho
    cases ho
    exact ⟨hr, Nat.le_succ _⟩
  | some s =>
    obtain ⟨begun, hi, hlines, -⟩ := of_consume_eq_ok hs ho
    obtain ⟨-, hpools, -⟩ := desk_eq_iff.mp (desk_consume hs ho)
    exact ⟨hr.set hlines ((hr.line hs).renewed hi), by simp [hpools]⟩

/-! ## Lines that come to a rest -/

/-- Where one line has `k` turns fewer, so has the hub. -/
theorem turnBound_mapLine_le {k : Nat} (hs : h.lines[i]? = some s)
    (hf : (f s).turnBound + k ≤ s.turnBound) : (h.mapLine i f).turnBound + k ≤ h.turnBound := by
  rw [turnBound, lines_mapLine_eq hs]
  exact Line.foldr_map_set_le (n := 0) hs (fun _ => Nat.le_refl _) hf

/-- Lines that come to a rest one after the other do so each by itself. -/
theorem lines_rest {indices : List Nat} (hn : indices.Nodup) (h : Hub α) (casts : Nat → Cast α)
    (j : Nat) :
    (indices.foldl (fun h i => h.mapLine i (·.rest (casts i))) h).lines[j]? =
      if j ∈ indices then h.lines[j]?.map (·.rest (casts j)) else h.lines[j]? := by
  induction indices generalizing h with
  | nil => rfl
  | cons i indices ih =>
    obtain ⟨hi, hn⟩ := List.nodup_cons.mp hn
    rw [List.foldl_cons, ih hn, lines_mapLine]
    by_cases hj : j = i
    · subst hj
      simp [hi]
    · simp [hj]

theorem pools_rest (h : Hub α) (casts : Nat → Cast α) (indices : List Nat) :
    (indices.foldl (fun h i => h.mapLine i (·.rest (casts i))) h).pools = h.pools :=
  (desk_eq_iff.mp (desk_foldl (fun g i => g.desk_mapLine i _) h indices)).2.1

theorem AllReady.rest (hr : h.AllReady) (casts : Nat → Cast α) (indices : List Nat) :
    (indices.foldl (fun h i => h.mapLine i (·.rest (casts i))) h).AllReady ∧
      (indices.foldl (fun h i => h.mapLine i (·.rest (casts i))) h).turnBound ≤ h.turnBound := by
  induction indices generalizing h with
  | nil => exact ⟨hr, Nat.le_refl _⟩
  | cons i indices ih =>
    have hnext : (h.mapLine i (·.rest (casts i))).AllReady :=
      hr.mapLine fun s hs => (hr.line hs).traffic (s.traffic_turns (casts i) _)
    have hle : (h.mapLine i (·.rest (casts i))).turnBound ≤ h.turnBound := by
      cases hs : h.lines[i]? with
      | none => rw [mapLine_of_none hs]
      | some s =>
        exact turnBound_mapLine_le (k := 0) hs
          ((hr.line hs).reachable.turnBound_turns_le (casts i) _)
    obtain ⟨hready, hbound⟩ := ih hnext
    exact ⟨hready, Nat.le_trans hbound hle⟩

end Hub

/-! ## Sessions -/

namespace Session

variable {s s' : Session} {n w bound : Nat} {numbers : List Nat}

/-- The lines of the session are between two exchanges, and each pool has a script. -/
structure IsSound (s : Session) : Prop where
  lines : s.hub.AllReady
  scripts : s.hub.pools.length ≤ s.scripts.length

/-- Nobody on a line of the session has anything to do. -/
def IsRested (s : Session) : Prop := ∀ (i : Nat) l, s.hub.lines[i]? = some l → l.AtRest (s.cast i)

namespace IsSound

/-- Where there is no new pool, each still has its script. -/
theorem of_hub (h : s.IsSound) (hlines : s'.hub.AllReady) (hpools : s'.hub.pools = s.hub.pools)
    (hscripts : s'.scripts = s.scripts) : s'.IsSound :=
  ⟨hlines, by rw [hpools, hscripts]; exact h.scripts⟩

theorem mapLine (h : s.IsSound) {i : Nat} {f : Line Payload → Line Payload}
    (hf : ∀ l, s.hub.lines[i]? = some l → (f l).Ready) : (s.mapLine i f).IsSound :=
  h.of_hub (h.lines.mapLine hf) (s.hub.pools_mapLine_eq i f) rfl

/-- A step of traffic on one line. -/
theorem traffic (h : s.IsSound) {i : Nat} {a : Action Payload} {f : Line Payload → Line Payload}
    (ha : a.isTraffic = true) (hf : ∀ l, l.step a = some (f l)) : (s.mapLine i f).IsSound :=
  h.mapLine fun l hl => (h.lines.line hl).traffic (.step a .refl ha (hf l))

theorem settle (h : s.IsSound) : s.settle.IsSound :=
  h.of_hub (h.lines.rest s.cast _).1 (s.hub.pools_rest _ _) rfl

end IsSound

/-- To settle is to let each line come to a rest. -/
theorem lines_settle (s : Session) (i : Nat) :
    s.settle.hub.lines[i]? = s.hub.lines[i]?.map (·.rest (s.cast i)) := by
  refine (Hub.lines_rest (List.nodup_range (n := s.hub.lines.length)) s.hub s.cast i).trans ?_
  split
  · rfl
  · next hout =>
    rw [List.mem_range, Nat.not_lt] at hout
    rw [List.getElem?_eq_none hout, Option.map_none]

/-- **Once a session has settled, nobody has anything to do.** -/
theorem IsSound.isRested_settle (h : s.IsSound) : s.settle.IsRested := by
  intro i l hl
  have hcast : s.settle.cast i = s.cast i := by
    have hpools : s.settle.hub.pools = s.hub.pools := s.hub.pools_rest _ _
    funext l p w hook
    simp only [cast, scriptedEnd, Hub.numberOf?, hpools]
    rfl
  rw [lines_settle, Option.map_eq_some_iff] at hl
  obtain ⟨l', hl', rfl⟩ := hl
  rw [hcast]
  exact ((h.lines.line hl').reachable.comes_to_rest _).2

/-! ## Letting workers go -/

/-- A worker that is stopped is inside a hook. -/
theorem exists_hook_of_isStopped {α : Type} {pool : Pool α} {worker : Worker α}
    (h : isStopped pool worker = true) : ∃ hook, worker.station = .inside hook := by
  cases hst : worker.station with
  | inside hook => exact ⟨hook, rfl⟩
  | door hook =>
    simp only [isStopped, letter, hst] at h
    cases hook <;> cases hh : pool.held <;> simp [hh] at h
  | _ => simp [isStopped, letter, hst] at h

/-- What `firstStopped` finds is a worker that is stopped. -/
theorem of_firstStopped (h : s.firstStopped numbers = some (n, w)) :
    ∃ place l pool worker hook, s.hub.pools[n]? = some place ∧
      s.hub.lines[place.line]? = some l ∧ l.pools[place.index]? = some pool ∧
        pool.workers[w]? = some worker ∧ worker.station = .inside hook ∧
          isStopped pool worker = true := by
  obtain ⟨m, -, hm⟩ := List.exists_of_findSome?_eq_some h
  simp only [Option.bind_eq_bind, Option.bind_eq_some_iff, Option.pure_def, Option.some.injEq,
    Prod.mk.injEq, Hub.pool?] at hm
  obtain ⟨pool, ⟨place, hplace, l, hl, hpool⟩, v, hv, rfl, rfl⟩ := hm
  obtain ⟨hlt, hstopped, -⟩ := List.findIdx?_eq_some_iff_getElem.mp hv
  obtain ⟨hook, hhook⟩ := exists_hook_of_isStopped hstopped
  exact ⟨place, l, pool, _, hook, hplace, hl, hpool, List.getElem?_eq_getElem hlt, hhook,
    hstopped⟩

/-- **A worker that is stopped can be let go**: its script says how the hook ends. -/
theorem IsSound.exists_release (h : s.IsSound) (hstopped : s.firstStopped numbers = some (n, w)) :
    ∃ s', s.release n w = some s' := by
  obtain ⟨place, l, pool, worker, hook, hplace, hl, hpool, hw, hhook, hst⟩ :=
    of_firstStopped hstopped
  have hscripted : ∃ how, s.scriptedEnd place.line l place.index w hook = some how := by
    cases hnumber : s.hub.numberOf? place with
    | none => exact absurd (List.mem_of_getElem? hplace) (List.idxOf?_eq_none_iff.mp hnumber)
    | some number =>
      have hlt : number < s.scripts.length :=
        Nat.lt_of_lt_of_le (List.idxOf?_eq_some_iff.mp hnumber).1 h.scripts
      simp [scriptedEnd, hnumber, List.getElem?_eq_getElem hlt, hpool, hw]
  obtain ⟨how, hhow⟩ := hscripted
  simp [release, hplace, hl, hpool, hw, hhook, hst, hhow, Line.endHook_eq hpool hw hhook]

/-- Settling takes turns, and gives none. -/
theorem IsSound.releaseBound_settle_le (h : s.IsSound) : s.settle.releaseBound ≤ s.releaseBound :=
  (h.lines.rest s.cast _).2

/-- **A worker that is let go takes a turn.** -/
theorem IsSound.release (h : s.IsSound) (hs : s.release n w = some s') :
    s'.IsSound ∧ s'.releaseBound < s.releaseBound := by
  simp only [Session.release, Option.bind_eq_bind, Option.bind_eq_some_iff] at hs
  obtain ⟨place, -, l, hl, pool, -, worker, -, hs⟩ := hs
  split at hs
  · split at hs
    · obtain ⟨how, -, l', hend, hs'⟩ := by
        simpa only [Option.bind_eq_some_iff, Option.pure_def, Option.some.injEq] using hs
      subst hs'
      have hready : l.Ready := h.lines.line hl
      have turn : l.TakesTurn l' := .hook hend
      have hlet : (s.mapLine place.line fun _ => l').IsSound :=
        h.mapLine fun _ _ => hready.traffic turn.traffic
      have hless : (s.mapLine place.line fun _ => l').releaseBound < s.releaseBound :=
        Hub.turnBound_mapLine_le (k := 1) hl (hready.reachable.turnBound_lt turn)
      exact ⟨hlet.settle, Nat.lt_of_le_of_lt hlet.releaseBound_settle_le hless⟩
    · cases hs
  · cases hs

/-- **A session that may let workers go so often does so until none is stopped.** -/
theorem IsSound.releaseAll (h : s.IsSound) (hb : s.releaseBound ≤ bound) :
    (s.releaseAll numbers bound).2.IsSound ∧
      (s.releaseAll numbers bound).2.firstStopped numbers = none := by
  induction bound generalizing s with
  | zero =>
    refine ⟨h, ?_⟩
    show s.firstStopped numbers = none
    cases hfirst : s.firstStopped numbers with
    | none => rfl
    | some stopped =>
      obtain ⟨s', hs⟩ := h.exists_release hfirst
      have hless := (h.release hs).2
      omega
  | succ bound ih =>
    unfold Session.releaseAll
    cases hfirst : s.firstStopped numbers with
    | none => exact ⟨h, hfirst⟩
    | some stopped =>
      obtain ⟨s', hs⟩ := h.exists_release hfirst
      obtain ⟨hsound, hless⟩ := h.release hs
      simp only [hs]
      exact ih hsound (by omega)

/-- A shared consumer that is let go has nothing to do with exchanges. -/
theorem IsSound.unlock (h : s.IsSound) (n : Nat) : (s.unlock n).IsSound := by
  unfold Session.unlock
  split
  · split
    · next place _ _ _ _ => exact h.traffic (a := .setHeld place.index false) rfl fun _ => rfl
    · exact h
  · exact h

theorem IsSound.unlockAll (h : s.IsSound) (numbers : List Nat) :
    (numbers.foldl Session.unlock s).IsSound := by
  induction numbers generalizing s with
  | nil => exact h
  | cons n numbers ih => exact ih (h.unlock n)

/-- **`run` lets workers go until none of them is stopped.** -/
theorem IsSound.run (h : s.IsSound) (numbers : List Nat) :
    (s.run numbers).2.IsSound ∧ (s.run numbers).2.firstStopped numbers = none := by
  exact (h.unlockAll numbers).settle.releaseAll (Nat.le_refl _)

/-! ## Commands -/

namespace IsSound

/-- A call is offered to one line. -/
theorem offered (h : s.IsSound) {i : Nat} {l : Line Payload} (hl : s.hub.lines[i]? = some l)
    (errand : Errand Payload) :
    (s.mapLine i fun _ => ((l.offer l.calls.length errand).getD l).run l.calls.length).IsSound :=
  h.mapLine fun _ _ => (h.lines.line hl).offered _ errand

/-- A call is made on a line, and somebody may have to wait for its end. -/
theorem call (h : s.IsSound) (line : Nat) (form : WriteForm) (errand : Errand Payload) :
    (s.call line form errand).2.IsSound := by
  unfold Session.call
  split
  · exact h
  · next l hl =>
    have hcalled := h.offered hl errand
    dsimp only
    split
    · exact hcalled
    · exact ⟨hcalled.lines, hcalled.scripts⟩

/-- Calls are made one after the other, as long as they are answered. -/
theorem fill (h : s.IsSound) (line : Nat) (first : Int) (accepted refused count : Nat) :
    (s.fill line first accepted refused count).2.IsSound := by
  induction count generalizing s first accepted refused with
  | zero => exact h
  | succ count ih =>
    have hnext := (h.call line .brief (.produce (.number first))).settle
    unfold Session.fill
    dsimp only
    split
    · exact ih hnext ..
    · exact ih hnext ..
    · exact hnext

theorem drain (h : s.IsSound) (line channel limit : Nat) :
    (s.drain line channel limit).2.IsSound := by
  unfold Session.drain
  split
  · exact h
  · next parcels l hd =>
    obtain ⟨old, hold, hdrain⟩ := Option.bind_eq_some_iff.mp hd
    have hs : old.step (.drain channel limit) = some l := by simp [Line.step, hdrain]
    exact h.mapLine fun _ _ => (h.lines.line hold).traffic (.step _ .refl rfl hs)

/-- The pool that has come last gets its script. -/
theorem giveScript (hlines : s.hub.AllReady) (hscripts : s.hub.pools.length ≤ s.scripts.length + 1)
    (order : CrewOrder) : (s.giveScript order).IsSound := by
  have hgiven : ({ s with
      scripts := s.scripts ++ [order.script]
      shown := s.shown ++ [List.replicate order.workers 0] } : Session).IsSound :=
    ⟨hlines, by simpa using hscripts⟩
  unfold Session.giveScript
  dsimp only
  split
  · exact hgiven
  · next place _ =>
    split
    · exact hgiven.traffic (a := .setHeld place.index true) rfl fun _ => rfl
    · exact hgiven

/-- A carrier gets a pool, and the pool its script. -/
theorem consume (h : s.IsSound) (c : Carrier) (order : CrewOrder) :
    (s.consume c order).2.IsSound := by
  unfold Session.consume
  dsimp only
  split
  · exact h
  · exact h
  · next hub ho =>
    obtain ⟨hready, hpools⟩ := h.lines.consume ho
    refine giveScript (s := { s with hub }) hready ?_ order
    exact Nat.le_trans hpools (Nat.succ_le_succ h.scripts)

/-- A bare row gets a pool, and the pool its script. -/
theorem addPool (h : s.IsSound) (line : Nat) (name : String) (batch : Nat) (metered : Bool)
    (order : CrewOrder) : (s.addPool line name batch metered order).2.IsSound := by
  unfold Session.addPool
  dsimp only
  split
  · exact h
  · next hub ha =>
    obtain ⟨hready, hpools⟩ := h.lines.addPool ha
    have hgiven : (({ s with
        hub
        ownPools := s.ownPools ++ [{ number := s.hub.pools.length, metered }] } :
          Session).giveScript order).IsSound := by
      refine giveScript ?_ ?_ order
      · exact hready
      · exact Nat.le_trans hpools (Nat.succ_le_succ h.scripts)
    split <;> exact hgiven

/-- Whoever waits for a pool that has been closed lets its workers go. -/
theorem join {close : Session → Session} (hclosed : (close s).IsSound) (n : Nat) :
    (s.join n close).2.IsSound :=
  (hclosed.settle.run [n]).1

/-- What has to do with pools and makes none, on a hub. -/
theorem tended (h : s.IsSound) {hub : Hub Payload} (ht : s.hub.Tended hub)
    (hpools : hub.pools = s.hub.pools) : ({ s with hub } : Session).IsSound :=
  h.of_hub (h.lines.tended ht) hpools rfl

theorem shutdown (h : s.IsSound) (c : Carrier) :
    ({ s with hub := s.hub.shutdown c } : Session).IsSound :=
  h.tended (s.hub.tended_shutdown c) (Hub.desk_eq_iff.mp (s.hub.desk_shutdown c)).2.1

theorem closePool (h : s.IsSound) (n : Nat) :
    ({ s with hub := s.hub.closePool n } : Session).IsSound :=
  h.tended (s.hub.tended_closePool n) (Hub.desk_eq_iff.mp (s.hub.desk_closePool n)).2.1

theorem drop (h : s.IsSound) (k : Nat) : ({ s with hub := s.hub.drop k } : Session).IsSound := by
  refine h.tended (s.hub.tended_drop k) ?_
  cases hc : s.hub.carriers[k]? with
  | none => rw [Hub.drop, hc]
  | some c => exact (Hub.desk_eq_iff.mp (Hub.desk_drop hc)).2.1

theorem shutdownAndWait (h : s.IsSound) (c : Carrier) : (s.shutdownAndWait c).2.IsSound := by
  unfold Session.shutdownAndWait
  split
  · exact h
  · exact join (h.shutdown c) _

theorem visit (h : s.IsSound) (n : Nat) : (s.visit n).2.IsSound := by
  unfold Session.visit
  split
  · exact h
  · next place _ =>
    split
    · exact h
    · next l hl =>
      have hvisited := h.offered hl (.visit place.index)
      dsimp only
      split
      · exact ⟨hvisited.lines, hvisited.scripts⟩
      · exact hvisited

theorem leavePool (h : s.IsSound) : s.leavePool.2.IsSound := by
  unfold Session.leavePool
  split
  · exact h
  · next line i visits _ =>
    have hkept : ({ s with visits } : Session).IsSound := ⟨h.lines, h.scripts⟩
    refine hkept.mapLine fun l hl => ?_
    cases hc : l.callAway i with
    | none => exact (h.lines.line hl).run i
    | some t => exact ((h.lines.line hl).traffic (.step (.callAway i) .refl rfl hc)).run i

theorem addCarrier (h : s.IsSound) (order : CarrierOrder) : (s.addCarrier order).2.IsSound := by
  unfold Session.addCarrier
  split
  · exact h
  · split
    · exact h
    · next hub ha =>
      obtain ⟨l, c, hfresh, -, hlines, -, hpools, -⟩ := Hub.of_addCarrier_eq_ok ha
      exact h.of_hub (h.lines.append hlines hfresh.ready) hpools rfl

/-- A command for something that is not there does nothing. -/
theorem elim {β : Type} (h : s.IsSound) (x? : Option β) {f : β → Reply × Session}
    (hf : ∀ x, (f x).2.IsSound) : (x?.elim (.unknown, s) f).2.IsSound := by
  cases x? with
  | none => exact h
  | some x => exact hf x

/-- **Whatever is asked of a session**, its lines are between two exchanges when it is done. -/
theorem perform (h : s.IsSound) (c : Command) : (s.perform c).2.IsSound := by
  have policy : ∀ (i : Nat) p, (s.mapLine i (·.setPolicy p)).IsSound := fun i p =>
    h.traffic (a := .setPolicy p) rfl fun _ => rfl
  have router : ∀ (i : Nat) r, (s.mapLine i (·.setRouter r)).IsSound := fun i r =>
    h.traffic (a := .setRouter r) rfl fun _ => rfl
  cases c with
  | addCarrier order => exact h.addCarrier order
  | describe k => exact h.elim _ fun _ => h
  | produce k item brief => exact h.elim _ fun c => h.call ..
  | fill k first count => exact h.elim _ fun c => h.fill ..
  | setPolicy k p => exact h.elim _ fun c => policy _ p
  | setRouter k spec => exact h.elim _ fun c => router _ _
  | consume k order => exact h.elim _ fun c => h.consume c order
  | shutdown k => exact h.elim _ fun c => h.shutdown c
  | shutdownAndWait k => exact h.elim _ h.shutdownAndWait
  | close k =>
    refine h.elim _ fun c => ?_
    exact h.tended (s.hub.tended_close c) (Hub.desk_eq_iff.mp (s.hub.desk_close c)).2.1
  | drop k => exact h.elim _ fun _ => h.drop k
  | addView k =>
    exact h.elim _ fun c => ⟨(policy c.line .wait).lines, (policy c.line .wait).scripts⟩
  | cloneView v => exact h.elim _ fun _ => ⟨h.lines, h.scripts⟩
  | produceInView v item brief => exact h.elim _ fun line => h.call ..
  | drainView v channel limit => exact h.elim _ fun line => h.drain line channel limit
  | addRow channels room p spec =>
    unfold Session.perform
    dsimp only
    split
    · exact h
    · next hub ha =>
      obtain ⟨hready, hpools⟩ := h.lines.addLine ha
      exact h.of_hub hready hpools rfl
  | save j item brief => exact h.elim _ fun line => h.call ..
  | drainRow j channel limit => exact h.elim _ fun line => h.drain line channel limit
  | setRowPolicy j p => exact h.elim _ fun line => policy line p
  | closeRow j =>
    exact h.elim _ fun line => h.mapLine fun l hl => (h.lines.line hl).keep l.keepsPools_closeAll
  | addPool j name batch metered order => exact h.elim _ fun line => h.addPool ..
  | beginPool p =>
    refine h.elim _ fun own => h.of_hub (h.lines.beginPool own.number) ?_ rfl
    show (s.hub.beginPool own.number).pools = s.hub.pools
    unfold Hub.beginPool
    split
    · rfl
    · exact s.hub.pools_mapLine_eq ..
  | closePool p => exact h.elim _ fun own => h.closePool own.number
  | dropPool p =>
    exact h.elim _ fun own => ⟨(h.closePool own.number).lines, (h.closePool own.number).scripts⟩
  | joinPool p => exact h.elim _ fun own => join (h.closePool own.number) _
  | describePool p =>
    refine h.elim _ fun own => ?_
    split <;> exact h
  | visit p => exact h.elim _ fun own => h.visit own.number
  | leavePool => exact h.leavePool
  | keepSignal p => exact h.elim _ fun _ => ⟨h.lines, h.scripts⟩
  | find name =>
    unfold Session.perform
    dsimp only
    split
    · exact h
    · exact ⟨h.lines, h.scripts⟩
  | register name g => exact h.elim _ fun _ => ⟨h.lines, h.scripts⟩
  | unregister name g => exact h.elim _ fun _ => ⟨h.lines, h.scripts⟩
  | names | callDefaultHooks => exact h
  | closeAll => exact h.tended s.hub.tended_closeAll (Hub.desk_eq_iff.mp s.hub.desk_closeAll).2.1
  | describeSignal g => exact h.elim _ fun _ => h
  | closeSignal g => exact h.elim _ fun n => h.closePool n
  | sameSignal g k => exact h.elim _ fun _ => h.elim _ fun _ => h
  | release n w =>
    unfold Session.perform
    dsimp only
    split
    · split
      · exact h
      · next s' hs => exact (h.release hs).1
    · exact h
  | run pool =>
    cases pool with
    | none => exact (h.run _).1
    | some n => exact (h.run [n]).1

theorem play (h : s.IsSound) (c : Command) : (s.play c).2.IsSound :=
  ⟨(h.perform c).settle.lines, (h.perform c).settle.scripts⟩

/-- What is shown after a command is shown of a session where nobody has anything to do. -/
theorem isRested_play (h : s.IsSound) (c : Command) : (s.play c).2.IsRested :=
  (h.perform c).isRested_settle

end IsSound

/-- The session after some commands. -/
def after (s : Session) (commands : List Command) : Session :=
  commands.foldl (fun s c => (s.play c).2) s

/-- Commands keep a session sound. -/
theorem IsSound.after (h : s.IsSound) (commands : List Command) : (s.after commands).IsSound := by
  induction commands generalizing s with
  | nil => exact h
  | cons c commands ih => exact ih (h.play c)

/-- **Every line of a session was reached by actions of its own**, whatever the commands. -/
theorem isSound_after (commands : List Command) : (after {} commands).IsSound :=
  IsSound.after ⟨fun _ hl => absurd hl List.not_mem_nil, Nat.le_refl _⟩ commands

/-- **Between two commands nobody has anything to do.** -/
theorem isRested_after (commands : List Command) : (after {} commands).IsRested := by
  rcases List.eq_nil_or_concat commands with rfl | ⟨before, c, rfl⟩
  · intro i l hl
    cases hl
  · rw [List.concat_eq_append, after, List.foldl_append]
    exact (isSound_after before).isRested_play c

end Session

end Conveyor
