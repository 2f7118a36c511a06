/-
Conveyor.Proofs.Alone — a call that nobody interrupts.

Each step of a call brings it nearer to its end (`rank_advance`), so a call that
makes one step after the other is over before long, or comes to a place where it has
none: a full open channel, or a pool that it visits (`advance_run`, `of_stuck`). If
it is one for the carrier, and nobody does anything else meanwhile, the state of
the carrier when it begins decides whether it is turned away
(`turned_away_alone_iff`).
-/
import Conveyor.Line.Schedule
import Conveyor.Proofs.Gate
import Mathlib.Tactic.ByContra

namespace Conveyor

variable {α : Type u}

/-- A writer that has room, or finds the channel closed, does not have to wait. -/
theorem Lane.attempt_ne_mustWait {l : Lane α} (h : (l.closed || l.hasRoom) = true)
    (policy : WhenFull) (a : α) : l.attempt policy a ≠ .ok .mustWait := by
  intro he
  unfold attempt at he
  by_cases hc : l.closed = true
  · simp [hc, pure, Except.pure] at he
  · have hr : l.hasRoom = true := by simpa [hc] using h
    simp [hc, hr, bind_eq_ok, pure, Except.pure] at he

namespace Line

variable {s t u : Line α} {i n p : Nat} {c c' : Call α} {item : α}

/-! ## Each step counts -/

theorem call_moveCall (hc : s.calls[i]? = some c) (place : Place α) :
    (s.moveCall i place).calls[i]? = some { c with place } := by
  rw [moveCall_eq hc]
  exact List.getElem?_set_self (List.getElem?_eq_some_iff.mp hc).1

theorem rank_lookUp (hc : s.calls[i]? = some c) :
    ∃ c', (s.lookUp i c.errand).calls[i]? = some c' ∧ c'.place.rank < 9 := by
  cases he : c.errand with
  | produce item =>
    refine ⟨_, call_moveCall hc _, ?_⟩
    cases s.active <;> simp [Place.rank]
  | write item policy => cases policy <;> exact ⟨_, call_moveCall hc _, by simp [Place.rank]⟩
  | visit p => exact ⟨_, call_moveCall hc _, by simp [Place.rank]⟩

theorem rank_enter (hc : s.calls[i]? = some c) (p : Nat) (errand : Errand α) :
    ∃ c', (s.enter i p errand).calls[i]? = some c' ∧ c'.place.rank < 7 := by
  unfold enter
  split
  · rw [mapCall_eq hc]
    refine ⟨_, List.getElem?_set_self (List.getElem?_eq_some_iff.mp hc).1, ?_⟩
    cases errand <;> simp [Place.rank]
  · exact ⟨_, call_moveCall hc _, by simp [Place.rank]⟩

theorem rank_route (hc : s.calls[i]? = some c) (policy : WhenFull) (item : α) :
    ∃ c', (s.route i policy item).calls[i]? = some c' ∧ c'.place.rank < 5 := by
  unfold route
  simp only
  split
  · exact ⟨_, call_moveCall (s := { s with store := _ }) hc _, by simp [Place.rank]⟩
  · exact ⟨_, call_moveCall (s := { s with store := _ }) hc _, by simp [Place.rank]⟩

/-- A writer comes to something, or waits in a full channel. -/
theorem rank_write (hc : s.calls[i]? = some c) (n : Nat) (policy : WhenFull) (item : α) :
    ∃ c', (s.write i n policy item).calls[i]? = some c' ∧
      (c'.place.rank < 3 ∨ c'.place = .waiting n ∧ s.mayResume n = false) := by
  unfold write
  split
  · exact ⟨_, call_moveCall hc _, .inl (by simp [Place.rank])⟩
  · next lane hl =>
    split
    · exact ⟨_, call_moveCall hc _, .inl (by simp [Place.rank])⟩
    · exact ⟨_, call_moveCall hc _, .inl (by simp [Place.rank])⟩
    · next hwait =>
      refine ⟨_, call_moveCall hc _, .inr ⟨rfl, ?_⟩⟩
      rw [mayResume, hl, Option.any_some, Bool.eq_false_iff]
      exact fun hroom => Lane.attempt_ne_mustWait hroom _ _ hwait
    · exact ⟨_, call_moveCall hc _, .inl (by simp [Place.rank])⟩

/-- A step brings a call nearer to its end. -/
theorem rank_advance (hc : s.calls[i]? = some c) (h : s.advance i = some t) :
    ∃ c', t.calls[i]? = some c' ∧ c'.place.rank < c.place.rank := by
  unfold advance at h
  rw [hc] at h
  cases hp : c.place with
  | begun =>
    simp only [hp, Option.some.injEq] at h
    exact h ▸ rank_lookUp hc
  | found p =>
    simp only [hp, Option.some.injEq] at h
    exact h ▸ ⟨_, call_moveCall (s := s.mapPool p Pool.enroll) hc _, by simp [Place.rank]⟩
  | counted p =>
    simp only [hp, Option.some.injEq] at h
    exact h ▸ rank_enter hc p c.errand
  | turnedAway p =>
    simp only [hp, Option.some.injEq] at h
    refine h ▸ ⟨_, call_moveCall (s := s.mapPool p Pool.unenroll) hc _, ?_⟩
    cases c.item? <;> simp [Place.rank]
  | cleared =>
    simp only [hp, Option.some.injEq] at h
    exact h ▸ ⟨_, call_moveCall hc _, by simp [Place.rank]⟩
  | informed policy =>
    cases hi : c.item? with
    | none => simp [hp, hi] at h
    | some item =>
      simp only [hp, hi, Option.some.injEq] at h
      exact h ▸ rank_route hc policy item
  | routed n policy =>
    cases hi : c.item? with
    | none => simp [hp, hi] at h
    | some item =>
      simp only [hp, hi, Option.some.injEq] at h
      obtain ⟨c', hc', hlt | ⟨hw, -⟩⟩ := rank_write hc n policy item
      · exact ⟨c', h ▸ hc', Nat.lt_succ_of_lt hlt⟩
      · exact ⟨c', h ▸ hc', by simp [hw, Place.rank]⟩
  | waiting n =>
    cases hi : c.item? with
    | none => simp [hp, hi] at h
    | some item =>
      simp only [hp, hi, Option.ite_none_right_eq_some, Option.some.injEq] at h
      obtain ⟨hmay, rfl⟩ := h
      obtain ⟨c', hc', hlt | ⟨-, hnot⟩⟩ := rank_write hc n .wait item
      · exact ⟨c', hc', hlt⟩
      · rw [hmay] at hnot
        cases hnot
  | settled result =>
    simp only [hp, Option.some.injEq] at h
    subst h
    unfold count
    split <;> exact ⟨_, call_moveCall hc _, by simp [Place.rank]⟩
  | leaving verdict =>
    simp only [hp, Option.some.injEq] at h
    subst h
    unfold finish
    split <;> exact ⟨_, call_moveCall hc _, by simp [Place.rank]⟩
  | staying | «over» => simp [hp] at h

/-- A call without a step of its own is over, stays in a pool, or waits. -/
theorem of_stuck (h : s.advance i = none) (hc : s.calls[i]? = some c) (hitem : c.item? = some item) :
    c.isOver = true ∨ c.place = .staying ∨ ∃ n, c.place = .waiting n ∧ s.mayResume n = false := by
  unfold advance at h
  rw [hc] at h
  cases hp : c.place with
  | «over» verdict => exact .inl (by rw [Call.isOver, hp])
  | staying => exact .inr (.inl rfl)
  | waiting n =>
    simp only [hp, hitem, ite_eq_right_iff, reduceCtorEq, imp_false, Bool.not_eq_true] at h
    exact .inr (.inr ⟨n, rfl, h⟩)
  | _ => simp [hp, hitem] at h

/-! ## Running on -/

theorem advance_go (hc : s.calls[i]? = some c) (hn : c.place.rank ≤ n) :
    (run.go i s n).advance i = none := by
  induction n generalizing s c with
  | zero =>
    show s.advance i = none
    cases h : s.advance i with
    | none => rfl
    | some t =>
      obtain ⟨c', -, hlt⟩ := rank_advance hc h
      omega
  | succ n ih =>
    unfold run.go
    cases h : s.advance i with
    | none => exact h
    | some t =>
      obtain ⟨c', hc', hlt⟩ := rank_advance hc h
      exact ih hc' (by omega)

/-- **The steps of `run` are enough.** After them the call has none to make. -/
theorem advance_run (s : Line α) (i : Nat) : (s.run i).advance i = none := by
  cases hc : s.calls[i]? with
  | none =>
    have hnone : s.advance i = none := by rw [advance, hc]
    have hrun : s.run i = s := by
      unfold run run.go
      rw [hnone]
      rfl
    rw [hrun, hnone]
  | some c =>
    refine advance_go hc ?_
    cases c.place <;> simp [Place.rank]

/-- What a call does that nobody interrupts. -/
theorem reachesBy_run (s : Line α) (i : Nat) :
    ReachesBy (fun a : Action α => a = .advance i) s (s.run i) := by
  have hgo : ∀ n (s : Line α), ReachesBy (fun a : Action α => a = .advance i) s (run.go i s n) := by
    intro n
    induction n with
    | zero => exact fun s => .refl
    | succ n ih =>
      intro s
      unfold run.go
      cases h : s.advance i with
      | none => exact .refl
      | some t =>
        have hstep : ReachesBy (fun a : Action α => a = .advance i) s t := .step _ .refl rfl h
        exact hstep.trans (ih t)
  exact hgo 10 s

theorem standing_of_reachesBy (hr : ReachesBy (fun a : Action α => a = .advance i) s t) :
    t.standing = s.standing := by
  induction hr with
  | refl => rfl
  | step a _ ha hs ih =>
    subst ha
    exact (sparesPools_advance hs).standing.trans ih

/-! ## A call for the carrier -/

theorem Turn.found_of_begun (turn : Turn s i c c') (hp : c.place = .begun)
    (he : c.errand = .produce item) (ha : s.active = some p) : c'.place = .found p := by
  cases turn with
  | hop hop =>
    cases hop with
    | find _ _ hactive =>
      rw [ha] at hactive
      cases hactive
      rfl
    | skip _ _ hnone =>
      rw [ha] at hnone
      cases hnone
    | start _ hw | insist _ hw | visit _ hw =>
      rw [he] at hw
      cases hw
    | refuse ht | wait ht | stray ht | fail ht => simp [Call.target?, hp] at ht
    | turnAway hq | ask hq | callAway hq | finish hq =>
      rw [hp] at hq
      cases hq
  | write ht => simp [Call.target?, hp] at ht
  | enroll hq | enter hq | turnBack hq | route hq | misroute hq | tally hq | release hq =>
    rw [hp] at hq
    cases hq

/-- What one step of a call keeps is kept when nobody interrupts it. -/
theorem ReachesBy.alone_induction (hr : ReachesBy (fun a : Action α => a = .advance i) s t)
    (h : s.Reachable) {P : Call α → Prop} (hc : s.calls[i]? = some c) (hstart : P c)
    (turn : ∀ u c c', u.standing = s.standing → Turn u i c c' → P c → P c') :
    ∃ c', t.calls[i]? = some c' ∧ P c' := by
  induction hr with
  | refl => exact ⟨c, hc, hstart⟩
  | @step u v a hr ha hs ih =>
    subst ha
    obtain ⟨d, hd, hdp⟩ := ih
    have e := advance_effect (h.reaches hr.reaches).named hs
    obtain ⟨d', hd', rfl | ht⟩ := e.call_after hd
    · exact ⟨_, hd', hdp⟩
    · exact ⟨d', hd', turn u d d' (standing_of_reachesBy hr) ht hdp⟩

/-- Where the pool that a call finds is closed, it goes no further. -/
theorem doomed_alone (hr : ReachesBy (fun a : Action α => a = .advance i) s t) (h : s.Reachable)
    (hc : s.calls[i]? = some c) (hp : c.place = .begun) (he : c.errand = .produce item)
    (ha : s.active = some p) (hclosed : s.stage? p = some .closed) :
    ∃ c', t.calls[i]? = some c' ∧ c'.errand = .produce item ∧
      (c'.place = .begun ∨ c'.place = .found p ∨ c'.place = .counted p ∨
        c'.place.isTurnedAway = true) := by
  refine hr.alone_induction h hc ⟨he, .inl hp⟩ ?_
  rintro u d d' hsame turn ⟨hde, hd⟩
  have hclosed' : u.stage? p = some .closed := (stage?_of_standing hsame p).trans hclosed
  have ha' : u.active = some p := (carrier_of_standing hsame).1.trans ha
  refine ⟨turn.errand.trans hde, ?_⟩
  rcases hd with hbegun | hfound | hcounted | haway
  · exact .inr (.inl (turn.found_of_begun hbegun hde ha'))
  · exact .inr (.inr ((turn.doomed_after hclosed' (.inl hfound)).symm))
  · exact .inr (.inr ((turn.doomed_after hclosed' (.inr hcounted)).symm))
  · exact .inr (.inr (.inr (turn.turnedAway_after hde haway)))

/-- Where the carrier's pool runs, or there is none, the call is let in. -/
theorem admitted_alone (hr : ReachesBy (fun a : Action α => a = .advance i) s t) (h : s.Reachable)
    (hc : s.calls[i]? = some c) (hp : c.place = .begun) (he : c.errand = .produce item)
    (hrun : ∀ p, s.active = some p → s.isRunning p = true) :
    ∃ c', t.calls[i]? = some c' ∧ c'.errand = .produce item ∧ c'.place.isTurnedAway = false ∧
      ∀ p, c'.place.Names p → s.active = some p := by
  refine hr.alone_induction h hc ⟨he, by rw [hp]; rfl, fun p hn => by rw [hp] at hn; exact hn.elim⟩ ?_
  rintro u d d' hsame turn ⟨hde, haway, hnames⟩
  have ha : u.active = s.active := (carrier_of_standing hsame).1
  refine ⟨turn.errand.trans hde, ?_, ?_⟩
  · by_contra hnow
    rcases turn.turnedAway_before (eq_true_of_ne_false hnow) with hbefore | ⟨p, hd, hnot⟩
    · rw [haway] at hbefore
      cases hbefore
    · have hactive : s.active = some p := hnames p (by rw [hd]; rfl)
      have hrunning : u.isRunning p = true :=
        isRunning_iff.mpr ((stage?_of_standing hsame p).trans (isRunning_iff.mp (hrun p hactive)))
      rw [hnot] at hrunning
      cases hrunning
  · intro p hn
    rcases turn.names_place hde hn with hold | hactive
    · exact hnames p hold
    · exact ha.symm.trans hactive

/-- How call `i` has ended, if it is over. -/
def verdict? (s : Line α) (i : Nat) : Option (Verdict α) := s.calls[i]?.bind Call.verdict?

theorem verdict?_eq {verdict : Verdict α} (hc : s.calls[i]? = some c)
    (hp : c.place = .over verdict) : s.verdict? i = some verdict := by
  rw [verdict?, hc, Option.bind_some, Call.verdict?, hp]

theorem of_verdict? {verdict : Verdict α} (h : s.verdict? i = some verdict) :
    ∃ c, s.calls[i]? = some c ∧ c.place = .over verdict := by
  obtain ⟨c, hc, hv⟩ := Option.bind_eq_some_iff.mp h
  refine ⟨c, hc, ?_⟩
  cases hp : c.place with
  | «over» v =>
    rw [Call.verdict?, hp] at hv
    cases hv
    rfl
  | _ => simp [Call.verdict?, hp] at hv

/-- The call that has just been offered is the last one, and nothing else is
different. -/
theorem of_offer {producer : Nat} {errand : Errand α} (ho : s.offer producer errand = some u) :
    u.calls[s.calls.length]? = some { producer, errand, place := .begun } ∧
      u.standing = s.standing := by
  simp only [offer, Option.ite_none_right_eq_some, Option.some.injEq] at ho
  obtain ⟨-, rfl⟩ := ho
  exact ⟨List.getElem?_concat_length .., rfl⟩

/-- **A call that nobody interrupts is turned away exactly if the carrier has a pool
that does not run.** -/
theorem turned_away_alone_iff (h : s.Reachable) {producer : Nat}
    (ho : s.offer producer (.produce item) = some u) :
    (u.run s.calls.length).verdict? s.calls.length =
        some (.answered (.refused .noConsumer item)) ↔
      ∃ p, s.active = some p ∧ s.isRunning p = false := by
  have hu : u.Reachable := h.reaches (.step (.offer producer (.produce item)) .refl ho)
  obtain ⟨hc, hsame⟩ := of_offer ho
  have hactive : u.active = s.active := (carrier_of_standing hsame).1
  have hr := reachesBy_run u s.calls.length
  have ht : (u.run s.calls.length).Reachable := hu.reaches hr.reaches
  constructor
  · intro hv
    by_contra hno
    have hrun : ∀ p, u.active = some p → u.isRunning p = true := by
      intro p hp
      by_contra hnot
      refine hno ⟨p, hactive.symm.trans hp, ?_⟩
      have hstill : s.isRunning p ≠ true := fun hs => hnot
        (isRunning_iff.mpr ((stage?_of_standing hsame p).trans (isRunning_iff.mp hs)))
      simpa using hstill
    obtain ⟨c, hc', hplace⟩ := of_verdict? hv
    obtain ⟨d, hd, -, haway, -⟩ := admitted_alone hr hu hc rfl rfl hrun
    rw [hc'] at hd
    cases hd
    rw [hplace] at haway
    cases haway
  · rintro ⟨p, hp, hnot⟩
    have hclosed : u.stage? p = some .closed :=
      (stage?_of_standing hsame p).trans ((h.primed.active p hp).closed hnot)
    obtain ⟨c, hc', he, hplace⟩ := doomed_alone hr hu hc rfl rfl (hactive.trans hp) hclosed
    have hitem : c.item? = some item := by rw [Call.item?, he]
    rcases of_stuck (advance_run u s.calls.length) hc' hitem with hover | hstay | ⟨n, hwait, -⟩
    · have haway : c.place.isTurnedAway = true := by
        rcases hplace with hq | hq | hq | haway
        · simp [Call.isOver, hq] at hover
        · simp [Call.isOver, hq] at hover
        · simp [Call.isOver, hq] at hover
        · exact haway
      obtain ⟨back, hback⟩ := exists_of_turnedAway haway hover
      have hresult : c.place.result? = some (.refused .noConsumer back) := by
        rw [hback]
        rfl
      have hown := ht.item_back hc' hresult
      rw [hitem] at hown
      cases hown
      exact verdict?_eq hc' hback
    · rw [hstay] at hplace
      rcases hplace with hq | hq | hq | hq <;> cases hq
    · rw [hwait] at hplace
      rcases hplace with hq | hq | hq | hq <;> cases hq

end Line

end Conveyor
