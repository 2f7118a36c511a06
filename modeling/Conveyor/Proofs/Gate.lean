/-
Conveyor.Proofs.Gate — which calls are turned away.

A call for the carrier is answered that no pool runs exactly if the pool that it
found was not running at some moment before it looked, whatever else happens in
between (`ReachesBy.turned_away_iff`). A pool that is found has begun (`Primed`), so
one that does not run is closed, and stays closed.
-/
import Conveyor.Proofs.Exchange
import Conveyor.Proofs.Runs

namespace Conveyor

variable {α : Type u}

namespace Line

variable {s t u : Line α} {a : Action α} {i p : Nat} {c c' : Call α}

/-! ## Pools that have begun -/

/-- Pool `p` has begun; it may have been closed since. -/
def HasBegun (s : Line α) (p : Nat) : Prop :=
  ∃ pool, s.pools[p]? = some pool ∧ pool.stage ≠ .created

/-- What has begun and does not run is closed. -/
theorem HasBegun.closed (h : s.HasBegun p) (hr : s.isRunning p = false) :
    s.stage? p = some .closed := by
  obtain ⟨pool, hp, hstage⟩ := h
  rw [isRunning, hp, Option.any_some, Pool.isRunning] at hr
  rw [stage?_eq hp]
  cases hs : pool.stage with
  | created => exact absurd hs hstage
  | running => simp [hs] at hr
  | closed => rfl

/-- To put a pool in another one's place does not undo a beginning. -/
theorem HasBegun.setPool (h : s.HasBegun p) {q : Nat} {old new : Pool (Parcel α)}
    (hq : s.pools[q]? = some old) (hstage : old.stage ≠ .created → new.stage ≠ .created) :
    ∃ pool, (s.pools.set q new)[p]? = some pool ∧ pool.stage ≠ .created := by
  obtain ⟨pool, hp, hbegun⟩ := h
  by_cases hqp : q = p
  · subst hqp
    rw [hp] at hq
    cases hq
    exact ⟨new, List.getElem?_set_self (List.getElem?_eq_some_iff.mp hp).1, hstage hbegun⟩
  · exact ⟨pool, by rw [List.getElem?_set_ne hqp, hp], hbegun⟩

/-- What has begun never goes back. -/
theorem Effect.hasBegun (e : Effect s t) (h : s.HasBegun p) : t.HasBegun p := by
  cases e with
  | enroll _ _ hq | turnBack _ _ hq | release _ _ _ hq | hold _ hq | pace hq | sweep hq
  | settle hq => exact h.setPool hq id
  | close hq => exact h.setPool hq fun _ => Stage.noConfusion
  | begin hq hc => exact h.setPool hq fun hne => absurd hc hne
  | build =>
    obtain ⟨pool, hp, hbegun⟩ := h
    refine ⟨pool, ?_, hbegun⟩
    rw [List.getElem?_append_left (List.getElem?_eq_some_iff.mp hp).1, hp]
  | _ => exact h

theorem Reaches.hasBegun (hr : Reaches s t) (h : s.Reachable) (hb : s.HasBegun p) : t.HasBegun p :=
  hr.induction (P := fun u => u.HasBegun p) h hb fun _ _ hu e => e.hasBegun hu

theorem hasBegun_of_stage {stage : Stage} (hstage : stage ≠ .created)
    (h : s.stage? p = some stage) : s.HasBegun p := by
  obtain ⟨pool, hp, rfl⟩ := exists_pool_of_stage? h
  exact ⟨pool, hp, hstage⟩

/-- The pools that the carrier has, and those that calls for it know, have begun. -/
structure Primed (s : Line α) : Prop where
  active : ∀ p, s.active = some p → s.HasBegun p
  exchange : ∀ p, s.exchange = .begun p ∨ s.exchange = .published p → s.HasBegun p
  calls : ∀ (i : Nat) (c : Call α) item p, s.calls[i]? = some c → c.errand = .produce item →
    c.place.Names p → s.HasBegun p

/-- Only an exchange gives the carrier another pool. -/
theorem carrier_of_step (hs : s.step a = some t) :
    (t.active = s.active ∧ t.exchange = s.exchange) ∨
      (∃ plan, s.install plan = .ok t) ∨ s.publish = some t ∨ s.retire = some t := by
  cases hq : a.isQuiet with
  | true =>
    rcases standing_step hq hs with hsame | ⟨plan, hb⟩ | ⟨q, rfl⟩ | ⟨plan, -, hi⟩ | hp | hr
    · obtain ⟨ha, -, he, -⟩ := carrier_of_standing hsame
      exact .inl ⟨ha, he⟩
    · obtain ⟨pool, -, rfl⟩ := of_build_eq_ok hb
      exact .inl ⟨rfl, rfl⟩
    · obtain ⟨ha, -, he⟩ := carrier_begin s q
      exact .inl ⟨ha, he⟩
    · exact .inr (.inl ⟨plan, hi⟩)
    · exact .inr (.inr (.inl hp))
    · exact .inr (.inr (.inr hr))
  | false =>
    cases a with
    | shutdown =>
      rcases of_step_shutdown hs with rfl | ⟨p, rfl⟩
      · exact .inl ⟨rfl, rfl⟩
      · obtain ⟨ha, -, he⟩ := carrier_closePool s p
        exact .inl ⟨ha, he⟩
    | closePool p =>
      cases hs
      obtain ⟨ha, -, he⟩ := carrier_closePool s p
      exact .inl ⟨ha, he⟩
    | _ => cases hq

/-- The end of an exchange leaves the pool that calls find as it is. -/
theorem carrier_retire (hr : s.retire = some t) : t.active = s.active ∧ t.exchange = .idle := by
  obtain ⟨p, -, journal, rfl⟩ := of_retire hr
  cases s.installed with
  | none => exact ⟨rfl, rfl⟩
  | some old =>
    obtain ⟨ha, -, hx⟩ := carrier_closePool (s.adopt p) old
    exact ⟨ha, hx⟩

/-- Calls find only the pool that the carrier has, and this one has begun before it was
published. -/
theorem Primed.step (hp : s.Primed) (h : s.Reachable) (hs : s.step a = some t) : t.Primed := by
  have keep : ∀ {p}, s.HasBegun p → t.HasBegun p := Reaches.hasBegun (.step a .refl hs) h
  have hcalls : ∀ (i : Nat) (c : Call α) item p, t.calls[i]? = some c → c.errand = .produce item →
      c.place.Names p → t.HasBegun p := by
    intro i c' item p hc' he hnames
    rcases call_of_step h.named hs hc' with hbegun | ⟨c, hc, rfl | turn⟩
    · rw [hbegun] at hnames
      exact hnames.elim
    · exact keep (hp.calls i _ item p hc he hnames)
    · have he' : c.errand = .produce item := turn.errand.symm.trans he
      rcases turn.names_place he' hnames with hold | hactive
      · exact keep (hp.calls i c item p hc he' hold)
      · exact keep (hp.active p hactive)
  rcases carrier_of_step hs with ⟨ha, he⟩ | ⟨plan, hi⟩ | hpub | hret
  · exact ⟨fun p hactive => keep (hp.active p (ha ▸ hactive)),
      fun p hx => keep (hp.exchange p (he ▸ hx)), hcalls⟩
  · obtain ⟨ha, -, he, -⟩ := carrier_install hi
    refine ⟨fun p hactive => keep (hp.active p (ha ▸ hactive)), ?_, hcalls⟩
    intro p hx
    rw [he] at hx
    rcases hx with hx | hx <;> cases hx
    exact hasBegun_of_stage Stage.noConfusion (stage?_install hi)
  · obtain ⟨q, he, rfl⟩ := of_publish hpub
    refine ⟨?_, ?_, hcalls⟩
    · intro p hactive
      cases hactive
      exact keep (hp.exchange q (.inl he))
    · intro p hx
      rcases hx with hx | hx <;> cases hx
      exact keep (hp.exchange q (.inl he))
  · obtain ⟨ha, he⟩ := carrier_retire hret
    refine ⟨fun p hactive => keep (hp.active p (ha ▸ hactive)), ?_, hcalls⟩
    intro p hx
    rw [he] at hx
    rcases hx with hx | hx <;> cases hx

/-- On every line that is reached. -/
theorem Reachable.primed (h : s.Reachable) : s.Primed := by
  obtain ⟨start, hf, hr⟩ := h
  induction hr with
  | refl =>
    obtain ⟨_, _, _, _, store, _, rfl⟩ := hf
    refine ⟨fun p hp => (nomatch hp), fun p hp => ?_, fun i c _ _ hc => by simp [ofStore] at hc⟩
    rcases hp with hp | hp <;> cases hp
  | step a hr hs ih => exact ih.step ⟨start, hf, hr⟩ hs

/-! ## What is handed back -/

/-- A call that was refused has got its own item back. -/
theorem Turn.handedBack (turn : Turn s i c c')
    (h : ∀ why back, c.place.result? = some (.refused why back) → c.item? = some back)
    (why : Refusal) (back : α) (hr : c'.place.result? = some (.refused why back)) :
    c'.item? = some back := by
  have hkeep : c'.item? = c.item? := by rw [Call.item?, turn.errand, Call.item?]
  rw [hkeep]
  cases turn with
  | hop hop =>
    cases hop with
    | refuse _ hitem _ ha =>
      cases hr
      rw [(Lane.of_attempt_refused ha).1]
      exact hitem
    | finish hp =>
      rw [Place.result?_over, ← hp] at hr
      exact h why back hr
    | _ => cases hr
  | turnBack =>
    cases hi : c.item? with
    | none =>
      rw [hi] at hr
      cases hr
    | some item =>
      rw [hi] at hr
      cases hr
      rfl
  | tally hp =>
    cases hr
    exact h why back (by rw [hp]; rfl)
  | release hp =>
    rw [Place.result?_over, ← hp] at hr
    exact h why back hr
  | enter _ _ _ hplace => rcases hplace with rfl | rfl <;> cases hr
  | enroll | route | misroute | write => cases hr

/-- What a refusal hands back is the call's own item. -/
theorem Reachable.item_back (h : s.Reachable) (hc : s.calls[i]? = some c) {why : Refusal}
    {back : α} (hr : c.place.result? = some (.refused why back)) : c.item? = some back := by
  have hall : ∀ (i : Nat) (c : Call α), s.calls[i]? = some c → ∀ why back,
      c.place.result? = some (.refused why back) → c.item? = some back := by
    refine h.induction (P := fun u => ∀ (i : Nat) (c : Call α), u.calls[i]? = some c → ∀ why back,
      c.place.result? = some (.refused why back) → c.item? = some back) ?_ ?_
    · rintro start ⟨_, _, _, _, store, _, rfl⟩ i c hc
      simp [ofStore] at hc
    · intro u v hu e i c' hc' why back hr
      rcases e.call_before hc' with ⟨hbegun, -⟩ | ⟨c, hc, rfl | turn⟩
      · rw [hbegun] at hr
        cases hr
      · exact hu i _ hc why back hr
      · exact turn.handedBack (hu i c hc) why back hr
  exact hall i c hc why back hr

/-! ## Calls that are turned away -/

/-- A call that has been turned away since saw that its pool did not run. -/
theorem ReachesBy.of_turned_away {allowed : Action α → Prop} (hr : ReachesBy allowed s t)
    (h : s.Reachable) (hold : ∀ c₀, s.calls[i]? = some c₀ → c₀.place.isTurnedAway = false)
    (hc : t.calls[i]? = some c) (haway : c.place.isTurnedAway = true) :
    ∃ u p c', ReachesBy allowed s u ∧ ReachesBy allowed u t ∧ u.calls[i]? = some c' ∧
      c'.place = .counted p ∧ u.isRunning p = false := by
  induction hr generalizing c with
  | refl =>
    rw [hold c hc] at haway
    cases haway
  | @step t u a hr ha hs ih =>
    have before : ∀ {d : Call α}, t.calls[i]? = some d → d.place.isTurnedAway = true →
        ∃ v p c', ReachesBy allowed s v ∧ ReachesBy allowed v u ∧ v.calls[i]? = some c' ∧
          c'.place = .counted p ∧ v.isRunning p = false := by
      intro d hd hdaway
      obtain ⟨v, p, c', hsv, hvt, hc', hp, hrun⟩ := ih hd hdaway
      exact ⟨v, p, c', hsv, hvt.step a ha hs, hc', hp, hrun⟩
    rcases call_of_step (h.reaches hr.reaches).named hs hc with hbegun | ⟨d, hd, rfl | turn⟩
    · rw [hbegun] at haway
      cases haway
    · exact before hd haway
    · rcases turn.turnedAway_before haway with hdaway | ⟨p, hp, hrun⟩
      · exact before hd hdaway
      · exact ⟨t, p, d, hr, .step a .refl ha hs, hd, hp, hrun⟩

/-- **A call is turned away if its pool stops before it looks, and only then.** A call
that was offered since is answered that no pool runs exactly if, at some moment
between its look-up and its look at the stage, the pool that it had found was not
running. -/
theorem ReachesBy.turned_away_iff {allowed : Action α → Prop} (hr : ReachesBy allowed s t)
    (h : s.Reachable) {item : α} (hi : s.calls.length ≤ i) (hc : t.calls[i]? = some c)
    (he : c.errand = .produce item) (hover : c.isOver = true) :
    (∃ back, c.place = .over (.answered (.refused .noConsumer back))) ↔
      ∃ u p c', ReachesBy allowed s u ∧ ReachesBy allowed u t ∧ u.calls[i]? = some c' ∧
        (c'.place = .found p ∨ c'.place = .counted p) ∧ u.isRunning p = false := by
  constructor
  · rintro ⟨back, hplace⟩
    have hnew : ∀ c₀, s.calls[i]? = some c₀ → c₀.place.isTurnedAway = false :=
      fun c₀ hc₀ => absurd hc₀ (not_begun hi c₀)
    have haway : c.place.isTurnedAway = true := by
      rw [hplace]
      rfl
    obtain ⟨u, p, c', hsu, hut, hc', hp, hrun⟩ := hr.of_turned_away h hnew hc haway
    exact ⟨u, p, c', hsu, hut, hc', .inr hp, hrun⟩
  · rintro ⟨u, p, c', hsu, hut, hc', hp, hrun⟩
    have hu := h.reaches hsu.reaches
    have he' : c'.errand = .produce item := by
      obtain ⟨d, hd, hde⟩ := hut.reaches.errand hu hc'
      rw [hc] at hd
      cases hd
      exact hde.symm.trans he
    have hnames : c'.place.Names p := by
      rcases hp with hp | hp <;> rw [hp] <;> rfl
    have hclosed := (hu.primed.calls i c' item p hc' he' hnames).closed hrun
    exact exists_of_turnedAway (hut.reaches.turned_away hu hc' he' hclosed hp hc hover) hover

end Line

end Conveyor
