/-
Conveyor.Proofs.Installed — the pool that a carrier has.

Which pool that is stands in two places, one that calls look at and one that the
carrier goes by when it closes its pool; and the pool itself may be closed by anyone
who holds a signal for it. Between two exchanges both places name the pool that was
installed last, and all pools before it are closed (`HasOwned`), however the actions
of others fall between the steps of an exchange (`ReachesBy.hasOwned`).

A hub serves its carriers one request after the other. A carrier that was given pools
by some plans has them on its line, in this order, and only the last of them may run;
whether it does decides what becomes of a call (`Hub.provided_after`).
-/
import Conveyor.Proofs.Alone
import Conveyor.Proofs.Flow
import Conveyor.Proofs.Requests
import Mathlib.Data.Nat.PSub

namespace Conveyor

/-- Whether the action may happen on the line of a carrier, over whose channels nobody
else builds pools. -/
def Action.isCarriers {α : Type u} : Action α → Bool
  | .build _ | .begin _ => false
  | _ => true

namespace Line

variable {α : Type u} {s t : Line α} {n p : Nat}

/-! ## One pool after the other -/

/-- The carrier has owned `n` pools, one after the other. All but the last one are
closed, and there is a further one only during an exchange. -/
structure HasOwned (s : Line α) (n : Nat) : Prop where
  installed : s.installed = n.ppred
  earlier : ∀ p, p + 1 < n → s.stage? p = some .closed
  idle : s.exchange = .idle → s.pools.length = n ∧ s.active = n.ppred
  begun : ∀ p, s.exchange = .begun p → p = n ∧ s.pools.length = n + 1 ∧ s.active = n.ppred
  published : ∀ p, s.exchange = .published p → p = n ∧ s.pools.length = n + 1 ∧ s.active = some n

/-- What is closed stays closed when another pool is. -/
theorem closed_closePool (h : s.stage? p = some .closed) (q : Nat) :
    (s.closePool q).stage? p = some .closed := by
  by_cases hqp : q = p
  · exact hqp ▸ stage?_closePool_self (hqp ▸ h)
  · exact (stage?_closePool hqp).trans h

theorem length_closePool (s : Line α) (p : Nat) :
    (s.closePool p).pools.length = s.pools.length := by
  unfold closePool
  split
  · split
    · rfl
    · exact List.length_modify ..
  · rfl

/-- What leaves the carrier's pools alone, and opens none that is closed, changes nothing here.
-/
theorem HasOwned.of_eq (h : s.HasOwned n)
    (hsame : t.active = s.active ∧ t.installed = s.installed ∧ t.exchange = s.exchange)
    (hlen : t.pools.length = s.pools.length)
    (hclosed : ∀ p, s.stage? p = some .closed → t.stage? p = some .closed) : t.HasOwned n := by
  obtain ⟨ha, hi, he⟩ := hsame
  refine ⟨hi.trans h.installed, fun p hp => hclosed p (h.earlier p hp), ?_, ?_, ?_⟩
  · rw [he, hlen, ha]
    exact h.idle
  · rw [he, hlen, ha]
    exact h.begun
  · rw [he, hlen, ha]
    exact h.published

theorem HasOwned.of_standing (h : s.HasOwned n) (hs : t.standing = s.standing) :
    t.HasOwned n := by
  obtain ⟨ha, hi, he, hlen⟩ := carrier_of_standing hs
  exact h.of_eq ⟨ha, hi, he⟩ hlen fun p hp => (stage?_of_standing hs p).trans hp

theorem HasOwned.closePool (h : s.HasOwned n) (p : Nat) : (s.closePool p).HasOwned n :=
  h.of_eq (s.carrier_closePool p) (s.length_closePool p) fun _ hq => closed_closePool hq p

/-- A pool that begins is not owned yet. -/
theorem HasOwned.install (h : s.HasOwned n) (hidle : s.exchange = .idle) {plan : PoolPlan}
    (hi : s.install plan = .ok t) : t.HasOwned n := by
  obtain ⟨hlen, hactive⟩ := h.idle hidle
  obtain ⟨ha, hinst, he, hlen'⟩ := carrier_install hi
  refine ⟨hinst.trans h.installed, fun p hp => lasts_install hi p _ (by decide) (h.earlier p hp),
    ?_, ?_, ?_⟩
  · intro hq
    cases he.symm.trans hq
  · intro q hq
    cases he.symm.trans hq
    exact ⟨hlen, by rw [hlen', hlen], ha.trans hactive⟩
  · intro q hq
    cases he.symm.trans hq

/-- Nor is it when calls are sent to it. -/
theorem HasOwned.publish (h : s.HasOwned n) (hp : s.publish = some t) : t.HasOwned n := by
  obtain ⟨q, he, rfl⟩ := of_publish hp
  obtain ⟨rfl, hlen, -⟩ := h.begun q he
  refine ⟨h.installed, h.earlier, ?_, ?_, ?_⟩
  · intro hx
    cases hx
  · intro _ hx
    cases hx
  · intro _ hx
    cases hx
    exact ⟨rfl, hlen, rfl⟩

/-- It is owned when the one before it has been closed. -/
theorem HasOwned.retire (h : s.HasOwned n) (hr : s.retire = some t) : t.HasOwned (n + 1) := by
  obtain ⟨p, he, journal, rfl⟩ := of_retire hr
  obtain ⟨rfl, hlen, hactive⟩ := h.published p he
  have hadopt : ∀ u : Line α, u.installed = some p → u.active = some p → u.exchange = .idle →
      u.pools.length = p + 1 → (∀ q, q < p → u.stage? q = some .closed) → u.HasOwned (p + 1) := by
    intro u hinst ha hidle hlen hclosed
    refine ⟨hinst, fun q hq => hclosed q (by omega), fun _ => ⟨hlen, ha⟩, fun q hq => ?_,
      fun q hq => ?_⟩
    · cases hidle.symm.trans hq
    · cases hidle.symm.trans hq
  refine HasOwned.of_standing (s := s.installed.elim (s.adopt p) (s.adopt p).closePool) ?_ rfl
  cases hold : s.installed with
  | none =>
    have hzero : p = 0 := Nat.ppred_eq_none.mp (h.installed.symm.trans hold)
    exact hadopt (s.adopt p) rfl hactive rfl hlen fun q hq => absurd hq (by omega)
  | some old =>
    have hlast : old + 1 = p := Nat.ppred_eq_some.mp (h.installed.symm.trans hold)
    obtain ⟨ha, hi, hx⟩ := carrier_closePool (s.adopt p) old
    refine hadopt ((s.adopt p).closePool old) hi (ha.trans hactive) hx
      ((length_closePool _ old).trans hlen) ?_
    intro q hq
    by_cases hqo : q = old
    · subst hqo
      have hlt : q < (s.pools.map Pool.stage).length := by
        rw [List.length_map]
        omega
      exact stage?_closePool_self (s := s.adopt p) (List.getElem?_eq_getElem hlt)
    · exact closed_closePool (s := s.adopt p) (h.earlier q (by omega)) old

/-- Whatever happens next on the line of a carrier, it has owned one pool after the
other. -/
theorem HasOwned.step (h : s.HasOwned n) {a : Action α} (ha : a.isCarriers = true)
    (hs : s.step a = some t) : ∃ m, t.HasOwned m := by
  cases a with
  | build | begin => cases ha
  | install plan =>
    obtain ⟨hidle, hi⟩ := of_step_install hs
    exact ⟨n, h.install hidle hi⟩
  | publish => exact ⟨n, h.publish hs⟩
  | retire => exact ⟨n + 1, h.retire hs⟩
  | shutdown =>
    rcases of_step_shutdown hs with rfl | ⟨p, rfl⟩
    · exact ⟨n, h⟩
    · exact ⟨n, h.closePool p⟩
  | closePool p =>
    cases hs
    exact ⟨n, h.closePool p⟩
  | _ => exact ⟨n, h.of_standing (standing_traffic rfl hs)⟩

/-- On a fresh line there was no pool. -/
theorem IsFresh.hasOwned (h : s.IsFresh) : s.HasOwned 0 := by
  obtain ⟨_, _, _, _, store, _, rfl⟩ := h
  refine ⟨rfl, fun p hp => absurd hp (Nat.not_lt_zero _), fun _ => ⟨rfl, rfl⟩, fun _ hx => ?_,
    fun _ hx => ?_⟩ <;> cases hx

/-- The states that the line of a carrier gets into. -/
def Carried (s : Line α) : Prop :=
  ∃ start : Line α, start.IsFresh ∧ ReachesBy (fun a : Action α => a.isCarriers = true) start s

theorem IsFresh.carried (h : s.IsFresh) : s.Carried := ⟨s, h, .refl⟩

/-- What happens on the line of a carrier can happen on any line. -/
theorem Carried.reachable (h : s.Carried) : s.Reachable := by
  obtain ⟨start, hf, hr⟩ := h
  exact ⟨start, hf, hr.reaches⟩

/-- The line of a carrier remains one. -/
theorem Carried.reaches (h : s.Carried)
    (hr : ReachesBy (fun a : Action α => a.isCarriers = true) s t) : t.Carried := by
  obtain ⟨start, hf, hr'⟩ := h
  exact ⟨start, hf, hr'.trans hr⟩

/-- **A carrier owns one pool after the other**, whoever acts between the steps of an
exchange. -/
theorem Carried.hasOwned (h : s.Carried) : ∃ n, s.HasOwned n := by
  obtain ⟨start, hf, hr⟩ := h
  induction hr with
  | refl => exact ⟨0, hf.hasOwned⟩
  | step a _ ha hs ih =>
    obtain ⟨n, hn⟩ := ih
    exact hn.step ha hs

/-! ## The plans of the pools -/

/-- What the pools were built from. -/
def plans (s : Line α) : List PoolPlan := s.pools.map Pool.plan

/-- What is done to a pool leaves it its plan. -/
theorem plans_mapPool (s : Line α) (p : Nat) {f : Pool (Parcel α) → Pool (Parcel α)}
    (hf : ∀ pool, (f pool).plan = pool.plan) : (s.mapPool p f).plans = s.plans := by
  cases hp : s.pools[p]? with
  | none => rw [mapPool_of_none hp]
  | some pool =>
    rw [mapPool_eq hp]
    exact map_set_of_eq hp (hf pool)

theorem plans_closePool (s : Line α) (p : Nat) : (s.closePool p).plans = s.plans := by
  unfold closePool
  split
  · split
    · rfl
    · exact plans_mapPool s p fun _ => rfl
  · rfl

/-- A pool has its plan before it begins. -/
theorem plans_begin (s : Line α) (p : Nat) : (s.begin p).plans = s.plans := by
  have hplan : ∀ pool : Pool (Parcel α), pool.begin.plan = pool.plan := by
    intro pool
    unfold Pool.begin
    split <;> rfl
  unfold begin
  split
  · split
    · exact plans_mapPool s p hplan
    · rfl
  · rfl

/-- A pool has the plan that it was built from. -/
theorem plan_ofPlan {plan : PoolPlan} {count : Nat} {pool : Pool α}
    (h : Pool.ofPlan plan count = .ok pool) : pool.plan = plan := by
  obtain ⟨-, -, rfl⟩ := Pool.ofPlan_eq_ok_iff.mp h
  rfl

/-- To install a pool adds its plan at the end. -/
theorem plans_install {plan : PoolPlan} (hi : s.install plan = .ok t) :
    t.plans = s.plans ++ [plan] := by
  obtain ⟨pool, hp, rfl⟩ := of_install_eq_ok hi
  have happ : ({ s with pools := s.pools ++ [pool] } : Line α).plans = s.plans ++ [plan] := by
    rw [← plan_ofPlan hp]
    exact List.map_append
  exact (plans_begin { s with pools := s.pools ++ [pool] } s.pools.length).trans happ

/-- An old pool is closed, not forgotten. -/
theorem plans_retire (hr : s.retire = some t) : t.plans = s.plans := by
  obtain ⟨p, -, journal, rfl⟩ := of_retire hr
  cases s.installed with
  | none => rfl
  | some old => exact plans_closePool (s.adopt p) old

/-- No pool gets another plan. -/
theorem Effect.plans (e : Effect s t) : s.plans <+: t.plans := by
  refine List.prefix_iff_getElem?.mpr ?_
  intro i hi
  have hlt : i < s.pools.length := by rwa [Line.plans, List.length_map] at hi
  obtain ⟨pool', hp, hplan⟩ := e.plan_after (List.getElem?_eq_getElem hlt)
  rw [Line.plans, List.getElem?_map, hp, Option.map_some, hplan]
  exact congrArg some (List.getElem_map ..).symm

/-- Plans are added in the order in which pools are built, and none is taken away. -/
theorem Reaches.plans (hr : Reaches s t) (h : s.Reachable) : s.plans <+: t.plans :=
  hr.induction (P := fun u => s.plans <+: u.plans) h (List.prefix_refl _)
    fun _ _ hu e => hu.trans e.plans

/-- The carrier has the pools that it had, and is where it was in an exchange. -/
theorem KeepsPools.same (hk : s.KeepsPools t) (h : s.Reachable) :
    t.plans = s.plans ∧ t.exchange = s.exchange := by
  induction hk with
  | refl => exact ⟨rfl, rfl⟩
  | @step t u a hk ha hs ih =>
    have ht : t.Reachable := h.reaches hk.reaches
    suffices hstep : u.plans = t.plans ∧ u.exchange = t.exchange from
      ⟨hstep.1.trans ih.1, hstep.2.trans ih.2⟩
    cases a with
    | build | begin | install | publish | retire => cases ha
    | closePool p =>
      cases hs
      exact ⟨plans_closePool t p, (carrier_closePool t p).2.2⟩
    | shutdown =>
      rcases of_step_shutdown hs with rfl | ⟨p, rfl⟩
      · exact ⟨rfl, rfl⟩
      · exact ⟨plans_closePool t p, (carrier_closePool t p).2.2⟩
    | _ =>
      obtain ⟨-, -, he, hlen⟩ := carrier_of_standing (standing_traffic rfl hs)
      have hgrow := Reaches.plans (.step _ .refl hs) ht
      refine ⟨(hgrow.eq_of_length ?_).symm, he⟩
      simpa [Line.plans] using hlen.symm

/-- A line whose carrier was given pools by these plans, and no others, and is not in
the middle of an exchange. -/
structure Hosts (s : Line α) (granted : List PoolPlan) : Prop where
  carried : s.Carried
  idle : s.exchange = .idle
  plans : s.plans = granted

variable {granted : List PoolPlan}

/-- A fresh line has a carrier without a pool. -/
theorem IsFresh.hosts (h : s.IsFresh) : s.Hosts [] := by
  obtain ⟨_, _, _, _, store, _, rfl⟩ := id h
  exact ⟨h.carried, rfl, rfl⟩

/-- What gives nobody another pool leaves it at those that were granted. -/
theorem Hosts.keep (h : s.Hosts granted) (hk : s.KeepsPools t) : t.Hosts granted := by
  obtain ⟨hplans, hidle⟩ := hk.same h.carried.reachable
  have hcarriers : ∀ a : Action α, a.keepsPools = true → a.isCarriers = true := by
    intro a ha
    cases a <;> first | rfl | cases ha
  exact ⟨h.carried.reaches (hk.mono hcarriers), hidle.trans h.idle, hplans.trans h.plans⟩

/-- An exchange that has begun can go on. -/
theorem exists_publish (he : s.exchange = .begun p) :
    ∃ t, s.publish = some t ∧ t.exchange = .published p ∧ t.plans = s.plans := by
  unfold publish
  rw [he]
  exact ⟨_, rfl, rfl, rfl⟩

/-- An exchange that has gone so far can end. -/
theorem exists_retire (he : s.exchange = .published p) : ∃ t, s.retire = some t := by
  unfold retire
  rw [he]
  simp only
  split <;> exact ⟨_, rfl⟩

/-- Between two exchanges the next one can be made from its first step to its last. -/
theorem reachesBy_renewed (hidle : s.exchange = .idle) {plan : PoolPlan} {begun : Line α}
    (hi : s.install plan = .ok begun) :
    ReachesBy (fun a : Action α => a.isCarriers = true) s begun.renewed ∧
      begun.renewed.exchange = .idle ∧ begun.renewed.plans = s.plans ++ [plan] := by
  obtain ⟨-, -, he, -⟩ := carrier_install hi
  obtain ⟨published, hp, hpx, hplans⟩ := exists_publish he
  obtain ⟨retired, hr⟩ := exists_retire hpx
  have hrenewed : begun.renewed = retired := by
    simp only [Line.renewed, hp, hr, Option.getD_some]
  have hinstall : s.step (.install plan) = some begun := by
    simp [Line.step, hidle, hi, Except.toOption]
  have hrun : ReachesBy (fun a : Action α => a.isCarriers = true) s retired := by
    refine .step .retire ?_ rfl hr
    refine .step .publish ?_ rfl hp
    exact .step (.install plan) .refl rfl hinstall
  rw [hrenewed]
  refine ⟨hrun, (carrier_retire hr).2, ?_⟩
  rw [plans_retire hr, hplans, plans_install hi]

/-- The new pool has taken the place of the old one, and nothing is left to do. -/
theorem Hosts.renewed (h : s.Hosts granted) {plan : PoolPlan} {begun : Line α}
    (hi : s.install plan = .ok begun) : begun.renewed.Hosts (granted ++ [plan]) := by
  obtain ⟨hrun, hidle, hplans⟩ := reachesBy_renewed h.idle hi
  exact ⟨h.carried.reaches hrun, hidle, by rw [hplans, h.plans]⟩

/-! ## Between two exchanges -/

/-- What there is to say of a carrier that was given pools by these plans, when it is
not in the middle of an exchange. -/
structure Provided (s : Line α) (granted : List PoolPlan) : Prop where
  /-- Its pools are those, in this order. -/
  plans : s.plans = granted
  /-- Calls find the last one, if there is one. -/
  active : ∀ p, s.active = some p ↔ p + 1 = granted.length
  /-- The carrier owns the same one. -/
  installed : s.installed = s.active
  earlier : ∀ p, p + 1 < granted.length → s.stage? p = some .closed
  one : ∀ p q, s.isRunning p = true → s.isRunning q = true → p = q
  consuming : s.isConsuming = true ↔ ∃ p, p + 1 = granted.length ∧ s.isRunning p = true
  /-- A call that is made now, and not interrupted, is turned away if the last pool does
  not run, and only then. -/
  refused : ∀ producer item u, s.offer producer (.produce item) = some u →
    ((u.run s.calls.length).verdict? s.calls.length =
        some (.answered (.refused .noConsumer item)) ↔
      ∃ p, p + 1 = granted.length ∧ s.isRunning p = false)

theorem lt_of_isRunning (h : s.isRunning p = true) : p < s.pools.length := by
  have hlt := (List.getElem?_eq_some_iff.mp (isRunning_iff.mp h)).1
  rwa [List.length_map] at hlt

/-- **Between two exchanges** a carrier has the pool that it was given last, and no
other pool of it runs. -/
theorem Hosts.provided (h : s.Hosts granted) : s.Provided granted := by
  obtain ⟨n, hn⟩ := h.carried.hasOwned
  obtain ⟨hlen, hlast⟩ := hn.idle h.idle
  have hcount : granted.length = n := by
    rw [← h.plans, Line.plans, List.length_map, hlen]
  have hactive : ∀ p, s.active = some p ↔ p + 1 = granted.length := by
    intro p
    rw [hlast, hcount]
    exact Nat.ppred_eq_some
  have hearlier : ∀ p, p + 1 < granted.length → s.stage? p = some .closed := by
    intro p hp
    exact hn.earlier p (hcount ▸ hp)
  -- Only the last pool can run.
  have hrunning : ∀ p, s.isRunning p = true → p + 1 = granted.length := by
    intro p hp
    have hlt := lt_of_isRunning hp
    by_contra hne
    have hclosed := hearlier p (by omega)
    rw [isRunning_iff.mp hp] at hclosed
    cases hclosed
  refine ⟨h.plans, hactive, hn.installed.trans hlast.symm, hearlier, ?_, ?_, ?_⟩
  · intro p q hp hq
    have hp' := hrunning p hp
    have hq' := hrunning q hq
    omega
  · rw [isConsuming, Option.any_eq_true]
    exact exists_congr fun p => and_congr_left' (hactive p)
  · intro producer item u ho
    rw [turned_away_alone_iff h.carried.reachable ho]
    exact exists_congr fun p => and_congr_left' (hactive p)

end Line

namespace Hub

variable {α : Type} {h h' : Hub α} {k : Nat}

/-! ## Many carriers -/

/-- Every carrier has the line with its own number, and was given pools there by the
plans that `given` says. -/
structure Sited (h : Hub α) (given : Nat → List PoolPlan) : Prop where
  homes : h.carriers.map Carrier.line = List.range h.lines.length
  hosts : ∀ (i : Nat) s, h.lines[i]? = some s → s.Hosts (given i)
  later : ∀ i, h.lines.length ≤ i → given i = []

variable {given : Nat → List PoolPlan}

/-- Requests that grant no pool leave every carrier its own. -/
theorem Sited.tended (hs : h.Sited given) (ht : h.Tended h') : h'.Sited given := by
  refine ⟨?_, ?_, ?_⟩
  · rw [ht.homes, ht.length]
    exact hs.homes
  · intro i t hi
    obtain ⟨s, hl, hk⟩ := ht.lines i t hi
    exact (hs.hosts i s hl).keep hk
  · rw [ht.length]
    exact hs.later

/-- A carrier has the line with its number. -/
theorem Sited.line_eq (hs : h.Sited given) {c : Carrier} (hc : h.carriers[k]? = some c) :
    c.line = k ∧ ∃ s, h.lines[k]? = some s := by
  have hline : (h.carriers.map Carrier.line)[k]? = some c.line := by
    rw [List.getElem?_map, hc, Option.map_some]
  rw [hs.homes] at hline
  obtain ⟨hlt, heq⟩ := List.getElem?_eq_some_iff.mp hline
  rw [List.length_range] at hlt
  rw [List.getElem_range] at heq
  exact ⟨heq.symm, _, List.getElem?_eq_getElem hlt⟩

theorem of_receiver? {c : Carrier} (hc : h.receiver? k = some c) :
    h.carriers[k]? = some c ∧ c.dropped = false := by
  simpa [receiver?] using hc

/-- A new carrier comes with a line of its own, and no pool. -/
theorem Sited.addCarrier (hs : h.Sited given) {name : String} {settings : Settings}
    {registered : Bool} {router : Router α}
    (ha : h.addCarrier name settings registered router = .ok h') : h'.Sited given := by
  obtain ⟨s, c, hf, hline, hlines, hcarriers, -, -⟩ := of_addCarrier_eq_ok ha
  refine ⟨?_, ?_, ?_⟩
  · rw [hlines, hcarriers, List.map_append, hs.homes, List.map_singleton, hline,
      List.length_append, List.length_singleton, List.range_succ]
  · intro i t hi
    rw [hlines, List.getElem?_append] at hi
    split at hi
    · exact hs.hosts i t hi
    · next hge =>
      obtain ⟨hlt, rfl⟩ := List.getElem?_eq_some_iff.mp hi
      rw [hs.later i (Nat.not_lt.mp hge), List.getElem_singleton]
      exact hf.hosts
  · intro i hi
    rw [hlines, List.length_append] at hi
    exact hs.later i (by omega)

/-- A carrier with a new pool was given one more, and no other was. -/
theorem Sited.consume (hs : h.Sited given) {c : Carrier} (hc : h.carriers[k]? = some c)
    {order : PoolOrder} (ho : h.consume c order = .ok h') :
    h'.Sited fun i => given i ++ if k = i then [planFor c order] else [] := by
  obtain ⟨rfl, s, hl⟩ := hs.line_eq hc
  obtain ⟨begun, hi, hlines, hcarriers⟩ := of_consume_eq_ok hl ho
  refine ⟨?_, ?_, ?_⟩
  · rw [hlines, hcarriers, List.length_set]
    exact hs.homes
  · intro i t ht
    rw [hlines] at ht
    rcases Line.eq_of_getElem?_set ht with ⟨rfl, rfl⟩ | ⟨hne, hold⟩
    · rw [if_pos rfl]
      exact (hs.hosts _ s hl).renewed hi
    · rw [if_neg hne, List.append_nil]
      exact hs.hosts i t hold
  · intro i hi
    rw [hlines, List.length_set] at hi
    have hlt := (List.getElem?_eq_some_iff.mp hl).1
    rw [hs.later i hi, if_neg (by omega), List.nil_append]

/-- A request gives each carrier the pool that it grants. -/
theorem Sited.serve (hs : h.Sited given) (r : Request α) :
    (h.serve r).Sited fun i => given i ++ h.grant i r := by
  have keep : (h.serve r).Sited given → (∀ i, h.grant i r = []) →
      (h.serve r).Sited fun i => given i ++ h.grant i r := by
    intro hkept hnone
    simpa only [hnone, List.append_nil] using hkept
  cases r with
  | addCarrier name settings registered router =>
    refine keep ?_ fun _ => rfl
    show ((h.addCarrier name settings registered router).toOption.getD h).Sited given
    cases ha : h.addCarrier name settings registered router with
    | error e => exact hs
    | ok h' => exact hs.addCarrier ha
  | consume k order =>
    show (h.forCarrier k fun c => (h.consume c order).toOption.getD h).Sited _
    cases hc : h.receiver? k with
    | none => simpa [forCarrier, grant, hc] using hs
    | some c =>
      cases ho : h.consume c order with
      | error e => simpa [forCarrier, grant, hc, ho, Except.toOption, Except.isOk, Except.toBool]
          using hs
      | ok h' =>
        simpa [forCarrier, grant, hc, ho, Except.toOption, Except.isOk, Except.toBool]
          using hs.consume (of_receiver? hc).1 ho
  | _ =>
    exact keep (hs.tended (h.tended_serve (by simp) (by simp))) fun _ => rfl

/-- After any requests, each carrier has what it was granted, in order. -/
theorem Sited.after (hs : h.Sited given) (requests : List (Request α)) :
    (h.after requests).Sited fun i => given i ++ h.granted i requests := by
  induction requests generalizing h given with
  | nil => simpa [Hub.after, Hub.granted] using hs
  | cons r rest ih => simpa [Hub.after, Hub.granted] using ih (hs.serve r)

/-- In the beginning there is neither a carrier nor a line. -/
theorem sited_start : ({} : Hub α).Sited fun _ => [] where
  homes := rfl
  hosts i s hs := by simp at hs
  later _ _ := rfl

/-- A pool of no workers is refused before anything is done. -/
theorem consume_zero {s : Line α} {c : Carrier} (hl : h.lines[c.line]? = some s) {order : PoolOrder}
    (hw : order.workers = 0) : h.consume c order = .error (.settings .noWorkers) := by
  unfold consume
  rw [hl]
  simp [Line.install, Line.build, Pool.ofPlan, planFor, hw, bind, Except.bind]

/-- **A carrier has the pool that it was given last**, after any requests for it, for its
pools, for others and for all of them. Only this pool may run, and a call that is made
now is turned away exactly if there is such a pool and it does not run. A request for a
pool that is no good changes nothing; it is no good if it is one for no workers. -/
theorem provided_after (requests : List (Request α)) {c : Carrier}
    (hc : (after {} requests).carriers[k]? = some c) :
    (∃ s, (after {} requests).lines[c.line]? = some s ∧
      s.Provided (granted {} k requests)) ∧
    ∀ order,
      (order.workers = 0 →
        (after {} requests).consume c order = .error (.settings .noWorkers)) ∧
      ∀ e, (after {} requests).consume c order = .error e →
        after {} (requests ++ [.consume k order]) = after {} requests := by
  have hs := sited_start.after requests
  obtain ⟨rfl, s, hl⟩ := hs.line_eq hc
  refine ⟨⟨s, hl, (hs.hosts _ s hl).provided⟩, ?_⟩
  intro order
  refine ⟨consume_zero hl, ?_⟩
  intro e he
  have hlast : after {} (requests ++ [.consume c.line order]) =
      (after {} requests).serve (.consume c.line order) := by simp [after]
  rw [hlast]
  show (after {} requests).forCarrier c.line _ = _
  cases hr : (after {} requests).receiver? c.line with
  | none => simp [forCarrier, hr]
  | some c' =>
    have heq : c' = c := Option.some.inj ((of_receiver? hr).1.symm.trans hc)
    simp [forCarrier, hr, heq, he, Except.toOption]

/-- A carrier asks for a pool of no workers, and gets one of two workers and then one
of a single worker, which a signal closes. -/
def onAndOff : List (Request Nat) :=
  [.addCarrier "loader" (.ofSizes 2 4) true .fresh,
    .consume 0 { workers := 0, shared := false },
    .consume 0 { workers := 2, shared := false },
    .act 0 (.offer 0 (.produce 5)),
    .consume 0 { workers := 1, shared := true },
    .closePool 1]

/-- It was given two pools, and the second does not run; a call for it is turned away. -/
theorem provided_after_onAndOff :
    ∃ c s, (after {} onAndOff).carriers[0]? = some c ∧
      (after {} onAndOff).lines[c.line]? = some s ∧
      (granted {} 0 onAndOff).map PoolPlan.workers = [2, 1] ∧
      s.Provided (granted {} 0 onAndOff) ∧ s.active = some 1 ∧
      ((s.offer 1 (.produce 6)).map fun u => (u.run s.calls.length).verdict? s.calls.length) =
        some (some (.answered (.refused .noConsumer 6))) := by
  have hc : (after {} onAndOff).carriers[0]? = some
      { name := "loader", settings := .ofSizes 2 4, line := 0, registered := true } := rfl
  obtain ⟨⟨s, hl, hs⟩, -⟩ := provided_after onAndOff hc
  have hcall : (after {} onAndOff).lines[0]?.bind (fun s => (s.offer 1 (.produce 6)).map fun u =>
      (u.run s.calls.length).verdict? s.calls.length) =
        some (some (.answered (.refused .noConsumer 6))) := by decide +kernel
  have hplans : (granted {} 0 onAndOff).map PoolPlan.workers = [2, 1] := by decide +kernel
  have hlen : (granted {} 0 onAndOff).length = 2 := by
    rw [← List.length_map PoolPlan.workers, hplans]
    rfl
  refine ⟨_, s, hc, hl, hplans, hs, (hs.active 1).mpr hlen.symm, ?_⟩
  rw [hl] at hcall
  exact hcall

end Hub

end Conveyor
