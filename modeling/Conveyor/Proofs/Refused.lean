/-
Conveyor.Proofs.Refused — a write that fails leaves nothing behind.

A write fails if its item is handed back or if it breaks off. It may have waited for
long, and anyone may have done anything meanwhile, so what the write itself has done is
read off its own moments of the run. `Touch` says what one of its steps does to the rest
of the line, and `Traces` what all of its steps so far have done: nothing to the
channels unless it was accepted, a turn of the router once it was routed, and a count
once it was answered.

A write to a single channel has no more than that channel to leave anything in.
-/
import Conveyor.Proofs.Balance
import Conveyor.Proofs.Moments
import Conveyor.Proofs.Settling
import Conveyor.Proofs.Terminal
import Conveyor.Proofs.Waking

namespace Conveyor

variable {α : Type u}

/-- Whether a write failed: its item was handed back, or it broke off. -/
def Verdict.isFailure : Verdict α → Bool
  | .answered (.refused ..) | .faulted _ => true
  | _ => false

/-- Whether the router has had its turn for a call at this place. -/
def Place.hasAsked : Place α → Bool
  | .routed .. | .waiting _ | .leaving (.faulted _) | .over (.faulted _) => true
  | .settled result | .leaving (.answered result) | .over (.answered result) =>
    !result.isNoConsumer
  | _ => false

/-- To give the pass back asks no router. -/
theorem Place.hasAsked_over (verdict : Verdict α) :
    (Place.over verdict).hasAsked = (Place.leaving verdict).hasAsked := by
  cases verdict <;> rfl

/-- A call comes by its channel only by asking. -/
theorem Call.hasAsked_of_target {c : Call α} {n : Nat} {policy : WhenFull}
    (h : c.target? = some (n, policy)) : c.place.hasAsked = true := by
  cases hp : c.place <;> simp [target?, hp] at h <;> rfl

/-- What was counted of a call, if anything was. -/
def Call.counted? (c : Call α) : Option (WriteResult α) :=
  if c.isMetered then c.place.answer? else none

/-- What is counted depends on the errand and the answer. -/
theorem Call.counted?_congr {c c' : Call α} (he : c'.errand = c.errand)
    (hp : c'.place.answer? = c.place.answer?) : c'.counted? = c.counted? := by
  have hm : c'.isMetered = c.isMetered := by rw [isMetered, he, isMetered]
  rw [counted?, counted?, hm, hp]

/-- Where a call comes that takes its count back. -/
theorem Place.of_turnBack (item : Option α) :
    let place : Place α := item.elim (.leaving .visited) fun a => .settled (.refused .noConsumer a)
    place.hasAsked = false ∧ place.answer? = none ∧
      place.result?.any WriteResult.isAccepted = false := by
  cases item <;> exact ⟨rfl, rfl, rfl⟩

namespace Line

variable {s t : Line α} {i p : Nat} {c c' : Call α} {item : α} {a : Action α}

/-! ## One step of a call -/

/-- Nothing was put into a channel, and nothing was taken out. -/
structure SparesChannels (s t : Line α) : Prop where
  lanes : t.store.lanes = s.store.lanes
  written : t.written = s.written
  evicted : t.evicted = s.evicted
  viewed : t.viewed = s.viewed

/-- What a step that made call `c` into `c'` has done to the rest of the line. -/
structure Touch (s t : Line α) (c c' : Call α) : Prop where
  channels : (c'.isAccepted = c.isAccepted ∧ SparesChannels s t) ∨ c'.isAccepted = true
  router : (c'.place.hasAsked = c.place.hasAsked ∧ t.store.router = s.store.router) ∨
    (c.place.hasAsked = false ∧ c'.place.hasAsked = true ∧
      t.store.router = s.store.router.advance)
  offers : (c'.counted? = c.counted? ∧ t.offers = s.offers) ∨
    ∃ result, c.counted? = none ∧ c'.counted? = some result ∧
      t.offers = s.offers.count result
  deliveries : t.deliveries = s.deliveries

/-- What a call does on its own is no turn of the router. -/
theorem Hop.hasAsked {place : Place α} (hop : Hop s i c place) :
    place.hasAsked = c.place.hasAsked := by
  cases hop with
  | refuse ht _ _ ha =>
    rw [Call.hasAsked_of_target ht]
    rcases (Lane.of_attempt_refused ha).2 with rfl | rfl <;> rfl
  | wait ht | stray ht | fail ht =>
    rw [Call.hasAsked_of_target ht]
    rfl
  | finish hp => rw [hp, Place.hasAsked_over]
  | find hp | skip hp | start hp | insist hp | visit hp | turnAway hp | ask hp | callAway hp =>
    rw [hp]
    rfl

/-- The counters of deliveries are a matter of the pools' tallies. -/
theorem deliveries_setPool {pool pool' : Pool (Parcel α)} (hp : s.pools[p]? = some pool)
    (h : pool'.tally = pool.tally) : ({ s with pools := s.pools.set p pool' } : Line α).deliveries =
      s.deliveries := by
  have hfold : ∀ pools : List (Pool (Parcel α)), pools.foldl (fun t p => t.add p.tally) {} =
      (pools.map Pool.tally).foldl DeliveryTally.add {} := by
    intro pools
    rw [List.foldl_map]
  simp only [deliveries, hfold, map_set_of_eq hp h]

/-- What an effect that moves a call does besides. -/
theorem Effect.touch (e : Effect s t) (hc : s.calls[i]? = some c) (hc' : t.calls[i]? = some c')
    (hne : c'.place ≠ c.place) : Touch s t c c' := by
  have hkeep : t.calls ≠ s.calls := by
    intro h
    rw [h, hc] at hc'
    cases hc'
    exact hne rfl
  have hset : ∀ {j : Nat} {d d' : Call α}, s.calls[j]? = some d → t.calls = s.calls.set j d' →
      d = c ∧ d' = c' := by
    intro j d d' hd ht
    rw [ht] at hc'
    rcases eq_of_getElem?_set hc' with ⟨rfl, rfl⟩ | ⟨-, hold⟩
    · exact ⟨Option.some.inj (hd.symm.trans hc), rfl⟩
    · rw [hc] at hold
      cases hold
      exact absurd rfl hne
  cases e with
  | offer =>
    have hlt := (List.getElem?_eq_some_iff.mp hc).1
    rw [List.getElem?_append_left hlt, hc] at hc'
    cases hc'
    exact absurd rfl hne
  | hop hd hop =>
    obtain ⟨rfl, rfl⟩ := hset hd rfl
    exact ⟨.inl ⟨hop.isAccepted, ⟨rfl, rfl, rfl, rfl⟩⟩, .inl ⟨hop.hasAsked, rfl⟩,
      .inl ⟨Call.counted?_congr rfl hop.answer?, rfl⟩, rfl⟩
  | enroll hd hp hq =>
    obtain ⟨rfl, rfl⟩ := hset hd rfl
    exact ⟨.inl ⟨by simp [Call.isAccepted, Place.result?, hp], ⟨rfl, rfl, rfl, rfl⟩⟩,
      .inl ⟨by simp [Place.hasAsked, hp], rfl⟩,
      .inl ⟨Call.counted?_congr rfl (by simp [Place.answer?, hp]), rfl⟩, deliveries_setPool hq rfl⟩
  | enter hd hp _ _ hplace =>
    obtain ⟨rfl, rfl⟩ := hset hd rfl
    rcases hplace with rfl | rfl <;>
      exact ⟨.inl ⟨by simp [Call.isAccepted, Place.result?, hp], ⟨rfl, rfl, rfl, rfl⟩⟩,
        .inl ⟨by simp [Place.hasAsked, hp], rfl⟩,
        .inl ⟨Call.counted?_congr rfl (by simp [Place.answer?, hp]), rfl⟩, rfl⟩
  | @turnBack _ _ d _ hd hp hq =>
    obtain ⟨rfl, rfl⟩ := hset hd rfl
    obtain ⟨hasked, hanswer, haccepted⟩ := Place.of_turnBack d.item?
    exact ⟨.inl ⟨haccepted.trans (by simp [Call.isAccepted, Place.result?, hp]),
      ⟨rfl, rfl, rfl, rfl⟩⟩, .inl ⟨hasked.trans (by simp [Place.hasAsked, hp]), rfl⟩,
      .inl ⟨Call.counted?_congr rfl (hanswer.trans (by simp [Place.answer?, hp])), rfl⟩,
      deliveries_setPool hq rfl⟩
  | route hd hp | misroute hd hp =>
    obtain ⟨rfl, rfl⟩ := hset hd rfl
    exact ⟨.inl ⟨by simp [Call.isAccepted, Place.result?, hp], ⟨rfl, rfl, rfl, rfl⟩⟩,
      .inr ⟨by simp [Place.hasAsked, hp], rfl, rfl⟩,
      .inl ⟨Call.counted?_congr rfl (by simp [Place.answer?, hp]), rfl⟩, rfl⟩
  | write hd ht =>
    obtain ⟨rfl, rfl⟩ := hset hd rfl
    have hanswer := Place.answer?_of_result? (Call.result?_of_target ht)
    exact ⟨.inr rfl, .inl ⟨(Call.hasAsked_of_target ht).symm, rfl⟩,
      .inl ⟨Call.counted?_congr rfl hanswer.symm, rfl⟩, rfl⟩
  | @tally _ d result hd hp =>
    obtain ⟨rfl, rfl⟩ := hset hd rfl
    have hmetered : ({ d with place := .leaving (.answered result) } : Call α).isMetered =
        d.isMetered := rfl
    refine ⟨.inl ⟨by simp [Call.isAccepted, Place.result?, hp], ⟨rfl, rfl, rfl, rfl⟩⟩,
      .inl ⟨by simp [Place.hasAsked, hp], rfl⟩, ?_, rfl⟩
    cases hm : d.isMetered with
    | false => exact .inl ⟨by simp [Call.counted?, hmetered, hm], by simp⟩
    | true =>
      exact .inr ⟨result, by simp [Call.counted?, Place.answer?, hp],
        by simp [Call.counted?, Place.answer?, hmetered, hm], by simp⟩
  | release hd hp _ hq =>
    obtain ⟨rfl, rfl⟩ := hset hd rfl
    exact ⟨.inl ⟨by simp [Call.isAccepted, Place.result?_over, hp], ⟨rfl, rfl, rfl, rfl⟩⟩,
      .inl ⟨by rw [hp, Place.hasAsked_over], rfl⟩,
      .inl ⟨Call.counted?_congr rfl (by rw [hp, Place.answer?_over]), rfl⟩,
      deliveries_setPool hq rfl⟩
  | _ => exact absurd rfl hkeep

/-- A call that goes on comes to another place, and does this besides. -/
theorem Named.touch_of_advance (hn : s.Named) (hc : s.calls[i]? = some c)
    (h : s.advance i = some t) : ∃ c', t.calls[i]? = some c' ∧ Touch s t c c' := by
  obtain ⟨d, c', hd, hset, -, hrank⟩ := hn.turn_of_advance h
  obtain rfl := Option.some.inj (hd.symm.trans hc)
  have hc' : t.calls[i]? = some c' := by
    rw [hset, List.getElem?_set_self (List.getElem?_eq_some_iff.mp hc).1]
  refine ⟨c', hc', (advance_effect hn h).touch hc hc' ?_⟩
  intro hplace
  rw [hplace] at hrank
  exact Nat.lt_irrefl _ hrank

/-- A call that goes on moves no other call. -/
theorem Named.call_of_advance (hn : s.Named) {j : Nat} (h : s.advance j = some t) (hji : j ≠ i)
    (hc : s.calls[i]? = some c) : t.calls[i]? = some c := by
  obtain ⟨d, d', -, hset, -⟩ := hn.turn_of_advance h
  rw [hset, List.getElem?_set_ne hji]
  exact hc

/-- Nobody else moves a call that has an item. -/
theorem Reachable.call_of_other (h : s.Reachable) (hs : s.step a = some t) (ha : a ≠ .advance i)
    (hc : s.calls[i]? = some c) (hitem : c.item? = some item) : t.calls[i]? = some c := by
  cases hcall : a.isOfCall with
  | false => rwa [(calls_of_others hcall hs).1]
  | true =>
    cases a with
    | offer producer errand =>
      simp only [step, offer, Option.ite_none_right_eq_some, Option.some.injEq] at hs
      obtain ⟨-, rfl⟩ := hs
      rw [List.getElem?_append_left (List.getElem?_eq_some_iff.mp hc).1]
      exact hc
    | advance j => exact h.named.call_of_advance hs (fun hji => ha (hji ▸ rfl)) hc
    | callAway j =>
      simp only [step, callAway] at hs
      split at hs
      · next producer errand pass hd =>
        have hji : j ≠ i := by
          rintro rfl
          rw [hc] at hd
          cases hd
          exact h.not_staying hc hitem rfl
        cases hs
        rw [moveCall_eq hd, List.getElem?_set_ne hji]
        exact hc
      · cases hs
    | _ => cases hcall

/-! ## All steps of a call -/

/-- Whether this is a step of call `i`. -/
def isOwn (i : Nat) : Action α → Bool
  | .advance j => j = i
  | _ => false

/-- The moments of call `i` in a run. -/
def ownMoments (i : Nat) (s : Line α) (actions : List (Action α)) : List (Moment (Line α)) :=
  moments step (isOwn i) s actions

/-- The router has had one turn more. -/
def AsksRouter (m : Moment (Line α)) : Prop :=
  m.after.store.router = m.before.store.router.advance

/-- The router is the same, and has had no turn. -/
def SparesRouter (m : Moment (Line α)) : Prop := m.after.store.router = m.before.store.router

/-- A result was counted. -/
def Counts (result : WriteResult α) (m : Moment (Line α)) : Prop :=
  m.after.offers = m.before.offers.count result

/-- Nothing was counted. -/
def SparesCounters (m : Moment (Line α)) : Prop := m.after.offers = m.before.offers

/-- Where a refusal was counted, the counter of its reason has gone up by one, and no other
counter of the offers has changed. -/
theorem Counts.of_refused {why : Refusal} {m : Moment (Line α)} (h : Counts (.refused why item) m) :
    m.after.offers.refusals why = m.before.offers.refusals why + 1 ∧
      (∀ other, other ≠ why →
        m.after.offers.refusals other = m.before.offers.refusals other) ∧
      m.after.offers.produced = m.before.offers.produced ∧
      m.after.offers.overwritten = m.before.offers.overwritten := by
  rw [Counts] at h
  rw [h]
  exact m.before.offers.count_refused why item

/-- What a call has done up to now, by its moments. -/
structure Traces (ms : List (Moment (Line α))) (c : Call α) : Prop where
  channels : c.isAccepted = false → ∀ m ∈ ms, SparesChannels m.before m.after
  asked : c.place.hasAsked = true → Once AsksRouter SparesRouter ms
  notAsked : c.place.hasAsked = false → ∀ m ∈ ms, SparesRouter m
  counted : ∀ result, c.counted? = some result → Once (Counts result) SparesCounters ms
  notCounted : c.counted? = none → ∀ m ∈ ms, SparesCounters m
  deliveries : ∀ m ∈ ms, m.after.deliveries = m.before.deliveries

variable {ms : List (Moment (Line α))}

/-- A call that has just been offered has done nothing. -/
theorem traces_of_begun (hbegun : c.place = .begun) : Traces [] c where
  channels _ _ hm := nomatch hm
  asked hasked := by simp [hbegun, Place.hasAsked] at hasked
  notAsked _ _ hm := nomatch hm
  counted _ hcounted := by simp [Call.counted?, hbegun, Place.answer?] at hcounted
  notCounted _ _ hm := nomatch hm
  deliveries _ hm := nomatch hm

/-- One more step of the call itself. -/
theorem Traces.touch (h : Traces ms c) (ht : Touch s t c c') : Traces (ms ++ [⟨s, t⟩]) c' where
  channels hno := by
    rcases ht.channels with ⟨hsame, hspares⟩ | hyes
    · exact forall_mem_concat (h.channels (hsame.symm.trans hno)) hspares
    · exact nomatch hyes.symm.trans hno
  asked hasked := by
    rcases ht.router with ⟨hsame, hrouter⟩ | ⟨hnot, -, hrouter⟩
    · exact (h.asked (hsame.symm.trans hasked)).concat hrouter
    · exact once_concat (h.notAsked hnot) hrouter
  notAsked hnot := by
    rcases ht.router with ⟨hsame, hrouter⟩ | ⟨-, hasked, -⟩
    · exact forall_mem_concat (h.notAsked (hsame.symm.trans hnot)) hrouter
    · exact nomatch hasked.symm.trans hnot
  counted result hcounted := by
    rcases ht.offers with ⟨hsame, hoffers⟩ | ⟨other, hnot, hother, hoffers⟩
    · exact (h.counted result (hsame.symm.trans hcounted)).concat hoffers
    · obtain rfl := Option.some.inj (hother.symm.trans hcounted)
      exact once_concat (h.notCounted hnot) hoffers
  notCounted hnot := by
    rcases ht.offers with ⟨hsame, hoffers⟩ | ⟨other, -, hother, -⟩
    · exact forall_mem_concat (h.notCounted (hsame.symm.trans hnot)) hoffers
    · exact nomatch hother.symm.trans hnot
  deliveries := forall_mem_concat h.deliveries ht.deliveries

/-- What a run up to line `s` has shown of call `i`, by the moments of the call. -/
structure Followed (i : Nat) (ms : List (Moment (Line α))) (s : Line α) : Prop where
  reachable : s.Reachable
  /-- Before it is offered, it does nothing. -/
  before : s.calls[i]? = none → ms = []
  since : ∀ c item, s.calls[i]? = some c → c.item? = some item → Traces ms c

namespace Followed

/-- A call with an item that is there after a step had the item before, or has just been
offered. -/
theorem cases_step (h : s.Reachable) (hs : s.step a = some t) (hc' : t.calls[i]? = some c')
    (hitem : c'.item? = some item) :
    (∃ c, s.calls[i]? = some c ∧ c.item? = some item) ∨
      (s.calls[i]? = none ∧ c'.place = .begun) := by
  cases hc : s.calls[i]? with
  | none =>
    rcases call_of_step h.named hs hc' with hbegun | ⟨c, hc₀, -⟩
    · exact .inr ⟨rfl, hbegun⟩
    · exact nomatch hc.symm.trans hc₀
  | some c =>
    obtain ⟨d, hd, he⟩ := (Reaches.step a .refl hs).errand h hc
    obtain rfl := Option.some.inj (hd.symm.trans hc')
    exact .inl ⟨c, rfl, by rwa [Call.item?, ← he]⟩

theorem none_of_step (h : s.Reachable) (hs : s.step a = some t) (hnone : t.calls[i]? = none) :
    s.calls[i]? = none := by
  cases hc : s.calls[i]? with
  | none => rfl
  | some c =>
    obtain ⟨d, hd, -⟩ := (Reaches.step a .refl hs).errand h hc
    exact nomatch hd.symm.trans hnone

/-- A step of the call itself is the next of its moments. -/
theorem own (h : Followed i ms s) (hs : s.step (.advance i) = some t) :
    Followed i (ms ++ [⟨s, t⟩]) t := by
  obtain ⟨c, -, hc, -⟩ := h.reachable.named.turn_of_advance hs
  refine ⟨h.reachable.reaches (.step _ .refl hs), ?_, ?_⟩
  · intro hnone
    rw [none_of_step h.reachable hs hnone] at hc
    cases hc
  · intro c' item hc' hitem
    rcases cases_step h.reachable hs hc' hitem with ⟨d, hd, hold⟩ | ⟨hnone, -⟩
    · obtain ⟨d', hd', touch⟩ := h.reachable.named.touch_of_advance hd hs
      obtain rfl := Option.some.inj (hd'.symm.trans hc')
      exact (h.since d item hd hold).touch touch
    · rw [hnone] at hc
      cases hc

/-- A step of anyone else is none of its moments. -/
theorem other (h : Followed i ms s) (ha : isOwn i a = false) (hs : s.step a = some t) :
    Followed i ms t where
  reachable := h.reachable.reaches (.step a .refl hs)
  before hnone := h.before (none_of_step h.reachable hs hnone)
  since c' item hc' hitem := by
    have hne : a ≠ .advance i := by
      rintro rfl
      simp [isOwn] at ha
    rcases cases_step h.reachable hs hc' hitem with ⟨c, hc, hold⟩ | ⟨hnone, hbegun⟩
    · obtain rfl := Option.some.inj ((h.reachable.call_of_other hs hne hc hold).symm.trans hc')
      exact h.since _ item hc hold
    · exact h.before hnone ▸ traces_of_begun hbegun

end Followed

/-- From the line on which the call has not been offered yet, by induction over the run. -/
theorem Reachable.followed (h : s.Reachable) (hi : s.calls.length ≤ i) (actions : List (Action α)) :
    Followed i (ownMoments i s actions) (s.after actions) := by
  refine moments_induction step (isOwn i) (P := Followed i) actions ?_ ?_ ?_
  · exact ⟨h, fun _ => rfl, fun c _ hc => absurd hc (not_begun hi c)⟩
  · intro ms u v a ha hs hu
    obtain rfl : a = .advance i := by
      cases a <;> simp [isOwn] at ha
      rw [ha]
    exact hu.own hs
  · intro ms u v a ha hs hu
    exact hu.other ha hs

/-! ## A write that fails -/

/-- What a write of `item`, call `i`, has done by the time at which it has failed. -/
structure LeavesNothing (ms : List (Moment (Line α))) (t : Line α) (i : Nat) (c : Call α)
    (item : α) (verdict : Verdict α) : Prop where
  /-- The item that is handed back is the one that was offered. -/
  handedBack : ∀ why back, verdict = .answered (.refused why back) → back = item
  /-- No step of the write has put anything into a channel, or taken anything out. -/
  channels : ∀ m ∈ ms, SparesChannels m.before m.after
  /-- Its item is nowhere. -/
  nowhere : ∀ parcel ∈ t.whereabouts, parcel.call ≠ i
  /-- A call for the carrier that was refused has counted its reason, once; what this does
  to each counter is said by `Counts.of_refused`. -/
  counted : ∀ why, c.isMetered = true → verdict = .answered (.refused why item) →
    Once (Counts (.refused why item)) SparesCounters ms
  /-- A call that broke off has counted nothing, nor has one that is not for the carrier. -/
  notCounted : c.isMetered = false ∨ (∃ fault, verdict = .faulted fault) →
    ∀ m ∈ ms, SparesCounters m
  /-- What was produced or overwritten, and the deliveries, are as they were. -/
  produced : ∀ m ∈ ms, m.after.offers.produced = m.before.offers.produced ∧
    m.after.offers.overwritten = m.before.offers.overwritten ∧
    m.after.deliveries = m.before.deliveries
  /-- Each pool counts as admitted some of the other calls. -/
  admitted : ∀ (p : Nat) (pool : Pool (Parcel α)), t.pools[p]? = some pool →
    pool.admitted = (t.calls.eraseIdx i).countP (Call.isEnrolled p)
  /-- The router has had a turn, once, unless no pool ran. -/
  asked : (∀ back, verdict ≠ .answered (.refused .noConsumer back)) →
    Once AsksRouter SparesRouter ms
  notAsked : ∀ back, verdict = .answered (.refused .noConsumer back) → ∀ m ∈ ms, SparesRouter m

/-- A call that is not accepted leaves the counters of the items that were taken, and of those
that these have thrown out. -/
theorem Traces.produced {ms : List (Moment (Line α))} (h : Traces ms c)
    (hrefused : ∀ result, c.counted? = some result → result.isAccepted = false) {m : Moment (Line α)}
    (hm : m ∈ ms) : m.after.offers.produced = m.before.offers.produced ∧
      m.after.offers.overwritten = m.before.offers.overwritten := by
  have hspares : ∀ {m : Moment (Line α)}, SparesCounters m →
      m.after.offers.produced = m.before.offers.produced ∧
        m.after.offers.overwritten = m.before.offers.overwritten := by
    intro m hm
    rw [hm]
    exact ⟨rfl, rfl⟩
  cases hc : c.counted? with
  | none => exact hspares (h.notCounted hc m hm)
  | some result =>
    obtain ⟨pre, x, post, rfl, hx, hrest⟩ := h.counted result hc
    rcases List.mem_append.mp hm with hm | hm
    · exact hspares (hrest m (List.mem_append_left _ hm))
    rcases List.mem_cons.mp hm with rfl | hm
    · cases result with
      | accepted how => cases hrefused _ hc
      | refused why => exact hx.of_refused.2.2
    · exact hspares (hrest m (List.mem_append_right _ hm))

/-- A call that is over might as well not have been, as far as the count goes. -/
theorem Admits.admitted_erase (h : s.Admits) (hc : s.calls[i]? = some c) (hover : c.isOver = true)
    {pool : Pool (Parcel α)} (hp : s.pools[p]? = some pool) :
    pool.admitted = (s.calls.eraseIdx i).countP (Call.isEnrolled p) := by
  obtain ⟨hi, rfl⟩ := List.getElem?_eq_some_iff.mp hc
  have hnot : (s.calls[i]).isEnrolled p = false := by
    cases hplace : (s.calls[i]).place <;> simp [Call.isOver, hplace] at hover
    simp [Call.isEnrolled, hplace]
  have hperm := (List.getElem_cons_eraseIdx_perm hi).countP_eq (Call.isEnrolled p)
  rw [List.countP_cons, hnot] at hperm
  rw [h.admitted p pool hp, ← hperm]
  simp

/-- A write that has failed, by its own steps from the first to the last. -/
theorem Reachable.leavesNothing (h : s.Reachable) (actions : List (Action α))
    (hi : s.calls.length ≤ i) {verdict : Verdict α} (hc : (s.after actions).calls[i]? = some c)
    (hitem : c.item? = some item) (hplace : c.place = .over verdict)
    (hfail : verdict.isFailure = true) :
    LeavesNothing (ownMoments i s actions) (s.after actions) i c item verdict := by
  have hf := h.followed hi actions
  have ht := hf.since c item hc hitem
  have hresult : c.place.result? = (Place.leaving verdict).result? := by
    rw [hplace, Place.result?_over]
  have hno : c.isAccepted = false := by
    rw [Call.isAccepted, hresult]
    cases verdict with
    | answered result => cases result <;> trivial
    | _ => rfl
  have hback : ∀ why back, verdict = .answered (.refused why back) → back = item := by
    rintro why back rfl
    exact Option.some.inj ((hf.reachable.item_back hc hresult).symm.trans hitem)
  have hcounted : c.counted? = if c.isMetered then (Place.leaving verdict).answer? else none := by
    rw [Call.counted?, hplace, Place.answer?_over]
  have hrefused : ∀ result, c.counted? = some result → result.isAccepted = false := by
    intro result hr
    rw [hcounted] at hr
    cases verdict with
    | answered result' =>
      cases result' with
      | accepted => cases hfail
      | refused =>
        split at hr <;> cases hr
        rfl
    | _ => simp [Place.answer?] at hr
  have hasked : c.place.hasAsked = (Place.leaving verdict).hasAsked := by
    rw [hplace, Place.hasAsked_over]
  refine ⟨hback, ht.channels hno, ?_, ?_, ?_, ?_, ?_, ?_, ?_⟩
  · intro parcel hmem hcall
    obtain ⟨c', hc', ha, -⟩ := (hf.reachable.exactly_once.2.2.1 parcel).mp hmem
    rw [hcall] at hc'
    obtain rfl := Option.some.inj (hc'.symm.trans hc)
    rw [hno] at ha
    cases ha
  · rintro why hmetered rfl
    exact ht.counted _ (by rw [hcounted, if_pos hmetered]; rfl)
  · rintro (hmetered | ⟨fault, rfl⟩)
    · exact ht.notCounted (by simp [hcounted, hmetered])
    · exact ht.notCounted (by simp [hcounted, Place.answer?])
  · intro m hm
    obtain ⟨hproduced, hoverwritten⟩ := ht.produced hrefused hm
    exact ⟨hproduced, hoverwritten, ht.deliveries m hm⟩
  · exact fun p pool hp => hf.reachable.admits.admitted_erase hc (by rw [Call.isOver, hplace]) hp
  · intro hconsumer
    refine ht.asked (hasked.trans ?_)
    cases verdict with
    | answered result =>
      cases result with
      | accepted => cases hfail
      | refused why back =>
        cases why with
        | noConsumer => exact absurd rfl (hconsumer back)
        | _ => rfl
    | faulted => rfl
    | visited => cases hfail
  · rintro back rfl
    exact ht.notAsked hasked

end Line

/-! ## A write to a single channel -/

/-- Whether a thread is a writer whose item has not entered the channel. -/
def LaneThread.isVain : LaneThread α → Bool
  | .writer _ _ (.ended (.ok (.accepted _))) => false
  | .writer .. => true
  | _ => false

@[simp] theorem LaneThread.isVain_wake (t : LaneThread α) : t.wake.isVain = t.isVain := by
  fun_cases wake t <;> rfl

namespace Monitor

variable {m m' : Monitor α} {i j : Nat}

/-- The channel is as it was, and so is its history. -/
structure SparesLane (m m' : Monitor α) : Prop where
  lane : m'.lane = m.lane
  written : m'.written = m.written
  evicted : m'.evicted = m.evicted

/-- Whether thread `i`, if there is one, is a writer whose item has not entered. -/
def isVainAt (m : Monitor α) (i : Nat) : Bool := m.threads[i]?.all LaneThread.isVain

/-- Only the thread that is replaced may be in vain now, or no more. -/
theorem isVainAt_setThread {t : LaneThread α} (ht : m.threads[j]? = some t) (t' : LaneThread α)
    (i : Nat) : (m.setThread j t').isVainAt i = if j = i then t'.isVain else m.isVainAt i := by
  rw [isVainAt, getElem?_setThread ht]
  split <;> rfl

theorem isVainAt_wakeAll (m : Monitor α) (i : Nat) : m.wakeAll.isVainAt i = m.isVainAt i := by
  simp only [isVainAt, getElem?_wakeAll]
  cases m.threads[i]? <;> simp

theorem isVainAt_of_setThread {t t' : LaneThread α} (ht : m.threads[i]? = some t)
    (hno : t'.isVain = false) : (m.setThread i t').isVainAt i ≠ true := by
  simp [isVainAt_setThread ht, hno]

/-- A thread that is still a writer in vain after a step of its own was one before, and
has left the channel as it was. -/
theorem spares_of_step (h : m.step i = some m') (hv : m'.isVainAt i = true) :
    m.isVainAt i = true ∧ SparesLane m m' := by
  have hwake : ∀ {t : LaneThread α}, m.threads[i]? = some t →
      m.wakeAll.threads[i]? = some t.wake := by
    intro t ht
    rw [getElem?_wakeAll, ht]
    rfl
  unfold step at h
  split at h
  · next item policy ht =>
    have hvain : m.isVainAt i = true := by simp [isVainAt, ht, LaneThread.isVain]
    split at h <;> cases h
    · exact absurd hv (isVainAt_of_setThread ht rfl)
    all_goals exact ⟨hvain, ⟨rfl, rfl, rfl⟩⟩
  · next limit old ht =>
    split at h <;> cases h <;> exact absurd hv (isVainAt_of_setThread ht rfl)
  · next limit old ht =>
    cases h
    exact absurd hv (isVainAt_of_setThread (hwake ht) rfl)
  · next ht =>
    cases h
    exact absurd hv (isVainAt_of_setThread ht rfl)
  · next ht =>
    cases h
    exact absurd hv (isVainAt_of_setThread (hwake ht) rfl)
  · cases h

theorem Turn.isVainAt (turn : m.Turn j m') (hji : j ≠ i) : m'.isVainAt i = m.isVainAt i := by
  cases turn with
  | stores ht => exact (isVainAt_setThread (m := { m with }) ht _ i).trans (if_neg hji)
  | drains ht => exact (isVainAt_setThread (m := { m with }) ht _ i).trans (if_neg hji)
  | closes ht => exact (isVainAt_setThread (m := { m with }) ht _ i).trans (if_neg hji)
  | pays ht =>
    rw [isVainAt_setThread (by rw [getElem?_wakeAll, ht]; rfl), if_neg hji, isVainAt_wakeAll]
  | looks ht => rw [isVainAt_setThread ht, if_neg hji]

/-- Whether this is a step of thread `i`. -/
def isOwn (i : Nat) : Event α → Bool
  | .go j => j = i
  | _ => false

/-- The moments of thread `i` in a run. -/
def ownMoments (i : Nat) (m : Monitor α) (events : List (Event α)) : List (Moment (Monitor α)) :=
  moments (fun m e => some (next m e)) (isOwn i) m events

/-- A new thread is not in vain. -/
theorem isVainAt_spawn {t : LaneThread α} (hv : (m.spawn t).isVainAt i = true) :
    m.isVainAt i = true := by
  rw [isVainAt, spawn, Array.getElem?_push] at hv
  split at hv
  · next hi => simp [isVainAt, hi]
  · exact hv

/-- Nobody else makes a thread a writer in vain. -/
theorem isVainAt_of_other {capacity : Nat} (h : Reachable capacity m) {e : Event α}
    (he : isOwn i e = false) (hv : (m.next e).isVainAt i = true) : m.isVainAt i = true := by
  cases e with
  | write | drain | close => exact isVainAt_spawn hv
  | go j =>
    have hji : j ≠ i := by simpa [isOwn] using he
    cases hs : m.step j with
    | none => simpa [Monitor.next, hs] using hv
    | some m' =>
      rw [← (turn_of_step h.valid.sound hs).isVainAt hji]
      simpa [Monitor.next, hs] using hv
  | stir j =>
    cases hs : m.stir j with
    | none => simpa [Monitor.next, hs] using hv
    | some m' =>
      by_cases hji : j = i
      · subst hji
        unfold stir at hs
        split at hs
        · next ht => simp [isVainAt, ht, LaneThread.isVain]
        · cases hs
      · rw [← (turn_of_stir hs).isVainAt hji]
        simpa [Monitor.next, hs] using hv

/-- A writer in vain has left the channel as it was, at each of its steps. -/
theorem Reachable.spares {capacity : Nat} (h : Reachable capacity m) (events : List (Event α)) :
    Reachable capacity (events.foldl Monitor.next m) ∧
      ((events.foldl Monitor.next m).isVainAt i = true →
        ∀ x ∈ ownMoments i m events, SparesLane x.before x.after) := by
  refine moments_induction (fun m e => some (Monitor.next m e)) (isOwn i)
    (P := fun ms u => Reachable capacity u ∧
      (u.isVainAt i = true → ∀ x ∈ ms, SparesLane x.before x.after)) events ?_ ?_ ?_
  · exact ⟨h, fun _ _ hx => nomatch hx⟩
  · rintro ms u v e he hs ⟨hu, hspares⟩
    obtain rfl : e = .go i := by
      cases e <;> simp [isOwn] at he
      rw [he]
    obtain rfl := Option.some.inj hs
    refine ⟨hu.next _, fun hv => ?_⟩
    cases hstep : u.step i with
    | none =>
      have hsame : u.next (.go i) = u := by simp [Monitor.next, hstep]
      rw [hsame] at hv ⊢
      exact forall_mem_concat (hspares hv) ⟨rfl, rfl, rfl⟩
    | some v =>
      have hnext : u.next (.go i) = v := by simp [Monitor.next, hstep]
      rw [hnext] at hv ⊢
      obtain ⟨hold, hnow⟩ := spares_of_step hstep hv
      exact forall_mem_concat (hspares hold) hnow
  · rintro ms u v e he hs ⟨hu, hspares⟩
    obtain rfl := Option.some.inj hs
    exact ⟨hu.next e, fun hv => hspares (isVainAt_of_other hu he hv)⟩

/-- A write to a single channel that was not accepted. -/
theorem Reachable.leavesNothing {capacity : Nat} (h : Reachable capacity m)
    (events : List (Event α)) {item : α} {policy : WhenFull} {result : Checked (WriteResult α)}
    (ht : (events.foldl Monitor.next m).threads[i]? = some (.writer item policy (.ended result)))
    (hno : ∀ how, result ≠ .ok (.accepted how)) :
    (∀ why back, result = .ok (.refused why back) → back = item) ∧
      (events.foldl Monitor.next m).writtenBy i = [] ∧
      ∀ x ∈ ownMoments i m events, SparesLane x.before x.after := by
  obtain ⟨hu, hspares⟩ := h.spares (i := i) events
  have hvain : (LaneThread.writer item policy (.ended result)).isVain = true ∧
      (LaneThread.writer item policy (.ended result)).stored = [] := by
    match result with
    | .ok (.accepted how) => exact absurd rfl (hno how)
    | .ok (.refused ..) | .error _ => exact ⟨rfl, rfl⟩
  refine ⟨?_, ?_, hspares (by simpa [isVainAt, ht] using hvain.1)⟩
  · rintro why back rfl
    exact (hu.valid.fair _ (Array.mem_of_getElem? ht)).1
  · rw [hu.valid.recorded i, storedBy_eq ht, hvain.2]

end Monitor

/-- **A write that fails leaves nothing behind.** Whatever the others do meanwhile, and
however long it waits: its item is handed back if it is refused, none of its steps has
put anything into a channel or taken anything out, no pool counts it any more, and all
that is left of it is a turn of the router, unless no pool ran, and one more refusal in
the counters, if it was one for the carrier. So it is for a write to a single channel,
which has neither a router nor counters. -/
theorem failed_write_leaves_nothing :
    (∀ (s : Line α) (actions : List (Action α)) (i : Nat) (c : Call α) (item : α)
      (verdict : Verdict α), s.Reachable → s.calls.length ≤ i →
        (s.after actions).calls[i]? = some c → c.item? = some item → c.place = .over verdict →
          verdict.isFailure = true →
            Line.LeavesNothing (s.ownMoments i actions) (s.after actions) i c item verdict) ∧
    ∀ (capacity : Nat) (m : Monitor α) (events : List (Monitor.Event α)) (i : Nat) (item : α)
      (policy : WhenFull) (result : Checked (WriteResult α)), Monitor.Reachable capacity m →
        (events.foldl Monitor.next m).threads[i]? = some (.writer item policy (.ended result)) →
          (∀ how, result ≠ .ok (.accepted how)) →
            (∀ why back, result = .ok (.refused why back) → back = item) ∧
              (events.foldl Monitor.next m).writtenBy i = [] ∧
              ∀ x ∈ m.ownMoments i events, Monitor.SparesLane x.before x.after :=
  ⟨fun _ actions _ _ _ _ h hi hc hitem hplace hfail =>
    h.leavesNothing actions hi hc hitem hplace hfail,
    fun _ _ events _ _ _ _ h ht hno => h.leavesNothing events ht hno⟩

/-- A call fills the only channel. A pool is installed; another call is admitted to it, and
waits for room, until the channel is closed. -/
def shutOut : List (Action Nat) :=
  (.offer 0 (.produce 7) :: List.replicate 6 (.advance 0)) ++
    [.install Line.loner, .publish, .retire] ++
    (.offer 1 (.produce 8) :: List.replicate 6 (.advance 1)) ++
    [.startClosing, .closeNext 0] ++ List.replicate 3 (.advance 1)

/-- A writer fills a channel of one slot, and another one does not wait for room. -/
def hastyWriter : List (Monitor.Event Nat) :=
  [.write .wait 7, .go 0, .write .refuse 8, .go 1]

/-- The call that waited has its item back, and no pool counts it any more; the writer that
did not wait has its item back, too, and the channel is as it was. -/
theorem failed_write_leaves_nothing_shutOut :
    let s : Line Nat := Line.blank 1 1 (by decide) .wait
    let m : Monitor Nat := { lane := { ring := .empty 1 Nat.one_pos } }
    (∃ c, (s.after shutOut).calls[1]? = some c ∧ c.pass = some 0 ∧
      c.place = .over (.answered (.refused .closed 8)) ∧
      Line.LeavesNothing (s.ownMoments 1 shutOut) (s.after shutOut) 1 c 8
        (.answered (.refused .closed 8))) ∧
      (hastyWriter.foldl Monitor.next m).threads[1]? =
        some (.writer 8 .refuse (.ended (.ok (.refused .full 8)))) ∧
      ∀ x ∈ m.ownMoments 1 hastyWriter, Monitor.SparesLane x.before x.after := by
  intro s m
  obtain ⟨hline, hmonitor⟩ := failed_write_leaves_nothing (α := Nat)
  have hs : s.Reachable := ⟨s, Line.isFresh_blank (by decide) (by decide) .wait, .refl⟩
  have hm : Monitor.Reachable 1 m := .start (Lane.ofCapacity_of_pos Nat.one_pos)
  have hcall : ((s.after shutOut).calls[1]?.map fun c => (c.item?, c.pass, c.place)) =
      some (some 8, some 0, .over (.answered (.refused .closed 8))) := by decide +kernel
  obtain ⟨c, hc, hfields⟩ := Option.map_eq_some_iff.mp hcall
  obtain ⟨hitem, hpass, hplace⟩ : c.item? = some 8 ∧ c.pass = some 0 ∧
      c.place = .over (.answered (.refused .closed 8)) := by simpa using hfields
  have hthread : (hastyWriter.foldl Monitor.next
      ({ lane := { ring := .empty 1 Nat.one_pos } } : Monitor Nat)).threads[1]? =
        some (.writer 8 .refuse (.ended (.ok (.refused .full 8)))) := by cbv
  refine ⟨⟨c, hc, hpass, hplace, ?_⟩, hthread, ?_⟩
  · exact hline s shutOut 1 c 8 _ hs (Nat.zero_le _) hc hitem hplace rfl
  · exact (hmonitor 1 m hastyWriter 1 8 .refuse _ hm hthread (by simp)).2.2

end Conveyor
