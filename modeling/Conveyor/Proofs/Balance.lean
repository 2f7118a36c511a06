/-
Conveyor.Proofs.Balance — the counters of a carrier balance.

Four functions count, on two sides. A call is counted once, by its result, on its
way out (`Counted`); a batch is counted once, by how its `consume` call ended
(`Conveyor.Proofs.Outcomes`). Since every accepted item is in one place
(`Reachable.exactly_once`), what came in is what was overwritten, is buffered, is
with the workers, was consumed or not, or was taken out by other readers.

`Reachable.balance` says so of the words that a snapshot shows, at every moment at
which no call and no worker has something still to count. Writes past the carrier
are those of its views: they wait for room, and never evict (`Call.IsOrderly`).
-/
import Conveyor.Proofs.Admission
import Conveyor.Proofs.Outcomes

namespace Conveyor

variable {α : Type u}

/-! ## Results and answers -/

namespace WriteResult

/-- Whether another item made room for the item. -/
def isEvicting : WriteResult α → Bool
  | .accepted .evicted => true
  | _ => false

/-- Whether the item was refused, and for this reason. -/
def isRefusedFor (why : Refusal) : WriteResult α → Bool
  | .refused why' _ => why' = why
  | _ => false

end WriteResult

namespace OfferTally

variable (o : OfferTally) (result : WriteResult α)

/-- What one result adds to each of the counters. -/
theorem count_eq : o.count result =
    { produced := o.produced + result.isAccepted.toNat
      full := o.full + (result.isRefusedFor .full).toNat
      noConsumer := o.noConsumer + (result.isRefusedFor .noConsumer).toNat
      closed := o.closed + (result.isRefusedFor .closed).toNat
      overwritten := o.overwritten + result.isEvicting.toNat } := by
  cases result with
  | accepted how => cases how <;> rfl
  | refused why => cases why <;> rfl

/-- The counter of the items that were refused for this reason. -/
def refusals (o : OfferTally) : Refusal → Nat
  | .full => o.full
  | .noConsumer => o.noConsumer
  | .closed => o.closed

/-- A refusal puts the counter of its own reason up by one. The counters of the other
reasons stay as they are, and so do those of the items that were taken. -/
theorem count_refused (why : Refusal) (item : α) :
    (o.count (.refused why item)).refusals why = o.refusals why + 1 ∧
      (∀ other, other ≠ why → (o.count (.refused why item)).refusals other = o.refusals other) ∧
      (o.count (.refused why item)).produced = o.produced ∧
      (o.count (.refused why item)).overwritten = o.overwritten := by
  refine ⟨by cases why <;> rfl, fun other hne => ?_, by cases why <;> rfl, by cases why <;> rfl⟩
  cases why <;> cases other <;> first | rfl | exact absurd rfl hne

end OfferTally

/-- What a call answers, when it has nothing more to do than to give up its
admission. -/
def Place.answer? : Place α → Option (WriteResult α)
  | .leaving (.answered result) | .over (.answered result) => some result
  | _ => none

/-- To give the admission back changes nothing about the answer. -/
theorem Place.answer?_over (verdict : Verdict α) :
    (Place.over verdict).answer? = (Place.leaving verdict).answer? := by
  cases verdict <;> rfl

theorem Place.answer?_of_result? {place : Place α} (h : place.result? = none) :
    place.answer? = none := by
  unfold answer?
  split
  · cases h
  · cases h
  · rfl

/-- Between its result and its answer a call is only to be counted. -/
theorem Place.answer?_of_not_settled {place : Place α} (h : ∀ result, place ≠ .settled result) :
    place.answer? = place.result? := by
  cases place with
  | settled result => exact absurd rfl (h result)
  | leaving verdict => cases verdict <;> rfl
  | «over» verdict => cases verdict <;> rfl
  | _ => rfl

namespace Call

/-- Whether the call is one of the carrier's, and has been answered so. -/
def answers (f : WriteResult α → Bool) (c : Call α) : Bool := c.isMetered && c.place.answer?.any f

/-- Whether the call writes past the carrier. -/
def isView (c : Call α) : Bool :=
  match c.errand with
  | .write .. => true
  | _ => false

end Call

namespace Line

variable {s t : Line α}

/-- How many of the carrier's calls have been answered so. -/
def answered (s : Line α) (f : WriteResult α → Bool) : Nat := s.calls.countP (Call.answers f)

/-! ## Every call is counted once -/

/-- What a call does on its own does not answer it. -/
theorem Hop.answer? {i : Nat} {c : Call α} {place : Place α} (hop : Hop s i c place) :
    place.answer? = c.place.answer? := by
  cases hop with
  | refuse ht | wait ht | stray ht | fail ht =>
    rw [Place.answer?_of_result? (Call.result?_of_target ht)]
    rfl
  | finish hp => rw [hp, Place.answer?_over]
  | find hp | skip hp | start hp | insist hp | visit hp | turnAway hp | ask hp | callAway hp =>
    rw [hp]
    rfl

theorem countP_set_of_eq {β : Type v} {l : List β} {i : Nat} {a b : β} (h : l[i]? = some a)
    {f : β → Bool} (hf : f b = f a) : (l.set i b).countP f = l.countP f := by
  have hcount := countP_set_eq h b f
  rw [hf] at hcount
  omega

/-- An effect counts no call, or counts one that it answers. -/
theorem Effect.answered (e : Effect s t) :
    (t.offers = s.offers ∧ ∀ f, t.answered f = s.answered f) ∨
      ∃ result, t.offers = s.offers.count result ∧
        ∀ f, t.answered f = s.answered f + (f result).toNat := by
  have keep : ∀ {i : Nat} {c : Call α} {place : Place α} {pass : Option Nat},
      s.calls[i]? = some c → place.answer? = c.place.answer? →
      ∀ f, (s.calls.set i { c with place, pass }).countP (Call.answers f) = s.answered f := by
    intro i c place pass hc hplace f
    refine countP_set_of_eq hc ?_
    rw [Call.answers, Call.answers, ← hplace]
    rfl
  cases e with
  | offer =>
    refine .inl ⟨rfl, ?_⟩
    intro f
    rw [Line.answered, List.countP_append]
    simp [Call.answers, Place.answer?, Line.answered]
  | hop hc hop => exact .inl ⟨rfl, keep hc hop.answer?⟩
  | enroll hc hp => exact .inl ⟨rfl, keep hc (by rw [hp]; rfl)⟩
  | enter hc hp _ _ hplace =>
    refine .inl ⟨rfl, keep hc ?_⟩
    rw [hp]
    rcases hplace with rfl | rfl <;> rfl
  | @turnBack _ _ c _ hc hp =>
    refine .inl ⟨rfl, keep hc ?_⟩
    rw [hp]
    cases c.item? <;> rfl
  | route hc hp | misroute hc hp => exact .inl ⟨rfl, keep hc (by rw [hp]; rfl)⟩
  | write hc ht =>
    refine .inl ⟨rfl, keep hc ?_⟩
    rw [Place.answer?_of_result? (Call.result?_of_target ht)]
    rfl
  | @tally i c result hc hp =>
    cases hm : c.isMetered with
    | false =>
      refine .inl ⟨by simp, ?_⟩
      intro f
      refine countP_set_of_eq hc ?_
      have hm' : ({ c with place := .leaving (.answered result) } : Call α).isMetered = false := hm
      rw [Call.answers, Call.answers, hm, hm']
      rfl
    | true =>
      refine .inr ⟨result, by simp, ?_⟩
      intro f
      have hcount := countP_set_eq hc { c with place := .leaving (.answered result) }
        (Call.answers f)
      have hold : c.answers f = false := by
        rw [Call.answers, hp]
        exact Bool.and_false _
      have hnew : ({ c with place := .leaving (.answered result) } : Call α).answers f =
          f result := by
        have hm' : ({ c with place := .leaving (.answered result) } : Call α).isMetered = true := hm
        rw [Call.answers, hm']
        rfl
      rw [hold, hnew] at hcount
      exact hcount
  | release hc hp => exact .inl ⟨rfl, keep hc (by rw [hp, Place.answer?_over])⟩
  | _ => exact .inl ⟨rfl, fun _ => rfl⟩

/-- The counters of the offers show how the carrier's calls were answered. -/
structure Counted (s : Line α) : Prop where
  produced : s.offers.produced = s.answered WriteResult.isAccepted
  full : s.offers.full = s.answered (WriteResult.isRefusedFor .full)
  noConsumer : s.offers.noConsumer = s.answered (WriteResult.isRefusedFor .noConsumer)
  closed : s.offers.closed = s.answered (WriteResult.isRefusedFor .closed)
  overwritten : s.offers.overwritten = s.answered WriteResult.isEvicting

/-- A counter goes up in the very step in which a call is answered. -/
theorem Effect.counted (e : Effect s t) (h : s.Counted) : t.Counted := by
  rcases e.answered with ⟨hsame, hcount⟩ | ⟨result, hoffers, hcount⟩
  · refine ⟨?_, ?_, ?_, ?_, ?_⟩ <;> rw [hsame, hcount]
    · exact h.produced
    · exact h.full
    · exact h.noConsumer
    · exact h.closed
    · exact h.overwritten
  · refine ⟨?_, ?_, ?_, ?_, ?_⟩ <;> rw [hoffers, hcount, OfferTally.count_eq]
    · rw [h.produced]
    · rw [h.full]
    · rw [h.noConsumer]
    · rw [h.closed]
    · rw [h.overwritten]

theorem IsFresh.counted (h : s.IsFresh) : s.Counted := by
  obtain ⟨_, _, _, _, store, _, rfl⟩ := h
  exact ⟨rfl, rfl, rfl, rfl, rfl⟩

/-- The counters say how the calls were answered, at any moment of any run. -/
theorem Reachable.counted (h : s.Reachable) : s.Counted :=
  h.induction (fun _ hf => hf.counted) fun _ _ hs e => e.counted hs

/-! ## What a call may come to -/

end Line

/-- Where a call may be that writes past the carrier and waits for room. -/
def Place.IsPatient : Place α → Prop
  | .begun | .waiting _ => True
  | .informed policy | .routed _ policy => policy = .wait
  | .settled result | .leaving (.answered result) | .over (.answered result) =>
    result ≠ .accepted .evicted
  | .leaving _ | .over _ => True
  | _ => False

/-- A call that was patient stays so when it gives its pass back. -/
theorem Place.IsPatient.over {verdict : Verdict α} (h : (Place.leaving verdict).IsPatient) :
    (Place.over verdict).IsPatient := by
  cases verdict <;> exact h

theorem WriteResult.isEvicting_of_ne {result : WriteResult α} (h : result ≠ .accepted .evicted) :
    result.isEvicting = false := by
  cases result with
  | accepted how =>
    cases how with
    | stored => rfl
    | evicted => exact absurd rfl h
  | refused => rfl

/-- A patient call evicts nothing. -/
theorem Place.IsPatient.not_evicting {place : Place α} (h : place.IsPatient) :
    place.result?.any WriteResult.isEvicting = false := by
  unfold result?
  split
  · exact WriteResult.isEvicting_of_ne h
  · exact WriteResult.isEvicting_of_ne h
  · exact WriteResult.isEvicting_of_ne h
  · rfl

namespace Call

variable {c : Call α} {place : Place α} {pass : Option Nat}

/-- A call has a result only for an item, and one that waits for room does not
evict. -/
structure IsOrderly (c : Call α) : Prop where
  item : c.place.result? ≠ none → c.item? ≠ none
  patient : ∀ item, c.errand = .write item (some .wait) → c.place.IsPatient

namespace IsOrderly

theorem of_result?_eq_none (hr : place.result? = none)
    (hp : ∀ item, c.errand = .write item (some .wait) → place.IsPatient) :
    ({ c with place, pass } : Call α).IsOrderly := ⟨fun h => absurd hr h, hp⟩

/-- Where a call cannot be that waits for room, there is none. -/
theorem errand_ne (h : c.IsOrderly) (hp : ¬ c.place.IsPatient) (item : α) :
    c.errand ≠ .write item (some .wait) := fun he => hp (h.patient item he)

/-- A call that is to wait comes to its channel with this policy. -/
theorem policy_eq (h : c.IsOrderly) {n : Nat} {policy : WhenFull} {item : α}
    (ht : c.target? = some (n, policy)) (he : c.errand = .write item (some .wait)) :
    policy = .wait := by
  have hpatient := h.patient item he
  unfold target? at ht
  split at ht
  · next hp =>
    cases ht
    rw [hp] at hpatient
    exact hpatient
  · cases ht
    rfl
  · cases ht

/-- A call that only its place changes, and that goes on from its result, if it has
one. -/
theorem of_result?_eq (h : c.IsOrderly) (hr : place.result? = c.place.result?)
    (hp : c.place.IsPatient → place.IsPatient) :
    ({ c with place, pass } : Call α).IsOrderly :=
  ⟨fun hne => h.item (hr ▸ hne), fun item he => hp (h.patient item he)⟩

end IsOrderly

end Call

namespace Line

variable {s t : Line α}

/-- What a call does on its own is in order. -/
theorem Hop.orderly {i : Nat} {c : Call α} {place : Place α} (hop : Hop s i c place)
    (h : c.IsOrderly) : ({ c with place } : Call α).IsOrderly := by
  cases hop with
  | find hp he | skip hp he | start hp he | visit hp he =>
    exact .of_result?_eq_none rfl fun _ hw => nomatch he.symm.trans hw
  | insist hp he =>
    refine .of_result?_eq_none rfl ?_
    intro item hw
    cases he.symm.trans hw
    rfl
  | turnAway hp | ask hp =>
    refine .of_result?_eq_none rfl ?_
    intro item hw
    exact absurd hw (h.errand_ne (by rw [hp]; exact id) item)
  | refuse ht hi =>
    refine ⟨?_, fun _ _ => nofun⟩
    intro _ hnone
    cases hi.symm.trans hnone
  | wait | stray | fail | callAway => exact .of_result?_eq_none rfl fun _ _ => trivial
  | finish hp =>
    refine h.of_result?_eq (by rw [hp, Place.result?_over]) ?_
    rw [hp]
    exact Place.IsPatient.over

/-- All calls are orderly. -/
def Orderly (s : Line α) : Prop := ∀ c ∈ s.calls, c.IsOrderly

/-- By cases on the effect: only a write gives a call a result, and it goes by the policy that
the call came with. -/
theorem Effect.orderly (e : Effect s t) (hs : s.Sound) (h : s.Orderly) : t.Orderly := by
  have set : ∀ {i : Nat} {c' : Call α}, c'.IsOrderly → ∀ c ∈ s.calls.set i c', c.IsOrderly := by
    intro i c' hc' c hmem
    rcases List.mem_or_eq_of_mem_set hmem with hold | rfl
    · exact h c hold
    · exact hc'
  have old : ∀ {i : Nat} {c : Call α}, s.calls[i]? = some c → c.IsOrderly :=
    fun hc => h _ (List.mem_of_getElem? hc)
  cases e with
  | offer =>
    intro c hmem
    rcases List.mem_append.mp hmem with hold | hnew
    · exact h c hold
    · obtain rfl := List.mem_singleton.mp hnew
      exact ⟨fun hne => absurd rfl hne, fun _ _ => trivial⟩
  | hop hc hop => exact set (hop.orderly (old hc))
  | enroll hc hp =>
    refine set (.of_result?_eq_none rfl ?_)
    intro item hw
    exact absurd hw ((old hc).errand_ne (by rw [hp]; exact id) item)
  | enter hc hp _ _ hplace =>
    refine set (.of_result?_eq_none ?_ ?_)
    · rcases hplace with rfl | rfl <;> rfl
    · intro item hw
      exact absurd hw ((old hc).errand_ne (by rw [hp]; exact id) item)
  | @turnBack i p c pool hc hp =>
    refine set ⟨?_, ?_⟩
    · intro hne hnone
      have hnone : c.item? = none := hnone
      rw [hnone] at hne
      exact hne rfl
    · intro item hw
      exact absurd hw ((old hc).errand_ne (by rw [hp]; exact id) item)
  | @route i n c policy item hc hp =>
    refine set (.of_result?_eq_none rfl ?_)
    intro item hw
    have hpatient := (old hc).patient item hw
    rw [hp] at hpatient
    exact hpatient
  | misroute => exact set (.of_result?_eq_none rfl fun _ _ => trivial)
  | @write i n c policy item lane lane' how out hc ht hi hl ha =>
    refine set ⟨?_, ?_⟩
    · intro _ hnone
      cases hi.symm.trans hnone
    · intro item' hw
      have hpolicy := (old hc).policy_eq ht hw
      have hattempt := (hs.lane hl).attempted policy ⟨i, item⟩
      rw [ha] at hattempt
      cases hattempt with
      | stored => exact nofun
      | evicted _ _ hevict => exact nomatch hpolicy.symm.trans hevict
  | tally hc hp =>
    refine set ((old hc).of_result?_eq (by rw [hp]; rfl) ?_)
    rw [hp]
    exact id
  | release hc hp =>
    refine set ((old hc).of_result?_eq (by rw [hp, Place.result?_over]) ?_)
    rw [hp]
    exact Place.IsPatient.over
  | _ => exact h

theorem IsFresh.orderly (h : s.IsFresh) : s.Orderly := by
  obtain ⟨_, _, _, _, store, _, rfl⟩ := h
  exact fun _ hmem => nomatch hmem

/-! ## Evictions -/

/-- How many calls have made room for their item by an eviction. -/
def evictions (s : Line α) : Nat :=
  s.calls.countP fun c => c.place.result?.any WriteResult.isEvicting

/-- Only a write evicts. -/
theorem Hop.not_evicting {i : Nat} {c : Call α} {place : Place α} (hop : Hop s i c place) :
    place.result?.any WriteResult.isEvicting = c.place.result?.any WriteResult.isEvicting := by
  cases hop with
  | refuse ht | wait ht | stray ht | fail ht =>
    rw [Call.result?_of_target ht]
    rfl
  | finish hp => rw [hp, Place.result?_over]
  | find hp | skip hp | start hp | insist hp | visit hp | turnAway hp | ask hp | callAway hp =>
    rw [hp]
    rfl

/-- What is pushed out and the calls that push grow together. -/
theorem Effect.evictions (e : Effect s t) (hs : s.Sound) (h : s.evicted.length = s.evictions) :
    t.evicted.length = t.evictions := by
  have keep : ∀ {i : Nat} {c : Call α} {place : Place α} {pass : Option Nat},
      s.calls[i]? = some c →
      place.result?.any WriteResult.isEvicting = c.place.result?.any WriteResult.isEvicting →
      s.evicted.length = (s.calls.set i { c with place, pass }).countP fun c =>
        c.place.result?.any WriteResult.isEvicting :=
    fun hc hplace => h.trans (countP_set_of_eq hc hplace).symm
  cases e with
  | offer => rw [Line.evictions, List.countP_append]; exact h
  | hop hc hop => exact keep hc hop.not_evicting
  | enroll hc hp => exact keep hc (by rw [hp]; rfl)
  | enter hc hp _ _ hplace =>
    refine keep hc ?_
    rw [hp]
    rcases hplace with rfl | rfl <;> rfl
  | @turnBack _ _ c _ hc hp =>
    refine keep hc ?_
    rw [hp]
    cases c.item? <;> rfl
  | route hc hp | misroute hc hp => exact keep hc (by rw [hp]; rfl)
  | @write i n c policy item lane lane' how out hc ht hi hl ha =>
    have hcount := countP_set_eq hc { c with place := .settled (.accepted how) }
      fun c => c.place.result?.any WriteResult.isEvicting
    rw [Call.result?_of_target ht] at hcount
    have hattempt := (hs.lane hl).attempted policy ⟨i, item⟩
    rw [ha] at hattempt
    show (s.evicted ++ (out.map fun parcel => (n, parcel)).toList).length = _
    rw [List.length_append, h]
    cases hattempt with
    | stored => exact hcount.symm
    | evicted => exact hcount.symm
  | tally hc hp => exact keep hc (by rw [hp]; rfl)
  | release hc hp => exact keep hc (by rw [hp, Place.result?_over])
  | _ => exact h

/-! ## Calls of the carrier and calls of its views -/

/-- How many items were accepted from callers past the carrier. -/
def viewAccepted (s : Line α) : Nat := s.calls.countP fun c => c.isView && c.isAccepted

/-- A count is split when each single one is. -/
theorem countP_eq_add {β : Type v} {l : List β} {f g h : β → Bool}
    (hfgh : ∀ b ∈ l, (f b).toNat = (g b).toNat + (h b).toNat) :
    l.countP f = l.countP g + l.countP h := by
  induction l with
  | nil => rfl
  | cons b l ih =>
    have hb := hfgh b List.mem_cons_self
    have hl := ih fun c hc => hfgh c (List.mem_cons_of_mem _ hc)
    rw [List.countP_cons, List.countP_cons, List.countP_cons, hl]
    cases hf : f b <;> cases hg : g b <;> cases hh : h b <;> simp [hf, hg, hh] at hb ⊢ <;> omega

/-- Lists of one element or none, put together, are counted. -/
theorem length_flatten_mapIdx {β : Type v} {γ : Type w} {f : Nat → β → List γ} {g : β → Bool}
    (hf : ∀ i b, (f i b).length = (g b).toNat) (l : List β) :
    (l.mapIdx f).flatten.length = l.countP g := by
  induction l generalizing f with
  | nil => rfl
  | cons b l ih =>
    rw [List.mapIdx_cons, List.flatten_cons, List.length_append, hf,
      ih fun i c => hf (i + 1) c, List.countP_cons]
    cases g b <;> simp [Nat.add_comm]

/-- The items that were accepted, counted by their calls. -/
theorem length_accepted (s : Line α) :
    s.accepted.length = s.calls.countP fun c => c.isAccepted && c.item?.isSome := by
  refine length_flatten_mapIdx ?_ s.calls
  intro i c
  unfold Call.taken
  cases c.isAccepted <;> cases c.item? <;> rfl

/-- Every accepted item is from a call of the carrier, which has been counted, or
from one of its views. -/
theorem accepted_eq_add
    (hcalls : ∀ c ∈ s.calls, c.isMetered = true → ∀ result, c.place ≠ .settled result) :
    s.accepted.length = s.answered WriteResult.isAccepted + s.viewAccepted := by
  rw [length_accepted]
  refine countP_eq_add ?_
  intro c hc
  cases he : c.errand with
  | produce item =>
    have hm : c.isMetered = true := by rw [Call.isMetered, he]
    have hanswer := Place.answer?_of_not_settled (hcalls c hc hm)
    simp [Call.answers, Call.isView, Call.item?, he, hm, hanswer, Call.isAccepted]
  | write item policy => simp [Call.answers, Call.isMetered, Call.isView, Call.item?, he]
  | visit p => simp [Call.answers, Call.isMetered, Call.isView, Call.item?, he]

/-- Only calls of the carrier evict, and they have been counted. -/
theorem Orderly.evictions_eq (h : s.Orderly)
    (hviews : ∀ c ∈ s.calls, ∀ item policy, c.errand = .write item policy → policy = some .wait)
    (hcalls : ∀ c ∈ s.calls, c.isMetered = true → ∀ result, c.place ≠ .settled result) :
    s.evictions = s.answered WriteResult.isEvicting := by
  refine List.countP_congr ?_
  intro c hc
  cases he : c.errand with
  | produce item =>
    have hm : c.isMetered = true := by rw [Call.isMetered, he]
    rw [Call.answers, hm, Place.answer?_of_not_settled (hcalls c hc hm), Bool.true_and]
  | write item policy =>
    have hpatient := (h c hc).patient item (hviews c hc item policy he ▸ he)
    simp [Call.answers, Call.isMetered, he, hpatient.not_evicting]
  | visit p =>
    have hnone : c.place.result? = none := by
      by_contra hne
      exact (h c hc).item hne (by rw [Call.item?, he])
    simp [Call.answers, Call.isMetered, he, hnone]

theorem answered_le (s : Line α) (f : WriteResult α → Bool) : s.answered f ≤ s.calls.length :=
  List.countP_le_length

/-- So the answers are split when the results are. -/
theorem answered_add {f g h : WriteResult α → Bool}
    (hfgh : ∀ r, (f r).toNat = (g r).toNat + (h r).toNat) (s : Line α) :
    s.answered f = s.answered g + s.answered h := by
  refine countP_eq_add ?_
  intro c _
  unfold Call.answers
  cases c.isMetered with
  | false => rfl
  | true =>
    cases c.place.answer? with
    | none => rfl
    | some result => exact hfgh result

/-- A call that was refused was so for one of three reasons. -/
theorem answered_refused (s : Line α) :
    s.answered (fun r => !r.isAccepted) = s.answered (WriteResult.isRefusedFor .full) +
      s.answered (WriteResult.isRefusedFor .noConsumer) +
      s.answered (WriteResult.isRefusedFor .closed) := by
  have hopen : s.answered (fun r => r.isRefusedFor .full || r.isRefusedFor .noConsumer) =
      s.answered (WriteResult.isRefusedFor .full) +
        s.answered (WriteResult.isRefusedFor .noConsumer) := by
    refine answered_add ?_ s
    intro r
    cases r with
    | accepted => rfl
    | refused why => cases why <;> rfl
  rw [← hopen]
  refine answered_add ?_ s
  intro r
  cases r with
  | accepted => rfl
  | refused why => cases why <;> rfl

/-! ## Words -/

end Line

/-- Two counters are added without a fault as long as the sum is a word. -/
theorem addWords_eq {a b : UInt64} (h : a.toNat + b.toNat < UInt64.size) :
    ∃ c, addWords a b = .ok c ∧ c.toNat = a.toNat + b.toNat := by
  refine ⟨a + b, if_pos h, ?_⟩
  rw [UInt64.toNat_add]
  exact Nat.mod_eq_of_lt h

namespace Snapshot

variable {o : OfferTally} {d : DeliveryTally}

/-- The sum of the refusals is a word, if it can be one. -/
theorem refused_ofTallies (h : o.full + o.noConsumer + o.closed < UInt64.size) :
    ∃ n, (ofTallies o d).refused = .ok n ∧ n.toNat = o.full + o.noConsumer + o.closed := by
  have hfull : (ofTallies o d).full.toNat = o.full :=
    UInt64.toNat_ofNat_of_lt (by omega)
  have hnone : (ofTallies o d).noConsumer.toNat = o.noConsumer :=
    UInt64.toNat_ofNat_of_lt (by omega)
  have hclosed : (ofTallies o d).closed.toNat = o.closed :=
    UInt64.toNat_ofNat_of_lt (by omega)
  obtain ⟨m, hm, hmeq⟩ := addWords_eq (a := (ofTallies o d).full) (b := (ofTallies o d).noConsumer)
    (by omega)
  obtain ⟨n, hn, hneq⟩ := addWords_eq (a := m) (b := (ofTallies o d).closed) (by omega)
  refine ⟨n, ?_, by omega⟩
  rw [refused, hm]
  exact hn

end Snapshot

/-! ## The balance -/

namespace Line

variable {s : Line α}

/-- Both together, since a write that evicts is told by the policy of an orderly call. -/
theorem Reachable.orderly_and_evictions (h : s.Reachable) :
    s.Orderly ∧ s.evicted.length = s.evictions := by
  have hall : s.Sound ∧ s.Orderly ∧ s.evicted.length = s.evictions := by
    refine Reachable.induction
      (P := fun u => u.Sound ∧ u.Orderly ∧ u.evicted.length = u.evictions) h ?_ ?_
    · intro start hf
      have hr : start.Reachable := ⟨start, hf, .refl⟩
      refine ⟨hr.sound, hf.orderly, ?_⟩
      obtain ⟨_, _, _, _, store, _, rfl⟩ := hf
      rfl
    · rintro u v ⟨hs, ho, hc⟩ e
      exact ⟨e.sound hs, e.orderly hs ho, e.evictions hs hc⟩
  exact hall.2

/-- The balance of the counts themselves. -/
theorem Reachable.balance_counts (h : s.Reachable)
    (hviews : ∀ c ∈ s.calls, ∀ item policy, c.errand = .write item policy → policy = some .wait)
    (hcalls : ∀ c ∈ s.calls, c.isMetered = true → ∀ result, c.place ≠ .settled result)
    (hworkers : s.IsSettled) :
    s.offers.produced + s.viewAccepted =
      s.offers.overwritten + s.buffered.length + (s.held.length + s.consuming.length) +
        s.deliveries.consumed + (failedItems s.outcomes).length + s.viewed.length := by
  obtain ⟨horderly, hevicted⟩ := h.orderly_and_evictions
  have hplaces := h.conserved.perm.length_eq
  have hhanded := h.handed_perm.length_eq
  have hconsumed := consumed_add_failed s.outcomes
  rw [whereabouts] at hplaces
  simp only [List.length_append, List.length_map] at hplaces hhanded
  rw [accepted_eq_add hcalls, hevicted, horderly.evictions_eq hviews hcalls] at hplaces
  rw [h.counted.produced, h.counted.overwritten, h.deliveries_eq hworkers]
  omega

/-- **The metrics balance.** Take a carrier whose views wait for room, at a moment
when no call of the carrier and no worker has something to count, after fewer than
`2 ^ 64` calls and `consume` calls. The counters show how many calls of the carrier
were answered with success and how many with a refusal, by the reason; the `consume`
calls that are over are those that succeeded and those that failed; and what was
produced or accepted from views was overwritten, is buffered, is with a worker, was
consumed, was in a batch that failed, or was taken out by a view. -/
theorem Reachable.balance (h : s.Reachable)
    (hviews : ∀ c ∈ s.calls, ∀ item policy, c.errand = .write item policy → policy = some .wait)
    (hcalls : ∀ c ∈ s.calls, c.isMetered = true → ∀ result, c.place ≠ .settled result)
    (hworkers : s.IsSettled) (hevents : s.calls.length + s.outcomes.length < UInt64.size) :
    s.snapshot.produced.toNat = s.answered WriteResult.isAccepted ∧
    (s.snapshot.full.toNat = s.answered (WriteResult.isRefusedFor .full) ∧
      s.snapshot.noConsumer.toNat = s.answered (WriteResult.isRefusedFor .noConsumer) ∧
      s.snapshot.closed.toNat = s.answered (WriteResult.isRefusedFor .closed) ∧
      ∃ n, s.snapshot.refused = .ok n ∧ n.toNat = s.answered fun r => !r.isAccepted) ∧
    s.snapshot.batches.toNat + s.snapshot.errors.toNat = s.outcomes.length ∧
    s.snapshot.produced.toNat + s.viewAccepted =
      s.snapshot.overwritten.toNat + s.buffered.length + (s.held.length + s.consuming.length) +
        s.snapshot.consumed.toNat + (failedItems s.outcomes).length + s.viewed.length := by
  have hc := h.counted
  have hbalance := h.balance_counts hviews hcalls hworkers
  have hends := DeliveryTally.batches_add_errors s.outcomes
  rw [← h.deliveries_eq hworkers] at hends
  have word : ∀ f : WriteResult α → Bool, s.answered f < UInt64.size := by
    intro f
    have := s.answered_le f
    omega
  have shown : ∀ {n : Nat} {f : WriteResult α → Bool}, n = s.answered f →
      (UInt64.ofNat n).toNat = s.answered f := by
    rintro _ f rfl
    exact UInt64.toNat_ofNat_of_lt (word f)
  have hproduced : s.snapshot.produced.toNat = s.answered WriteResult.isAccepted :=
    shown hc.produced
  have hoverwritten : s.snapshot.overwritten.toNat = s.offers.overwritten :=
    (shown hc.overwritten).trans hc.overwritten.symm
  have hbatches : s.snapshot.batches.toNat = s.deliveries.batches :=
    UInt64.toNat_ofNat_of_lt (by omega)
  have herrors : s.snapshot.errors.toNat = s.deliveries.errors :=
    UInt64.toNat_ofNat_of_lt (by omega)
  have hconsumed : s.snapshot.consumed.toNat = s.deliveries.consumed := by
    refine UInt64.toNat_ofNat_of_lt ?_
    have hall : s.accepted.length ≤ s.calls.length := length_accepted s ▸ List.countP_le_length
    rw [accepted_eq_add hcalls, ← hc.produced] at hall
    omega
  refine ⟨hproduced, ⟨shown hc.full, shown hc.noConsumer, shown hc.closed, ?_⟩, ?_, ?_⟩
  · rw [answered_refused, ← hc.full, ← hc.noConsumer, ← hc.closed]
    refine Snapshot.refused_ofTallies ?_
    rw [hc.full, hc.noConsumer, hc.closed, ← answered_refused]
    exact word _
  · rw [hbatches, herrors]
    exact hends
  · rw [hproduced, hoverwritten, hconsumed, ← hc.produced]
    exact hbalance

/-- Three calls to a channel for two items that evicts, a drain and a write by a
view; a pool whose consumer takes the first batch, panics on the second, and has
not been handed the third; two calls that fill the channel, one that is refused for
that, and one that is refused after the pool was shut down. -/
def nineCalls : List (Action Nat) :=
  let call (i : Nat) (errand : Errand Nat) : List (Action Nat) :=
    .offer i errand :: List.replicate 8 (.advance i)
  let work : Action Nat := .work 0 0
  let back : Action Nat := .endHook 0 0 .returned
  (call 0 (.produce 10) ++ call 1 (.produce 11) ++ call 2 (.produce 12) ++ [.drain 0 1]) ++
    (call 3 (.write 13 (some .wait)) ++ [.install loner, .publish, .retire, work, back]) ++
    [work, work, work, work, back, work] ++
    [work, work, work, work, .endHook 0 0 (.panicked .other), work, work, back] ++
    (call 4 (.produce 14) ++ [work, work] ++ call 5 (.produce 15) ++ [.setPolicy .refuse]) ++
    (call 6 (.produce 16) ++ call 7 (.produce 17) ++ [.shutdown] ++ call 8 (.produce 18))

/-- Seven items came in, six of them by the carrier: one was overwritten, two are
buffered, the worker has one, one was consumed, one was in the batch that failed, and
the view took one. -/
theorem balance_nineCalls :
    let s := (blank 1 2 (by decide) .evict).after nineCalls
    s.Reachable ∧
      (∀ c ∈ s.calls, ∀ item policy, c.errand = .write item policy → policy = some .wait) ∧
      (∀ c ∈ s.calls, c.isMetered = true → ∀ result, c.place ≠ .settled result) ∧
      (s.IsSettled ∧ s.calls.length + s.outcomes.length < UInt64.size) ∧
      s.snapshot.toList = [6, 1, 1, 0, 1, 1, 1, 1] ∧
      (s.viewAccepted = 1 ∧ s.buffered.map Parcel.item = [15, 16] ∧
        s.held.map Parcel.item = [14] ∧ s.outcomes.length = 2 ∧
        (failedItems s.outcomes).map Parcel.item = [13] ∧
        s.viewed.map (fun e => e.2.item) = [11]) ∧
      s.snapshot.produced.toNat = s.answered WriteResult.isAccepted ∧
      s.snapshot.batches.toNat + s.snapshot.errors.toNat = s.outcomes.length ∧
      s.snapshot.produced.toNat + s.viewAccepted =
        s.snapshot.overwritten.toNat + s.buffered.length + (s.held.length + s.consuming.length) +
          s.snapshot.consumed.toNat + (failedItems s.outcomes).length + s.viewed.length := by
  intro s
  have hreach : s.Reachable := reachable_after (by decide) (by decide) .evict nineCalls
  have hviews : ∀ c ∈ s.calls, ∀ item policy, c.errand = .write item policy →
      policy = some .wait := by
    have hall : s.calls.all (fun c => match c.errand with
        | .write _ policy => policy = some .wait
        | _ => true) = true := by decide +kernel
    intro c hc item policy he
    have hcall := List.all_eq_true.mp hall c hc
    rw [he] at hcall
    exact of_decide_eq_true hcall
  have hcalls : ∀ c ∈ s.calls, c.isMetered = true → ∀ result, c.place ≠ .settled result := by
    have hall : s.calls.all Call.isOver = true := by decide +kernel
    intro c hc _ result hp
    have hover := List.all_eq_true.mp hall c hc
    rw [Call.isOver, hp] at hover
    cases hover
  have hworkers : s.IsSettled := by
    have hall : s.pools.all (fun pool => pool.workers.all fun worker =>
        !worker.station.isSettling) = true := by decide +kernel
    intro pool hpool worker hworker
    have hworkers := List.all_eq_true.mp (List.all_eq_true.mp hall pool hpool) worker hworker
    exact Bool.not_eq_true' _ ▸ hworkers
  have hevents : s.calls.length + s.outcomes.length < UInt64.size := by decide +kernel
  obtain ⟨hproduced, -, hends, hbalance⟩ :=
    Reachable.balance hreach hviews hcalls hworkers hevents
  exact ⟨hreach, hviews, hcalls, ⟨hworkers, hevents⟩, by decide +kernel, by decide +kernel,
    hproduced, hends, hbalance⟩

end Line

end Conveyor
