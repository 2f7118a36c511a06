/-
Conveyor.Proofs.Terminal — a carrier that was closed stays closed.

When a thread has closed all channels, none is ever open again, whatever pools are
installed later and whatever routers and policies are set. From then on nothing is
written; each channel loses items at its front only; and every call that had not
come to anything gets its own item back, and does not have to wait for it
(`ReachesBy.staysClosed`).

Which of two answers a later call gets is a matter of the pool that it finds
(`Conveyor.Proofs.Gate`): one that does not run turns it away, and otherwise it comes
to a channel that is closed. Routers that name no channel are left out, since a call
would meet a fault there.
-/
import Conveyor.Proofs.Alone
import Conveyor.Proofs.Flow
import Conveyor.Proofs.Routes

namespace Conveyor

variable {α : Type u}

/-- Taking items out of a channel does not open it. -/
theorem Lane.closed_of_take {l : Lane α} {limit : Nat} {taken : Taken α}
    (ht : l.take limit = .ok taken) : taken.lane.closed = l.closed := by
  simp only [take, bind_eq_ok, pure, Except.pure, Except.ok.injEq] at ht
  obtain ⟨⟨items, ring⟩, -, rfl⟩ := ht
  rfl

namespace Line

variable {s t u : Line α} {a : Action α} {i n p : Nat} {c c' : Call α} {item : α}

/-! ## Channels that are closed -/

/-- Channel `n`, if there is one, is closed. -/
def IsClosedAt (s : Line α) (n : Nat) : Prop :=
  ∀ lane, s.store.lanes[n]? = some lane → lane.closed = true

/-- All channels are closed. -/
def IsShut (s : Line α) : Prop := ∀ n, s.IsClosedAt n

/-- To put a channel in another one's place opens none, if it is closed where the old one was. -/
theorem IsClosedAt.setLane (h : s.IsClosedAt n) {m : Nat} {old new : Lane (Parcel α)}
    (hl : s.store.lanes[m]? = some old) (hclosed : old.closed = true → new.closed = true) :
    ∀ lane, (s.store.setLane m new).lanes[n]? = some lane → lane.closed = true := by
  intro lane hlane
  rcases eq_of_getElem?_set hlane with ⟨rfl, rfl⟩ | ⟨-, hold⟩
  · exact hclosed (h old hl)
  · exact h lane hold

/-- No step opens a closed channel. -/
theorem Effect.isClosedAt (e : Effect s t) (h : s.IsClosedAt n) : t.IsClosedAt n := by
  cases e with
  | write _ _ _ hl ha =>
    refine h.setLane hl ?_
    intro hclosed
    rw [Lane.attempt_of_closed hclosed] at ha
    cases ha
  | closeLane hl => exact h.setLane hl fun _ => rfl
  | drain hl ht => exact h.setLane hl fun hclosed => (Lane.closed_of_take ht).trans hclosed
  | sweep _ _ _ hl ht => exact h.setLane hl fun hclosed => (Lane.closed_of_take ht).trans hclosed
  | _ => exact h

theorem Reaches.isClosedAt (hr : Reaches s t) (h : s.Reachable) (hc : s.IsClosedAt n) :
    t.IsClosedAt n :=
  hr.induction (P := fun u => u.IsClosedAt n) h hc fun _ _ hu e => e.isClosedAt hu

/-- With all channels closed, nothing is written. -/
theorem Effect.written_of_isShut (e : Effect s t) (h : s.IsShut) : t.written = s.written := by
  cases e with
  | write _ _ _ hl ha =>
    rw [Lane.attempt_of_closed (h _ _ hl)] at ha
    cases ha
  | _ => rfl

/-- Closed channels only lose what is at their front. -/
theorem Effect.contents_of_isShut (e : Effect s t) (hr : s.Regular) (h : s.IsShut) (n : Nat) :
    t.contents n <:+ s.contents n := by
  have shorter : ∀ {m : Nat} {items : List (Parcel α)}, s.contents m = items ++ t.contents m →
      (∀ k, m ≠ k → t.contents k = s.contents k) → t.contents n <:+ s.contents n := by
    intro m items hbefore hothers
    by_cases hmn : m = n
    · subst hmn
      exact ⟨items, hbefore.symm⟩
    · exact hothers n hmn ▸ List.suffix_refl _
  cases e.flow hr with
  | still hcontents => exact hcontents n ▸ List.suffix_refl _
  | enters m parcel out rest _ _ _ _ _ hwritten =>
    rw [e.written_of_isShut h] at hwritten
    simp at hwritten
  | leaves m items hbefore hothers => exact shorter hbefore hothers
  | taken q w m items pool _ _ hbefore hothers => exact shorter hbefore hothers

/-! ## Threads that close -/

/-- What a closing thread is past is closed. -/
def ClosesInTurn (s : Line α) : Prop :=
  ∀ k n : Nat, s.closers[k]? = some n → ∀ m, m < n → s.IsClosedAt m

/-- A closing thread has closed all channels. -/
def HasClosed (s : Line α) : Prop := ∃ n ∈ s.closers, s.store.count ≤ n

/-- A thread that closes has closed the channels before the one that it comes to next. -/
theorem ClosesInTurn.step (hb : s.ClosesInTurn) (h : s.Reachable) (hs : s.step a = some t) :
    t.ClosesInTurn := by
  have keep : ∀ {m}, s.IsClosedAt m → t.IsClosedAt m := Reaches.isClosedAt (.step a .refl hs) h
  cases hc : a.isClosing with
  | false =>
    intro k n hk m hm
    rw [closers_of_step hs hc] at hk
    exact keep (hb k n hk m hm)
  | true =>
    cases a with
    | startClosing =>
      cases hs
      intro k n hk m hm
      rcases List.mem_append.mp (List.mem_of_getElem? hk) with hold | hnew
      · obtain ⟨j, hj⟩ := List.mem_iff_getElem?.mp hold
        exact keep (hb j n hj m hm)
      · cases List.mem_singleton.mp hnew
        exact absurd hm (Nat.not_lt_zero m)
    | closeNext j =>
      obtain ⟨x, lane, hj, hl, rfl⟩ := of_closeNext hs
      intro k n hk m hm
      rcases eq_of_getElem?_set hk with ⟨rfl, rfl⟩ | ⟨-, hold⟩
      · rcases Nat.lt_succ_iff_lt_or_eq.mp hm with hlt | rfl
        · exact keep (hb _ x hj m hlt)
        · intro lane' hl'
          have hlast : (s.store.lanes.set m lane.close)[m]? = some lane' := hl'
          rw [List.getElem?_set_self (List.getElem?_eq_some_iff.mp hl).1] at hlast
          cases hlast
          rfl
      · exact keep (hb k n hold m hm)
    | _ => cases hc

theorem Reachable.closesInTurn (h : s.Reachable) : s.ClosesInTurn := by
  obtain ⟨start, hf, hr⟩ := h
  induction hr with
  | refl =>
    obtain ⟨_, _, _, _, store, _, rfl⟩ := hf
    intro k n hk
    simp [ofStore] at hk
  | step a hr hs ih => exact ih.step ⟨start, hf, hr⟩ hs

/-- Once a thread has closed them all, they are closed. -/
theorem Reachable.isShut (h : s.Reachable) (hc : s.HasClosed) : s.IsShut := by
  obtain ⟨x, hx, hcount⟩ := hc
  obtain ⟨k, hk⟩ := List.mem_iff_getElem?.mp hx
  intro n lane hl
  have hlt : n < s.store.count := (List.getElem?_eq_some_iff.mp hl).1
  exact h.closesInTurn k x hk n (Nat.lt_of_lt_of_le hlt hcount) lane hl

/-- To close a channel removes none. -/
theorem count_closeNext {k : Nat} (hs : s.closeNext k = some t) :
    t.store.count = s.store.count := by
  obtain ⟨_, _, -, -, rfl⟩ := of_closeNext hs
  exact count_setLane ..

/-- A thread that is left to itself closes the channels that it has left. -/
theorem closers_runCloser {k : Nat} (n m : Nat) (hk : s.closers[k]? = some m)
    (hn : m + n = s.store.count) :
    (s.runCloser k n).closers[k]? = some s.store.count ∧
      (s.runCloser k n).store.count = s.store.count := by
  induction n generalizing s m with
  | zero => exact ⟨hn ▸ hk, rfl⟩
  | succ n ih =>
    have hlt : m < s.store.lanes.length := by
      have : m + (n + 1) = s.store.lanes.length := hn
      omega
    have hstep : s.closeNext k = some { s with
        store := s.store.setLane m s.store.lanes[m].close, closers := s.closers.set k (m + 1) } := by
      simp only [closeNext, hk, List.getElem?_eq_getElem hlt]
    have hcount := count_closeNext hstep
    have hrest := ih (s := { s with
        store := s.store.setLane m s.store.lanes[m].close, closers := s.closers.set k (m + 1) })
      (m + 1) (List.getElem?_set_self (List.getElem?_eq_some_iff.mp hk).1) (by rw [hcount]; omega)
    rw [hcount] at hrest
    unfold runCloser
    rw [hstep]
    exact hrest

/-- A carrier is closed by one thread that goes through all channels. -/
theorem hasClosed_closeAll (s : Line α) : s.closeAll.HasClosed := by
  have hstart : s.startClosing.closers[s.closers.length]? = some 0 :=
    List.getElem?_concat_length ..
  obtain ⟨hlast, hcount⟩ := closers_runCloser s.store.count 0 hstart (Nat.zero_add _)
  exact ⟨s.store.count, List.mem_of_getElem? hlast, Nat.le_of_eq hcount⟩

end Line

/-! ## Calls that come too late -/

/-- A call at this place has not come to anything. -/
def Place.isPending : Place α → Bool
  | .settled _ | .leaving _ | .staying | .over _ => false
  | _ => true

/-- A call at this place will be refused, or has been, and not for want of room. -/
inductive Place.IsLate (place : Place α) : Prop
  | pending : place.isPending = true → place.IsLate
  | refused {why : Refusal} {back : α} :
      place.result? = some (.refused why back) → why ≠ .full → place.IsLate

/-- A call that is late stays so while its result does. -/
theorem Place.IsLate.of_result? {place place' : Place α} (h : place.IsLate)
    (hp : place.isPending = false) (he : place'.result? = place.result?) : place'.IsLate := by
  cases h with
  | pending hpending =>
    rw [hp] at hpending
    cases hpending
  | refused hr hwhy => exact .refused (he.trans hr) hwhy

namespace Line

variable {s t u : Line α} {a : Action α} {i n p : Nat} {c c' : Call α} {item : α}

/-- Where all channels are closed and the router names one of them, a call that has
not come to anything is refused in the end. -/
theorem Turn.isLate (turn : Turn s i c c') (h : s.Reachable) (hc : s.calls[i]? = some c)
    (hitem : c.item? = some item) (hshut : s.IsShut)
    (hrange : s.store.router.InRange s.store.count) (hlate : c.place.IsLate) :
    c'.place.IsLate := by
  cases turn with
  | hop hop =>
    cases hop with
    | find | skip | start | insist | visit | turnAway | ask | wait => exact .pending rfl
    | refuse _ _ hl ha =>
      rw [Lane.attempt_of_closed (hshut _ _ hl)] at ha
      cases ha
      exact .refused rfl Refusal.noConfusion
    | stray ht hnone =>
      have hlt := h.target_lt hc ht
      rw [List.getElem?_eq_none_iff] at hnone
      exact absurd hlt (Nat.not_lt.mpr hnone)
    | fail _ _ hl ha =>
      rw [Lane.attempt_of_closed (hshut _ _ hl)] at ha
      cases ha
    | callAway hp =>
      rw [hp] at hlate
      cases hlate with
      | pending hpending => cases hpending
      | refused hr => cases hr
    | finish hp =>
      rw [hp] at hlate
      exact hlate.of_result? rfl (Place.result?_over _)
  | enroll | route => exact .pending rfl
  | enter _ _ _ hplace hstay =>
    rcases hplace with rfl | rfl
    · rw [hstay.mp rfl] at hitem
      cases hitem
    · exact .pending rfl
  | turnBack =>
    rw [hitem]
    exact .refused rfl Refusal.noConfusion
  | misroute _ _ hr =>
    obtain ⟨n, hn⟩ := hrange.route _
    rw [hn] at hr
    cases hr
  | write _ _ hl ha =>
    rw [Lane.attempt_of_closed (hshut _ _ hl)] at ha
    cases ha
  | tally hp =>
    rw [hp] at hlate
    exact hlate.of_result? rfl rfl
  | release hp =>
    rw [hp] at hlate
    exact hlate.of_result? rfl (Place.result?_over _)

/-- A call that is over and came too late has its own item back. -/
theorem Reachable.refused_of_isLate (h : s.Reachable) (hc : s.calls[i]? = some c)
    (hitem : c.item? = some item) (hover : c.isOver = true) (hlate : c.place.IsLate) :
    ∃ why, why ≠ .full ∧ c.place = .over (.answered (.refused why item)) := by
  cases hp : c.place with
  | «over» verdict =>
    cases hlate with
    | pending hpending =>
      rw [hp] at hpending
      cases hpending
    | @refused why back hr hwhy =>
      have hown := h.item_back hc hr
      rw [hitem] at hown
      cases hown
      rw [hp] at hr
      cases verdict with
      | answered result =>
        cases hr
        exact ⟨why, hwhy, rfl⟩
      | faulted | visited => cases hr
  | _ => simp [Call.isOver, hp] at hover

/-- What actions lead to from `s` that set no router out of range. -/
def ReachesInRange (s t : Line α) : Prop := ReachesBy (fun a => a.RoutesWithin s.store.count) s t

theorem ReachesInRange.trans (hst : s.ReachesInRange t) (h : s.Reachable)
    (htu : t.ReachesInRange u) : s.ReachesInRange u := by
  have hcount := hst.reaches.count h
  exact ReachesBy.trans hst (ReachesBy.mono htu fun a ha => hcount ▸ ha)

/-- A run of one call's own steps sets no router. -/
theorem reachesInRange_alone (hr : ReachesBy (fun a : Action α => a = .advance i) s t) :
    s.ReachesInRange t :=
  hr.mono fun a ha => by rw [ha]; trivial

/-- So the router stays within the channels. -/
theorem ReachesInRange.inRange (hr : s.ReachesInRange t) (h : s.Reachable)
    (hrange : s.store.router.InRange s.store.count) : t.store.router.InRange t.store.count := by
  induction hr with
  | refl => exact hrange
  | step a hr ha hs ih =>
    exact inRange_of_step (h.reaches hr.reaches) hs (hr.reaches.count h ▸ ha) ih

theorem Reaches.isShut (hr : Reaches s t) (h : s.Reachable) (hshut : s.IsShut) : t.IsShut :=
  fun n => hr.isClosedAt h (hshut n)

/-- A call that had not come to anything when all channels were closed, or had not
begun, is refused in the end. -/
theorem ReachesInRange.isLate (hr : s.ReachesInRange t) (h : s.Reachable) (hshut : s.IsShut)
    (hrange : s.store.router.InRange s.store.count)
    (hpending : ∀ c₀, s.calls[i]? = some c₀ → c₀.place.isPending = true)
    (hc : t.calls[i]? = some c) (hitem : c.item? = some item) : c.place.IsLate := by
  induction hr generalizing c with
  | refl => exact .pending (hpending c hc)
  | @step t u a hr ha hs ih =>
    have ht := h.reaches hr.reaches
    rcases call_of_step ht.named hs hc with hbegun | ⟨d, hd, rfl | turn⟩
    · exact .pending (by rw [hbegun]; rfl)
    · exact ih hd hitem
    · have hitem' : d.item? = some item := by
        rw [Call.item?, turn.errand] at hitem
        exact hitem
      exact turn.isLate ht hd hitem' (hr.reaches.isShut h hshut)
        (ReachesInRange.inRange hr h hrange) (ih hd hitem')

/-! ## Why a call is refused -/

/-- The pool that call `i` had found was not running at some moment before it
looked. -/
def FindsStopped (s t : Line α) (i : Nat) : Prop :=
  ∃ u p c, ReachesBy (fun a => a.RoutesWithin s.store.count) s u ∧
    ReachesBy (fun a => a.RoutesWithin s.store.count) u t ∧ u.calls[i]? = some c ∧
      (c.place = .found p ∨ c.place = .counted p) ∧ u.isRunning p = false

/-- A call that does not ask to be let in any more never does again. -/
theorem Reaches.not_asking (hr : Reaches s t) (h : s.Reachable) (hc : s.calls[i]? = some c)
    (hasking : c.place.isAsking = false) :
    ∃ c', t.calls[i]? = some c' ∧ c'.place.isAsking = false := by
  refine hr.induction (P := fun u => ∃ c', u.calls[i]? = some c' ∧ c'.place.isAsking = false)
    h ⟨c, hc, hasking⟩ ?_
  rintro u v ⟨d, hd, hnot⟩ e
  obtain ⟨d', hd', rfl | turn⟩ := e.call_after hd
  · exact ⟨_, hd', hnot⟩
  · refine ⟨d', hd', ?_⟩
    by_contra hnow
    rw [(turn.isAsking (eq_true_of_ne_false hnow)).1] at hnot
    cases hnot

/-- Only visitors and calls for the carrier come to know a pool. -/
theorem Reachable.errand_of_names (h : s.Reachable) (hc : s.calls[i]? = some c)
    (hn : c.place.Names p) : c.errand = .visit p ∨ ∃ item, c.errand = .produce item := by
  have hall : ∀ (i : Nat) (c : Call α), s.calls[i]? = some c → ∀ p, c.place.Names p →
      c.errand = .visit p ∨ ∃ item, c.errand = .produce item := by
    refine h.induction (P := fun u => ∀ (i : Nat) (c : Call α), u.calls[i]? = some c → ∀ p,
      c.place.Names p → c.errand = .visit p ∨ ∃ item, c.errand = .produce item) ?_ ?_
    · rintro start ⟨_, _, _, _, store, _, rfl⟩ i c hc
      simp [ofStore] at hc
    · intro u v hu e i c' hc' p hn
      rcases e.call_before hc' with ⟨hbegun, -⟩ | ⟨c, hc, rfl | turn⟩
      · rw [hbegun] at hn
        exact hn.elim
      · exact hu i _ hc p hn
      · rw [turn.errand]
        rcases turn.names_before hn with hold | hvisit | ⟨hproduce, -⟩
        · exact hu i c hc p hold
        · exact .inl hvisit
        · exact .inr hproduce
  exact hall i c hc p hn

/-- A call with an item does not stay in a pool. -/
theorem Reachable.not_staying (h : s.Reachable) (hc : s.calls[i]? = some c)
    (hitem : c.item? = some item) : c.place ≠ .staying := by
  have hall : ∀ (i : Nat) (c : Call α), s.calls[i]? = some c → c.place = .staying →
      c.item? = none := by
    refine h.induction (P := fun u => ∀ (i : Nat) (c : Call α), u.calls[i]? = some c →
      c.place = .staying → c.item? = none) ?_ ?_
    · rintro start ⟨_, _, _, _, store, _, rfl⟩ i c hc
      simp [ofStore] at hc
    · intro u v hu e i c' hc' hstay
      rcases e.call_before hc' with ⟨hbegun, -⟩ | ⟨c, hc, rfl | turn⟩
      · rw [hbegun] at hstay
        cases hstay
      · exact hu i _ hc hstay
      · cases turn with
        | hop hop => cases hop <;> cases hstay
        | enter _ _ _ _ hitem => exact hitem.mp hstay
        | @turnBack p hp =>
          cases hi : c.item? <;> rw [hi] at hstay <;> cases hstay
        | enroll | route | misroute | write | tally | release => cases hstay
  intro hstay
  rw [hall i c hc hstay] at hitem
  cases hitem

/-- A call that nobody interrupts is over before long, where all channels are
closed. -/
theorem IsShut.isOver_run (hshut : s.IsShut) (h : s.Reachable) (hc : s.calls[i]? = some c)
    (hitem : c.item? = some item) :
    ∃ c', (s.run i).calls[i]? = some c' ∧ c'.item? = some item ∧ c'.isOver = true := by
  have hr := (reachesBy_run s i).reaches
  have ht := h.reaches hr
  obtain ⟨c', hc', he⟩ := hr.errand h hc
  have hitem' : c'.item? = some item := by
    rw [Call.item?, he]
    exact hitem
  refine ⟨c', hc', hitem', ?_⟩
  rcases of_stuck (advance_run s i) hc' hitem' with hover | hstay | ⟨n, hwait, hnot⟩
  · exact hover
  · exact absurd hstay (ht.not_staying hc' hitem')
  · have hlt := ht.target_lt hc' (by rw [Call.target?, hwait])
    have hl := List.getElem?_eq_getElem hlt
    have hclosed := hr.isShut h hshut n _ hl
    rw [mayResume, hl, Option.any_some, hclosed] at hnot
    cases hnot

/-! ## The law of a closed carrier -/

/-- What holds of `t`, reached from a line `s` on which all channels are closed. -/
structure StaysClosed (s t : Line α) : Prop where
  /-- No item enters a channel. -/
  written : t.written = s.written
  /-- Each channel holds the newest of what it held. -/
  contents : ∀ n, t.contents n <:+ s.contents n
  /-- A call that had not come to anything in `s`, or began later, gets its own item
  back, and not for want of room. -/
  handedBack : ∀ (i : Nat) (c : Call α) item, t.calls[i]? = some c → c.item? = some item →
    c.isOver = true → (∀ c₀, s.calls[i]? = some c₀ → c₀.place.isPending = true) →
    ∃ why, why ≠ .full ∧ c.place = .over (.answered (.refused why item))
  /-- A call that waited for room is told that its channel is closed. -/
  blocked : ∀ (i n : Nat) (c₀ c : Call α) item, s.calls[i]? = some c₀ → c₀.place = .waiting n →
    t.calls[i]? = some c → c.item? = some item → c.isOver = true →
    c.place = .over (.answered (.refused .closed item))
  /-- So is a later call that does not come through the carrier. -/
  viewed : ∀ (i : Nat) (c : Call α) item policy, s.calls.length ≤ i → t.calls[i]? = some c →
    c.errand = .write item policy → c.isOver = true →
    c.place = .over (.answered (.refused .closed item))
  /-- A later call for the carrier is told so, too, unless the pool that it finds is
  not running before it looks. -/
  produced : ∀ (i : Nat) (c : Call α) item, s.calls.length ≤ i → t.calls[i]? = some c →
    c.errand = .produce item → c.isOver = true →
    (FindsStopped s t i ∧ c.place = .over (.answered (.refused .noConsumer item))) ∨
      (¬ FindsStopped s t i ∧ c.place = .over (.answered (.refused .closed item)))
  /-- If nobody interrupts it, that is whether the carrier has a pool that does not
  run when the call begins. -/
  alone : ∀ (producer : Nat) item u, t.offer producer (.produce item) = some u →
    (u.run t.calls.length).verdict? t.calls.length = some (.answered (.refused
      (if t.active.any fun p => !t.isRunning p then .noConsumer else .closed) item))
  /-- No call that has an item has to wait for anybody. -/
  goesOn : ∀ (i : Nat) (c : Call α) item, t.calls[i]? = some c → c.item? = some item →
    ∃ c', (t.run i).calls[i]? = some c' ∧ c'.isOver = true

section
variable (hr : s.ReachesInRange t) (h : s.Reachable) (hshut : s.IsShut)
  (hrange : s.store.router.InRange s.store.count)
include hr h hshut hrange

/-- An item that was pending at the close is handed back, and not for want of room. -/
theorem handedBack_of_isShut (hpending : ∀ c₀, s.calls[i]? = some c₀ → c₀.place.isPending = true)
    (hc : t.calls[i]? = some c) (hitem : c.item? = some item) (hover : c.isOver = true) :
    ∃ why, why ≠ .full ∧ c.place = .over (.answered (.refused why item)) :=
  (h.reaches hr.reaches).refused_of_isLate hc hitem hover
    (hr.isLate h hshut hrange hpending hc hitem)

/-- A call that was not turned away has met a closed channel. -/
theorem closed_of_isShut (hpending : ∀ c₀, s.calls[i]? = some c₀ → c₀.place.isPending = true)
    (hc : t.calls[i]? = some c) (hitem : c.item? = some item) (hover : c.isOver = true)
    (hlet : c.place.isTurnedAway = false) :
    c.place = .over (.answered (.refused .closed item)) := by
  obtain ⟨why, hwhy, hplace⟩ := handedBack_of_isShut hr h hshut hrange hpending hc hitem hover
  cases why with
  | full => exact absurd rfl hwhy
  | noConsumer =>
    rw [hplace] at hlet
    cases hlet
  | closed => exact hplace

/-- A call that waited for room at the close is told that the channel is closed. -/
theorem closed_of_waiting {c₀ : Call α} (hc₀ : s.calls[i]? = some c₀) (hwait : c₀.place = .waiting n)
    (hc : t.calls[i]? = some c) (hitem : c.item? = some item) (hover : c.isOver = true) :
    c.place = .over (.answered (.refused .closed item)) := by
  have hold : ∀ {P : Place α → Prop}, P (.waiting n) → ∀ c₁, s.calls[i]? = some c₁ → P c₁.place := by
    intro P hP c₁ hc₁
    rw [hc₀] at hc₁
    cases hc₁
    exact hwait ▸ hP
  refine closed_of_isShut hr h hshut hrange (hold (P := fun x => x.isPending = true) rfl) hc hitem
    hover ?_
  by_contra haway
  -- The call was past the pool already, and does not come back to it.
  obtain ⟨u, p, c', hsu, -, hc', hp, -⟩ := ReachesBy.of_turned_away hr h
    (hold (P := fun x => x.isTurnedAway = false) rfl) hc (eq_true_of_ne_false haway)
  obtain ⟨d, hd, hnot⟩ := hsu.reaches.not_asking h hc₀ (by rw [hwait]; rfl)
  rw [hc'] at hd
  cases hd
  rw [hp] at hnot
  cases hnot

/-- So is a view that writes later. -/
theorem closed_of_view {policy : Option WhenFull} (hi : s.calls.length ≤ i)
    (hc : t.calls[i]? = some c) (he : c.errand = .write item policy) (hover : c.isOver = true) :
    c.place = .over (.answered (.refused .closed item)) := by
  have hnew : ∀ {P : Call α → Prop} c₀, s.calls[i]? = some c₀ → P c₀ :=
    fun c₀ hc₀ => absurd hc₀ (not_begun hi c₀)
  have hitem : c.item? = some item := by rw [Call.item?, he]
  refine closed_of_isShut hr h hshut hrange hnew hc hitem hover ?_
  by_contra haway
  obtain ⟨u, p, c', hsu, hut, hc', hp, -⟩ := ReachesBy.of_turned_away hr h hnew hc
    (eq_true_of_ne_false haway)
  have hu := h.reaches hsu.reaches
  obtain ⟨d, hd, hde⟩ := hut.reaches.errand hu hc'
  rw [hc] at hd
  cases hd
  have hnames : c'.place.Names p := by
    rw [hp]
    rfl
  rcases hu.errand_of_names hc' hnames with hvisit | ⟨item', hproduce⟩
  · rw [hde, hvisit] at he
    cases he
  · rw [hde, hproduce] at he
    cases he

/-- A later call of the carrier is told this too, unless the pool that it finds has stopped:
then that is why. -/
theorem refused_of_produce (hi : s.calls.length ≤ i) (hc : t.calls[i]? = some c)
    (he : c.errand = .produce item) (hover : c.isOver = true) :
    (FindsStopped s t i ∧ c.place = .over (.answered (.refused .noConsumer item))) ∨
      (¬ FindsStopped s t i ∧ c.place = .over (.answered (.refused .closed item))) := by
  have hnew : ∀ c₀, s.calls[i]? = some c₀ → c₀.place.isPending = true :=
    fun c₀ hc₀ => absurd hc₀ (not_begun hi c₀)
  have hitem : c.item? = some item := by rw [Call.item?, he]
  have hiff := ReachesBy.turned_away_iff hr h hi hc he hover
  obtain ⟨why, hwhy, hplace⟩ := handedBack_of_isShut hr h hshut hrange hnew hc hitem hover
  cases why with
  | full => exact absurd rfl hwhy
  | noConsumer => exact .inl ⟨hiff.mp ⟨item, hplace⟩, hplace⟩
  | closed =>
    refine .inr ⟨?_, hplace⟩
    intro hstopped
    obtain ⟨back, hback⟩ := hiff.mpr hstopped
    rw [hplace] at hback
    cases hback

end

/-- **A call that nobody interrupts**, on a line with closed channels: whether the
carrier has a pool that does not run decides between the two answers. -/
theorem verdict_alone (h : s.Reachable) (hshut : s.IsShut)
    (hrange : s.store.router.InRange s.store.count) {producer : Nat}
    (ho : s.offer producer (.produce item) = some u) :
    (u.run s.calls.length).verdict? s.calls.length = some (.answered (.refused
      (if s.active.any fun p => !s.isRunning p then .noConsumer else .closed) item)) := by
  have hstep : s.step (.offer producer (.produce item)) = some u := ho
  have hu : u.Reachable := h.reaches (.step _ .refl hstep)
  have hsu : s.ReachesInRange u := .step (.offer producer (.produce item)) .refl trivial hstep
  have hr : s.ReachesInRange (u.run s.calls.length) :=
    hsu.trans h (reachesInRange_alone (reachesBy_run u _))
  obtain ⟨hc, -⟩ := of_offer ho
  obtain ⟨c, hc', hitem, hover⟩ := (hsu.reaches.isShut h hshut).isOver_run hu hc rfl
  have hnew : ∀ c₀, s.calls[s.calls.length]? = some c₀ → c₀.place.isPending = true :=
    fun c₀ hc₀ => absurd hc₀ (not_begun (Nat.le_refl _) c₀)
  obtain ⟨why, hwhy, hplace⟩ := handedBack_of_isShut hr h hshut hrange hnew hc' hitem hover
  have hverdict := verdict?_eq hc' hplace
  have hiff := turned_away_alone_iff h ho
  have hany : s.active.any (fun p => !s.isRunning p) = true ↔
      ∃ p, s.active = some p ∧ s.isRunning p = false := by
    simp [Option.any_eq_true]
  cases why with
  | full => exact absurd rfl hwhy
  | noConsumer => rw [if_pos (hany.mpr (hiff.mp hverdict)), hverdict]
  | closed =>
    rw [if_neg, hverdict]
    intro hstopped
    have hother := hiff.mpr (hany.mp hstopped)
    rw [hverdict] at hother
    cases hother

/-- **A closed carrier stays closed.** Let a thread have closed all channels, and let
the router, and those that are set later, name channels. Then, whatever pools are
installed and shut down, whatever is taken out and whoever writes in whatever way:
nothing enters a channel again, each channel loses items at its front only, and
every call that had not come to anything is refused, without waiting, and has its
own item back. -/
theorem ReachesInRange.staysClosed (hr : s.ReachesInRange t) (h : s.Reachable)
    (hclosed : s.HasClosed) (hrange : s.store.router.InRange s.store.count) :
    s.StaysClosed t := by
  have hshut : s.IsShut := h.isShut hclosed
  have ht : t.Reachable := h.reaches hr.reaches
  have hhistory : t.Regular ∧ t.IsShut ∧ t.written = s.written ∧
      ∀ n, t.contents n <:+ s.contents n := by
    refine hr.reaches.induction (P := fun u => u.Regular ∧ u.IsShut ∧ u.written = s.written ∧
      ∀ n, u.contents n <:+ s.contents n) h
      ⟨h.regular, hshut, rfl, fun n => List.suffix_refl _⟩ ?_
    rintro u v ⟨hu, hs, hw, hcontents⟩ e
    exact ⟨e.regular hu, fun n => e.isClosedAt (hs n), (e.written_of_isShut hs).trans hw,
      fun n => (e.contents_of_isShut hu hs n).trans (hcontents n)⟩
  exact {
    written := hhistory.2.2.1
    contents := hhistory.2.2.2
    handedBack := fun _ _ _ hc hitem hover hpending =>
      handedBack_of_isShut hr h hshut hrange hpending hc hitem hover
    blocked := fun _ _ _ _ _ hc₀ hwait hc hitem hover =>
      closed_of_waiting hr h hshut hrange hc₀ hwait hc hitem hover
    viewed := fun _ _ _ _ hi hc he hover => closed_of_view hr h hshut hrange hi hc he hover
    produced := fun _ _ _ hi hc he hover => refused_of_produce hr h hshut hrange hi hc he hover
    alone := fun _ _ _ ho => verdict_alone ht hhistory.2.1 (hr.inRange h hrange) ho
    goesOn := fun _ _ _ hc hitem => by
      obtain ⟨c', hc', -, hover⟩ := hhistory.2.1.isOver_run ht hc hitem
      exact ⟨c', hc', hover⟩ }

/-- Before there is a pool, a call fills the only place and another waits. -/
def packed : List (Action Nat) :=
  (.offer 0 (.produce 7) :: List.replicate 6 (.advance 0)) ++
    (.offer 1 (.produce 8) :: List.replicate 4 (.advance 1))

/-- After the end, the waiting call goes on; a pool is installed, and a call comes; the
pool is shut down, and another call comes, and one that is not for the carrier; and
the channel is emptied. -/
def belated : List (Action Nat) :=
  List.replicate 3 (.advance 1) ++ [.install loner, .publish, .retire, .setPolicy .evict] ++
    (.offer 2 (.produce 9) :: List.replicate 8 (.advance 2)) ++ .shutdown ::
    (.offer 3 (.produce 10) :: List.replicate 7 (.advance 3)) ++
    (.offer 4 (.write 11 (some .wait)) :: List.replicate 5 (.advance 4)) ++ [.drain 0 5]

/-- The calls are refused, one of them for want of a running pool, and the channel
gives up the one item that it had. -/
theorem staysClosed_belated :
    let s := ((blank 1 1 (by decide) .wait).after packed).closeAll
    let t := s.after belated
    (s.Reachable ∧ s.HasClosed ∧ s.ReachesInRange t) ∧
      (s.calls.map Call.place = [.over (.answered (.accepted .stored)), .waiting 0] ∧
        (s.contents 0).map Parcel.item = [7]) ∧
      (t.calls.map Call.place = [.over (.answered (.accepted .stored)),
          .over (.answered (.refused .closed 8)), .over (.answered (.refused .closed 9)),
          .over (.answered (.refused .noConsumer 10)),
          .over (.answered (.refused .closed 11))] ∧
        t.contents 0 <:+ s.contents 0 ∧ (t.contents 0).map Parcel.item = []) ∧
      s.StaysClosed t := by
  intro s t
  have hfull : ((blank 1 1 (by decide) .wait).after packed).Reachable :=
    reachable_after (by decide) (by decide) .wait packed
  have hs : s.Reachable := hfull.reaches (reachesBy_closeAll _).reaches
  have hclosed : s.HasClosed := hasClosed_closeAll _
  have hrange : s.store.router.InRange s.store.count := (by decide +kernel : 0 < s.store.count)
  have hr : s.ReachesInRange t := by
    refine reachesBy_after s ?_
    simp [belated, Action.RoutesWithin]
  have hstays : s.StaysClosed t := ReachesInRange.staysClosed hr hs hclosed hrange
  exact ⟨⟨hs, hclosed, hr⟩, by decide +kernel, ⟨by decide +kernel, hstays.contents 0,
    by decide +kernel⟩, hstays⟩

end Line

end Conveyor
