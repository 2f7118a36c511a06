/-
Conveyor.Proofs.Routes — how calls come to their channels.

The router gives each call its channel, once; a call looks at no other, and writes
to no other (`Directed`). What the router answers is a channel of the line. So as
long as only routers in range are set, no call meets a fault on its way
(`InRange.route`, `inRange_of_step`).
-/
import Conveyor.Proofs.Lanes
import Conveyor.Proofs.Pools
import Conveyor.Proofs.Runs

namespace Conveyor

variable {α : Type u}

/-! ## Routers -/

namespace Router

variable {total n : Nat} {a : α}

/-- A router that goes by a digest answers with its remainder. -/
theorem eq_of_route_keyed {digest : α → UInt64}
    (h : (Router.keyed digest).route total a = .ok n) : n = (digest a).toNat % total := by
  obtain ⟨index, hpick, hroute⟩ := bind_eq_ok.mp h
  simp only [pick, remainder] at hpick
  split at hpick
  · cases hpick
  · cases hpick
    split at hroute
    · cases hroute
      rfl
    · cases hroute

/-- Whatever is asked of the router, now or later, its answer is one of `total`
channels. -/
def InRange (total : Nat) : Router α → Prop
  | rolling _ | keyed _ => 0 < total
  | custom pick turn => ∀ later a, turn ≤ later → pick later total a < total

theorem InRange.advance {r : Router α} (h : r.InRange total) : r.advance.InRange total := by
  cases r with
  | rolling | keyed => exact h
  | custom pick turn => exact fun later a hle => h later a (Nat.le_of_succ_le hle)

theorem exists_remainder (w : UInt64) (h : 0 < total) :
    ∃ n, remainder w total = .ok n ∧ n < total :=
  ⟨w.toNat % total, if_neg (Nat.ne_of_gt h), Nat.mod_lt _ h⟩

/-- A router in range has an answer. -/
theorem InRange.route {r : Router α} (h : r.InRange total) (a : α) :
    ∃ n, r.route total a = .ok n := by
  have answer : ∃ n, r.pick total a = .ok n ∧ n < total := by
    cases r with
    | rolling next => exact exists_remainder next h
    | keyed digest => exact exists_remainder (digest a) h
    | custom pick turn => exact ⟨_, rfl, h turn a (Nat.le_refl _)⟩
  obtain ⟨n, hpick, hlt⟩ := answer
  refine ⟨n, ?_⟩
  rw [Router.route, hpick]
  exact if_pos hlt

end Router

/-- Whether a router that the action sets is in range. -/
def Action.RoutesWithin (total : Nat) : Action α → Prop
  | .setRouter r => r.InRange total
  | _ => True

namespace Line

variable {s t : Line α} {i : Nat}

/-! ## The row of channels -/

/-- The channels stay as many as they are. -/
theorem Effect.count (e : Effect s t) : t.store.count = s.store.count := by
  cases e with
  | write | closeLane | drain | sweep => exact count_setLane ..
  | _ => rfl

theorem Reaches.count (hr : Reaches s t) (h : s.Reachable) : t.store.count = s.store.count :=
  hr.induction (P := fun u => u.store.count = s.store.count) h rfl fun _ _ hu e => e.count.trans hu

/-! ## The way to a channel -/

/-- A call looks at a channel, or has written to one, that the router gave it. -/
structure Directed (s : Line α) : Prop where
  target : ∀ (i : Nat) (c : Call α) n policy, s.calls[i]? = some c →
    c.target? = some (n, policy) → (i, n) ∈ s.routed
  written : ∀ x ∈ s.written, (x.2.call, x.1) ∈ s.routed

/-- Only the call that comes to another place may look at another channel. -/
theorem Directed.target_set (h : s.Directed) {j : Nat} {c' : Call α}
    {routed : List (Nat × Nat)} (hrouted : ∀ x ∈ s.routed, x ∈ routed)
    (hnew : ∀ n policy, c'.target? = some (n, policy) → (j, n) ∈ routed) :
    ∀ (i : Nat) (c : Call α) n policy, (s.calls.set j c')[i]? = some c →
      c.target? = some (n, policy) → (i, n) ∈ routed := by
  intro i c n policy hc ht
  rcases eq_of_getElem?_set hc with ⟨rfl, rfl⟩ | ⟨-, hold⟩
  · exact hnew n policy ht
  · exact hrouted _ (h.target i c n policy hold ht)

theorem Hop.target {c : Call α} {place : Place α} (hop : Hop s i c place) {n : Nat}
    {policy : WhenFull} (ht : ({ c with place } : Call α).target? = some (n, policy)) :
    ∃ policy', c.target? = some (n, policy') := by
  cases hop with
  | wait hold =>
    cases ht
    exact ⟨_, hold⟩
  | _ => cases ht

theorem Effect.directed (e : Effect s t) (h : s.Directed) : t.Directed := by
  have keep : ∀ x ∈ s.routed, x ∈ s.routed := fun _ hx => hx
  cases e with
  | offer =>
    refine ⟨?_, h.written⟩
    intro i c n policy hc ht
    rw [List.getElem?_append] at hc
    split at hc
    · exact h.target i c n policy hc ht
    · obtain rfl := List.mem_singleton.mp (List.mem_of_getElem? hc)
      cases ht
  | hop hc hop =>
    refine ⟨h.target_set keep ?_, h.written⟩
    intro n policy ht
    obtain ⟨policy', hold⟩ := hop.target ht
    exact h.target _ _ n policy' hc hold
  | enter _ _ _ _ hplace =>
    refine ⟨h.target_set keep ?_, h.written⟩
    rcases hplace with rfl | rfl <;> exact fun _ _ ht => nomatch ht
  | @turnBack _ _ c _ _ _ =>
    refine ⟨h.target_set keep ?_, h.written⟩
    intro n policy ht
    cases hi : c.item? <;> rw [hi] at ht <;> cases ht
  | enroll | misroute | tally | release =>
    exact ⟨h.target_set keep fun _ _ ht => (nomatch ht), h.written⟩
  | @route i m =>
    have more : ∀ x ∈ s.routed, x ∈ s.routed ++ [(i, m)] := fun _ hx => List.mem_append_left _ hx
    refine ⟨h.target_set more ?_, fun x hx => more _ (h.written x hx)⟩
    intro n policy ht
    cases ht
    exact List.mem_append_right _ (List.mem_singleton_self _)
  | write hc ht =>
    refine ⟨h.target_set keep fun _ _ ht => (nomatch ht), ?_⟩
    intro x hx
    rcases List.mem_append.mp hx with hold | hnew
    · exact h.written x hold
    · obtain rfl := List.mem_singleton.mp hnew
      exact h.target _ _ _ _ hc ht
  | _ => exact ⟨h.target, h.written⟩

theorem Reachable.directed (h : s.Reachable) : s.Directed := by
  refine h.induction ?_ fun _ _ hu e => e.directed hu
  rintro start ⟨_, _, _, _, store, _, rfl⟩
  exact ⟨fun i c n policy hc => by simp [ofStore] at hc, fun x hx => by simp [ofStore] at hx⟩

/-- What the router has answered are channels. -/
theorem Effect.routed_lt (e : Effect s t) (h : ∀ x ∈ s.routed, x.2 < s.store.count) :
    ∀ x ∈ t.routed, x.2 < t.store.count := by
  rw [e.count]
  cases e with
  | route _ _ _ hr =>
    intro x hx
    rcases List.mem_append.mp hx with hold | hnew
    · exact h x hold
    · obtain rfl := List.mem_singleton.mp hnew
      exact Router.lt_of_route_eq_ok hr
  | _ => exact h

/-- A call looks at channels that are there. -/
theorem Reachable.target_lt (h : s.Reachable) {c : Call α} {n : Nat} {policy : WhenFull}
    (hc : s.calls[i]? = some c) (ht : c.target? = some (n, policy)) : n < s.store.count := by
  have hall : ∀ x ∈ s.routed, x.2 < s.store.count := by
    refine h.induction (P := fun u => ∀ x ∈ u.routed, x.2 < u.store.count) ?_
      fun _ _ hu e => e.routed_lt hu
    rintro start ⟨_, _, _, _, store, _, rfl⟩ x hx
    simp [ofStore] at hx
  exact hall _ (h.directed.target i c n policy hc ht)

/-- Unless one out of range is set, a router in range is followed by others. -/
theorem inRange_of_step (h : s.Reachable) {a : Action α} (hs : s.step a = some t)
    (ha : a.RoutesWithin s.store.count) (hr : s.store.router.InRange s.store.count) :
    t.store.router.InRange t.store.count := by
  rw [Reaches.count (.step a .refl hs) h]
  cases hk : a.keepsRouter with
  | true =>
    rcases router_of_step hs hk with he | he
    · exact he ▸ hr
    · exact he ▸ hr.advance
  | false =>
    cases a with
    | setRouter r =>
      cases hs
      exact ha
    | _ => cases hk

end Line

end Conveyor
