/-
Conveyor.Proofs.Runs — runs on which some actions do not occur.

Much of what is said of a carrier holds as long as nobody does a certain thing:
sets another router, say. `ReachesBy` is `Reaches` with such a condition on the
actions. An effect does not tell which action it belongs to, so what depends on
the action itself is read off the step: only `setRouter` sets another router, and only
a call that asks for a channel gives the router its turn (`router_cases`); and only two
actions have to do with the threads that close the channels (`closers_of_step`). Closing
all of them is a run of these two.
-/
import Conveyor.Line.Schedule
import Conveyor.Proofs.Calls

namespace Conveyor.Line

variable {α : Type u} {s t u : Line α} {allowed : Action α → Prop} {i p w : Nat}

/-! ## Restricted runs -/

/-- The states that allowed actions lead to from `s`. -/
inductive ReachesBy (allowed : Action α → Prop) (s : Line α) : Line α → Prop
  | refl : ReachesBy allowed s s
  | step {t u : Line α} (a : Action α) :
      ReachesBy allowed s t → allowed a → t.step a = some u → ReachesBy allowed s u

/-- A restricted run is a run. -/
theorem ReachesBy.reaches (h : ReachesBy allowed s t) : Reaches s t := by
  induction h with
  | refl => exact .refl
  | step a _ _ hs ih => exact ih.step a hs

theorem ReachesBy.trans (h : ReachesBy allowed s t) (h' : ReachesBy allowed t u) :
    ReachesBy allowed s u := by
  induction h' with
  | refl => exact h
  | step a _ ha hs ih => exact ih.step a ha hs

/-- What allows more restricts less. -/
theorem ReachesBy.mono {allowed' : Action α → Prop} (h : ReachesBy allowed s t)
    (hall : ∀ a, allowed a → allowed' a) : ReachesBy allowed' s t := by
  induction h with
  | refl => exact .refl
  | step a _ ha hs ih => exact ih.step a (hall a ha) hs

/-- A list of actions that are all allowed. -/
theorem reachesBy_after (s : Line α) {actions : List (Action α)} (h : ∀ a ∈ actions, allowed a) :
    ReachesBy allowed s (s.after actions) := by
  induction actions generalizing s with
  | nil => exact .refl
  | cons a actions ih =>
    have hrest : ∀ b ∈ actions, allowed b := fun b hb => h b (List.mem_cons_of_mem _ hb)
    cases hs : s.step a with
    | none =>
      rw [after_cons_of_none hs]
      exact ih s hrest
    | some t =>
      rw [after_cons_of_some hs]
      exact (ReachesBy.refl.step a (h a List.mem_cons_self) hs).trans (ih t hrest)

/-! ## Routers and closing threads -/

/-- The router is the same, and has had no turn, and the threads that close the channels
are where they were. -/
structure Steady (s t : Line α) : Prop where
  router : t.store.router = s.store.router
  closers : t.closers = s.closers

theorem steady_lookUp (s : Line α) (i : Nat) (errand : Errand α) :
    s.Steady (s.lookUp i errand) := by
  cases errand with
  | write item policy => cases policy <;> exact ⟨rfl, rfl⟩
  | _ => exact ⟨rfl, rfl⟩

theorem steady_enter (s : Line α) (i p : Nat) (errand : Errand α) :
    s.Steady (s.enter i p errand) := by
  unfold enter
  split <;> exact ⟨rfl, rfl⟩

theorem steady_write (s : Line α) (i n : Nat) (policy : WhenFull) (item : α) :
    s.Steady (s.write i n policy item) := by
  unfold write
  split
  · exact ⟨rfl, rfl⟩
  · split <;> exact ⟨rfl, rfl⟩

theorem steady_count (s : Line α) (i : Nat) (c : Call α) (result : WriteResult α) :
    s.Steady (s.count i c result) := by
  unfold count
  split <;> exact ⟨rfl, rfl⟩

theorem steady_finish (s : Line α) (i : Nat) (c : Call α) (verdict : Verdict α) :
    s.Steady (s.finish i c verdict) := by
  unfold finish
  split <;> exact ⟨rfl, rfl⟩

/-- A call that goes on asks the router, or leaves it as it is. -/
theorem steady_of_advance (h : s.advance i = some t) :
    s.Steady t ∨ ∃ c policy item, s.calls[i]? = some c ∧ c.place = .informed policy ∧
      c.item? = some item ∧ t = s.route i policy item := by
  unfold advance at h
  split at h
  · cases h
  · next c hc =>
    split at h
    · cases h
      exact .inl (steady_lookUp ..)
    · cases h
      exact .inl ⟨rfl, rfl⟩
    · cases h
      exact .inl (steady_enter ..)
    · cases h
      exact .inl ⟨rfl, rfl⟩
    · cases h
      exact .inl ⟨rfl, rfl⟩
    · next policy item hp hi =>
      cases h
      exact .inr ⟨c, policy, item, hc, hp, hi, rfl⟩
    · cases h
      exact .inl (steady_write ..)
    · split at h
      · cases h
        exact .inl (steady_write ..)
      · cases h
    · cases h
      exact .inl (steady_count ..)
    · cases h
      exact .inl (steady_finish ..)
    · cases h

/-- An action that neither sets a router nor has to do with closing the channels is a call's
that asks the router, or leaves it as it is. -/
theorem steady_of_step {a : Action α} (hs : s.step a = some t) (hrouter : a.keepsRouter = true)
    (hclosing : a.isClosing = false) :
    s.Steady t ∨ ∃ i c policy item, a = .advance i ∧ s.calls[i]? = some c ∧
      c.place = .informed policy ∧ c.item? = some item ∧ t = s.route i policy item := by
  cases hcall : a.isOfCall with
  | false =>
    have hleaves := leavesCalls_of_others hcall hrouter hclosing hs
    exact .inl ⟨hleaves.router, hleaves.closers⟩
  | true =>
    cases a with
    | offer producer errand =>
      simp only [step, offer, Option.ite_none_right_eq_some, Option.some.injEq] at hs
      exact .inl (hs.2 ▸ ⟨rfl, rfl⟩)
    | advance i =>
      refine (steady_of_advance hs).imp id ?_
      rintro ⟨c, policy, item, hc, hp, hi, ht⟩
      exact ⟨i, c, policy, item, rfl, hc, hp, hi, ht⟩
    | callAway i =>
      simp only [step, callAway] at hs
      split at hs
      · cases hs
        exact .inl ⟨rfl, rfl⟩
      · cases hs
    | _ => cases hcall

/-- The router has its turn whatever it answers. -/
theorem router_route (s : Line α) (i : Nat) (policy : WhenFull) (item : α) :
    (s.route i policy item).store.router = s.store.router.advance ∧
      (s.route i policy item).closers = s.closers := by
  unfold route
  simp only
  split <;> exact ⟨rfl, rfl⟩

/-- Only a step of closing changes who is closing. -/
theorem closers_of_step {a : Action α} (hs : s.step a = some t) (ha : a.isClosing = false) :
    t.closers = s.closers := by
  cases hk : a.keepsRouter with
  | true =>
    rcases steady_of_step hs hk ha with hsteady | ⟨i, c, policy, item, -, -, -, -, rfl⟩
    · exact hsteady.closers
    · exact (router_route s i policy item).2
  | false =>
    cases a with
    | setRouter r =>
      cases hs
      rfl
    | _ => cases hk

/-- **Only `setRouter` sets another router**, and only a call that asks for a channel gives it
its turn. -/
theorem router_cases {a : Action α} (hs : s.step a = some t) (ha : a.keepsRouter = true) :
    t.store.router = s.store.router ∨ ∃ i c policy item, a = .advance i ∧
      s.calls[i]? = some c ∧ c.place = .informed policy ∧ c.item? = some item ∧
      t = s.route i policy item := by
  cases hcall : a.isOfCall with
  | false => exact .inl (router_of_others hcall ha hs)
  | true =>
    have hclosing : a.isClosing = false := by
      cases a <;> first | rfl | cases hcall
    exact (steady_of_step hs ha hclosing).imp Steady.router id

/-- A step gives the router one turn or none, unless it sets another router. -/
theorem router_of_step {a : Action α} (hs : s.step a = some t) (ha : a.keepsRouter = true) :
    t.store.router = s.store.router ∨ t.store.router = s.store.router.advance := by
  refine (router_cases hs ha).imp id ?_
  rintro ⟨i, c, policy, item, -, -, -, -, rfl⟩
  exact (router_route s i policy item).1

/-- To close the channels takes steps of closing only. -/
theorem reachesBy_closeAll (s : Line α) :
    ReachesBy (fun a : Action α => a.isClosing = true) s s.closeAll := by
  have hgo : ∀ n k (s : Line α),
      ReachesBy (fun a : Action α => a.isClosing = true) s (s.runCloser k n) := by
    intro n k
    induction n with
    | zero => exact fun s => .refl
    | succ n ih =>
      intro s
      unfold runCloser
      cases h : s.closeNext k with
      | none => exact .refl
      | some t =>
        have hstep : ReachesBy (fun a : Action α => a.isClosing = true) s t :=
          .step (.closeNext k) .refl rfl h
        exact hstep.trans (ih t)
  have hstart : ReachesBy (fun a : Action α => a.isClosing = true) s s.startClosing :=
    .step .startClosing .refl rfl rfl
  exact hstart.trans (hgo _ _ _)

end Conveyor.Line
