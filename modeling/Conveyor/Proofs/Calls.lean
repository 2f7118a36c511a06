/-
Conveyor.Proofs.Calls — one call at a time.

An effect is a turn of one call at most (`Effect.calls`). A call that is
there after an effect was there before, unless it has just been offered, and
made one turn at most (`Effect.call_before`); and no call goes away
(`Effect.call_after`).
-/
import Conveyor.Proofs.Steps

namespace Conveyor

variable {α : Type u}

/-- A call at this place has not been admitted, and may be. -/
def Place.isAsking : Place α → Bool
  | .begun | .found _ | .counted _ | .turnedAway _ => true
  | _ => false

/-- What a write came to, once it has come to something. -/
def Place.result? : Place α → Option (WriteResult α)
  | .settled result | .leaving (.answered result) | .over (.answered result) => some result
  | _ => none

theorem Place.result?_over (verdict : Verdict α) :
    (Place.over verdict).result? = (Place.leaving verdict).result? := by
  cases verdict <;> rfl

namespace Call

variable {c : Call α} {n : Nat} {policy : WhenFull}

theorem isOver_of_target (h : c.target? = some (n, policy)) : c.isOver = false := by
  cases hp : c.place <;> simp [target?, hp] at h <;> simp [isOver, hp]

theorem result?_of_target (h : c.target? = some (n, policy)) :
    c.place.result? = none := by
  cases hp : c.place <;> simp [target?, Place.result?, hp] at h ⊢

end Call

namespace Line

variable {s t : Line α} {i : Nat}

/-- What a turn of its own, in line `s`, makes of call `c` with number `i`. -/
inductive Turn (s : Line α) (i : Nat) (c : Call α) : Call α → Prop where
  | hop {place : Place α} : Hop s i c place → Turn s i c { c with place }
  | enroll {p : Nat} : c.place = .found p → Turn s i c { c with place := .counted p }
  | enter {p : Nat} {pool : Pool (Parcel α)} {place : Place α} :
      c.place = .counted p → s.pools[p]? = some pool → pool.stage = .running →
      place = .staying ∨ place = .cleared → (place = .staying ↔ c.item? = none) →
      Turn s i c { c with place, pass := some p }
  | turnBack {p : Nat} : c.place = .turnedAway p →
      Turn s i c { c with
        place := c.item?.elim (.leaving .visited) fun a => .settled (.refused .noConsumer a) }
  | route {n : Nat} {policy : WhenFull} {item : α} :
      c.place = .informed policy → c.item? = some item →
      s.store.router.route s.store.count ⟨i, item⟩ = .ok n →
      Turn s i c { c with place := .routed n policy }
  | misroute {policy : WhenFull} {item : α} {fault : Fault} :
      c.place = .informed policy → c.item? = some item →
      s.store.router.route s.store.count ⟨i, item⟩ = .error fault →
      Turn s i c { c with place := .leaving (.faulted fault) }
  | write {n : Nat} {policy : WhenFull} {item : α} {lane lane' : Lane (Parcel α)}
      {how : Acceptance} {out : Option (Parcel α)} :
      c.target? = some (n, policy) → c.item? = some item → s.store.lanes[n]? = some lane →
      lane.attempt policy ⟨i, item⟩ = .ok (.accepted how out lane') →
      Turn s i c { c with place := .settled (.accepted how) }
  | tally {result : WriteResult α} :
      c.place = .settled result → Turn s i c { c with place := .leaving (.answered result) }
  | release {verdict : Verdict α} :
      c.place = .leaving verdict → Turn s i c { c with place := .over verdict }

/-- An effect is a turn of one call at most, or adds a call, of a producer whose
calls are over. -/
theorem Effect.calls (e : Effect s t) :
    t.calls = s.calls ∨
      (∃ c : Call α, c.place = .begun ∧ c.pass = none ∧ t.calls = s.calls ++ [c] ∧
        ∀ d ∈ s.calls, d.producer = c.producer → d.isOver = true) ∨
      ∃ i c c', s.calls[i]? = some c ∧ t.calls = s.calls.set i c' ∧ Turn s i c c' := by
  cases e with
  | offer _ hone => exact .inr (.inl ⟨_, rfl, rfl, rfl, hone⟩)
  | hop hc hop => exact .inr (.inr ⟨_, _, _, hc, rfl, .hop hop⟩)
  | enroll hc hp => exact .inr (.inr ⟨_, _, _, hc, rfl, .enroll hp⟩)
  | enter hc hp hq hrun hplace hitem =>
    exact .inr (.inr ⟨_, _, _, hc, rfl, .enter hp hq hrun hplace hitem⟩)
  | turnBack hc hp => exact .inr (.inr ⟨_, _, _, hc, rfl, .turnBack hp⟩)
  | route hc hp hi hr => exact .inr (.inr ⟨_, _, _, hc, rfl, .route hp hi hr⟩)
  | misroute hc hp hi hr => exact .inr (.inr ⟨_, _, _, hc, rfl, .misroute hp hi hr⟩)
  | write hc ht hi hl ha => exact .inr (.inr ⟨_, _, _, hc, rfl, .write ht hi hl ha⟩)
  | tally hc hp => exact .inr (.inr ⟨_, _, _, hc, rfl, .tally hp⟩)
  | release hc hp => exact .inr (.inr ⟨_, _, _, hc, rfl, .release hp⟩)
  | _ => exact .inl rfl

/-- A call has just been offered, or it was there before and has made one
turn at most. -/
theorem Effect.call_before (e : Effect s t) {c' : Call α} (hc' : t.calls[i]? = some c') :
    (c'.place = .begun ∧ c'.pass = none) ∨
      ∃ c, s.calls[i]? = some c ∧ (c' = c ∨ Turn s i c c') := by
  rcases e.calls with hsame | ⟨d, hbegun, hnone, happ, -⟩ | ⟨j, c, d, hc, hset, turn⟩
  · rw [hsame] at hc'
    exact .inr ⟨c', hc', .inl rfl⟩
  · rw [happ, List.getElem?_append] at hc'
    split at hc'
    · exact .inr ⟨c', hc', .inl rfl⟩
    · obtain rfl := List.mem_singleton.mp (List.mem_of_getElem? hc')
      exact .inl ⟨hbegun, hnone⟩
  · rw [hset] at hc'
    rcases eq_of_getElem?_set hc' with ⟨rfl, rfl⟩ | ⟨-, hold⟩
    · exact .inr ⟨c, hc, .inr turn⟩
    · exact .inr ⟨c', hold, .inl rfl⟩

/-- What `Effect.call_before` says, of a step. -/
theorem call_of_step (hn : s.Named) {a : Action α} (hs : s.step a = some t) {c' : Call α}
    (hc' : t.calls[i]? = some c') :
    c'.place = .begun ∨ ∃ c, s.calls[i]? = some c ∧ (c' = c ∨ Turn s i c c') := by
  rcases calls_of_step hn hs with ⟨hsame, -⟩ | e
  · rw [hsame] at hc'
    exact .inr ⟨c', hc', .inl rfl⟩
  · exact (e.call_before hc').imp And.left id

/-- No call goes away, and each makes one turn at most. -/
theorem Effect.call_after (e : Effect s t) {c : Call α} (hc : s.calls[i]? = some c) :
    ∃ c', t.calls[i]? = some c' ∧ (c' = c ∨ Turn s i c c') := by
  have hlt := (List.getElem?_eq_some_iff.mp hc).1
  rcases e.calls with hsame | ⟨d, -, -, happ, -⟩ | ⟨j, d, d', hd, hset, turn⟩
  · exact ⟨c, hsame ▸ hc, .inl rfl⟩
  · refine ⟨c, ?_, .inl rfl⟩
    rw [happ, List.getElem?_append_left hlt]
    exact hc
  · by_cases hji : j = i
    · subst hji
      rw [hc] at hd
      cases hd
      refine ⟨d', ?_, .inr turn⟩
      rw [hset, List.getElem?_set_self hlt]
    · refine ⟨c, ?_, .inl rfl⟩
      rw [hset, List.getElem?_set_ne hji]
      exact hc

/-- Nothing is known of a call that has not begun. -/
theorem not_begun (hi : s.calls.length ≤ i) (c : Call α) : s.calls[i]? ≠ some c := by
  intro hc
  rw [List.getElem?_eq_none hi] at hc
  cases hc

namespace Turn

variable {c c' : Call α}

theorem errand (turn : Turn s i c c') : c'.errand = c.errand := by
  cases turn <;> rfl

theorem producer (turn : Turn s i c c') : c'.producer = c.producer := by
  cases turn <;> rfl

/-- A call that is over makes no turn. -/
theorem isOver_eq_false (turn : Turn s i c c') : c.isOver = false := by
  cases turn with
  | hop hop =>
    cases hop with
    | refuse ht | wait ht | stray ht | fail ht => exact Call.isOver_of_target ht
    | find hp | skip hp | start hp | insist hp | visit hp | turnAway hp | ask hp | callAway hp
    | finish hp => rw [Call.isOver, hp]
  | write ht => exact Call.isOver_of_target ht
  | enroll hp | enter hp | turnBack hp | route hp | misroute hp | tally hp | release hp =>
    rw [Call.isOver, hp]

/-- A call that has not been admitted after its turn had not been before. -/
theorem isAsking (turn : Turn s i c c') (h : c'.place.isAsking = true) :
    c.place.isAsking = true ∧ c'.pass = c.pass := by
  cases turn with
  | hop hop =>
    refine ⟨?_, rfl⟩
    cases hop with
    | find hp | visit hp | turnAway hp =>
      rw [hp]
      rfl
    | _ => cases h
  | enroll hp =>
    rw [hp]
    exact ⟨rfl, rfl⟩
  | enter _ _ _ hplace => rcases hplace with rfl | rfl <;> cases h
  | turnBack hp =>
    rw [hp]
    exact ⟨rfl, rfl⟩
  | route | misroute | write | tally | release => cases h

/-- A call keeps its pass, or gets one from a running pool. -/
theorem pass (turn : Turn s i c c') :
    c'.pass = c.pass ∨ ∃ p pool, c'.pass = some p ∧ s.pools[p]? = some pool ∧
      pool.stage = .running := by
  cases turn with
  | enter _ hq hrun => exact .inr ⟨_, _, rfl, hq, hrun⟩
  | _ => exact .inl rfl

/-- A closed pool admits nobody. -/
theorem pass_of_closed (turn : Turn s i c c') {p : Nat} {pool : Pool (Parcel α)}
    (hp : s.pools[p]? = some pool) (hclosed : pool.stage = .closed) (hpass : c'.pass = some p) :
    c.pass = some p := by
  rcases turn.pass with hsame | ⟨q, old, hq, hold, hrun⟩
  · exact hsame.symm.trans hpass
  · rw [hpass] at hq
    cases hq
    rw [hp] at hold
    cases hold
    rw [hclosed] at hrun
    cases hrun

end Turn

end Line

end Conveyor
