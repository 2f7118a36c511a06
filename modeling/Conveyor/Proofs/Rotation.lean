/-
Conveyor.Proofs.Rotation — round robin goes by attempts.

A rolling router counts its turns, and has one for each call that comes as far as the
channels. `Line.routerTurns` are its turns in a run: who asked, and which channel that
call looks at next. The turn is taken when the call asks, so what becomes of the call
afterwards, and what anyone else does to the channels, does not matter: turn `k` goes to
channel `k`, counted around the circle (`Line.Reachable.channel_of_turn`), and of any turns
that follow each other each channel has its share (`countP_mod_eq`).

Who has asked can be told from where the calls are (`Line.Reachable.hasAsked_after`): a call
that no pool let in has not. It asks once (`Line.Reachable.nodup_routerTurns`), and writes
to the channel it was given, or to none (`TurnsBetween.written`).
-/
import Conveyor.Proofs.Faultless
import Conveyor.Proofs.Refused

namespace Conveyor

variable {α : Type u}

/-- A turn of the router: the call that asked, and the channel that it looks at next, if it
was given one. -/
structure RouterTurn where
  call : Nat
  channel? : Option Nat
  deriving DecidableEq, Repr

/-! ## Counting around the circle -/

/-- Of `m` numbers in a row, as many as nearly make the same share have remainder `r`. -/
theorem countP_mod_eq (first m : Nat) {total r : Nat} (hr : r < total) :
    let hits := (List.range m).countP fun k => (first + k) % total = r
    hits = m / total ∨ hits = (m + total - 1) / total := by
  have htotal : 0 < total := Nat.zero_lt_of_lt hr
  -- The first of them that is hit stands at `v`, up to whole rounds.
  let v := r + (total - first % total)
  have hv : (first + v) % total = r := by
    have hround : first + v = r + total * (first / total + 1) := by
      have hdiv := Nat.div_add_mod first total
      have hlt := Nat.mod_lt first htotal
      rw [Nat.mul_add, Nat.mul_one]
      omega
    rw [hround, Nat.add_mul_mod_self_left, Nat.mod_eq_of_lt hr]
  have hsame : ∀ k, (first + k) % total = r ↔ k % total = v % total := fun k => by
    rw [← hv]
    exact ⟨Nat.ModEq.add_left_cancel' first, Nat.ModEq.add_left first⟩
  have hcount : ((List.range m).countP fun k => (first + k) % total = r) =
      m / total + if v % total < m % total then 1 else 0 := by
    rw [← countP_range_mod m (Nat.mod_lt v htotal)]
    exact List.countP_congr fun k _ => by simp only [decide_eq_true_eq, hsame k]
  simp only [hcount]
  split
  · next hlt =>
    right
    have hdiv := Nat.div_add_mod m total
    refine (Nat.div_eq_of_lt_le ?_ ?_).symm
    · rw [Nat.add_mul, Nat.one_mul, Nat.mul_comm]
      omega
    · have hmod := Nat.mod_lt m htotal
      rw [Nat.add_mul, Nat.add_mul, Nat.one_mul, Nat.mul_comm]
      omega
  · exact .inl rfl

theorem Router.route_rolling (next : UInt64) {total : Nat} (h : 0 < total) (a : α) :
    (Router.rolling next).route total a = .ok (next.toNat % total) := by
  have hpick : (Router.rolling next).pick total a = .ok (next.toNat % total) :=
    if_neg (Nat.ne_of_gt h)
  rw [route, hpick]
  exact if_pos (Nat.mod_lt _ h)

/-- Who was handed its item back because no pool runs has not come to the router. -/
theorem Place.hasAsked_of_noConsumer {place : Place α} {item : α}
    (h : place.result? = some (.refused .noConsumer item)) : place.hasAsked = false := by
  unfold result? at h
  split at h <;> cases h <;> rfl

/-- Whether the call is about to ask the router. -/
def Call.isInformed (c : Call α) : Bool :=
  match c.place with
  | .informed _ => c.item?.isSome
  | _ => false

theorem Call.isInformed_iff {c : Call α} : c.isInformed = true ↔
    ∃ policy item, c.place = .informed policy ∧ c.item? = some item := by
  unfold isInformed
  split
  · next policy hp =>
    rw [Option.isSome_iff_exists]
    exact ⟨fun ⟨item, hi⟩ => ⟨policy, item, hp, hi⟩, fun ⟨_, item, _, hi⟩ => ⟨item, hi⟩⟩
  · next hno => exact ⟨fun h => (nomatch h), fun ⟨policy, _, hp, _⟩ => absurd hp (hno policy)⟩

namespace Line

variable {s t : Line α} {a : Action α} {i : Nat} {c c' : Call α} {next : UInt64}

/-! ## Who asks the router -/

/-- The call that asks the router by this action, if one does. -/
def asker? (s : Line α) : Action α → Option Nat
  | .advance i => if s.calls[i]?.any Call.isInformed then some i else none
  | _ => none

/-- The channel that call `i` looks at next, if it has been given one. -/
def channel? (s : Line α) (i : Nat) : Option Nat := (s.calls[i]?.bind Call.target?).map Prod.fst

/-- The turn that the router has had in a step from `s` to `t`, if it has had one. -/
def turn? (s : Line α) (a : Action α) (t : Line α) : Option RouterTurn :=
  (s.asker? a).map fun i => ⟨i, t.channel? i⟩

/-- The turns of the router in a run. -/
def routerTurns (s : Line α) (actions : List (Action α)) : List RouterTurn := trace turn? s actions

/-- Whether call `i` has asked for a channel. -/
def hasAsked (s : Line α) (i : Nat) : Bool := s.calls[i]?.any fun c => c.place.hasAsked

theorem asker?_eq_some : s.asker? a = some i ↔ a = .advance i ∧ ∃ c policy item,
    s.calls[i]? = some c ∧ c.place = .informed policy ∧ c.item? = some item := by
  cases a with
  | advance j =>
    simp only [asker?, Option.ite_none_right_eq_some, Option.any_eq_true, Call.isInformed_iff]
    constructor
    · rintro ⟨⟨c, hc, policy, item, hp, hi⟩, hj⟩
      cases hj
      exact ⟨rfl, c, policy, item, hc, hp, hi⟩
    · rintro ⟨hj, c, policy, item, hc, hp, hi⟩
      cases hj
      exact ⟨⟨c, hc, policy, item, hp, hi⟩, rfl⟩
  | _ => simp [asker?]

/-- Whoever asks the router asks for a channel for its item, and does nothing else. -/
theorem eq_route_of_asker (hs : s.step a = some t) (hi : s.asker? a = some i) :
    ∃ c policy item, s.calls[i]? = some c ∧ c.place = .informed policy ∧
      c.item? = some item ∧ t = s.route i policy item := by
  obtain ⟨rfl, c, policy, item, hc, hp, hitem⟩ := asker?_eq_some.mp hi
  refine ⟨c, policy, item, hc, hp, hitem, ?_⟩
  simp only [step, advance, hc, hp, hitem] at hs
  exact (Option.some.inj hs).symm

/-- If nobody asks the router, it has no turn. -/
theorem router_of_asker_none (hs : s.step a = some t) (ha : a.keepsRouter = true)
    (hnone : s.asker? a = none) : t.store.router = s.store.router := by
  rcases router_cases hs ha with hsame | ⟨i, c, policy, item, rfl, hc, hp, hi, -⟩
  · exact hsame
  · rw [asker?_eq_some.mpr ⟨rfl, c, policy, item, hc, hp, hi⟩] at hnone
    cases hnone

/-- A call has asked the router when it is given a channel, or breaks off because there is
none. -/
theorem Turn.hasAsked (turn : Turn s i c c') : c'.place.hasAsked = c.place.hasAsked ∨
    c'.place.hasAsked = true ∧ ∃ policy item, c.place = .informed policy ∧ c.item? = some item := by
  cases turn with
  | hop hop => exact .inl hop.hasAsked
  | enroll hp =>
    rw [hp]
    exact .inl rfl
  | enter hp _ _ hplace =>
    rw [hp]
    rcases hplace with rfl | rfl <;> exact .inl rfl
  | turnBack hp =>
    rw [hp]
    exact .inl (Place.of_turnBack c.item?).1
  | route hp hi | misroute hp hi => exact .inr ⟨rfl, _, _, hp, hi⟩
  | write ht => exact .inl (Call.hasAsked_of_target ht).symm
  | tally hp =>
    rw [hp]
    exact .inl rfl
  | release hp =>
    rw [hp]
    exact .inl (Place.hasAsked_over _)

/-- Who asks the router has not done so before, and has when it is given its answer. -/
theorem hasAsked_of_asker (hs : s.step a = some t) (hi : s.asker? a = some i) :
    s.hasAsked i = false ∧ t.hasAsked i = true := by
  obtain ⟨c, policy, item, hc, hp, -, rfl⟩ := eq_route_of_asker hs hi
  refine ⟨by simp [hasAsked, hc, hp, Place.hasAsked], ?_⟩
  have hlt := (List.getElem?_eq_some_iff.mp hc).1
  unfold route
  simp only
  split <;> simp [hasAsked, moveCall, mapCall, hc, Place.hasAsked]

/-- A step that is not the asking of a call leaves it to have asked, or not. -/
theorem Reachable.hasAsked_of_not_asker (h : s.Reachable) (hs : s.step a = some t)
    (hi : s.asker? a ≠ some i) : t.hasAsked i = s.hasAsked i := by
  cases hc : s.calls[i]? with
  | none =>
    cases hc' : t.calls[i]? with
    | none => rw [hasAsked, hasAsked, hc, hc']
    | some c' =>
      rcases call_of_step h.named hs hc' with hbegun | ⟨c, hold, -⟩
      · simp [hasAsked, hc, hc', hbegun, Place.hasAsked]
      · cases hc.symm.trans hold
  | some c =>
    rcases calls_of_step h.named hs with ⟨hsame, -⟩ | e
    · rw [hasAsked, hasAsked, hsame]
    obtain ⟨c', hc', hturn⟩ := e.call_after hc
    have hplace : c'.place.hasAsked = c.place.hasAsked := by
      rcases hturn with rfl | turn
      · rfl
      rcases turn.hasAsked with hsame | ⟨-, policy, item, hp, hitem⟩
      · exact hsame
      · -- The call is about to ask, so it has made no step.
        have ha : a ≠ .advance i := fun ha =>
          hi (asker?_eq_some.mpr ⟨ha, c, policy, item, hc, hp, hitem⟩)
        have hstill := h.call_of_other hs ha hc hitem
        rw [hc', Option.some.injEq] at hstill
        rw [hstill]
    simp [hasAsked, hc, hc', hplace]

/-- Who has asked after a step has asked by it, or had asked before. -/
theorem Reachable.hasAsked_of_step (h : s.Reachable) (hs : s.step a = some t) (i : Nat) :
    t.hasAsked i = (s.hasAsked i || s.asker? a = some i) := by
  by_cases hi : s.asker? a = some i
  · simp [hasAsked_of_asker hs hi, hi]
  · simp [h.hasAsked_of_not_asker hs hi, hi]

/-! ## The turns of a run -/

variable {actions : List (Action α)} {turn : RouterTurn}

theorem routerTurns_of_none (hs : s.step a = none) (rest : List (Action α)) :
    s.routerTurns (a :: rest) = s.routerTurns rest :=
  trace_cons_of_none turn? hs rest

theorem routerTurns_of_idle (hs : s.step a = some t) (hasker : s.asker? a = none)
    (rest : List (Action α)) : s.routerTurns (a :: rest) = t.routerTurns rest := by
  rw [routerTurns, trace_cons_of_some turn? hs, turn?, hasker]
  rfl

theorem routerTurns_of_asker (hs : s.step a = some t) (hasker : s.asker? a = some i)
    (rest : List (Action α)) :
    s.routerTurns (a :: rest) = ⟨i, t.channel? i⟩ :: t.routerTurns rest := by
  rw [routerTurns, trace_cons_of_some turn? hs, turn?, hasker]
  rfl

/-- The callers of the turns of a run are those who have come to ask in it. -/
theorem Reachable.hasAsked_after (h : s.Reachable) (actions : List (Action α)) (i : Nat) :
    (s.after actions).hasAsked i =
      (s.hasAsked i || i ∈ (s.routerTurns actions).map RouterTurn.call) := by
  induction actions generalizing s with
  | nil => simp [after, routerTurns, trace]
  | cons a rest ih =>
    cases hs : s.step a with
    | none =>
      rw [after_cons_of_none hs, routerTurns_of_none hs]
      exact ih h
    | some t =>
      rw [after_cons_of_some hs, ih (h.reaches (.step a .refl hs)), h.hasAsked_of_step hs i]
      cases hasker : s.asker? a with
      | none => simp [routerTurns_of_idle hs hasker]
      | some j => simp [routerTurns_of_asker hs hasker, eq_comm, Bool.or_assoc]

/-- Nobody asks who has asked before. -/
theorem Reachable.hasAsked_of_turn (h : s.Reachable)
    (hi : i ∈ (s.routerTurns actions).map RouterTurn.call) : s.hasAsked i = false := by
  induction actions generalizing s with
  | nil => simp [routerTurns, trace] at hi
  | cons a rest ih =>
    cases hs : s.step a with
    | none =>
      rw [routerTurns_of_none hs] at hi
      exact ih h hi
    | some t =>
      have hlater : i ∈ (t.routerTurns rest).map RouterTurn.call → s.hasAsked i = false := by
        intro hmem
        have hnot := ih (h.reaches (.step a .refl hs)) hmem
        rw [h.hasAsked_of_step hs, Bool.or_eq_false_iff] at hnot
        exact hnot.1
      cases hasker : s.asker? a with
      | none => exact hlater (routerTurns_of_idle hs hasker rest ▸ hi)
      | some j =>
        rw [routerTurns_of_asker hs hasker, List.map_cons, List.mem_cons] at hi
        rcases hi with rfl | hmem
        · exact (hasAsked_of_asker hs hasker).1
        · exact hlater hmem

/-- No call asks twice. -/
theorem Reachable.nodup_routerTurns (h : s.Reachable) (actions : List (Action α)) :
    ((s.routerTurns actions).map RouterTurn.call).Nodup := by
  induction actions generalizing s with
  | nil => exact List.nodup_nil
  | cons a rest ih =>
    cases hs : s.step a with
    | none =>
      rw [routerTurns_of_none hs]
      exact ih h
    | some t =>
      have ht : t.Reachable := h.reaches (.step a .refl hs)
      cases hasker : s.asker? a with
      | none =>
        rw [routerTurns_of_idle hs hasker]
        exact ih ht
      | some i =>
        rw [routerTurns_of_asker hs hasker, List.map_cons, List.nodup_cons]
        refine ⟨fun hmem => ?_, ih ht⟩
        have hnot := ht.hasAsked_of_turn hmem
        rw [(hasAsked_of_asker hs hasker).2] at hnot
        cases hnot

/-! ## Where the calls write that have asked -/

/-- The router has given a channel once at most to each call, and only to calls that have
asked. -/
structure RoutedOnce (s : Line α) : Prop where
  nodup : (s.routed.map Prod.fst).Nodup
  asked : ∀ x ∈ s.routed, s.hasAsked x.1 = true

/-- Who has asked will always have asked. -/
theorem Effect.hasAsked (e : Effect s t) (h : s.hasAsked i = true) : t.hasAsked i = true := by
  obtain ⟨c, hc, hasked⟩ := (Option.any_eq_true _ _).mp h
  obtain ⟨c', hc', rfl | turn⟩ := e.call_after hc
  · exact (Option.any_eq_true _ _).mpr ⟨c', hc', hasked⟩
  · refine (Option.any_eq_true _ _).mpr ⟨c', hc', ?_⟩
    rcases turn.hasAsked with hsame | ⟨hasked', -⟩
    · exact hsame.trans hasked
    · exact hasked'

theorem Effect.routedOnce (e : Effect s t) (h : s.RoutedOnce) : t.RoutedOnce := by
  have keep : ∀ x ∈ s.routed, t.hasAsked x.1 = true := fun x hx => e.hasAsked (h.asked x hx)
  cases e with
  | @route i n c _ _ hc hp =>
    have hnot : s.hasAsked i = false := by simp [Line.hasAsked, hc, hp, Place.hasAsked]
    constructor
    · have hnew : i ∉ s.routed.map Prod.fst := by
        intro hmem
        obtain ⟨x, hx, rfl⟩ := List.mem_map.mp hmem
        rw [h.asked x hx] at hnot
        cases hnot
      rw [List.map_append, List.nodup_append]
      exact ⟨h.nodup, List.nodup_singleton _, fun j hj k hk hjk => by simp_all⟩
    · intro x hx
      rcases List.mem_append.mp hx with hold | hnew
      · exact keep x hold
      · obtain rfl := List.mem_singleton.mp hnew
        have hlt := (List.getElem?_eq_some_iff.mp hc).1
        simp [Line.hasAsked, List.getElem?_set_self hlt, Place.hasAsked]
  | _ => exact ⟨h.nodup, keep⟩

theorem Reachable.routedOnce (h : s.Reachable) : s.RoutedOnce := by
  refine h.induction ?_ fun _ _ hu e => e.routedOnce hu
  rintro start ⟨_, _, _, _, store, _, rfl⟩
  exact ⟨List.nodup_nil, fun x hx => by simp [ofStore] at hx⟩

/-- A channel that a turn has given is one that the router has given. -/
theorem Reachable.routed_of_turn (h : s.Reachable) (hturn : turn ∈ s.routerTurns actions) {n : Nat}
    (hn : turn.channel? = some n) : (turn.call, n) ∈ (s.after actions).routed := by
  induction actions generalizing s with
  | nil => simp [routerTurns, trace] at hturn
  | cons a rest ih =>
    cases hs : s.step a with
    | none =>
      rw [after_cons_of_none hs]
      rw [routerTurns_of_none hs] at hturn
      exact ih h hturn
    | some t =>
      have ht : t.Reachable := h.reaches (.step a .refl hs)
      rw [after_cons_of_some hs]
      cases hasker : s.asker? a with
      | none => exact ih ht (routerTurns_of_idle hs hasker rest ▸ hturn)
      | some i =>
        rw [routerTurns_of_asker hs hasker, List.mem_cons] at hturn
        rcases hturn with rfl | hlater
        · obtain ⟨⟨m, policy⟩, htarget, rfl⟩ := Option.map_eq_some_iff.mp hn
          obtain ⟨c, hc, ht'⟩ := Option.bind_eq_some_iff.mp htarget
          have hnow := ht.directed.target i c m policy hc ht'
          exact (reaches_after t rest).induction (P := fun u => (i, m) ∈ u.routed) ht hnow
            fun _ _ hu e => e.routed_prefix.subset hu
        · exact ih ht hlater

/-! ## Round and round -/

theorem channel?_route (hrouter : s.store.router = .rolling next) (hcount : 0 < s.store.count)
    (hc : s.calls[i]? = some c) (policy : WhenFull) (item : α) :
    (s.route i policy item).channel? i = some (next.toNat % s.store.count) := by
  have hroute : s.store.router.route s.store.count ⟨i, item⟩ =
      .ok (next.toNat % s.store.count) := by rw [hrouter, Router.route_rolling next hcount]
  simp [route, LaneSet.route, hroute, channel?, moveCall, mapCall, hc, Call.target?]

/-- The router of a run goes round, whatever happens to those who ask. -/
theorem Reachable.channel_of_turn (h : s.Reachable) (hcount : 0 < s.store.count)
    (hrouter : s.store.router = .rolling next) (hkeep : ∀ a ∈ actions, a.keepsRouter = true)
    {k : Nat} (hturn : (s.routerTurns actions)[k]? = some turn) :
    turn.channel? = some ((next.toNat + k) % UInt64.size % s.store.count) := by
  induction actions generalizing s next k with
  | nil => simp [routerTurns, trace] at hturn
  | cons a rest ih =>
    have hrest : ∀ b ∈ rest, b.keepsRouter = true := fun b hb => hkeep b (List.mem_cons_of_mem _ hb)
    cases hs : s.step a with
    | none =>
      rw [routerTurns_of_none hs] at hturn
      exact ih h hcount hrouter hrest hturn
    | some t =>
      have ht : t.Reachable := h.reaches (.step a .refl hs)
      have hsame : t.store.count = s.store.count := Reaches.count (.step a .refl hs) h
      cases hasker : s.asker? a with
      | none =>
        rw [routerTurns_of_idle hs hasker] at hturn
        rw [← router_of_asker_none hs (hkeep a List.mem_cons_self) hasker] at hrouter
        exact hsame ▸ ih ht (hsame ▸ hcount) hrouter hrest hturn
      | some i =>
        rw [routerTurns_of_asker hs hasker] at hturn
        obtain ⟨c, policy, item, hc, -, -, rfl⟩ := eq_route_of_asker hs hasker
        cases k with
        | zero =>
          cases hturn
          rw [channel?_route hrouter hcount hc, Nat.add_zero, Nat.mod_eq_of_lt next.toNat_lt_size]
        | succ k =>
          have hnext : (s.route i policy item).store.router = .rolling (next + 1) := by
            rw [(router_route s i policy item).1, hrouter, Router.advance]
          have hturns : (next + 1).toNat + k = (next.toNat + 1) % UInt64.size + k := rfl
          rw [ih ht (hsame ▸ hcount) hnext hrest hturn, hturns, hsame, Nat.mod_add_mod,
            Nat.add_right_comm, Nat.add_assoc]

end Line

/-! ## The whole of it -/

/-- The turns of a rolling router over `total` channels that has counted to `next` before. -/
structure GoesRound (next total : Nat) (turns : List RouterTurn) : Prop where
  /-- Turn `k` goes to channel `k`, counted around the circle. -/
  channel : ∀ k turn, next + k < UInt64.size → turns[k]? = some turn →
    turn.channel? = some ((next + k) % total)
  /-- Of any turns that follow each other, each channel has as many as nearly make the same
  share. -/
  balanced : ∀ first m c, first + m ≤ turns.length → next + first + m ≤ UInt64.size → c < total →
    let hits := ((turns.drop first).take m).countP fun turn => turn.channel? = some c
    hits = m / total ∨ hits = (m + total - 1) / total

/-- The turns that the router has had between `s` and `t`. -/
structure TurnsBetween (s t : Line α) (turns : List RouterTurn) : Prop where
  /-- A call has one turn at most, -/
  once : (turns.map RouterTurn.call).Nodup
  /-- and has had it by the end if it has come as far as a channel, whether it was accepted
  there or refused, or still waits. -/
  asked : ∀ i, t.hasAsked i = (s.hasAsked i || i ∈ turns.map RouterTurn.call)
  /-- A call that no pool let in has none. -/
  notLetIn : ∀ i c item, t.calls[i]? = some c →
    c.place.result? = some (.refused .noConsumer item) → i ∉ turns.map RouterTurn.call
  /-- What a call has written went where its turn sent it. -/
  written : ∀ turn ∈ turns, ∀ n, turn.channel? = some n → ∀ x ∈ t.written,
    x.2.call = turn.call → x.1 = n

theorem goesRound_of_channel {next total : Nat} {turns : List RouterTurn}
    (h : ∀ k turn, next + k < UInt64.size → turns[k]? = some turn →
      turn.channel? = some ((next + k) % total)) : GoesRound next total turns where
  channel := h
  balanced first m c hlength hnext hc := by
    have hwindow : ((turns.drop first).take m).map RouterTurn.channel? =
        (List.range m).map fun k => some ((next + first + k) % total) := by
      apply List.ext_getElem?
      intro k
      by_cases hk : k < m
      · have hlt : first + k < turns.length := by omega
        have hturn : turns[first + k]? = some turns[first + k] := List.getElem?_eq_getElem hlt
        have hchannel := h (first + k) _ (by omega) hturn
        simp [List.getElem?_take_of_lt hk, hk, hturn, hchannel, Nat.add_assoc]
      · simp [hk]
    have hcount := congrArg (List.countP fun channel => channel = some c) hwindow
    rw [List.countP_map, List.countP_map] at hcount
    have hhits := countP_mod_eq (next + first) m hc
    simp only [Function.comp_def, Option.some.injEq] at hcount
    rw [← hcount] at hhits
    exact hhits

theorem Line.Reachable.turnsBetween {s : Line α} (h : s.Reachable) (actions : List (Action α)) :
    TurnsBetween s (s.after actions) (s.routerTurns actions) where
  once := h.nodup_routerTurns actions
  asked := h.hasAsked_after actions
  notLetIn i c item hc hresult hmem := by
    have hasked := h.hasAsked_after actions i
    have hnot : (s.after actions).hasAsked i = false := by
      rw [hasAsked, hc, Option.any_some, Place.hasAsked_of_noConsumer hresult]
    simp [hnot, hmem] at hasked
  written turn hturn n hn x hx hcall := by
    have ht := h.reaches (reaches_after s actions)
    have hgiven := h.routed_of_turn hturn hn
    have hwritten := ht.directed.written x hx
    rw [hcall] at hwritten
    exact congrArg Prod.snd (List.inj_on_of_nodup_map ht.routedOnce.nodup hwritten hgiven rfl)

/-- **Round robin goes by attempts, and is balanced.** As long as nobody sets another router,
a rolling one that has counted to `next` gives its turns one after the other around the
circle of the channels, one to each call that comes as far as the channels, whatever comes
of it; a call that no pool let in has none. So of any turns that follow each other each
channel has its share, rounded up or down. -/
theorem round_robin_by_attempt {s : Line α} (h : s.Reachable) (hcount : 0 < s.store.count)
    {next : UInt64} (hrouter : s.store.router = .rolling next) (actions : List (Action α))
    (hkeep : ∀ a ∈ actions, a.keepsRouter = true) :
    TurnsBetween s (s.after actions) (s.routerTurns actions) ∧
      GoesRound next.toNat s.store.count (s.routerTurns actions) := by
  refine ⟨h.turnsBetween actions, goesRound_of_channel fun k turn hk hturn => ?_⟩
  rw [h.channel_of_turn hcount hrouter hkeep hturn, Nat.mod_eq_of_lt hk]

/-- On two channels of one slot: two writes are stored, one finds the first channel full,
one evicts from the second, and one waits; a pool is installed and shut down, and a call for
the carrier is turned away; the channels are closed, and one more write comes. -/
def hustle : List (Action Nat) :=
  attempt 0 (.write 7 (some .refuse)) ++ attempt 1 (.write 8 (some .refuse)) ++
    attempt 2 (.write 9 (some .refuse)) ++ attempt 3 (.write 10 (some .evict)) ++
    attempt 4 (.write 11 (some .wait)) ++ [.install Line.loner, .publish, .retire, .shutdown] ++
    attempt 5 (.produce 12) ++ [.advance 5, .startClosing, .closeNext 0, .closeNext 0] ++
    attempt 6 (.write 13 (some .wait))
where
  /-- A call, with its first three steps. -/
  attempt (i : Nat) (errand : Errand Nat) : List (Action Nat) :=
    .offer i errand :: List.replicate 3 (.advance i)

theorem round_robin_by_attempt_hustle :
    let s : Line Nat := Line.blank 2 1 (by decide) .wait
    ((s.after hustle).calls.map fun c => c.place.result?) =
      [some (.accepted .stored), some (.accepted .stored), some (.refused .full 9),
        some (.accepted .evicted), none, some (.refused .noConsumer 12),
        some (.refused .closed 13)] ∧
      s.routerTurns hustle =
        [⟨0, some 0⟩, ⟨1, some 1⟩, ⟨2, some 0⟩, ⟨3, some 1⟩, ⟨4, some 0⟩, ⟨6, some 1⟩] ∧
      TurnsBetween s (s.after hustle) (s.routerTurns hustle) ∧
      GoesRound 0 2 (s.routerTurns hustle) := by
  intro s
  have hs : s.Reachable := ⟨s, Line.isFresh_blank (by decide) (by decide) .wait, .refl⟩
  exact ⟨by decide +kernel, by decide +kernel,
    round_robin_by_attempt hs (by decide +kernel) (rfl : s.store.router = .rolling 0) hustle
      (by decide +kernel)⟩

end Conveyor
