/-
Conveyor.Proofs.Requests — what a hub is asked for, one request after the other.

Several carriers with one registry are asked for pools, shut down, closed and given
up; pools are closed by signals, and all registered ones at once; and producers,
readers and workers go on in between. A request that is refused leaves the hub as
it is.

Only `consume` gives a carrier a new pool. Every other request leaves the lines of
all carriers with the pools they have (`Tended`, `tended_serve`).
-/
import Conveyor.Hub.Basic
import Conveyor.Proofs.Exchange
import Conveyor.Proofs.Runs

namespace Conveyor

/-- Whether the action gives nobody another pool. -/
def Action.keepsPools {α : Type u} : Action α → Bool
  | .build _ | .begin _ | .install _ | .publish | .retire => false
  | _ => true

namespace Line

variable {α : Type u} {s t : Line α}

/-! ## Lines that keep their pools -/

/-- What actions lead to from `s` that give nobody another pool. -/
def KeepsPools (s t : Line α) : Prop := ReachesBy (fun a : Action α => a.keepsPools = true) s t

/-- An action that is none of the exchange keeps the pools that the carrier has. -/
theorem keepsPools_of_step {a : Action α} (ha : a.keepsPools = true) (hs : s.step a = some t) :
    s.KeepsPools t := .step a .refl ha hs

theorem keepsPools_closePool (s : Line α) (p : Nat) : s.KeepsPools (s.closePool p) :=
  keepsPools_of_step (a := .closePool p) rfl rfl

/-- A carrier that shuts its pool down still owns it. -/
theorem keepsPools_shutdown (s : Line α) : s.KeepsPools s.shutdown := by
  rcases s.shutdown_cases with h | ⟨p, h⟩
  · rw [h]
    exact .refl
  · rw [h]
    exact s.keepsPools_closePool p

/-- To close the channels is no matter of pools. -/
theorem keepsPools_closeAll (s : Line α) : s.KeepsPools s.closeAll := by
  refine ReachesBy.mono s.reachesBy_closeAll ?_
  intro a ha
  cases a <;> first | rfl | cases ha

/-- The line with the new pool for its carrier, once the pool has begun. -/
def renewed (begun : Line α) : Line α :=
  let published := begun.publish.getD begun
  published.retire.getD published

end Line

namespace Hub

variable {α : Type} {h h' h'' : Hub α} {k : Nat} {c : Carrier}

/-! ## Requests -/

/-- What a hub may be asked for. -/
inductive Request (α : Type) where
  | addCarrier (name : String) (settings : Settings) (registered : Bool) (router : Router α)
  | consume (carrier : Nat) (order : PoolOrder)
  | shutdown (carrier : Nat)
  /-- The carrier's pool is shut down, and its owner waits while others go on. -/
  | shutdownAndWait (carrier : Nat) (meanwhile : List (Nat × Action α))
  | close (carrier : Nat)
  | drop (carrier : Nat)
  /-- A pool is closed by a signal. -/
  | closePool (pool : Nat)
  /-- All pools in the registry are closed. -/
  | closeAll
  /-- Someone who has nothing to do with pools acts on a line. -/
  | act (line : Nat) (action : Action α)

/-- Someone acts on line `i`, if the action has nothing to do with pools and can
happen. -/
def act (h : Hub α) (i : Nat) (a : Action α) : Hub α :=
  if a.isTraffic then h.mapLine i fun s => (s.step a).getD s else h

/-- Carrier number `k`, if nobody has given it up. -/
def receiver? (h : Hub α) (k : Nat) : Option Carrier := h.carriers[k]?.filter fun c => !c.dropped

/-- The hub with a request to carrier `k` met. -/
def forCarrier (h : Hub α) (k : Nat) (f : Carrier → Hub α) : Hub α := (h.receiver? k).elim h f

/-- The hub when a request was met, or refused. -/
def serve (h : Hub α) : Request α → Hub α
  | .addCarrier name settings registered router =>
    (h.addCarrier name settings registered router).toOption.getD h
  | .consume k order => h.forCarrier k fun c => (h.consume c order).toOption.getD h
  | .shutdown k => h.forCarrier k h.shutdown
  | .shutdownAndWait k meanwhile =>
    h.forCarrier k fun c => meanwhile.foldl (fun h (i, a) => h.act i a) (h.shutdown c)
  | .close k => h.forCarrier k h.close
  | .drop k => h.forCarrier k fun _ => h.drop k
  | .closePool n => h.closePool n
  | .closeAll => h.closeAll
  | .act i a => h.act i a

/-- The hub after some requests. -/
def after (h : Hub α) (requests : List (Request α)) : Hub α := requests.foldl serve h

/-- The plan of the pool that a request gives carrier `k`, if it gives one. -/
def grant (h : Hub α) (k : Nat) : Request α → List PoolPlan
  | .consume j order =>
    match h.receiver? j with
    | some c => if j = k ∧ (h.consume c order).isOk then [planFor c order] else []
    | none => []
  | _ => []

/-- The plans of the pools that requests give carrier `k`, one after the other. -/
def granted (h : Hub α) (k : Nat) : List (Request α) → List PoolPlan
  | [] => []
  | r :: rest => h.grant k r ++ (h.serve r).granted k rest

/-! ## Lines and carriers -/

/-- From `h` to `h'`, no line and no carrier has come or gone, and no carrier has got
another pool. -/
structure Tended (h h' : Hub α) : Prop where
  homes : h'.carriers.map Carrier.line = h.carriers.map Carrier.line
  length : h'.lines.length = h.lines.length
  lines : ∀ (i : Nat) t, h'.lines[i]? = some t → ∃ s, h.lines[i]? = some s ∧ s.KeepsPools t

/-- A hub with the same lines, and carriers on them, is tended. -/
theorem tended_of_eq (hlines : h'.lines = h.lines)
    (hcarriers : h'.carriers.map Carrier.line = h.carriers.map Carrier.line) : h.Tended h' :=
  ⟨hcarriers, congrArg _ hlines, fun _ t ht => ⟨t, hlines ▸ ht, .refl⟩⟩

/-- One request after the other leaves the lines tended. -/
theorem Tended.trans (h₁ : h.Tended h') (h₂ : h'.Tended h'') : h.Tended h'' := by
  refine ⟨h₂.homes.trans h₁.homes, h₂.length.trans h₁.length, ?_⟩
  intro i u hu
  obtain ⟨t, ht, htu⟩ := h₂.lines i u hu
  obtain ⟨s, hs, hst⟩ := h₁.lines i t ht
  exact ⟨s, hs, Line.ReachesBy.trans hst htu⟩

/-- What is done to one line is done to no other. -/
theorem tended_mapLine (h : Hub α) (i : Nat) {f : Line α → Line α}
    (hf : ∀ s : Line α, s.KeepsPools (f s)) : h.Tended (h.mapLine i f) := by
  unfold mapLine
  cases hi : h.lines[i]? with
  | none => exact tended_of_eq rfl rfl
  | some s =>
    refine ⟨rfl, List.length_set .., ?_⟩
    intro j t ht
    rcases Line.eq_of_getElem?_set ht with ⟨rfl, rfl⟩ | ⟨-, hold⟩
    · exact ⟨s, hi, hf s⟩
    · exact ⟨t, hold, .refl⟩

/-- A signal closes a pool on the line that the pool is on. -/
theorem tended_closePool (h : Hub α) (n : Nat) : h.Tended (h.closePool n) := by
  unfold closePool
  split
  · exact tended_of_eq rfl rfl
  · exact h.tended_mapLine _ fun s => s.keepsPools_closePool _

/-- The registry is apart from lines and carriers. -/
theorem lines_unregister (h : Hub α) (c : Carrier) (n : Nat) :
    (h.unregister c n).lines = h.lines ∧ (h.unregister c n).carriers = h.carriers := by
  unfold unregister
  split <;> exact ⟨rfl, rfl⟩

theorem lines_register (h : Hub α) (c : Carrier) (n : Nat) :
    (h.register c n).lines = h.lines ∧ (h.register c n).carriers = h.carriers := by
  unfold register
  split <;> exact ⟨rfl, rfl⟩

theorem tended_shutdown (h : Hub α) (c : Carrier) : h.Tended (h.shutdown c) := by
  unfold shutdown
  split
  · exact tended_of_eq rfl rfl
  · next n _ =>
    obtain ⟨hl, hc⟩ := lines_unregister (h.mapLine c.line Line.shutdown) c n
    exact (h.tended_mapLine _ Line.keepsPools_shutdown).trans (tended_of_eq hl (hc ▸ rfl))

theorem tended_close (h : Hub α) (c : Carrier) : h.Tended (h.close c) :=
  ((h.tended_shutdown c).trans (tended_mapLine _ _ Line.keepsPools_closeAll)).trans
    (tended_of_eq rfl rfl)

/-- A carrier that is dropped is marked, and stays on the list. -/
theorem tended_shutdown_drop (hc : h.carriers[k]? = some c) : (h.shutdown c).Tended (h.drop k) := by
  have hset : (h.carriers.set k { c with dropped := true }).map Carrier.line =
      h.carriers.map Carrier.line := Line.map_set_of_eq hc rfl
  unfold drop
  rw [hc]
  exact tended_of_eq rfl (hset.trans (h.tended_shutdown c).homes.symm)

/-- To drop a carrier is to shut its pool down; its line stays. -/
theorem tended_drop (h : Hub α) (k : Nat) : h.Tended (h.drop k) := by
  cases hc : h.carriers[k]? with
  | none =>
    unfold drop
    rw [hc]
    exact tended_of_eq rfl rfl
  | some c => exact (h.tended_shutdown c).trans (tended_shutdown_drop hc)

/-- Many things are done one after the other, none of which gives a carrier a pool. -/
theorem tended_foldl {β : Type} {f : Hub α → β → Hub α} (hf : ∀ (g : Hub α) x, g.Tended (f g x))
    (h : Hub α) (xs : List β) : h.Tended (xs.foldl f h) := by
  induction xs generalizing h with
  | nil => exact tended_of_eq rfl rfl
  | cons x xs ih => exact (hf h x).trans (ih (f h x))

/-- The registry closes one pool after the other. -/
theorem tended_closeAll (h : Hub α) : h.Tended h.closeAll := by
  have hempty : h.Tended { h with registry := ∅ } := tended_of_eq rfl rfl
  refine hempty.trans (tended_foldl ?_ _ _)
  rintro g ⟨name, n⟩
  have hnote : g.Tended (g.note (.entryClosing name)) := tended_of_eq rfl rfl
  exact hnote.trans (tended_closePool _ n)

/-- Traffic concerns one line. -/
theorem tended_act (h : Hub α) (i : Nat) (a : Action α) : h.Tended (h.act i a) := by
  unfold act
  split
  · next ht =>
    refine h.tended_mapLine i ?_
    intro s
    cases hs : s.step a with
    | none => exact .refl
    | some t => exact Line.keepsPools_of_step (by cases a <;> first | rfl | cases ht) hs
  · exact tended_of_eq rfl rfl

/-- A request to a carrier that is not there does nothing. -/
theorem tended_forCarrier {f : Carrier → Hub α} (hf : ∀ c, h.Tended (f c)) :
    h.Tended (h.forCarrier k f) := by
  unfold forCarrier
  cases h.receiver? k with
  | none => exact tended_of_eq rfl rfl
  | some c => exact hf c

/-- **Only `consume` gives a carrier a new pool**, and only `addCarrier` makes another
carrier. -/
theorem tended_serve (h : Hub α) {r : Request α} (hconsume : ∀ k order, r ≠ .consume k order)
    (hadd : ∀ name settings registered router, r ≠ .addCarrier name settings registered router) :
    h.Tended (h.serve r) := by
  cases r with
  | addCarrier name settings registered router => exact (hadd _ _ _ _ rfl).elim
  | consume k order => exact (hconsume _ _ rfl).elim
  | shutdown k => exact tended_forCarrier h.tended_shutdown
  | shutdownAndWait k meanwhile =>
    refine tended_forCarrier ?_
    intro c
    refine (h.tended_shutdown c).trans (tended_foldl ?_ _ _)
    rintro g ⟨i, a⟩
    exact g.tended_act i a
  | close k => exact tended_forCarrier h.tended_close
  | drop k => exact tended_forCarrier fun _ => h.tended_drop k
  | closePool n => exact h.tended_closePool n
  | closeAll => exact h.tended_closeAll
  | act i a => exact h.tended_act i a

/-! ## The two requests that add something -/

theorem lines_unregisterOld (h : Hub α) (c : Carrier) (old : Option Nat) :
    (old.elim h (h.unregister c)).lines = h.lines ∧
      (old.elim h (h.unregister c)).carriers = h.carriers := by
  cases old with
  | none => exact ⟨rfl, rfl⟩
  | some n => exact h.lines_unregister c n

/-- A carrier with a new pool has a line with a new pool. -/
theorem of_consume_eq_ok {order : PoolOrder} {s : Line α} (hs : h.lines[c.line]? = some s)
    (hc : h.consume c order = .ok h') :
    ∃ begun, s.install (planFor c order) = .ok begun ∧
      h'.lines = h.lines.set c.line begun.renewed ∧ h'.carriers = h.carriers := by
  unfold consume at hc
  rw [hs] at hc
  cases hi : s.install (planFor c order) with
  | error e => simp [hi, bind, Except.bind] at hc
  | ok begun =>
    simp only [hi, bind, Except.bind, pure, Except.pure, Except.ok.injEq] at hc
    refine ⟨begun, rfl, ?_⟩
    subst hc
    obtain ⟨hl, hk⟩ := lines_unregisterOld
      { h.setLine c.line (begun.publish.getD begun) with
        pools := h.pools ++ [⟨c.line, s.pools.length⟩] } c (h.installed? c)
    obtain ⟨hl', hk'⟩ := lines_register (setLine _ c.line begun.renewed) c h.pools.length
    refine ⟨hl'.trans ?_, hk'.trans hk⟩
    exact (congrArg (fun lines => lines.set c.line begun.renewed) hl).trans (List.set_set ..)

/-- A new carrier has a line of its own, on which nothing has happened. -/
theorem of_addCarrier_eq_ok {name : String} {settings : Settings} {registered : Bool}
    {router : Router α} (ha : h.addCarrier name settings registered router = .ok h') :
    ∃ s c, s.IsFresh ∧ c.line = h.lines.length ∧ h'.lines = h.lines ++ [s] ∧
      h'.carriers = h.carriers ++ [c] ∧ h'.pools = h.pools ∧ h'.registry = h.registry := by
  unfold addCarrier at ha
  cases hs : settings.check with
  | error e =>
    rw [hs] at ha
    cases ha
  | ok =>
    rw [hs] at ha
    unfold addLine at ha
    cases ho : LaneSet.ofCounts settings.channels.toNat settings.room.toNat
        (router.comap Parcel.item) settings.policy with
    | error e =>
      rw [ho] at ha
      cases ha
    | ok store =>
      rw [ho] at ha
      cases ha
      exact ⟨.ofStore store, _, ⟨_, _, _, _, store, ho, rfl⟩, rfl, rfl, rfl, rfl, rfl⟩

end Hub

end Conveyor
