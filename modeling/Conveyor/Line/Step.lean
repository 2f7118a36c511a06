/-
Conveyor.Line.Step — everything that can happen on a line, one action at
a time, and the states that are reached in this way.

`Line.step` gathers the actions of producers, workers, owners and
readers under one label each; a run of a line is any sequence of labels
of which each has a step to make. The threads take turns as they like,
so what is shown of all reachable states holds for every interleaving.
-/
import Conveyor.Line.Call
import Conveyor.Line.Lifecycle
import Conveyor.Line.Work

namespace Conveyor

/-- An action on a line. -/
inductive Action (α : Type u) where
  | offer (producer : Nat) (errand : Errand α)
  | advance (call : Nat)
  | callAway (call : Nat)
  | setPolicy (policy : WhenFull)
  | setRouter (router : Router (Parcel α))
  | build (plan : PoolPlan)
  | begin (pool : Nat)
  | install (plan : PoolPlan)
  | publish
  | retire
  | shutdown
  | closePool (pool : Nat)
  | startClosing
  | closeNext (thread : Nat)
  | drain (channel limit : Nat)
  | setHeld (pool : Nat) (held : Bool)
  | work (pool worker : Nat)
  | endHook (pool worker : Nat) (how : HookEnd)

namespace Line

variable {α : Type u}

/-- The line after an action, if the action can happen. Pools are
installed, and the owned pool is shut down, by one thread at a time. -/
def step (s : Line α) : Action α → Option (Line α)
  | .offer producer errand => s.offer producer errand
  | .advance call => s.advance call
  | .callAway call => s.callAway call
  | .setPolicy policy => some (s.setPolicy policy)
  | .setRouter router => some (s.setRouter router)
  | .build plan => (s.build plan).toOption
  | .begin pool => some (s.begin pool)
  | .install plan => if s.exchange = .idle then (s.install plan).toOption else none
  | .publish => s.publish
  | .retire => s.retire
  | .shutdown => if s.exchange = .idle then some s.shutdown else none
  | .closePool pool => some (s.closePool pool)
  | .startClosing => some s.startClosing
  | .closeNext thread => s.closeNext thread
  | .drain channel limit => (s.drain channel limit).map Prod.snd
  | .setHeld pool held => some (s.setHeld pool held)
  | .work pool worker => s.work pool worker
  | .endHook pool worker how => s.endHook pool worker how

/-- The states that actions lead to from `s`. -/
inductive Reaches (s : Line α) : Line α → Prop
  | refl : Reaches s s
  | step {t u : Line α} (a : Action α) : Reaches s t → t.step a = some u → Reaches s u

theorem Reaches.trans {s t u : Line α} (h : Reaches s t) (h' : Reaches t u) : Reaches s u := by
  induction h' with
  | refl => exact h
  | step a _ hs ih => exact ih.step a hs

/-- A row of empty channels with nobody at work on it. -/
def IsFresh (s : Line α) : Prop :=
  ∃ count room router policy, ∃ store,
    LaneSet.ofCounts count room router policy = .ok store ∧ s = .ofStore store

/-- The states that a line gets into. -/
def Reachable (s : Line α) : Prop := ∃ start : Line α, start.IsFresh ∧ Reaches start s

end Line

end Conveyor
