/-
Conveyor.Proofs.Handles — a pool and those who can close it.

The owner of a pool begins it, closes it, closes it and waits for its workers, or gives it
up, which closes it too. A signal of the pool closes it from anywhere, and so does whoever
takes down a registry in which it is entered, once for each name that it is under. Everybody
else goes on in between.

Whatever is done with the handles of a pool, and in whatever order, is a run of its line on
which it is asked for the same, in the same order (`follows_afterUses`); and such a run leaves
it no choice (`pool_lifecycle`).
-/
import Conveyor.Proofs.Stages

namespace Conveyor

namespace Hub

variable {α : Type} {h h' h'' : Hub α} {place : PoolPlace} {asks asks' : List Ask}

/-! ## What is done with the handles -/

/-- What can be done with the handles of pools. -/
inductive Use (α : Type) where
  | begin (pool : Nat)
  /-- The owner closes the pool or gives it up, or someone closes it by a signal. -/
  | close (pool : Nat)
  /-- The owner closes the pool and waits for its workers, while others go on. -/
  | closeAndJoin (pool : Nat) (meanwhile : List (Nat × Action α))
  | register (name : String) (pool : Nat)
  | unregister (name : String) (pool : Nat)
  /-- All pools in the registry are closed. -/
  | closeAll
  /-- Someone who has nothing to do with pools acts on a line. -/
  | act (line : Nat) (action : Action α)

/-- The hub when this has been done. -/
def use (h : Hub α) : Use α → Hub α
  | .begin n => h.beginPool n
  | .close n => h.closePool n
  | .closeAndJoin n meanwhile => meanwhile.foldl (fun h (i, a) => h.act i a) (h.closePool n)
  | .register name n => { h with registry := h.registry.insert name n }
  | .unregister name n => { h with registry := h.registry.eraseIf name n }
  | .closeAll => h.tearDown.2
  | .act i a => h.act i a

/-- The hub when all of this has been done. -/
def afterUses (h : Hub α) (uses : List (Use α)) : Hub α := uses.foldl use h

/-- What the pool at this place is asked for, if this is asked of pool number `n`. -/
def asksByNumber (h : Hub α) (place : PoolPlace) (ask : Ask) (n : Nat) : List Ask :=
  if h.pools[n]? = some place then [ask] else []

/-- What the pool at this place is asked for by this. -/
def asksOf (h : Hub α) (place : PoolPlace) : Use α → List Ask
  | .begin n => h.asksByNumber place .begin n
  | .close n | .closeAndJoin n _ => h.asksByNumber place .close n
  | .closeAll => h.registry.entries.flatMap fun (_, n) => h.asksByNumber place .close n
  | _ => []

/-- What the pool at this place is asked for by all of this, one after the other. -/
def asked (h : Hub α) (place : PoolPlace) : List (Use α) → List Ask
  | [] => []
  | u :: rest => h.asksOf place u ++ (h.use u).asked place rest

/-! ## A pool's line in between -/

/-- From `h` to `h'` the line of the pool at this place has made a run, on which the pool was
asked for `asks`. -/
structure Follows (h h' : Hub α) (place : PoolPlace) (asks : List Ask) : Prop where
  pools : h'.pools = h.pools
  line : ∀ s, h.lines[place.line]? = some s → ∃ actions,
    h'.lines[place.line]? = some (s.after actions) ∧ s.asked place.index actions = asks

theorem follows_of_eq (hpools : h'.pools = h.pools) (hlines : h'.lines = h.lines) :
    h.Follows h' place [] where
  pools := hpools
  line _ hs := ⟨[], hlines ▸ hs, rfl⟩

theorem Follows.trans (first : h.Follows h' place asks) (second : h'.Follows h'' place asks') :
    h.Follows h'' place (asks ++ asks') where
  pools := second.pools.trans first.pools
  line s hs := by
    obtain ⟨before, hbefore, hasks⟩ := first.line s hs
    obtain ⟨after, hafter, hasks'⟩ := second.line _ hbefore
    refine ⟨before ++ after, ?_, ?_⟩
    · rw [hafter, Line.after, Line.after, ← List.foldl_append, ← Line.after]
    · rw [Line.asked, Line.trace_append, ← Line.asked, ← Line.asked, hasks, hasks']

theorem pools_mapLine (h : Hub α) (i : Nat) (f : Line α → Line α) :
    (h.mapLine i f).pools = h.pools :=
  (desk_eq_iff.mp (h.desk_mapLine i f)).2.1

/-- An action on a line is asked of a pool on that line at most. -/
theorem follows_mapLine {i : Nat} {f : Line α → Line α} {a : Action α}
    (hf : ∀ s : Line α, f s = s.after [a])
    (hsame : i = place.line → ∀ s : Line α, s.asked place.index [a] = asks)
    (hother : i ≠ place.line → asks = []) : h.Follows (h.mapLine i f) place asks where
  pools := h.pools_mapLine i f
  line s hs := by
    rw [lines_mapLine, hs]
    by_cases hi : place.line = i
    · exact ⟨[a], by rw [if_pos hi, Option.map_some, hf], hsame hi.symm s⟩
    · exact ⟨[], by rw [if_neg hi]; rfl, (hother (Ne.symm hi)).symm⟩

/-- What is asked of a pool by a number is an action on the line of that pool. -/
theorem follows_number (h : Hub α) (place : PoolPlace) (n : Nat) {f : Line α → Nat → Line α}
    {a : Nat → Action α} {ask : Ask} (hf : ∀ (s : Line α) q, f s q = s.after [a q])
    (hask : ∀ (s : Line α) q p, s.asked p [a q] = if q = p then [ask] else []) :
    h.Follows (h.pools[n]?.elim h fun at_ => h.mapLine at_.line (f · at_.index)) place
      (h.asksByNumber place ask n) := by
  unfold asksByNumber
  cases hn : h.pools[n]? with
  | none => exact follows_of_eq rfl rfl
  | some other =>
    refine follows_mapLine (fun s => hf s other.index) ?_ ?_
    · intro hline s
      have hindex : other.index = place.index ↔ some other = some place := by
        cases other
        cases place
        simp_all
      rw [hask]
      exact if_congr hindex rfl rfl
    · intro hline
      exact if_neg fun heq => hline (congrArg PoolPlace.line (Option.some.inj heq))

theorem follows_beginPool (h : Hub α) (place : PoolPlace) (n : Nat) :
    h.Follows (h.beginPool n) place (h.asksByNumber place .begin n) := by
  have hask : ∀ (s : Line α) q p, s.asked p [.begin q] = if q = p then [.begin] else [] := by
    intro s q p
    by_cases hq : q = p <;> simp [Line.asked, Line.trace, Line.step, Line.ask?, hq]
  have hfollows := h.follows_number place n (f := Line.begin) (fun _ _ => rfl) hask
  unfold beginPool
  cases hn : h.pools[n]? <;> rw [hn] at hfollows <;> exact hfollows

theorem follows_closePool (h : Hub α) (place : PoolPlace) (n : Nat) :
    h.Follows (h.closePool n) place (h.asksByNumber place .close n) := by
  have hask : ∀ (s : Line α) q p, s.asked p [.closePool q] = if q = p then [.close] else [] := by
    intro s q p
    by_cases hq : q = p <;> simp [Line.asked, Line.trace, Line.step, Line.ask?, hq]
  have hfollows := h.follows_number place n (f := Line.closePool) (fun _ _ => rfl) hask
  unfold closePool
  cases hn : h.pools[n]? <;> rw [hn] at hfollows <;> exact hfollows

theorem follows_act (h : Hub α) (place : PoolPlace) (i : Nat) (a : Action α) :
    h.Follows (h.act i a) place [] := by
  unfold act
  split
  · next ht =>
    refine follows_mapLine (a := a) (fun _ => rfl) ?_ fun _ => rfl
    intro _ s
    cases hs : s.step a with
    | none => exact Line.trace_cons_of_none _ hs []
    | some t =>
      rw [Line.asked, Line.trace_cons_of_some _ hs]
      cases a <;> first | rfl | cases ht
  · exact follows_of_eq rfl rfl

theorem follows_acts (h : Hub α) (place : PoolPlace) (actions : List (Nat × Action α)) :
    h.Follows (actions.foldl (fun h (i, a) => h.act i a) h) place [] := by
  induction actions generalizing h with
  | nil => exact follows_of_eq rfl rfl
  | cons x rest ih => exact (h.follows_act place x.1 x.2).trans (ih _)

/-- Taking down a registry closes a pool once for each name that it is under. -/
theorem follows_entries (h : Hub α) (place : PoolPlace) (entries : List (String × Nat)) :
    h.Follows (entries.foldl (fun h (name, n) => (h.note (.entryClosing name)).closePool n) h) place
      (entries.flatMap fun (_, n) => h.asksByNumber place .close n) := by
  induction entries generalizing h with
  | nil => exact follows_of_eq rfl rfl
  | cons entry rest ih =>
    obtain ⟨name, n⟩ := entry
    have hnote : h.Follows (h.note (.entryClosing name)) place [] := follows_of_eq rfl rfl
    have hclose := hnote.trans ((h.note (.entryClosing name)).follows_closePool place n)
    have hrest := ih ((h.note (.entryClosing name)).closePool n)
    simp only [asksByNumber, hclose.pools] at hrest
    exact hclose.trans hrest

theorem follows_use (h : Hub α) (place : PoolPlace) (u : Use α) :
    h.Follows (h.use u) place (h.asksOf place u) := by
  cases u with
  | begin n => exact h.follows_beginPool place n
  | close n => exact h.follows_closePool place n
  | closeAndJoin n meanwhile =>
    have hfollows := (h.follows_closePool place n).trans (follows_acts _ place meanwhile)
    rwa [List.append_nil] at hfollows
  | register | unregister => exact follows_of_eq rfl rfl
  | closeAll =>
    have hempty : h.Follows { h with registry := ∅ } place [] := follows_of_eq rfl rfl
    exact hempty.trans (follows_entries { h with registry := ∅ } place h.registry.entries)
  | act i a => exact h.follows_act place i a

/-- **Whatever is done with the handles of a pool is a run of its line.** -/
theorem follows_afterUses (h : Hub α) (place : PoolPlace) (uses : List (Use α)) :
    h.Follows (h.afterUses uses) place (h.asked place uses) := by
  induction uses generalizing h with
  | nil => exact follows_of_eq rfl rfl
  | cons u rest ih => exact (h.follows_use place u).trans (ih (h.use u))

/-- **The life of a pool.** Nothing decides what becomes of a pool that has been created but
what it is asked for, in which order; and what the handles of the pool ask, it is asked for. -/
theorem pool_lifecycle {s : Line α} (hs : h.lines[place.line]? = some s) (hr : s.Reachable)
    {pool : Pool (Parcel α)} (hp : s.pools[place.index]? = some pool)
    (hcreated : pool.stage = .created) :
    (∀ actions, s.LivesOnce place.index pool.plan actions) ∧
      ∀ uses, ∃ actions, (h.afterUses uses).lines[place.line]? = some (s.after actions) ∧
        s.asked place.index actions = h.asked place uses := by
  constructor
  · intro actions
    exact hr.livesOnce hp hcreated actions
  · intro uses
    exact (h.follows_afterUses place uses).line s hs

/-- Two channels, and a pool of two workers that nobody has asked to begin. -/
def newcomer : Line Nat :=
  (Line.blank 2 1 Nat.one_pos .wait).after [.build ⟨"", 2, 1, false, ⟨1, 0, nanosPerSecond_pos⟩⟩]

/-- It begins, is closed under both the names that it is entered under, and is asked to begin
and to close again. -/
def twiceEntered : List (Use Nat) :=
  [.register "a" 0, .register "b" 0, .begin 0, .closeAll, .begin 0,
    .closeAndJoin 0 [(0, .work 0 0)]]

/-- It has run once, was closed once, and both its workers were woken once. -/
theorem pool_lifecycle_twiceEntered :
    let h : Hub Nat := { lines := [newcomer], pools := [⟨0, 0⟩] }
    h.asked ⟨0, 0⟩ twiceEntered = [.begin, .close, .close, .begin, .close] ∧
      ∃ actions, (h.afterUses twiceEntered).lines[0]? = some (newcomer.after actions) ∧
        Line.trace (Line.stageChange? 0) newcomer actions =
          [(.created, .running), (.running, .closed)] ∧
        Line.trace (Line.crewChange? 0) newcomer actions = [(0, 2)] ∧
        (newcomer.after actions).milestones 0 =
          [.poolStarted "" 2 2 ⟨1, 0, nanosPerSecond_pos⟩, .poolClosing ""] ∧
        (newcomer.after actions).wakingsOf 0 = [[0, 1]] := by
  intro h
  have hasked : h.asked ⟨0, 0⟩ twiceEntered = [.begin, .close, .close, .begin, .close] := by
    decide +kernel
  have hs : h.lines[(PoolPlace.mk 0 0).line]? = some newcomer := rfl
  have hr : newcomer.Reachable := Line.reachable_after (by decide) Nat.one_pos .wait _
  obtain ⟨hlives, huses⟩ := pool_lifecycle hs hr rfl rfl
  obtain ⟨actions, hline, hasks⟩ := huses twiceEntered
  have hlife := hlives actions
  rw [hasked] at hasks
  refine ⟨hasked, actions, hline, ?_, ?_, ?_, ?_⟩
  · rw [hlife.stages, hasks]
    rfl
  · rw [hlife.crews, hasks]
    rfl
  · rw [hlife.milestones, hasks]
    rfl
  · rw [hlife.wakings, hasks]
    rfl

end Hub

end Conveyor
