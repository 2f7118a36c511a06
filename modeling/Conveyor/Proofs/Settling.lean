/-
Conveyor.Proofs.Settling — calls that go on until they have to wait.

When every call has gone on as far as it can, each is over, stays in a pool, or
waits in a full open channel (`Reachable.cases_of_isStill`), and calls always get
there (`Reachable.exists_settles`). How many have not come to anything
(`Line.pending`) never grows on the way. If all that had not were waiting, it gets
less, unless not one of them could make a step (`Settles.eq_or_pending_lt`).
-/
import Conveyor.Proofs.Terminal

namespace Conveyor

variable {α : Type u}

/-- What has not come to anything has more than two steps left. -/
theorem Place.isPending_iff {place : Place α} : place.isPending = true ↔ 2 < place.rank := by
  cases place <;> simp [isPending, rank]

/-- A call at this place is on its way to a channel. -/
def Place.isBound : Place α → Bool
  | .cleared | .informed _ | .routed .. | .waiting _ => true
  | _ => false

/-- A call at this place is over, or has to wait for others to do something. -/
def Place.isHalted : Place α → Bool
  | .waiting _ | .staying | .over _ => true
  | _ => false

namespace Line

variable {s t u : Line α} {i n p : Nat} {c c' : Call α}

/-! ## One step of a call -/

/-- A step of a call is a turn of this call, which brings it nearer to its end, and
no other call makes one. -/
theorem Named.turn_of_advance (h : s.Named) (ha : s.advance i = some t) :
    ∃ c c', s.calls[i]? = some c ∧ t.calls = s.calls.set i c' ∧ Turn s i c c' ∧
      c'.place.rank < c.place.rank := by
  cases hc : s.calls[i]? with
  | none => simp [advance, hc] at ha
  | some c =>
    obtain ⟨d, hd, hrank⟩ := rank_advance hc ha
    have hmoved : t.calls[i]? ≠ some c := by
      intro hsame
      rw [hd] at hsame
      cases hsame
      exact Nat.lt_irrefl _ hrank
    rcases (advance_effect h ha).calls with hsame | ⟨new, -, -, happ, -⟩ | ⟨j, e, e', he, hset, turn⟩
    · exact absurd (hsame ▸ hc) hmoved
    · refine absurd ?_ hmoved
      rw [happ, List.getElem?_append_left (List.getElem?_eq_some_iff.mp hc).1]
      exact hc
    · by_cases hji : j = i
      · subst hji
        rw [hc] at he
        cases he
        rw [hset, List.getElem?_set_self (List.getElem?_eq_some_iff.mp hc).1] at hd
        cases hd
        exact ⟨c, d, rfl, hset, turn, hrank⟩
      · refine absurd ?_ hmoved
        rw [hset, List.getElem?_set_ne hji]
        exact hc

/-- How many calls have not come to anything. -/
def pending (s : Line α) : Nat := s.calls.countP fun c => c.place.isPending

theorem pending_eq (hcalls : t.calls = s.calls) : t.pending = s.pending := by
  rw [pending, hcalls, pending]

/-- A call does not come to be pending by a step of its own, and one that had to wait
has come to something. -/
theorem Named.pending_of_advance (h : s.Named) (ha : s.advance i = some t) :
    t.pending ≤ s.pending ∧
      ∀ c n, s.calls[i]? = some c → c.place = .waiting n → t.pending < s.pending := by
  obtain ⟨c, c', hc, hset, -, hrank⟩ := h.turn_of_advance ha
  have hcount := countP_set_eq hc c' fun c => c.place.isPending
  have hle : c'.place.isPending.toNat ≤ c.place.isPending.toNat := by
    cases hp : c'.place.isPending with
    | false => exact Nat.zero_le _
    | true =>
      have hlt := Place.isPending_iff.mp hp
      simp [Place.isPending_iff.mpr (Nat.lt_trans hlt hrank)]
  rw [← hset] at hcount
  refine ⟨by simp only [pending]; omega, ?_⟩
  intro d n hd hp
  rw [hc] at hd
  cases hd
  have hnow : c'.place.isPending = false := by
    rw [Bool.eq_false_iff, Ne, Place.isPending_iff]
    rw [hp] at hrank
    exact Nat.not_lt.mpr (Nat.le_of_lt_succ hrank)
  have hwas : c.place.isPending = true := by rw [hp]; rfl
  simp only [hnow, hwas, Bool.toNat_true, Bool.toNat_false] at hcount
  simp only [pending]
  omega

/-! ## Until nobody can go on -/

/-- No call has a step to make. -/
def IsStill (s : Line α) : Prop := ∀ i, s.advance i = none

/-- Calls go on, in any order, until none has a step to make. -/
def Settles (s t : Line α) : Prop :=
  ReachesBy (fun a : Action α => ∃ i, a = .advance i) s t ∧ t.IsStill

theorem Settles.reaches (h : s.Settles t) : Reaches s t := h.1.reaches

theorem Settles.refl (h : s.IsStill) : s.Settles s := ⟨.refl, h⟩

theorem foldr_map_le {β : Type v} (l : List β) {f g : β → Nat} (hle : ∀ d, f d ≤ g d) :
    (l.map f).foldr (· + ·) 0 ≤ (l.map g).foldr (· + ·) 0 := by
  induction l with
  | nil => exact Nat.le_refl _
  | cons d l ih => exact Nat.add_le_add (hle d) ih

/-- Where no part of a sum has grown, the sum has changed by no more than the part that was
replaced. -/
theorem foldr_map_set_le {β : Type v} {l : List β} {a b : β} (h : l[i]? = some a)
    {f g : β → Nat} {m n : Nat} (hle : ∀ d, f d ≤ g d) (hab : f b + m ≤ g a + n) :
    ((l.set i b).map f).foldr (· + ·) 0 + m ≤ (l.map g).foldr (· + ·) 0 + n := by
  induction l generalizing i with
  | nil => cases h
  | cons d l ih =>
    cases i with
    | zero =>
      cases h
      have hl := foldr_map_le l hle
      simp only [List.set_cons_zero, List.map_cons, List.foldr_cons]
      omega
    | succ i =>
      have hl := ih (i := i) h
      have hd := hle d
      simp only [List.set_cons_succ, List.map_cons, List.foldr_cons]
      omega

theorem foldr_map_set_lt {β : Type v} {l : List β} {a b : β} (h : l[i]? = some a)
    {f g : β → Nat} (hle : ∀ d, f d ≤ g d) (hlt : f b < g a) :
    ((l.set i b).map f).foldr (· + ·) 0 < (l.map g).foldr (· + ·) 0 :=
  foldr_map_set_le (m := 1) (n := 0) h hle hlt

/-- **Calls that go on come to a rest.** -/
theorem Reachable.exists_settles (h : s.Reachable) : ∃ t, s.Settles t := by
  induction hn : s.stepsLeft using Nat.strongRecOn generalizing s with
  | _ n ih =>
    by_cases hs : s.IsStill
    · exact ⟨s, .refl hs⟩
    · obtain ⟨i, hi⟩ := not_forall.mp hs
      obtain ⟨u, hu⟩ := Option.ne_none_iff_exists'.mp hi
      obtain ⟨c, c', hc, hset, -, hrank⟩ := h.named.turn_of_advance hu
      have hless : u.stepsLeft < n := by
        rw [← hn, stepsLeft, hset]
        exact foldr_map_set_lt hc (fun _ => Nat.le_refl _) hrank
      have hstep : ReachesBy (fun a : Action α => ∃ i, a = .advance i) s u :=
        .step (.advance i) .refl ⟨i, rfl⟩ hu
      obtain ⟨t, hr, ht⟩ := ih _ hless (h.reaches hstep.reaches) rfl
      exact ⟨t, hstep.trans hr, ht⟩

/-! ## What is left then -/

/-- Only a call with an item is ever on its way to a channel. -/
theorem Reachable.item_of_bound (h : s.Reachable) (hc : s.calls[i]? = some c)
    (hb : c.place.isBound = true) : ∃ item, c.item? = some item := by
  have hall : ∀ (i : Nat) (c : Call α), s.calls[i]? = some c → c.place.isBound = true →
      ∃ item, c.item? = some item := by
    refine h.induction (P := fun u => ∀ (i : Nat) (c : Call α), u.calls[i]? = some c →
      c.place.isBound = true → ∃ item, c.item? = some item) ?_ ?_
    · rintro start ⟨_, _, _, _, store, _, rfl⟩ i c hc
      simp [ofStore] at hc
    · intro u v hu e i c' hc' hb
      rcases e.call_before hc' with ⟨hbegun, -⟩ | ⟨c, hc, rfl | turn⟩
      · rw [hbegun] at hb
        cases hb
      · exact hu i _ hc hb
      · have hitem : c'.item? = c.item? := by rw [Call.item?, turn.errand, Call.item?]
        rw [hitem]
        cases turn with
        | hop hop =>
          cases hop with
          | skip _ he | start _ he | insist _ he => exact ⟨_, by rw [Call.item?, he]⟩
          | ask hp => exact hu i c hc (by rw [hp]; rfl)
          | wait _ hi => exact ⟨_, hi⟩
          | _ => cases hb
        | enter _ _ _ hplace hstay =>
          rcases hplace with rfl | rfl
          · cases hb
          · have hsome : c.item? ≠ none := by
              intro hnone
              cases hstay.mpr hnone
            exact Option.ne_none_iff_exists'.mp hsome
        | @turnBack p hp => cases hi : c.item? <;> rw [hi] at hb <;> cases hb
        | route _ hi => exact ⟨_, hi⟩
        | enroll | misroute | write | tally | release => cases hb
  exact hall i c hc hb

/-- A call that cannot go on is over, stays in a pool, or waits in a full open
channel. -/
theorem Reachable.cases_of_isStill (h : s.Reachable) (hs : s.IsStill)
    (hc : s.calls[i]? = some c) :
    c.isOver = true ∨ c.place = .staying ∨ ∃ n, c.place = .waiting n ∧ s.mayResume n = false := by
  cases hitem : c.item? with
  | some item => exact of_stuck (hs i) hc hitem
  | none =>
    have hfree : c.place.isBound = false := by
      rw [Bool.eq_false_iff]
      intro hb
      obtain ⟨item, hi⟩ := h.item_of_bound hc hb
      rw [hitem] at hi
      cases hi
    have hstuck := hs i
    unfold advance at hstuck
    rw [hc] at hstuck
    cases hp : c.place with
    | «over» verdict => exact .inl (by rw [Call.isOver, hp])
    | staying => exact .inr (.inl rfl)
    | cleared | informed | routed | waiting => simp [Place.isBound, hp] at hfree
    | _ => simp [hp, hitem] at hstuck

theorem Reachable.halted_of_isStill (h : s.Reachable) (hs : s.IsStill) :
    ∀ c ∈ s.calls, c.place.isHalted = true := by
  intro c hmem
  obtain ⟨i, hc⟩ := List.getElem?_of_mem hmem
  rcases h.cases_of_isStill hs hc with hover | hstay | ⟨n, hwait, -⟩
  · unfold Call.isOver at hover
    split at hover
    · next hp => rw [hp]; rfl
    · cases hover
  · rw [hstay]
    rfl
  · rw [hwait]
    rfl

/-- A channel has room for another item. -/
def HasRoom (s : Line α) (n : Nat) : Prop :=
  ∃ lane, s.store.lanes[n]? = some lane ∧ lane.hasRoom = true

/-- A call that waits in a channel with room can go on. -/
theorem Reachable.not_isStill_of_room (h : s.Reachable) (hc : s.calls[i]? = some c)
    (hp : c.place = .waiting n) (hroom : s.HasRoom n) : ¬ s.IsStill := by
  intro hs
  obtain ⟨lane, hl, hr⟩ := hroom
  rcases h.cases_of_isStill hs hc with hover | hstay | ⟨m, hwait, hfull⟩
  · rw [Call.isOver, hp] at hover
    cases hover
  · rw [hp] at hstay
    cases hstay
  · rw [hp] at hwait
    cases hwait
    simp [mayResume, hl, hr] at hfull

/-! ## What is gained -/

theorem Settles.pending_le (h : s.Settles t) (hs : s.Reachable) : t.pending ≤ s.pending := by
  obtain ⟨hr, -⟩ := h
  induction hr with
  | refl => exact Nat.le_refl _
  | step a hr ha hstep ih =>
    obtain ⟨i, rfl⟩ := ha
    have hle := ((hs.reaches hr.reaches).named.pending_of_advance hstep).1
    exact Nat.le_trans hle ih

/-- Where all calls have to wait, one of them comes to something, or they all stay
where they are. -/
theorem Settles.eq_or_pending_lt (h : s.Settles t) (hs : s.Reachable)
    (hhalted : ∀ c ∈ s.calls, c.place.isHalted = true) : t = s ∨ t.pending < s.pending := by
  obtain ⟨hr, -⟩ := h
  induction hr with
  | refl => exact .inl rfl
  | @step u v a hr ha hstep ih =>
    obtain ⟨i, rfl⟩ := ha
    have hn := (hs.reaches hr.reaches).named
    obtain ⟨hle, hless⟩ := hn.pending_of_advance hstep
    rcases ih with rfl | hlt
    · -- The first step is one of a call that waits.
      obtain ⟨c, c', hc, -, -, hrank⟩ := hn.turn_of_advance hstep
      have hplace := hhalted c (List.mem_of_getElem? hc)
      cases hp : c.place with
      | waiting n => exact .inr (hless c n hc hp)
      | staying | «over» => simp [hp, Place.rank] at hrank
      | _ => simp [hp, Place.isHalted] at hplace
    · exact .inr (Nat.lt_of_le_of_lt hle hlt)

end Line

end Conveyor
