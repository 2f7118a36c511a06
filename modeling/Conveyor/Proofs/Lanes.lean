/-
Conveyor.Proofs.Lanes — the channels of a line that is reached hold what
their views show.

A sound channel is one whose slots and cursors fit its view. What a writer
or a reader gets from a sound channel is said here of the two views,
before and after, so that nothing further on looks at a slot. All channels
of a line stay sound (`Reachable.sound`); in particular a worker never
meets a fault when it takes items. All that a writer can be told is listed in
`Lane.Attempted`.
-/
import Conveyor.Lane.Lemmas
import Conveyor.Proofs.Steps

namespace Conveyor

variable {α : Type u}

/-! ## Results that are there -/

theorem bind_eq_ok {ε : Type w} {β γ : Type v} {x : Except ε β} {f : β → Except ε γ} {c : γ} :
    (x >>= f) = .ok c ↔ ∃ b, x = .ok b ∧ f b = .ok c := by
  cases x with
  | error e => simp [bind, Except.bind]
  | ok b => simp [bind, Except.bind]

theorem map_eq_ok {ε : Type w} {β γ : Type v} {x : Except ε β} {f : β → γ} {c : γ} :
    (f <$> x) = .ok c ↔ ∃ b, x = .ok b ∧ f b = c := by
  cases x with
  | error e => simp [Functor.map, Except.map]
  | ok b => simp [Functor.map, Except.map]

/-- A push that succeeds has put the item behind the others. -/
theorem Ring.Holds.of_push {r r' : Ring α} {q : List α} {a : α} (h : r.Holds q)
    (room : q.length < r.capacity) (hp : r.push a = .ok r') : r'.Holds (q ++ [a]) := by
  by_cases hw : r.write.toNat + 1 < UInt64.size
  · obtain ⟨r'', hpush, hr, -⟩ := h.push room hw a
    rw [hpush] at hp
    cases hp
    exact hr
  · have hlast : r.write.toNat + 1 = UInt64.size := by
      have := r.write.toNat_lt_size
      omega
    rw [push_of_last r hlast] at hp
    cases hp

namespace Lane

variable {l l' : Lane α} {a : α} {policy : WhenFull}

/-- The channel holds what its view shows. -/
def IsSound (l : Lane α) : Prop := l.Holds l.toList

theorem Holds.isSound {q : List α} (h : l.Holds q) : l.IsSound := by
  rw [IsSound, h.toList_eq]
  exact h

theorem isSound_ofCapacity {n : Nat} (h : ofCapacity n = .ok l) : l.IsSound ∧ l.toList = [] :=
  ⟨(holds_ofCapacity h).1.isSound, (holds_ofCapacity h).1.toList_eq⟩

/-- A refused item is handed back, for one of two reasons. -/
theorem of_attempt_refused {why : Refusal} {back : α}
    (h : l.attempt policy a = .ok (.refused why back)) :
    back = a ∧ (why = .closed ∨ why = .full) := by
  unfold attempt at h
  by_cases hc : l.closed = true
  · simp only [hc, if_true, pure, Except.pure, Except.ok.injEq, Attempt.refused.injEq] at h
    exact ⟨h.2.symm, .inl h.1.symm⟩
  by_cases hr : l.hasRoom = true
  · simp [hc, hr, map_eq_ok] at h
  · cases policy with
    | refuse =>
      simp [hc, hr, pure, Except.pure] at h
      exact ⟨h.2.symm, .inr h.1.symm⟩
    | wait => simp [hc, hr, pure, Except.pure] at h
    | evict => simp [hc, hr, bind_eq_ok, map_eq_ok] at h

namespace IsSound

/-- An accepted item is the newest, and the item it pushed out, if any, was
the oldest. -/
theorem of_accepted (h : l.IsSound) {how : Acceptance} {out : Option α}
    (ha : l.attempt policy a = .ok (.accepted how out l')) :
    l'.IsSound ∧ ∃ rest, l.toList = out.toList ++ rest ∧ l'.toList = rest ++ [a] := by
  unfold attempt at ha
  by_cases hc : l.closed = true
  · simp [hc, pure, Except.pure] at ha
  by_cases hr : l.hasRoom = true
  · simp only [hc, hr, if_true, Bool.false_eq_true, if_false, bind_eq_ok, pure, Except.pure,
      Except.ok.injEq, Attempt.accepted.injEq] at ha
    obtain ⟨ring, hpush, rfl, rfl, rfl⟩ := ha
    have hl := Ring.Holds.of_push h (h.hasRoom_iff.mp hr) hpush
    exact ⟨Holds.isSound hl, l.toList, rfl, Holds.toList_eq hl⟩
  · cases policy with
    | refuse => simp [hc, hr, pure, Except.pure] at ha
    | wait => simp [hc, hr, pure, Except.pure] at ha
    | evict =>
      simp only [hc, hr, Bool.false_eq_true, if_false, bind_eq_ok, pure, Except.pure,
        Except.ok.injEq, Attempt.accepted.injEq] at ha
      obtain ⟨⟨out', ring⟩, hpop, ring', hpush, rfl, rfl, rfl⟩ := ha
      cases hq : l.toList with
      | nil =>
        have hroom := (h.hasRoom_iff).mpr (by rw [hq]; exact l.ring.capacity_pos)
        exact absurd hroom hr
      | cons b q =>
        have hb : Ring.Holds l.ring (b :: q) := hq ▸ h
        obtain ⟨ring'', hpop', hring, hcap, -⟩ := hb.pop_cons
        rw [hpop'] at hpop
        cases hpop
        have hl := hring.of_push (by rw [hcap]; exact hb.length_le) hpush
        exact ⟨Holds.isSound hl, q, rfl, Holds.toList_eq hl⟩

/-- A reader takes the oldest items out, as many as it asked for or as there
are. -/
theorem of_take (h : l.IsSound) {limit : Nat} {taken : Taken α} (ht : l.take limit = .ok taken) :
    taken.lane.IsSound ∧ l.toList = taken.items ++ taken.lane.toList := by
  obtain ⟨l', htake, hl', -⟩ := Holds.take h limit
  rw [htake] at ht
  cases ht
  refine ⟨hl'.isSound, ?_⟩
  show l.toList = l.toList.take limit ++ l'.toList
  rw [hl'.toList_eq, List.take_append_drop]

/-- A reader without a limit leaves nothing. -/
theorem of_take_noLimit (h : l.IsSound) {taken : Taken α} (ht : l.take noLimit = .ok taken) :
    taken.lane.toList = [] := by
  obtain ⟨l', htake, hl', -⟩ := Holds.take_noLimit h
  rw [htake] at ht
  cases ht
  exact hl'.toList_eq

/-- A reader of a sound channel meets no fault. -/
theorem take_ne_error (h : l.IsSound) (limit : Nat) (fault : Fault) :
    l.take limit ≠ .error fault := by
  obtain ⟨l', htake, -⟩ := Holds.take h limit
  rw [htake]
  exact fun he => nomatch he

end IsSound

/-! ## All answers to a writer -/

/-- The channel after a write: one sequence number further, open as before,
and as large. -/
structure Advanced (l l' : Lane α) : Prop where
  sound : l'.IsSound
  closed : l'.closed = false
  capacity : l'.capacity = l.capacity
  write : l'.ring.write.toNat = l.ring.write.toNat + 1

/-- What a writer of `a` can be told, each answer with what it says of the
channel. -/
inductive Attempted (l : Lane α) (policy : WhenFull) (a : α) : Checked (Attempt α) → Prop
  | closed : l.closed = true → Attempted l policy a (.ok (.refused .closed a))
  | stored {l' : Lane α} : l.closed = false → l.toList.length < l.capacity → l.Advanced l' →
      l'.toList = l.toList ++ [a] → Attempted l policy a (.ok (.accepted .stored none l'))
  | full : l.closed = false → l.capacity = l.toList.length → policy = .refuse →
      Attempted l policy a (.ok (.refused .full a))
  | waits : l.closed = false → l.capacity = l.toList.length → policy = .wait →
      Attempted l policy a (.ok .mustWait)
  | evicted {l' : Lane α} {b : α} {rest : List α} : l.closed = false →
      l.capacity = l.toList.length → policy = .evict → l.Advanced l' → l.toList = b :: rest →
      l'.toList = rest ++ [a] → Attempted l policy a (.ok (.accepted .evicted (some b) l'))
  /-- There is no sequence number for the item. -/
  | usedUp (fault : Fault) : l.closed = false → l.ring.write.toNat + 1 = UInt64.size →
      Attempted l policy a (.error fault)

theorem IsSound.attempted (h : l.IsSound) (policy : WhenFull) (a : α) :
    l.Attempted policy a (l.attempt policy a) := by
  cases hc : l.closed with
  | true =>
    rw [attempt_of_closed hc]
    exact .closed hc
  | false =>
    have hnext : l.ring.write.toNat + 1 < UInt64.size ∨ l.ring.write.toNat + 1 = UInt64.size := by
      have := l.ring.write.toNat_lt_size
      omega
    by_cases room : l.toList.length < l.capacity
    · rcases hnext with hlt | hlast
      · obtain ⟨l', hl', hholds, ho, hcap, hwrite⟩ := Holds.attempt_of_room h hc room hlt policy a
        rw [hl']
        exact .stored hc room ⟨hholds.isSound, ho, hcap, hwrite⟩ hholds.toList_eq
      · have hfault : l.attempt policy a =
            .error (.writeBackwards l.ring.write (l.ring.write + 1)) := by
          simp only [attempt, hc, h.hasRoom_iff.mpr room, Ring.Holds.push_of_last _ hlast]
          rfl
        rw [hfault]
        exact .usedUp _ hc hlast
    · have full : l.capacity ≤ l.toList.length := Nat.not_lt.mp room
      have hlen : l.capacity = l.toList.length := Nat.le_antisymm full (Ring.Holds.length_le h)
      cases policy with
      | refuse =>
        rw [h.attempt_refuse hc full]
        exact .full hc hlen rfl
      | wait =>
        rw [h.attempt_wait hc full]
        exact .waits hc hlen rfl
      | evict =>
        obtain ⟨b, rest, hq⟩ : ∃ b rest, l.toList = b :: rest :=
          List.exists_cons_of_length_pos (hlen ▸ l.ring.capacity_pos)
        have hb : l.Holds (b :: rest) := hq ▸ h
        rcases hnext with hlt | hlast
        · obtain ⟨l', hl', hholds, ho, hcap, hwrite⟩ :=
            hb.attempt_evict hc (hq ▸ full : l.capacity ≤ (b :: rest).length) hlt a
          rw [hl']
          exact .evicted hc hlen rfl ⟨hholds.isSound, ho, hcap, hwrite⟩ hq hholds.toList_eq
        · obtain ⟨ring, hpop, -, -, hwrite⟩ := Ring.Holds.pop_cons hb
          have hpush := Ring.Holds.push_of_last ring (by rw [hwrite]; exact hlast) a
          have hfault : l.attempt .evict a =
              .error (.writeBackwards ring.write (ring.write + 1)) := by
            simp only [attempt, hc, h.hasRoom_of_full full, hpop]
            show (ring.push a >>= _) = _
            rw [hpush]
            rfl
          rw [hfault]
          exact .usedUp _ hc hlast

end Lane

namespace Line

variable {s t : Line α}

/-- Every channel holds what its view shows. -/
def Sound (s : Line α) : Prop := ∀ lane ∈ s.store.lanes, lane.IsSound

theorem Sound.lane (h : s.Sound) {n : Nat} {lane : Lane (Parcel α)}
    (hl : s.store.lanes[n]? = some lane) : lane.IsSound :=
  h lane (List.mem_of_getElem? hl)

theorem Sound.setLane (h : s.Sound) {n : Nat} {lane : Lane (Parcel α)} (hl : lane.IsSound) :
    ∀ l ∈ (s.store.setLane n lane).lanes, l.IsSound := by
  intro l hmem
  rcases List.mem_or_eq_of_mem_set hmem with hold | rfl
  · exact h l hold
  · exact hl

theorem Effect.sound (e : Effect s t) (h : s.Sound) : t.Sound := by
  cases e with
  | write _ _ _ hl ha => exact h.setLane ((h.lane hl).of_accepted ha).1
  | @closeLane _ lane hl =>
    have hlane : lane.IsSound := h.lane hl
    have hclose : lane.close.IsSound := hlane
    exact h.setLane hclose
  | drain hl ht => exact h.setLane ((h.lane hl).of_take ht).1
  | sweep _ _ _ hl ht => exact h.setLane ((h.lane hl).of_take ht).1
  | _ => exact h

/-- All channels of a new row are made alike. -/
theorem ofCapacity_of_mem {count room : Nat} {router : Router α} {policy : WhenFull}
    {store : LaneSet α} (hstore : LaneSet.ofCounts count room router policy = .ok store)
    {lane : Lane α} (hmem : lane ∈ store.lanes) : Lane.ofCapacity room = .ok lane := by
  by_cases hc : count = 0
  · simp only [LaneSet.ofCounts, hc, if_true, pure, Except.pure, Except.ok.injEq] at hstore
    subst hstore
    cases hmem
  · simp only [LaneSet.ofCounts, hc, if_false, bind_eq_ok, pure, Except.pure,
      Except.ok.injEq] at hstore
    obtain ⟨lane', hlane, rfl⟩ := hstore
    obtain rfl := List.eq_of_mem_replicate hmem
    exact hlane

/-- The channels of a fresh line are sound and empty. -/
theorem IsFresh.lanes (h : s.IsFresh) :
    ∀ lane ∈ s.store.lanes, lane.IsSound ∧ lane.toList = [] := by
  obtain ⟨_, _, _, _, store, hstore, rfl⟩ := h
  exact fun lane hmem => Lane.isSound_ofCapacity (ofCapacity_of_mem hstore hmem)

theorem Reachable.sound (h : s.Reachable) : s.Sound :=
  h.induction (fun _ hf lane hmem => (hf.lanes lane hmem).1) fun _ _ hs e => e.sound hs

end Line

end Conveyor
