/-
Conveyor.Proofs.Queue — a channel answers every request as a bounded queue
does.

`Lane.Serves l q n` ties a channel to the queue that it passes for: the ring
holds the items of the queue, the flags agree, and `n` items were written so
far. One request keeps the tie and gets one answer on both sides
(`Serves.respond`), and so does a run of requests (`Serves.serve`), as long
as the sequence numbers last. What the tie says of cursors and slots is
spelled out in `Lane.Shows`.
-/
import Conveyor.Lane.Lemmas
import Conveyor.Lane.Queue

namespace Conveyor

variable {α : Type u}

namespace Queue

/-- No request makes more room, or less. -/
theorem capacity_respond (q : Queue α) (request : Request α) :
    (q.respond request).2.capacity = q.capacity := by
  cases request with
  | write policy a =>
    unfold respond
    simp only
    split
    · rfl
    · split
      · rfl
      · cases policy <;> rfl
  | _ => rfl

theorem capacity_serve (q : Queue α) (requests : List (Request α)) :
    (q.serve requests).2.capacity = q.capacity := by
  induction requests generalizing q with
  | nil => rfl
  | cons request rest ih => exact (ih _).trans (q.capacity_respond request)

end Queue

namespace Lane

variable {l : Lane α} {q : Queue α} {n : Nat}

/-- The channel passes for the queue `q`, and `n` items were written to it. -/
structure Serves (l : Lane α) (q : Queue α) (n : Nat) : Prop where
  holds : l.Holds q.items
  closed : l.closed = q.closed
  capacity : l.capacity = q.capacity
  written : l.ring.write.toNat = n

/-- The flag, the cursors and the slots of a channel that passes for the queue
`q`. The item number `k` of the queue has the sequence number `read + k`; it
lies in the slot of that number, and no other slot is filled. -/
structure Shows (l : Lane α) (q : Queue α) : Prop where
  closed : l.closed = q.closed
  capacity : l.capacity = q.capacity
  read_le_write : l.ring.read ≤ l.ring.write
  span : l.ring.write.toNat - l.ring.read.toNat = q.items.length
  length_le : q.items.length ≤ q.capacity
  slotOf : ∀ seq, l.ring.slotOf seq = seq.toNat % q.capacity
  filled : ∀ seq, l.ring.read.toNat ≤ seq → seq < l.ring.write.toNat →
    ∃ a, q.items[seq - l.ring.read.toNat]? = some a ∧
      l.ring.slots[seq % q.capacity]? = some (some a)
  isSome_iff : ∀ i, i < q.capacity → ((∃ a, l.ring.slots[i]? = some (some a)) ↔
    ∃ seq, l.ring.read.toNat ≤ seq ∧ seq < l.ring.write.toNat ∧ seq % q.capacity = i)

namespace Serves

theorem shows (h : l.Serves q n) : l.Shows q := by
  have hring : l.ring.capacity = q.capacity := h.capacity
  have hwrite : l.ring.write.toNat = l.ring.read.toNat + q.items.length := h.holds.write_eq
  have hfilled : ∀ seq, l.ring.read.toNat ≤ seq → seq < l.ring.write.toNat →
      ∃ a, q.items[seq - l.ring.read.toNat]? = some a ∧
        l.ring.slots[seq % q.capacity]? = some (some a) := by
    intro seq hle hlt
    have hk : seq - l.ring.read.toNat < q.items.length := by omega
    have hslot := h.holds.filled _ hk
    rw [Nat.add_sub_cancel' hle, hring] at hslot
    exact ⟨_, List.getElem?_eq_getElem hk, hslot⟩
  refine ⟨h.closed, h.capacity, h.holds.read_le_write, by omega, ?_, ?_, hfilled, ?_⟩
  · exact hring ▸ h.holds.length_le
  · intro seq
    rw [← hring]
    rfl
  · intro i hi
    constructor
    · rintro ⟨a, ha⟩
      by_cases hseq : ∃ k, k < q.items.length ∧ (l.ring.read.toNat + k) % q.capacity = i
      · obtain ⟨k, hk, he⟩ := hseq
        exact ⟨l.ring.read.toNat + k, Nat.le_add_right _ k, by omega, he⟩
      · have hvacant := h.holds.vacant i (hring ▸ hi) fun k hk he => hseq ⟨k, hk, hring ▸ he⟩
        rw [hvacant] at ha
        cases ha
    · rintro ⟨seq, hle, hlt, rfl⟩
      obtain ⟨a, -, ha⟩ := hfilled seq hle hlt
      exact ⟨a, ha⟩

/-! ## One request -/

/-- A write gets the answer that the queue gives. -/
theorem write (h : l.Serves q n) (policy : WhenFull) (a : α)
    (hlt : n + (q.respond (.write policy a)).1.isAccepted.toNat < UInt64.size) :
    ∃ l', l.respond (.write policy a) = .ok ((q.respond (.write policy a)).1, l') ∧
      l'.Serves (q.respond (.write policy a)).2
        (n + (q.respond (.write policy a)).1.isAccepted.toNat) := by
  have hw := h.written
  cases hc : q.closed with
  | true =>
    simp only [Queue.respond, hc, if_true]
    refine ⟨l, ?_, h⟩
    rw [Lane.respond, attempt_of_closed (h.closed.trans hc)]
    rfl
  | false =>
    have ho : l.closed = false := h.closed.trans hc
    by_cases room : q.items.length < q.capacity
    · simp only [Queue.respond, hc, room, if_true, Bool.false_eq_true, if_false] at hlt ⊢
      have hnext : n + 1 < UInt64.size := hlt
      obtain ⟨l', hl', hholds, hclosed, hcap, hwrite⟩ :=
        h.holds.attempt_of_room ho (h.capacity.symm ▸ room) (by rw [hw]; exact hnext) policy a
      refine ⟨l', ?_, hholds, hclosed, hcap.trans h.capacity, by rw [hwrite, hw]; rfl⟩
      rw [Lane.respond, hl']
      rfl
    · have full : l.capacity ≤ q.items.length := h.capacity.symm ▸ Nat.not_lt.mp room
      cases policy with
      | refuse =>
        simp only [Queue.respond, hc, room, Bool.false_eq_true, if_false]
        refine ⟨l, ?_, h⟩
        rw [Lane.respond, h.holds.attempt_refuse ho full]
        rfl
      | wait =>
        simp only [Queue.respond, hc, room, Bool.false_eq_true, if_false]
        refine ⟨l, ?_, h⟩
        rw [Lane.respond, h.holds.attempt_wait ho full]
        rfl
      | evict =>
        simp only [Queue.respond, hc, room, Bool.false_eq_true, if_false] at hlt ⊢
        have hnext : n + 1 < UInt64.size := hlt
        -- A full queue has a first item, since it has room for one.
        obtain ⟨b, rest, hitems⟩ : ∃ b rest, q.items = b :: rest := by
          refine List.exists_cons_of_length_pos ?_
          have hpos : 0 < l.capacity := l.ring.capacity_pos
          omega
        have hholds : l.Holds (b :: rest) := hitems ▸ h.holds
        rw [hitems] at full
        obtain ⟨l', hl', hholds', hclosed, hcap, hwrite⟩ :=
          hholds.attempt_evict ho full (by rw [hw]; exact hnext) a
        refine ⟨l', ?_, ?_, hclosed, hcap.trans h.capacity, by rw [hwrite, hw]; rfl⟩
        · rw [Lane.respond, hl']
          rfl
        · rw [hitems]
          exact hholds'

/-- **One request, one answer.** The channel answers as the queue does, and
passes for the queue afterwards. -/
theorem respond (h : l.Serves q n) (request : Request α)
    (hlt : n + (q.respond request).1.isAccepted.toNat < UInt64.size) :
    ∃ l', l.respond request = .ok ((q.respond request).1, l') ∧
      l'.Serves (q.respond request).2 (n + (q.respond request).1.isAccepted.toNat) := by
  cases request with
  | write policy a => exact h.write policy a hlt
  | drain limit out =>
    obtain ⟨l', hl', hholds, hclosed, hcap, hwrite⟩ := h.holds.take limit
    have htake : q.items.take (min q.items.length limit) = q.items.take limit := by
      rw [List.take_eq_take_iff]
      omega
    have hdrop : q.items.drop (min q.items.length limit) = q.items.drop limit := by
      rw [List.drop_eq_drop_iff]
      omega
    refine ⟨l', ?_, ?_, hclosed.trans h.closed, hcap.trans h.capacity, ?_⟩
    · rw [Lane.respond, hl']
      simp only [Queue.respond, htake]
      rfl
    · simp only [Queue.respond, hdrop]
      exact hholds
    · rw [hwrite, h.written]
      rfl
  | close => exact ⟨l.close, rfl, h.holds, rfl, h.capacity, h.written⟩
  | size =>
    refine ⟨l, ?_, h⟩
    simp only [Lane.respond, Queue.respond, h.holds.size_eq]
    rfl
  | isEmpty =>
    refine ⟨l, ?_, h⟩
    have hempty : l.isEmpty = q.items.isEmpty := by
      rw [Lane.isEmpty, h.holds.size_eq]
      cases q.items <;> rfl
    simp only [Lane.respond, Queue.respond, hempty]
    rfl

/-! ## A run of requests -/

theorem serve (h : l.Serves q n) (requests : List (Request α))
    (hlt : n + (q.serve requests).1.countP Response.isAccepted < UInt64.size) :
    ∃ l', l.serve requests = .ok ((q.serve requests).1, l') ∧
      l'.Serves (q.serve requests).2 (n + (q.serve requests).1.countP Response.isAccepted) := by
  induction requests generalizing l q n with
  | nil => exact ⟨l, rfl, h⟩
  | cons request requests ih =>
    have hcount : n + (q.serve (request :: requests)).1.countP Response.isAccepted =
        n + (q.respond request).1.isAccepted.toNat +
          ((q.respond request).2.serve requests).1.countP Response.isAccepted := by
      simp only [Queue.serve, List.countP_cons]
      cases (q.respond request).1.isAccepted
      · simp
      · simp
        omega
    rw [hcount] at hlt ⊢
    obtain ⟨l₁, hrespond, h₁⟩ := h.respond request (by omega)
    obtain ⟨l₂, hserve, h₂⟩ := ih h₁ hlt
    refine ⟨l₂, ?_, h₂⟩
    rw [Lane.serve, hrespond]
    show (l₁.serve requests >>= _) = _
    rw [hserve]
    rfl

end Serves

theorem serves_ofCapacity {capacity : Nat} (hc : 0 < capacity) :
    Serves (α := α) { ring := Ring.empty capacity hc } { capacity } 0 := by
  obtain ⟨hholds, hclosed, hcap⟩ := holds_ofCapacity (ofCapacity_of_pos (α := α) hc)
  exact ⟨hholds, hclosed, hcap, rfl⟩

/-- **A channel is a bounded queue.** Whatever a fresh channel is asked, it
answers what the queue answers, and never fails, as long as fewer than `2 ^ 64`
items are stored. What is said of the channel after the run is true all along
it, since the beginning of a run is a run; a writer who was told to wait and is
woken makes a request of its own. -/
theorem serve_eq_queue {capacity : Nat} (hc : 0 < capacity) (requests : List (Request α))
    (hlt : (Queue.serve { capacity } requests).1.countP Response.isAccepted < UInt64.size) :
    ∃ start l, ofCapacity capacity = .ok start ∧
      start.serve requests = .ok ((Queue.serve { capacity } requests).1, l) ∧
      l.Shows (Queue.serve { capacity } requests).2 := by
  obtain ⟨l, hserve, h⟩ := (serves_ofCapacity hc).serve requests (by rwa [Nat.zero_add])
  exact ⟨_, l, ofCapacity_of_pos hc, hserve, h.shows⟩

/-- Three slots: two writes and a partial drain, so that the next ones go round
the end; an eviction, a refusal and a wait; a drain of nothing, a close, a
refused write, and a drain of whatever there is. -/
def roundTrip : List (Request Nat) :=
  [.write .wait 1, .write .refuse 2, .drain 1 [], .write .wait 3, .write .evict 4,
    .write .evict 5, .write .refuse 6, .write .wait 7, .drain 0 [9], .close, .write .evict 8,
    .size, .drain 18446744073709551615 [9], .isEmpty]

theorem serve_eq_queue_roundTrip :
    (0 < 3 ∧ (Queue.serve { capacity := 3 } roundTrip).1.countP Response.isAccepted <
      UInt64.size) ∧
    (Queue.serve { capacity := 3 } roundTrip).1 =
      [.wrote (.accepted .stored), .wrote (.accepted .stored), .drained 1 [1],
        .wrote (.accepted .stored), .wrote (.accepted .stored), .wrote (.accepted .evicted),
        .wrote (.refused .full 6), .mustWait, .drained 0 [9], .closed,
        .wrote (.refused .closed 8), .size 3, .drained 3 [9, 3, 4, 5], .isEmpty true] ∧
    ∃ start l, ofCapacity 3 = .ok start ∧
      start.serve roundTrip = .ok ((Queue.serve { capacity := 3 } roundTrip).1, l) ∧
      l.Shows (Queue.serve { capacity := 3 } roundTrip).2 :=
  ⟨⟨by decide, by decide⟩, by decide,
    serve_eq_queue (by decide : 0 < 3) roundTrip (by decide)⟩

end Lane

end Conveyor
