/-
Conveyor.Lane.Lemmas — what a writer and a reader do to the items of a
channel.

`Lane.Holds l q` says that the channel `l` holds the items `q`. An attempt
to write has one of five ends, which the flag, the room and the policy
decide between; a reader takes the first items out.
-/
import Conveyor.Lane.Basic
import Conveyor.Ring.Lemmas

namespace Conveyor.Lane

variable {α : Type u}

/-- The channel holds the items `q`, oldest first. -/
def Holds (l : Lane α) (q : List α) : Prop := l.ring.Holds q

theorem ofCapacity_of_pos {n : Nat} (hn : 0 < n) :
    (ofCapacity n : Checked (Lane α)) = .ok { ring := .empty n hn } := by
  simp only [ofCapacity, Ring.ofCapacity, hn, ↓reduceDIte]
  rfl

theorem exists_of_ofCapacity {n : Nat} {l : Lane α} (h : ofCapacity n = .ok l) :
    ∃ hn : 0 < n, l = { ring := .empty n hn } := by
  by_cases hn : 0 < n
  · rw [ofCapacity_of_pos hn] at h
    cases h
    exact ⟨hn, rfl⟩
  · simp only [ofCapacity, Ring.ofCapacity, hn, ↓reduceDIte] at h
    cases h

theorem holds_ofCapacity {n : Nat} {l : Lane α} (h : ofCapacity n = .ok l) :
    l.Holds [] ∧ l.closed = false ∧ l.capacity = n := by
  obtain ⟨hn, rfl⟩ := exists_of_ofCapacity h
  exact ⟨Ring.holds_empty n hn, rfl, Ring.capacity_empty n hn⟩

namespace Holds

variable {l : Lane α} {q : List α}

theorem size_eq (h : l.Holds q) : l.size = q.length := Ring.Holds.size_eq h

theorem toList_eq (h : l.Holds q) : l.toList = q := Ring.Holds.toList_eq h

theorem hasRoom_iff (h : l.Holds q) : l.hasRoom = true ↔ q.length < l.capacity := by
  simp [hasRoom, h.size_eq]

end Holds

/-! ## Writing -/

/-- A closed channel refuses everything. -/
theorem attempt_of_closed {l : Lane α} (hc : l.closed = true) (policy : WhenFull) (a : α) :
    l.attempt policy a = .ok (.refused .closed a) := by
  simp [attempt, hc]
  rfl

namespace Holds

variable {l : Lane α} {q : List α}

/-- An open channel with room stores the item behind the others. -/
theorem attempt_of_room (h : l.Holds q) (ho : l.closed = false) (room : q.length < l.capacity)
    (hw : l.ring.write.toNat + 1 < UInt64.size) (policy : WhenFull) (a : α) :
    ∃ l', l.attempt policy a = .ok (.accepted .stored none l') ∧ l'.Holds (q ++ [a]) ∧
      l'.closed = false ∧ l'.capacity = l.capacity ∧
      l'.ring.write.toNat = l.ring.write.toNat + 1 := by
  obtain ⟨r', hpush, hr', hcap, -, hwrite⟩ := Ring.Holds.push h room hw a
  refine ⟨{ l with ring := r' }, ?_, hr', ho, hcap, hwrite⟩
  simp only [attempt, ho, h.hasRoom_iff.mpr room, hpush]
  rfl

theorem hasRoom_of_full (h : l.Holds q) (full : l.capacity ≤ q.length) : l.hasRoom = false := by
  rw [Bool.eq_false_iff, Ne, h.hasRoom_iff]
  exact Nat.not_lt.mpr full

/-- A full open channel refuses an item whose writer does not insist. -/
theorem attempt_refuse (h : l.Holds q) (ho : l.closed = false) (full : l.capacity ≤ q.length)
    (a : α) : l.attempt .refuse a = .ok (.refused .full a) := by
  simp only [attempt, ho, h.hasRoom_of_full full]
  rfl

/-- A writer who wants to wait has to, while an open channel is full. -/
theorem attempt_wait (h : l.Holds q) (ho : l.closed = false) (full : l.capacity ≤ q.length)
    (a : α) : l.attempt .wait a = .ok .mustWait := by
  simp only [attempt, ho, h.hasRoom_of_full full]
  rfl

/-- The oldest item of a full open channel makes room for one that evicts. -/
theorem attempt_evict {b : α} (h : l.Holds (b :: q)) (ho : l.closed = false)
    (full : l.capacity ≤ q.length + 1) (hw : l.ring.write.toNat + 1 < UInt64.size) (a : α) :
    ∃ l', l.attempt .evict a = .ok (.accepted .evicted (some b) l') ∧ l'.Holds (q ++ [a]) ∧
      l'.closed = false ∧ l'.capacity = l.capacity ∧
      l'.ring.write.toNat = l.ring.write.toNat + 1 := by
  obtain ⟨r', hpop, hr', hcap, hwrite⟩ := Ring.Holds.pop_cons h
  have room : q.length < r'.capacity := by
    rw [hcap]
    exact h.length_le
  obtain ⟨r'', hpush, hr'', hcap', -, hwrite'⟩ := hr'.push room (by rw [hwrite]; exact hw) a
  refine ⟨{ l with ring := r'' }, ?_, hr'', ho, hcap'.trans hcap, by rw [hwrite', hwrite]⟩
  simp only [attempt, ho, h.hasRoom_of_full full, hpop]
  show (r'.push a >>= _) = _
  rw [hpush]
  rfl

/-! ## Reading -/

/-- A reader takes the first items out, as many as it asked for or as there
are. -/
theorem take (h : l.Holds q) (limit : Nat) :
    ∃ l', l.take limit = .ok ⟨min q.length limit, q.take limit, l'⟩ ∧ l'.Holds (q.drop limit) ∧
      l'.closed = l.closed ∧ l'.capacity = l.capacity ∧ l'.ring.write = l.ring.write := by
  obtain ⟨r', hmany, hr', hcap, hwrite⟩ := Ring.Holds.popMany h (min l.size limit)
  have htake : q.take (min l.size limit) = q.take limit := by
    rw [h.size_eq, List.take_eq_take_iff]
    omega
  have hdrop : q.drop (min l.size limit) = q.drop limit := by
    rw [h.size_eq, List.drop_eq_drop_iff]
    omega
  refine ⟨{ l with ring := r' }, ?_, ?_, rfl, hcap, hwrite⟩
  · rw [Lane.take, hmany, htake, h.size_eq]
    rfl
  · rw [hdrop] at hr'
    exact hr'

/-- A reader without a limit takes everything. -/
theorem take_noLimit (h : l.Holds q) :
    ∃ l', l.take noLimit = .ok ⟨q.length, q, l'⟩ ∧ l'.Holds [] ∧
      l'.closed = l.closed ∧ l'.capacity = l.capacity ∧ l'.ring.write = l.ring.write := by
  have hlen : q.length ≤ noLimit := by
    have := l.min_size_noLimit
    rw [h.size_eq] at this
    omega
  obtain ⟨l', htake, hl', hrest⟩ := h.take noLimit
  rw [List.take_of_length_le hlen, Nat.min_eq_left hlen] at htake
  rw [List.drop_eq_nil_of_le hlen] at hl'
  exact ⟨l', htake, hl', hrest⟩

end Holds

end Conveyor.Lane
