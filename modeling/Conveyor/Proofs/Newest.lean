/-
Conveyor.Proofs.Newest — writers who evict keep the newest items.

`Lane.attempts` writes items one after the other, with nothing in between. As long as
there is room an item is stored, and from then on each item pushes the oldest one out
(`Lane.Holds.evict`); so wherever the ring stands and whatever it holds, what has left it
after a run is the beginning of what it held and was given, and what it holds is the rest
(`Lane.Holds.attempts_evict`).
-/
import Conveyor.Proofs.Queue

namespace Conveyor

variable {α : Type u}

namespace Attempt

/-- How the item was accepted, if it was. -/
def how? : Attempt α → Option Acceptance
  | accepted how _ _ => some how
  | _ => none

/-- The item that was pushed out, if one was. -/
def out? : Attempt α → Option α
  | accepted _ out _ => out
  | _ => none

/-- The channel after the attempt, which was `l` before. -/
def lane (l : Lane α) : Attempt α → Lane α
  | accepted _ _ l' => l'
  | _ => l

end Attempt

namespace Lane

variable {l l₁ l' : Lane α} {q xs : List α} {ends : List (Attempt α)}

/-- What becomes of these items, written one after the other, and the channel after them. -/
def attempts (l : Lane α) (policy : WhenFull) : List α → Checked (List (Attempt α) × Lane α)
  | [] => return ([], l)
  | a :: rest => do
    let attempt ← l.attempt policy a
    let (attempts, lane) ← (attempt.lane l).attempts policy rest
    return (attempt :: attempts, lane)

/-- By how many items a channel that holds `q` is too small for `xs` besides. -/
def excess (l : Lane α) (q xs : List α) : Nat := q.length + xs.length - l.capacity

/-- What is said of the writes of `xs` to the channel `l`, which held `q`, and of the channel
`l'` after them, if only the newest items have been kept. -/
structure KeepsNewest (l : Lane α) (q xs : List α) (ends : List (Attempt α)) (l' : Lane α) :
    Prop where
  /-- Every item was accepted, and the last ones pushed others out. -/
  how : ends.map Attempt.how? = List.replicate (xs.length - l.excess q xs) (some .stored) ++
    List.replicate (l.excess q xs) (some .evicted)
  /-- The oldest items are gone, in their order. -/
  out : ends.filterMap Attempt.out? = (q ++ xs).take (l.excess q xs)
  /-- The others are there, in their order. -/
  items : l'.toList = (q ++ xs).drop (l.excess q xs)
  isOpen : l'.closed = false
  capacity : l'.capacity = l.capacity

theorem excess_singleton (hfit : q.length ≤ l.capacity) (a : α) :
    l.excess q [a] = if q.length < l.capacity then 0 else 1 := by
  rw [excess, List.length_singleton]
  split <;> omega

/-- There is too much by what is too much now and by what is too much later. -/
theorem excess_cons (hcap : l₁.capacity = l.capacity) (a : α) (rest : List α) :
    l.excess q (a :: rest) =
      l.excess q [a] + l₁.excess ((q ++ [a]).drop (l.excess q [a])) rest := by
  simp only [excess, List.length_drop, List.length_append, List.length_cons, List.length_nil, hcap]
  omega

/-- As long as there is room, the items that push others out are all still to come; after
that, all of them do. -/
theorem how_cons (hfit : q.length ≤ l.capacity) (hcap : l₁.capacity = l.capacity) (a : α)
    (rest : List α) :
    let later := l₁.excess ((q ++ [a]).drop (l.excess q [a])) rest
    some (if q.length < l.capacity then Acceptance.stored else .evicted) ::
        (List.replicate (rest.length - later) (some .stored) ++
          List.replicate later (some .evicted)) =
      List.replicate ((a :: rest).length - l.excess q (a :: rest)) (some .stored) ++
        List.replicate (l.excess q (a :: rest)) (some .evicted) := by
  intro later
  have hlater : later = l.excess q (a :: rest) - l.excess q [a] := by
    rw [excess_cons hcap, Nat.add_sub_cancel_left]
  rw [hlater, excess_singleton hfit, excess, List.length_cons]
  split
  · have hstored : rest.length + 1 - (q.length + (rest.length + 1) - l.capacity) =
        rest.length - (q.length + (rest.length + 1) - l.capacity) + 1 := by omega
    rw [hstored, Nat.sub_zero, List.replicate_succ, List.cons_append]
  · have hevicted : q.length + (rest.length + 1) - l.capacity = rest.length + 1 := by omega
    rw [hevicted, Nat.add_sub_cancel, Nat.sub_self, Nat.sub_self, List.replicate_succ]
    rfl

namespace Holds

/-- One item, written to an open channel by a writer who evicts. -/
theorem evict (h : l.Holds q) (ho : l.closed = false)
    (hw : l.ring.write.toNat + 1 < UInt64.size) (a : α) :
    ∃ out l', l.attempt .evict a =
        .ok (.accepted (if q.length < l.capacity then .stored else .evicted) out l') ∧
      out.toList = (q ++ [a]).take (l.excess q [a]) ∧
      l'.Holds ((q ++ [a]).drop (l.excess q [a])) ∧ l'.closed = false ∧
      l'.capacity = l.capacity ∧ l'.ring.write.toNat = l.ring.write.toNat + 1 := by
  rw [excess_singleton h.length_le]
  by_cases room : q.length < l.capacity
  · rw [if_pos room, if_pos room]
    obtain ⟨l', hattempt, hholds, hrest⟩ := h.attempt_of_room ho room hw .evict a
    exact ⟨none, l', hattempt, rfl, hholds, hrest⟩
  · rw [if_neg room, if_neg room]
    cases q with
    | nil => exact absurd l.ring.capacity_pos room
    | cons b rest =>
      obtain ⟨l', hattempt, hholds, hrest⟩ := h.attempt_evict ho (Nat.not_lt.mp room) hw a
      exact ⟨some b, l', hattempt, rfl, hholds, hrest⟩

/-- Items, written one after the other to an open channel by writers who evict. -/
theorem attempts_evict (h : l.Holds q) (ho : l.closed = false) (xs : List α)
    (hw : l.ring.write.toNat + xs.length < UInt64.size) :
    ∃ ends l', l.attempts .evict xs = .ok (ends, l') ∧ KeepsNewest l q xs ends l' := by
  induction xs generalizing l q with
  | nil =>
    have hexcess : l.excess q [] = 0 := Nat.sub_eq_zero_of_le h.length_le
    refine ⟨[], l, rfl, ?_, ?_, ?_, ho, rfl⟩
    · rw [hexcess]
      rfl
    · rw [hexcess]
      rfl
    · rw [hexcess, List.append_nil, List.drop_zero, h.toList_eq]
  | cons a rest ih =>
    rw [List.length_cons] at hw
    obtain ⟨out, l₁, hattempt, hout, h₁, ho₁, hcap₁, hw₁⟩ := h.evict ho (by omega) a
    obtain ⟨ends, l', hattempts, hkeeps⟩ := ih h₁ ho₁ (by omega)
    have happend : q ++ a :: rest = (q ++ [a]) ++ rest := by
      rw [List.append_assoc, List.singleton_append]
    have hone : l.excess q [a] ≤ (q ++ [a]).length := by
      rw [List.length_append]
      exact Nat.sub_le _ _
    have htake : (q ++ a :: rest).take (l.excess q [a]) = out.toList := by
      rw [happend, List.take_append_of_le_length hone, hout]
    have hdrop : (q ++ a :: rest).drop (l.excess q [a]) =
        (q ++ [a]).drop (l.excess q [a]) ++ rest := by
      rw [happend, List.drop_append_of_le_length hone]
    let how : Acceptance := if q.length < l.capacity then .stored else .evicted
    refine ⟨.accepted how out l₁ :: ends, l', ?_, ?_, ?_, ?_, hkeeps.isOpen,
      hkeeps.capacity.trans hcap₁⟩
    · rw [attempts, hattempt]
      show (l₁.attempts .evict rest >>= _) = _
      rw [hattempts]
      rfl
    · rw [List.map_cons, hkeeps.how, Attempt.how?]
      exact how_cons h.length_le hcap₁ a rest
    · rw [excess_cons hcap₁ a rest, List.take_add, htake, hdrop, ← hkeeps.out, List.filterMap_cons,
        Attempt.out?]
      cases out <;> rfl
    · rw [hkeeps.items, excess_cons hcap₁ a rest, ← List.drop_drop, hdrop]

end Holds

/-- As many items are there as fit. -/
theorem KeepsNewest.size (h : KeepsNewest l q xs ends l') :
    l'.toList.length = min l.capacity (q.length + xs.length) := by
  rw [h.items, List.length_drop, List.length_append, excess]
  omega

/-- **Writers who evict keep the newest items.** A channel that has been asked for anything,
and is open, holds some items at some place of its ring. Let items be written to it by
writers who evict. All are accepted; the last ones push others out, as many as there is too
little room for; pushed out are the oldest of all, in their order, and the others stay. -/
theorem evict_keeps_newest {capacity : Nat} (hc : 0 < capacity) (requests : List (Request α))
    (xs : List α)
    (hlt : (Queue.serve { capacity } requests).1.countP Response.isAccepted + xs.length <
      UInt64.size) :
    ∃ start l, ofCapacity capacity = .ok start ∧
      start.serve requests = .ok ((Queue.serve { capacity } requests).1, l) ∧
      l.capacity = capacity ∧
      (l.closed = false → ∃ ends l', l.attempts .evict xs = .ok (ends, l') ∧
        KeepsNewest l l.toList xs ends l' ∧
        l'.toList.length = min capacity (l.toList.length + xs.length)) := by
  obtain ⟨l, hserve, h⟩ := (serves_ofCapacity hc).serve requests (by omega)
  have hcap : l.capacity = capacity := h.capacity.trans (Queue.capacity_serve _ requests)
  refine ⟨_, l, ofCapacity_of_pos hc, hserve, hcap, fun ho => ?_⟩
  obtain ⟨ends, l', hattempts, hkeeps⟩ :=
    h.holds.attempts_evict ho xs (by rw [h.written, Nat.zero_add]; exact hlt)
  rw [← h.holds.toList_eq] at hkeeps
  exact ⟨ends, l', hattempts, hkeeps, hcap ▸ hkeeps.size⟩

/-- Three slots: four writes, of which the last one evicts, and a drain of two, so that one
item is left, and the ring has begun its second round. -/
def drainedInPart : List (Request Nat) :=
  [.write .wait 1, .write .wait 2, .write .refuse 3, .write .evict 4, .drain 2 []]

/-- More items come than the channel has room for. -/
theorem evict_keeps_newest_drainedInPart :
    ∃ start l : Lane Nat, ofCapacity 3 = .ok start ∧
      start.serve drainedInPart = .ok ((Queue.serve { capacity := 3 } drainedInPart).1, l) ∧
      (l.ring.read, l.toList, l.closed) = (3, [4], false) ∧
      ∃ ends l', l.attempts .evict [5, 6, 7, 8, 9] = .ok (ends, l') ∧
        KeepsNewest l [4] [5, 6, 7, 8, 9] ends l' := by
  obtain ⟨start, l, hstart, hserve, -, hkeeps⟩ :=
    evict_keeps_newest (by decide : 0 < 3) drainedInPart [5, 6, 7, 8, 9] (by decide)
  have hrun : ((ofCapacity 3 : Checked (Lane Nat)).toOption.bind fun start =>
      (start.serve drainedInPart).toOption.map fun x => (x.2.ring.read, x.2.toList, x.2.closed)) =
        some (3, [4], false) := by decide +kernel
  have hshows : (l.ring.read, l.toList, l.closed) = (3, [4], false) := by
    simpa [hstart, hserve, Except.toOption] using hrun
  have hitems : l.toList = [4] := congrArg (fun x => x.2.1) hshows
  obtain ⟨ends, l', hattempts, hnewest, -⟩ := hkeeps (congrArg (fun x => x.2.2) hshows)
  exact ⟨start, l, hstart, hserve, hshows, ends, l', hattempts, hitems ▸ hnewest⟩

end Lane

end Conveyor
