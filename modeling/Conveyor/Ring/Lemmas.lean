/-
Conveyor.Ring.Lemmas — what each operation does to the items of a ring.

`Ring.Holds r q` says that the slots and cursors of `r` are those of a ring
with the items `q`. The operations keep it: a push adds an item at the end
of `q`, unless the write cursor is at the end of its range; a pop takes the
first one. A ring that holds anything holds its `toList`.
-/
import Conveyor.Ring.Basic

namespace Conveyor.Ring

variable {α : Type u}

/-- The ring holds the items `q`, oldest first: `q` fits, the cursors are as
far apart as `q` is long, the item number `k` of `q` lies in the slot of its
sequence number, and all other slots are empty. -/
structure Holds (r : Ring α) (q : List α) : Prop where
  write_eq : r.write.toNat = r.read.toNat + q.length
  length_le : q.length ≤ r.capacity
  filled : ∀ k (h : k < q.length),
    r.slots[(r.read.toNat + k) % r.capacity]? = some (some q[k])
  vacant : ∀ i, i < r.capacity →
    (∀ k, k < q.length → (r.read.toNat + k) % r.capacity ≠ i) → r.slots[i]? = some none

theorem capacity_pos (r : Ring α) : 0 < r.capacity := r.slots_pos

@[simp] theorem capacity_empty (n : Nat) (h : 0 < n) : (empty n h : Ring α).capacity = n := by
  simp [capacity, empty]

@[simp] theorem capacity_put (r : Ring α) (seq : UInt64) (x : Option α) :
    (r.put seq x).capacity = r.capacity := by
  simp [capacity, put]

theorem holds_empty (n : Nat) (h : 0 < n) : (empty n h : Ring α).Holds [] where
  write_eq := rfl
  length_le := Nat.zero_le _
  filled := fun k hk => absurd hk (Nat.not_lt_zero k)
  vacant := fun i hi _ => by
    rw [capacity_empty] at hi
    simp [empty, hi]

/-- Two numbers less than `n` apart with the same remainder by `n` are the
same. -/
theorem eq_of_mod_eq {a b n : Nat} (hab : a ≤ b) (hlt : b < a + n) (h : a % n = b % n) : a = b := by
  have hd : (b - a) % n = 0 := Nat.sub_mod_eq_zero_of_mod_eq h.symm
  have := Nat.mod_eq_of_lt (show b - a < n by omega)
  omega

namespace Holds

variable {r : Ring α} {q : List α}

theorem read_le_write (h : r.Holds q) : r.read ≤ r.write :=
  UInt64.le_iff_toNat_le.mpr (by rw [h.write_eq]; omega)

theorem size_eq (h : r.Holds q) : r.size = q.length := by
  rw [Ring.size, UInt64.toNat_sub_of_le _ _ h.read_le_write, h.write_eq]
  omega

/-- Sequence numbers of items do not leave the range of a word. -/
theorem toNat_read_add (h : r.Holds q) {k : Nat} (hk : k ≤ q.length) :
    (r.read + UInt64.ofNat k).toNat = r.read.toNat + k := by
  have hw := r.write.toNat_lt
  have he := h.write_eq
  rw [UInt64.toNat_add, UInt64.toNat_ofNat']
  omega

theorem at?_read_add (h : r.Holds q) {k : Nat} (hk : k < q.length) :
    r.at? (r.read + UInt64.ofNat k) = some q[k] := by
  rw [at?, slotOf, h.toNat_read_add (Nat.le_of_lt hk), ← capacity, h.filled k hk]
  rfl

/-- What a ring holds is what its view shows. -/
theorem toList_eq (h : r.Holds q) : r.toList = q := by
  have hmap : (List.range q.length).map (fun k => r.at? (r.read + UInt64.ofNat k)) = q.map some := by
    apply List.ext_getElem
    · simp
    · intro k hk _
      have hk' : k < q.length := by simpa using hk
      simp [h.at?_read_add hk']
  calc r.toList
      = ((List.range q.length).map fun k => r.at? (r.read + UInt64.ofNat k)).filterMap id := by
        rw [List.filterMap_map, toList, h.size_eq]; rfl
    _ = q := by rw [hmap, List.filterMap_map]; simp

/-! ## Push -/

/-- Slots of different items of a ring are different. -/
theorem mod_ne_of_lt {c s j k : Nat} (hjk : j < k) (hk : k < c) : (s + j) % c ≠ (s + k) % c := by
  intro he
  have := eq_of_mod_eq (show s + j ≤ s + k by omega) (by omega) he
  omega

theorem slotOf_write (h : r.Holds q) :
    r.slotOf r.write = (r.read.toNat + q.length) % r.capacity := by
  rw [slotOf, h.write_eq, capacity]

/-- A ring with room takes an item in behind the others, as long as there are
sequence numbers left. -/
theorem push (h : r.Holds q) (room : q.length < r.capacity) (hw : r.write.toNat + 1 < UInt64.size)
    (a : α) :
    ∃ r', r.push a = .ok r' ∧ r'.Holds (q ++ [a]) ∧ r'.capacity = r.capacity ∧
      r'.read = r.read ∧ r'.write.toNat = r.write.toNat + 1 := by
  let r' : Ring α := { r.put r.write (some a) with write := r.write + 1 }
  have hnext : r'.write.toNat = r.write.toNat + 1 := by
    show (r.write + 1).toNat = _
    rw [UInt64.toNat_add]
    show (r.write.toNat + 1) % UInt64.size = _
    exact Nat.mod_eq_of_lt hw
  have hcap : r'.capacity = r.capacity := capacity_put r r.write (some a)
  have hslots : ∀ i, r'.slots[i]? =
      if (r.read.toNat + q.length) % r.capacity = i then some (some a) else r.slots[i]? := by
    intro i
    show (r.slots.set (r.slotOf r.write) (some a) (r.slotOf_lt r.write))[i]? = _
    rw [Array.getElem?_set, h.slotOf_write]
  have hholds : r'.Holds (q ++ [a]) := by
    refine ⟨?_, ?_, ?_, ?_⟩
    · rw [hnext, h.write_eq, List.length_append]; rfl
    · rw [hcap, List.length_append]; exact room
    · intro k hk
      have hread : r'.read = r.read := rfl
      rw [hslots, hcap, hread]
      by_cases hkq : k < q.length
      · rw [if_neg (mod_ne_of_lt hkq room).symm, h.filled k hkq, List.getElem_append_left hkq]
      · have hkl : k = q.length := by simp at hk; omega
        subst hkl
        simp
    · intro i hi hne
      rw [hcap] at hi
      have hread : r'.read = r.read := rfl
      rw [hcap, hread] at hne
      rw [hslots, if_neg (hne q.length (by simp))]
      exact h.vacant i hi fun k hk => hne k (by simp; omega)
  refine ⟨r', ?_, hholds, hcap, rfl, hnext⟩
  have hback : ¬ r.write + 1 < r.write := by
    rw [UInt64.lt_iff_toNat_lt]
    show ¬ r'.write.toNat < r.write.toNat
    omega
  have hfull : ¬ r'.capacity < r'.size := by
    rw [hholds.size_eq, hcap, List.length_append]
    exact Nat.not_lt.mpr room
  show (if r.write + 1 < r.write then _ else if r'.capacity < r'.size then _ else _) = _
  rw [if_neg hback, if_neg hfull]

/-- A ring whose sequence numbers are used up takes nothing in. -/
theorem push_of_last (r : Ring α) (hw : r.write.toNat + 1 = UInt64.size) (a : α) :
    r.push a = .error (.writeBackwards r.write (r.write + 1)) := by
  have hback : r.write + 1 < r.write := by
    rw [UInt64.lt_iff_toNat_lt, UInt64.toNat_add]
    show (r.write.toNat + 1) % UInt64.size < _
    have hsize : 1 < UInt64.size := by decide
    rw [hw, Nat.mod_self]
    omega
  exact if_pos hback

/-! ## Pop -/

/-- There is nothing to take out of a ring that holds nothing. -/
theorem pop_nil (h : r.Holds []) : r.pop = .ok (none, r) := by
  have he : r.read = r.write := UInt64.toNat_inj.mp (by rw [h.write_eq]; rfl)
  exact if_pos he

/-- The first item of a ring comes out first, and the others stay. -/
theorem pop_cons {a : α} (h : r.Holds (a :: q)) :
    ∃ r', r.pop = .ok (some a, r') ∧ r'.Holds q ∧ r'.capacity = r.capacity ∧
      r'.write = r.write := by
  let r' : Ring α := { r.put r.read none with read := r.read + 1 }
  have hw := r.write.toNat_lt_size
  have he : r.write.toNat = r.read.toNat + (q.length + 1) := h.write_eq
  have hnext : (r.read + 1).toNat = r.read.toNat + 1 := by
    rw [UInt64.toNat_add]
    show (r.read.toNat + 1) % UInt64.size = _
    exact Nat.mod_eq_of_lt (by omega)
  have hcap : r'.capacity = r.capacity := capacity_put r r.read none
  have hlen : q.length < r.capacity := h.length_le
  have hslots : ∀ i, r'.slots[i]? =
      if r.read.toNat % r.capacity = i then some none else r.slots[i]? := by
    intro i
    show (r.slots.set (r.slotOf r.read) none (r.slotOf_lt r.read))[i]? = _
    rw [Array.getElem?_set]
    rfl
  have hread : r'.read.toNat = r.read.toNat + 1 := hnext
  have hholds : r'.Holds q := by
    refine ⟨?_, ?_, ?_, ?_⟩
    · show r.write.toNat = _
      rw [hread]; omega
    · rw [hcap]; omega
    · intro k hk
      have hne : r.read.toNat % r.capacity ≠ (r.read.toNat + (k + 1)) % r.capacity :=
        mod_ne_of_lt (Nat.succ_pos k) (by omega)
      have hfill := h.filled (k + 1) (by simpa using hk)
      rw [hslots, hcap, hread, Nat.add_assoc, Nat.add_comm 1 k, if_neg hne, hfill]
      rfl
    · intro i hi hne
      rw [hcap] at hi
      rw [hcap, hread] at hne
      rw [hslots]
      by_cases hi0 : r.read.toNat % r.capacity = i
      · rw [if_pos hi0]
      · rw [if_neg hi0]
        apply h.vacant i hi
        intro k hk
        cases k with
        | zero => exact hi0
        | succ k =>
          have := hne k (by simpa using hk)
          rwa [Nat.add_assoc, Nat.add_comm 1 k] at this
  refine ⟨r', ?_, hholds, hcap, rfl⟩
  have hitem : r.at? r.read = some a := by
    have := h.at?_read_add (k := 0) (Nat.succ_pos _)
    simpa using this
  have h1 : ¬ r.read = r.write := fun hrw => by
    have := congrArg UInt64.toNat hrw
    omega
  have h2 : ¬ r.write < r.read + 1 := by
    rw [UInt64.lt_iff_toNat_lt, hnext]; omega
  have h3 : ¬ r.read + 1 < r.read := by
    rw [UInt64.lt_iff_toNat_lt, hnext]; omega
  show (if r.read = r.write then _ else if r.write < r.read + 1 then _
    else if r.read + 1 < r.read then _ else Except.ok (r.at? r.read, r')) = _
  rw [if_neg h1, if_neg h2, if_neg h3, hitem]

/-- Taking `n` items takes the first `n` out, or all if there are fewer. -/
theorem popMany (h : r.Holds q) (n : Nat) :
    ∃ r', r.popMany n = .ok (q.take n, r') ∧ r'.Holds (q.drop n) ∧ r'.capacity = r.capacity ∧
      r'.write = r.write := by
  induction n generalizing r q with
  | zero => exact ⟨r, rfl, h, rfl, rfl⟩
  | succ n ih =>
    cases q with
    | nil => exact ⟨r, by rw [Ring.popMany, h.pop_nil]; rfl, h, rfl, rfl⟩
    | cons a q =>
      obtain ⟨r', hpop, hr', hcap, hwrite⟩ := h.pop_cons
      obtain ⟨r'', hmany, hr'', hcap', hwrite'⟩ := ih hr'
      refine ⟨r'', ?_, hr'', hcap'.trans hcap, hwrite'.trans hwrite⟩
      rw [Ring.popMany, hpop]
      show (r'.popMany n >>= _) = _
      rw [hmany]
      rfl

end Holds

end Conveyor.Ring
