/-
Conveyor.Hub.Lemmas — what the operations of a registry do to the entries.

Looking up after putting something in or taking it out (`get?_insert`, `get?_erase`,
`get?_eraseIf`), and the names, which stay sorted (`IsSorted`). In a sorted registry the
entries are what is found under their names.
-/
import Conveyor.Hub.Registry
import Mathlib.Data.String.Basic

namespace Conveyor

namespace Registry

variable {σ : Type u} {r : Registry σ} {name other : String} {x y : σ}

/-- Each name stands once, and they increase. -/
def IsSorted (r : Registry σ) : Prop := r.names.Pairwise (· < ·)

theorem lookup_cons_eq (entry : String × σ) (rest : List (String × σ)) :
    (entry :: rest).lookup name = if name = entry.1 then some entry.2 else rest.lookup name := by
  obtain ⟨key, y⟩ := entry
  by_cases h : name = key
  · simp [h]
  · simp [List.lookup_cons, h, beq_eq_false_iff_ne.mpr h]

/-- An entry that is made is found under its name, and every other name gives what it gave. -/
theorem lookup_insertEntry (name : String) (x : σ) (entries : List (String × σ)) (other : String) :
    (insertEntry name x entries).lookup other =
      if other = name then some x else entries.lookup other := by
  induction entries with
  | nil => simp [insertEntry, lookup_cons_eq]
  | cons entry rest ih =>
    obtain ⟨first, y⟩ := entry
    unfold insertEntry
    split
    · next h =>
      subst h
      by_cases hother : other = name <;> simp [lookup_cons_eq, hother]
    · split
      · simp [lookup_cons_eq]
      · next hne _ =>
        by_cases hfirst : other = first
        · simp [hfirst, Ne.symm hne]
        · simp [lookup_cons_eq, hfirst, ih]

/-- What stands under a name when an entry was made. -/
@[simp] theorem get?_insert :
    (r.insert name x).get? other = if other = name then some x else r.get? other :=
  lookup_insertEntry name x r.entries other

/-- An empty registry has nothing under any name. -/
@[simp] theorem get?_empty : (∅ : Registry σ).get? name = none := rfl

/-- An entry that is removed is found no more, and every other name gives what it gave. -/
theorem lookup_filter_ne (entries : List (String × σ)) :
    (entries.filter fun (key, _) => key ≠ name).lookup other =
      if other = name then none else entries.lookup other := by
  induction entries with
  | nil => simp
  | cons entry rest ih =>
    obtain ⟨key, y⟩ := entry
    by_cases hkey : key = name
    · rw [List.filter_cons_of_neg (by simpa using hkey), ih, lookup_cons_eq, hkey]
      split <;> rfl
    · rw [List.filter_cons_of_pos (by simpa using hkey), lookup_cons_eq, lookup_cons_eq, ih]
      by_cases hother : other = name
      · rw [if_pos hother, if_pos hother, if_neg (hother ▸ Ne.symm hkey)]
      · rw [if_neg hother, if_neg hother]

/-- What stands under a name when an entry was removed. -/
@[simp] theorem get?_erase :
    (r.erase name).get? other = if other = name then none else r.get? other :=
  lookup_filter_ne r.entries

/-- An entry that is taken back is gone if it is the right one, and nothing else is. -/
theorem get?_eraseIf [DecidableEq σ] :
    (r.eraseIf name x).get? other = some y ↔
      r.get? other = some y ∧ ¬(other = name ∧ y = x) := by
  unfold eraseIf
  split
  · next hx =>
    rw [get?_erase]
    by_cases hother : other = name
    · subst hother
      simp [hx, eq_comm]
    · simp [hother]
  · next hx =>
    refine ⟨fun h => ⟨h, ?_⟩, And.left⟩
    rintro ⟨rfl, rfl⟩
    exact hx h

/-- The names are those under which something stands. -/
theorem mem_names : name ∈ r.names ↔ (r.get? name).isSome := by
  obtain ⟨entries⟩ := r
  unfold names get?
  induction entries with
  | nil => simp
  | cons entry rest ih =>
    rw [List.map_cons, List.mem_cons, ih, lookup_cons_eq]
    by_cases h : name = entry.1 <;> simp [h]

/-- What is found stands in the list. -/
theorem mem_of_get? (h : r.get? name = some x) : (name, x) ∈ r.entries := by
  obtain ⟨entries⟩ := r
  unfold get? at h
  induction entries with
  | nil => cases h
  | cons entry rest ih =>
    rw [lookup_cons_eq] at h
    split at h
    · next hname =>
      cases h
      simp [hname]
    · exact List.mem_cons_of_mem _ (ih h)

/-- An entry that is made brings its own name at most. -/
theorem mem_keys_insertEntry {entries : List (String × σ)}
    (h : other ∈ (insertEntry name x entries).map Prod.fst) :
    other = name ∨ other ∈ entries.map Prod.fst := by
  have hname : other ∈ (Registry.mk (insertEntry name x entries)).names := h
  rw [mem_names, get?, lookup_insertEntry] at hname
  by_cases heq : other = name
  · exact .inl heq
  · rw [if_neg heq] at hname
    exact .inr (mem_names (r := ⟨entries⟩) |>.mpr hname)

theorem IsSorted.empty : (∅ : Registry σ).IsSorted := List.Pairwise.nil

/-- A new entry goes where its name belongs. -/
theorem IsSorted.insert (h : r.IsSorted) : (r.insert name x).IsSorted := by
  obtain ⟨entries⟩ := r
  unfold IsSorted names Registry.insert at *
  induction entries with
  | nil => simp [insertEntry]
  | cons entry rest ih =>
    obtain ⟨first, y⟩ := entry
    obtain ⟨hfirst, hrest⟩ := List.pairwise_cons.mp h
    unfold insertEntry
    split
    · next heq =>
      subst heq
      exact h
    · split
      · next hlt =>
        refine List.pairwise_cons.mpr ⟨?_, h⟩
        intro key hkey
        rcases List.mem_cons.mp hkey with rfl | hkey
        · exact hlt
        · exact hlt.trans (hfirst key hkey)
      · next hne hge =>
        refine List.pairwise_cons.mpr ⟨?_, ih hrest⟩
        intro key hkey
        rcases mem_keys_insertEntry hkey with rfl | hkey
        · exact lt_of_le_of_ne (not_lt.mp hge) (Ne.symm hne)
        · exact hfirst key hkey

/-- Without an entry, the others are still in order. -/
theorem IsSorted.eraseIf [DecidableEq σ] (h : r.IsSorted) : (r.eraseIf name x).IsSorted := by
  unfold Registry.eraseIf
  split
  · exact h.sublist (List.filter_sublist.map Prod.fst)
  · exact h

/-- In a sorted registry, the entries are what is found under their names. -/
theorem IsSorted.get?_of_mem (h : r.IsSorted) (hmem : (name, x) ∈ r.entries) :
    r.get? name = some x := by
  obtain ⟨entries⟩ := r
  unfold IsSorted names at h
  unfold get?
  induction entries with
  | nil => cases hmem
  | cons entry rest ih =>
    obtain ⟨hfirst, hrest⟩ := List.pairwise_cons.mp h
    rw [lookup_cons_eq]
    rcases List.mem_cons.mp hmem with rfl | hmem
    · simp
    · have hlt : entry.1 < name := hfirst name (List.mem_map_of_mem (f := Prod.fst) hmem)
      rw [if_neg hlt.ne']
      exact ih hrest hmem

end Registry

end Conveyor
