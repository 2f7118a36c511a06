/-
Conveyor.Hub.Registry — one entry per name, sorted by name.

Names are compared character by character, which for their bytes comes
to the same. An entry is taken back only by someone who can say what it
holds, so that nobody takes back what another has put there since.
-/

namespace Conveyor

/-- Entries under names, each name once, in increasing order. -/
structure Registry (σ : Type u) where
  entries : List (String × σ) := []

namespace Registry

variable {σ : Type u}

/-- Nothing is registered. -/
def empty : Registry σ := {}

instance : EmptyCollection (Registry σ) := ⟨empty⟩

/-- What is registered under a name. -/
def get? (r : Registry σ) (name : String) : Option σ := r.entries.lookup name

/-- The entries with one put in its place among the sorted names. -/
def insertEntry (name : String) (x : σ) : List (String × σ) → List (String × σ)
  | [] => [(name, x)]
  | (other, y) :: rest =>
    if name = other then (name, x) :: rest
    else if name < other then (name, x) :: (other, y) :: rest
    else (other, y) :: insertEntry name x rest

/-- The registry with `x` under a name, in place of what was there. -/
def insert (r : Registry σ) (name : String) (x : σ) : Registry σ :=
  ⟨insertEntry name x r.entries⟩

/-- The registry without the entry under a name. -/
def erase (r : Registry σ) (name : String) : Registry σ :=
  ⟨r.entries.filter fun (other, _) => other ≠ name⟩

/-- The registry without the entry under a name, if that is `x`. -/
def eraseIf [DecidableEq σ] (r : Registry σ) (name : String) (x : σ) : Registry σ :=
  if r.get? name = some x then r.erase name else r

/-- The names with an entry. -/
def names (r : Registry σ) : List String := r.entries.map Prod.fst

/-- The number of entries. -/
def size (r : Registry σ) : Nat := r.entries.length

/-- Whether nothing is registered. -/
def isEmpty (r : Registry σ) : Bool := r.entries.isEmpty

end Registry

end Conveyor
