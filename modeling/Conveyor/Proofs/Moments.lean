/-
Conveyor.Proofs.Moments — what one party does in a run of many.

A run is a list of actions, and they belong to different parties; some of them cannot
happen when their turn comes, and are left out. `moments` keeps the steps of one party,
each by what there was before it and what there was after it. So it can be said of a
party that it did a thing once, or never, whatever the others did in between.
`moments_induction` is the induction over a run that goes with it.
-/

namespace Conveyor

/-- A step, by what there was before and what there is after it. -/
structure Moment (σ : Type u) where
  before : σ
  after : σ

section
variable {σ : Type u} {κ : Type v} (step : σ → κ → Option σ) (mine : κ → Bool)

/-- The moments of those steps of a run that are mine. -/
def moments (s : σ) : List κ → List (Moment σ)
  | [] => []
  | k :: ks =>
    match step s k with
    | none => moments s ks
    | some t => if mine k then ⟨s, t⟩ :: moments t ks else moments t ks

/-- What holds of a run and of my moments in it holds one step later. -/
theorem moments_induction {P : List (Moment σ) → σ → Prop} {s : σ} (ks : List κ)
    (start : P [] s)
    (own : ∀ ms s t k, mine k = true → step s k = some t → P ms s → P (ms ++ [⟨s, t⟩]) t)
    (other : ∀ ms s t k, mine k = false → step s k = some t → P ms s → P ms t) :
    P (moments step mine s ks) (ks.foldl (fun s k => (step s k).getD s) s) := by
  suffices ∀ ms, P ms s → P (ms ++ moments step mine s ks)
      (ks.foldl (fun s k => (step s k).getD s) s) by
    simpa using this [] start
  clear start
  induction ks generalizing s with
  | nil =>
    intro ms h
    simpa [moments] using h
  | cons k ks ih =>
    intro ms h
    cases hs : step s k with
    | none => simpa [moments, hs] using ih ms h
    | some t =>
      cases hk : mine k with
      | true =>
        have hrest := ih _ (own ms s t k hk hs h)
        rw [List.append_assoc] at hrest
        simpa [moments, hs, hk] using hrest
      | false => simpa [moments, hs, hk] using ih ms (other ms s t k hk hs h)

end

/-! ## Things that are done once -/

section
variable {β : Type u} {does leaves : β → Prop} {l : List β} {x : β}

/-- One entry does it, and all others leave it. -/
def Once (does leaves : β → Prop) (l : List β) : Prop :=
  ∃ pre x post, l = pre ++ x :: post ∧ does x ∧ ∀ y ∈ pre ++ post, leaves y

theorem Once.concat (h : Once does leaves l) (hx : leaves x) : Once does leaves (l ++ [x]) := by
  obtain ⟨pre, y, post, rfl, hy, hrest⟩ := h
  refine ⟨pre, y, post ++ [x], by simp, hy, fun z hz => ?_⟩
  rw [← List.append_assoc, List.mem_append] at hz
  rcases hz with hz | hz
  · exact hrest z hz
  · exact List.mem_singleton.mp hz ▸ hx

theorem once_concat (h : ∀ y ∈ l, leaves y) (hx : does x) : Once does leaves (l ++ [x]) :=
  ⟨l, x, [], rfl, hx, by simpa using h⟩

theorem forall_mem_concat (h : ∀ y ∈ l, leaves y) (hx : leaves x) : ∀ y ∈ l ++ [x], leaves y := by
  intro y hy
  rcases List.mem_append.mp hy with hy | hy
  · exact h y hy
  · exact List.mem_singleton.mp hy ▸ hx

end

end Conveyor
