/-
Conveyor.Proofs.Exchange — a carrier that changes its pool.

While pools are exchanged and nobody closes one otherwise, the carrier has
a running pool at every moment: the new one has begun before new calls find
it, and the old one is closed only then. A call may still be turned away. It
looks its pool up, is counted in it and sees whether it runs, one after the
other, and all three steps of an exchange fit in between; what it finds
closed then is the pool that it had looked up. This is the only way
(`QuietlyReaches.refused_iff`).
-/
import Conveyor.Proofs.Admission
import Conveyor.Proofs.Lanes

namespace Conveyor

variable {α : Type u}

/-- Whether the action closes no pool, unless for another. -/
def Action.isQuiet : Action α → Bool
  | .shutdown | .closePool _ => false
  | _ => true

/-- Whether the action has nothing to do with how far the pools are, or with which
one the carrier has. -/
def Action.isTraffic : Action α → Bool
  | .build _ | .begin _ | .install _ | .publish | .retire | .shutdown | .closePool _ => false
  | _ => true

namespace Line

variable {s t : Line α} {i p : Nat}

/-- The states that quiet actions lead to from `s`. -/
inductive QuietlyReaches (s : Line α) : Line α → Prop
  | refl : QuietlyReaches s s
  | step {t u : Line α} (a : Action α) :
      QuietlyReaches s t → a.isQuiet = true → t.step a = some u → QuietlyReaches s u

theorem QuietlyReaches.reaches (h : QuietlyReaches s t) : Reaches s t := by
  induction h with
  | refl => exact .refl
  | step a _ _ hs ih => exact ih.step a hs

/-! ## How far a carrier and its pools are -/

/-- The carrier's pools, its exchange, and the stages of all pools. -/
def standing (s : Line α) : (Option Nat × Option Nat × Exchange) × List Stage :=
  ((s.active, s.installed, s.exchange), s.pools.map Pool.stage)

/-- How far pool `p` is. -/
def stage? (s : Line α) (p : Nat) : Option Stage := (s.pools.map Pool.stage)[p]?

/-- The stage of a pool that exists. -/
theorem stage?_eq {pool : Pool (Parcel α)} (hp : s.pools[p]? = some pool) :
    s.stage? p = some pool.stage := by
  rw [stage?, List.getElem?_map, hp, Option.map_some]

/-- Only a pool that exists is at a stage. -/
theorem exists_pool_of_stage? {stage : Stage} (h : s.stage? p = some stage) :
    ∃ pool, s.pools[p]? = some pool ∧ pool.stage = stage := by
  rwa [stage?, List.getElem?_map, Option.map_eq_some_iff] at h

/-- The gate's own question, in terms of the stage. -/
theorem isRunning_iff : s.isRunning p = true ↔ s.stage? p = some .running := by
  rw [isRunning, stage?, List.getElem?_map]
  cases s.pools[p]? with
  | none => simp
  | some pool => simp [Pool.isRunning]

/-- Nobody has had to do with how far the pools are, or with which one the carrier has; each
pool has as many workers as before, there is nothing new for the log, and no pool was closed
and had its workers woken. -/
structure SparesPools (s t : Line α) : Prop where
  standing : t.standing = s.standing
  crews : t.pools.map (fun pool => pool.workers.length) =
    s.pools.map fun pool => pool.workers.length
  journal : t.journal = s.journal
  wakings : t.wakings = s.wakings

theorem map_modify_of_eq {β : Type v} {γ : Type w} (l : List β) (i : Nat) {f : β → β} {g : β → γ}
    (hf : ∀ a, g (f a) = g a) : (l.modify i f).map g = l.map g := by
  cases hi : l[i]? with
  | none => rw [List.modify_eq_self (List.getElem?_eq_none_iff.mp hi)]
  | some a => rw [modify_eq_set_of_getElem? hi, map_set_of_eq hi (hf a)]

/-- A pool may change in everything but its stage and the number of its workers. -/
theorem sparesPools_mapPool (s : Line α) (p : Nat) {f : Pool (Parcel α) → Pool (Parcel α)}
    (hstage : ∀ pool, (f pool).stage = pool.stage)
    (hcrew : ∀ pool, (f pool).workers.length = pool.workers.length) :
    s.SparesPools (s.mapPool p f) where
  standing := by
    rw [standing, mapPool, map_modify_of_eq s.pools p hstage]
    rfl
  crews := map_modify_of_eq s.pools p hcrew
  journal := rfl
  wakings := rfl

theorem sparesPools_lookUp (s : Line α) (i : Nat) (errand : Errand α) :
    s.SparesPools (s.lookUp i errand) := by
  cases errand with
  | write item policy => cases policy <;> exact ⟨rfl, rfl, rfl, rfl⟩
  | _ => exact ⟨rfl, rfl, rfl, rfl⟩

theorem sparesPools_enter (s : Line α) (i p : Nat) (errand : Errand α) :
    s.SparesPools (s.enter i p errand) := by
  unfold enter
  split <;> exact ⟨rfl, rfl, rfl, rfl⟩

theorem sparesPools_write (s : Line α) (i n : Nat) (policy : WhenFull) (item : α) :
    s.SparesPools (s.write i n policy item) := by
  unfold write
  split
  · exact ⟨rfl, rfl, rfl, rfl⟩
  · split <;> exact ⟨rfl, rfl, rfl, rfl⟩

theorem sparesPools_route (s : Line α) (i : Nat) (policy : WhenFull) (item : α) :
    s.SparesPools (s.route i policy item) := by
  unfold route
  simp only
  split <;> exact ⟨rfl, rfl, rfl, rfl⟩

theorem sparesPools_count (s : Line α) (i : Nat) (c : Call α) (result : WriteResult α) :
    s.SparesPools (s.count i c result) := by
  unfold count
  split <;> exact ⟨rfl, rfl, rfl, rfl⟩

theorem sparesPools_finish (s : Line α) (i : Nat) (c : Call α) (verdict : Verdict α) :
    s.SparesPools (s.finish i c verdict) := by
  unfold finish
  split
  · exact ⟨rfl, rfl, rfl, rfl⟩
  · next p _ =>
    have hpool := sparesPools_mapPool (s.moveCall i (.over verdict)) p (f := .unenroll)
      (fun _ => rfl) fun _ => rfl
    exact ⟨hpool.standing, hpool.crews, rfl, rfl⟩

/-- A caller's own step neither begins nor closes a pool: at most its count changes. -/
theorem sparesPools_advance (h : s.advance i = some t) : s.SparesPools t := by
  unfold advance at h
  split at h
  · cases h
  · split at h
    · cases h
      exact sparesPools_lookUp ..
    · next p _ =>
      cases h
      have hpool := sparesPools_mapPool s p (f := .enroll) (fun _ => rfl) fun _ => rfl
      exact ⟨hpool.standing, hpool.crews, rfl, rfl⟩
    · cases h
      exact sparesPools_enter ..
    · next p _ =>
      cases h
      have hpool := sparesPools_mapPool s p (f := .unenroll) (fun _ => rfl) fun _ => rfl
      exact ⟨hpool.standing, hpool.crews, rfl, rfl⟩
    · cases h
      exact ⟨rfl, rfl, rfl, rfl⟩
    · cases h
      exact sparesPools_route ..
    · cases h
      exact sparesPools_write ..
    · split at h
      · cases h
        exact sparesPools_write ..
      · cases h
    · cases h
      exact sparesPools_count ..
    · cases h
      exact sparesPools_finish ..
    · cases h

theorem sparesPools_setWorker (s : Line α) (p w : Nat) (worker : Worker (Parcel α)) :
    s.SparesPools (s.setWorker p w worker) :=
  sparesPools_mapPool s p (fun _ => rfl) fun _ => List.length_set ..

/-- Nor does a step of a worker. -/
theorem sparesPools_work {w : Nat} (h : s.work p w = some t) : s.SparesPools t := by
  unfold work at h
  split at h
  · cases h
  · split at h
    · cases h
    · next worker _ =>
      split at h
      · split at h
        · cases h
          exact sparesPools_setWorker ..
        · cases h
      · cases h
        exact sparesPools_setWorker ..
      · cases h
        exact sparesPools_setWorker ..
      · next round n rest batch _ =>
        cases h
        unfold sweep
        split
        · exact sparesPools_setWorker ..
        · split
          · next taken _ =>
            have hset := sparesPools_setWorker { s with store := s.store.setLane n taken.lane } p w
              (worker.moveTo (.sweeping round rest (batch ++ [⟨n, taken.items⟩])))
            exact ⟨hset.standing, hset.crews, rfl, rfl⟩
          · exact sparesPools_setWorker ..
      · cases h
        exact sparesPools_setWorker ..
      · next round batch e _ =>
        cases h
        refine sparesPools_mapPool s p ?_ ?_ <;> intro pool
        · cases e <;> rfl
        · cases e <;> exact List.length_set ..
      · cases h
      · cases h
      · cases h

/-- Nor the end of a hook. -/
theorem sparesPools_endHook {w : Nat} {how : HookEnd} (h : s.endHook p w how = some t) :
    s.SparesPools t := by
  unfold endHook at h
  split at h
  · cases h
  · split at h
    · cases h
    · split at h
      · cases h
        exact sparesPools_setWorker ..
      · cases h

/-! ## Quiet steps -/

/-- Steps of callers and workers leave every pool at its stage. -/
theorem sparesPools_traffic {a : Action α} (ht : a.isTraffic = true) (hs : s.step a = some t) :
    s.SparesPools t := by
  cases a with
  | offer producer errand =>
    simp only [step, offer, Option.ite_none_right_eq_some, Option.some.injEq] at hs
    exact hs.2 ▸ ⟨rfl, rfl, rfl, rfl⟩
  | advance i => exact sparesPools_advance hs
  | callAway i =>
    simp only [step, callAway] at hs
    split at hs
    · cases hs
      exact ⟨rfl, rfl, rfl, rfl⟩
    · cases hs
  | setPolicy | setRouter | startClosing =>
    cases hs
    exact ⟨rfl, rfl, rfl, rfl⟩
  | build | begin | install | publish | retire | shutdown | closePool => cases ht
  | closeNext k =>
    obtain ⟨n, lane, -, -, rfl⟩ := of_closeNext hs
    exact ⟨rfl, rfl, rfl, rfl⟩
  | drain n limit =>
    obtain ⟨lane, taken, -, -, rfl⟩ := of_step_drain hs
    exact ⟨rfl, rfl, rfl, rfl⟩
  | setHeld p held =>
    cases hs
    exact sparesPools_mapPool s p (fun _ => rfl) fun _ => rfl
  | work p w => exact sparesPools_work hs
  | endHook p w how => exact sparesPools_endHook hs

/-- Steps of callers and workers leave the carrier alone as well. -/
theorem standing_traffic {a : Action α} (ht : a.isTraffic = true) (hs : s.step a = some t) :
    t.standing = s.standing :=
  (sparesPools_traffic ht hs).standing

/-- A quiet step that is none of an exchange leaves the carrier as it is, or
builds or begins a pool. -/
theorem standing_step {a : Action α} (hq : a.isQuiet = true) (hs : s.step a = some t) :
    t.standing = s.standing ∨ (∃ plan, s.build plan = .ok t) ∨ (∃ p, t = s.begin p) ∨
      (∃ plan, s.exchange = .idle ∧ s.install plan = .ok t) ∨ s.publish = some t ∨
      s.retire = some t := by
  cases a with
  | build plan => exact .inr (.inl ⟨plan, of_step_build hs⟩)
  | begin p =>
    cases hs
    exact .inr (.inr (.inl ⟨p, rfl⟩))
  | install plan => exact .inr (.inr (.inr (.inl ⟨plan, of_step_install hs⟩)))
  | publish => exact .inr (.inr (.inr (.inr (.inl hs))))
  | retire => exact .inr (.inr (.inr (.inr (.inr hs))))
  | shutdown | closePool => cases hq
  | _ => exact .inl (standing_traffic rfl hs)

/-! ## The pools of a carrier -/

/-- What is compared by `standing`, taken apart. -/
theorem carrier_of_standing (h : t.standing = s.standing) :
    t.active = s.active ∧ t.installed = s.installed ∧ t.exchange = s.exchange ∧
      t.pools.length = s.pools.length := by
  have hfst := congrArg Prod.fst h
  have hlen := congrArg (fun x => x.2.length) h
  simp only [standing, Prod.mk.injEq] at hfst
  simp only [standing, List.length_map] at hlen
  exact ⟨hfst.1, hfst.2.1, hfst.2.2, hlen⟩

theorem stage?_of_standing (h : t.standing = s.standing) (p : Nat) : t.stage? p = s.stage? p := by
  have hstages : t.pools.map Pool.stage = s.pools.map Pool.stage := congrArg Prod.snd h
  rw [stage?, stage?, hstages]

theorem stage?_mapPool (s : Line α) (p q : Nat) (f : Pool (Parcel α) → Pool (Parcel α)) :
    (s.mapPool p f).stage? q =
      if p = q then s.pools[q]?.map fun pool => (f pool).stage else s.stage? q := by
  rw [stage?, stage?, mapPool, List.getElem?_map, List.getElem?_modify, List.getElem?_map]
  by_cases h : p = q
  · rw [if_pos h]
    cases s.pools[q]? <;> simp [h]
  · rw [if_neg h]
    cases s.pools[q]? <;> simp [h]

/-- Beginning a pool stops none, and reopens none. -/
theorem stage?_begin {stage : Stage} (hstage : stage ≠ .created) (h : s.stage? p = some stage)
    (q : Nat) : (s.begin q).stage? p = some stage := by
  unfold begin
  split
  · next pool hq =>
    split
    · next hc =>
      have hmap := stage?_mapPool s q p Pool.begin
      by_cases hqp : q = p
      · subst hqp
        rw [stage?_eq hq, hc] at h
        cases h
        exact absurd rfl hstage
      · rw [if_neg hqp] at hmap
        exact hmap.trans h
    · exact h
  · exact h

/-- Closing a pool stops no other. -/
theorem stage?_closePool {q : Nat} (hne : q ≠ p) : (s.closePool q).stage? p = s.stage? p := by
  unfold closePool
  split
  · split
    · rfl
    · exact (stage?_mapPool s q p Pool.close).trans (if_neg hne)
  · rfl

/-- A pool that exists is closed afterwards, whatever it was before. -/
theorem stage?_closePool_self {stage : Stage} (h : s.stage? p = some stage) :
    (s.closePool p).stage? p = some .closed := by
  obtain ⟨pool, hp, -⟩ := exists_pool_of_stage? h
  unfold closePool
  rw [hp]
  simp only
  split
  · next hc => rw [stage?_eq hp, hc]
  · refine (stage?_mapPool s p p Pool.close).trans ?_
    rw [if_pos rfl, hp]
    rfl

/-- A new pool comes at the end, so the earlier ones keep their stages. -/
theorem stage?_build {pool : Pool (Parcel α)} {stage : Stage} (h : s.stage? p = some stage) :
    ({ s with pools := s.pools ++ [pool] } : Line α).stage? p = some stage := by
  rw [stage?] at h ⊢
  rw [List.map_append, List.getElem?_append_left (List.getElem?_eq_some_iff.mp h).1]
  exact h

/-- The carrier owns pool `old`, and new calls find pool `new`. Both run. -/
structure Serves (s : Line α) (old new : Nat) : Prop where
  installed : s.installed = some old
  active : s.active = some new
  old_running : s.stage? old = some .running
  new_running : s.stage? new = some .running
  idle : s.exchange = .idle → new = old
  begun : ∀ q, s.exchange = .begun q → new = old ∧ q ≠ old ∧ s.stage? q = some .running
  published : ∀ q, s.exchange = .published q → new = q ∧ q ≠ old

/-- The pool is one that the carrier has, or it is closed. -/
def IsKnown (s : Line α) (p : Nat) : Prop :=
  s.active = some p ∨ s.installed = some p ∨ s.stage? p = some .closed

/-- A pool keeps its stage, unless it has not begun. -/
def Lasts (s t : Line α) : Prop :=
  ∀ p stage, stage ≠ .created → s.stage? p = some stage → t.stage? p = some stage

/-- An exchange goes on through any step that does not touch the carrier. -/
theorem Serves.of_lasts {old new : Nat} (h : s.Serves old new) (hl : s.Lasts t)
    (ha : t.active = s.active) (hi : t.installed = s.installed) (he : t.exchange = s.exchange) :
    t.Serves old new where
  installed := hi.trans h.installed
  active := ha.trans h.active
  old_running := hl _ _ (by decide) h.old_running
  new_running := hl _ _ (by decide) h.new_running
  idle hidle := h.idle (he ▸ hidle)
  begun q hq := by
    obtain ⟨hno, hne, hrun⟩ := h.begun q (he ▸ hq)
    exact ⟨hno, hne, hl _ _ (by decide) hrun⟩
  published q hq := h.published q (he ▸ hq)

/-- So a pool that the carrier knows stays known. -/
theorem IsKnown.of_lasts (h : s.IsKnown p) (hl : s.Lasts t) (ha : t.active = s.active)
    (hi : t.installed = s.installed) : t.IsKnown p := by
  rcases h with hactive | hinstalled | hclosed
  · exact .inl (ha.trans hactive)
  · exact .inr (.inl (hi.trans hinstalled))
  · exact .inr (.inr (hl p .closed (by decide) hclosed))

theorem lasts_of_standing (h : t.standing = s.standing) : s.Lasts t :=
  fun p _ _ hp => (stage?_of_standing h p).trans hp

theorem lasts_begin (s : Line α) (q : Nat) : s.Lasts (s.begin q) :=
  fun _ _ hstage hp => stage?_begin hstage hp q

/-- To begin a pool changes nothing of the carrier. -/
theorem carrier_begin (s : Line α) (p : Nat) : (s.begin p).active = s.active ∧
    (s.begin p).installed = s.installed ∧ (s.begin p).exchange = s.exchange := by
  unfold begin
  split
  · split <;> exact ⟨rfl, rfl, rfl⟩
  · exact ⟨rfl, rfl, rfl⟩

/-- Nor does to close one. -/
theorem carrier_closePool (s : Line α) (p : Nat) : (s.closePool p).active = s.active ∧
    (s.closePool p).installed = s.installed ∧ (s.closePool p).exchange = s.exchange := by
  unfold closePool
  split
  · split <;> exact ⟨rfl, rfl, rfl⟩
  · exact ⟨rfl, rfl, rfl⟩

theorem Lasts.trans {u : Line α} (h : s.Lasts t) (h' : t.Lasts u) : s.Lasts u :=
  fun p stage hstage hp => h' p stage hstage (h p stage hstage hp)

/-- A pool that is installed is a further one. -/
theorem carrier_install {plan : PoolPlan} (hi : s.install plan = .ok t) :
    t.active = s.active ∧ t.installed = s.installed ∧ t.exchange = .begun s.pools.length ∧
      t.pools.length = s.pools.length + 1 := by
  obtain ⟨pool, -, rfl⟩ := of_install_eq_ok hi
  obtain ⟨ha, hinst, -⟩ := carrier_begin { s with pools := s.pools ++ [pool] } s.pools.length
  refine ⟨ha, hinst, rfl, ?_⟩
  unfold begin
  split
  · split <;> simp [mapPool, note]
  · simp

/-- An installation leaves the pools that there are at their stages. -/
theorem lasts_install {plan : PoolPlan} (hi : s.install plan = .ok t) : s.Lasts t := by
  obtain ⟨pool, -, rfl⟩ := of_install_eq_ok hi
  have hbuild : s.Lasts { s with pools := s.pools ++ [pool] } := fun _ _ _ hp => stage?_build hp
  exact hbuild.trans (lasts_begin _ s.pools.length)

/-- It runs before anyone can find it. -/
theorem stage?_install {plan : PoolPlan} (hi : s.install plan = .ok t) :
    t.stage? s.pools.length = some .running := by
  obtain ⟨pool, hplan, rfl⟩ := of_install_eq_ok hi
  have hlast : (s.pools ++ [pool])[s.pools.length]? = some pool := List.getElem?_concat_length ..
  have hcreated := (Pool.fit_ofPlan hplan).2.2.1
  have hmap := stage?_mapPool { s with pools := s.pools ++ [pool] } s.pools.length s.pools.length
    Pool.begin
  rw [if_pos rfl, hlast, Option.map_some, Pool.begin, if_pos hcreated] at hmap
  unfold begin
  simp only [hlast, if_pos hcreated]
  exact hmap

/-- A new pool has begun, and is not the one that the carrier owns. -/
theorem Serves.install {old new : Nat} (h : s.Serves old new) (hidle : s.exchange = .idle)
    {plan : PoolPlan} (hi : s.install plan = .ok t) :
    t.Serves old new ∧ ∀ p, s.IsKnown p → t.IsKnown p := by
  obtain ⟨ha, hinst, hx, -⟩ := carrier_install hi
  have hl : s.Lasts t := lasts_install hi
  have hne : s.pools.length ≠ old := by
    have hlt := (List.getElem?_eq_some_iff.mp h.old_running).1
    rw [List.length_map] at hlt
    exact Nat.ne_of_gt hlt
  refine ⟨⟨hinst.trans h.installed, ha.trans h.active, hl _ _ (by decide) h.old_running,
    hl _ _ (by decide) h.new_running, ?_, ?_, ?_⟩, ?_⟩
  · intro hq
    cases hx.symm.trans hq
  · intro q hq
    cases hx.symm.trans hq
    exact ⟨h.idle hidle, hne, stage?_install hi⟩
  · intro q hq
    cases hx.symm.trans hq
  · intro p hp
    exact hp.of_lasts hl ha hinst

/-- New calls find the new pool; the old one is still owned. -/
theorem Serves.publish {old new : Nat} (h : s.Serves old new) (hp : s.publish = some t) :
    (∃ new, t.Serves old new) ∧ ∀ p, s.IsKnown p → t.IsKnown p := by
  obtain ⟨q, he, rfl⟩ := of_publish hp
  obtain ⟨rfl, hne, hrun⟩ := h.begun q he
  refine ⟨⟨q, h.installed, rfl, h.old_running, hrun, ?_, ?_, ?_⟩, ?_⟩
  · intro he
    cases he
  · intro _ he
    cases he
  · intro _ he
    cases he
    exact ⟨rfl, hne⟩
  · intro p hknown
    rcases hknown with hactive | hinstalled | hclosed
    · exact .inr (.inl (h.installed.trans (h.active.symm.trans hactive)))
    · exact .inr (.inl hinstalled)
    · exact .inr (.inr hclosed)

/-- The old pool is closed, and no longer owned. -/
theorem Serves.adopt {old new : Nat} (h : s.Serves old new) (hne : new ≠ old) :
    ((s.adopt new).closePool old).Serves new new ∧
      ∀ p, s.IsKnown p → ((s.adopt new).closePool old).IsKnown p := by
  obtain ⟨ha, hi, hx⟩ := carrier_closePool (s.adopt new) old
  have hother : ∀ p, p ≠ old → ((s.adopt new).closePool old).stage? p = s.stage? p :=
    fun p hp => stage?_closePool (s := s.adopt new) (Ne.symm hp)
  have hold : ((s.adopt new).closePool old).stage? old = some .closed :=
    stage?_closePool_self (s := s.adopt new) h.old_running
  have hnew := (hother new hne).trans h.new_running
  refine ⟨⟨hi, ha.trans h.active, hnew, hnew, fun _ => rfl, ?_, ?_⟩, ?_⟩
  · intro q hq
    cases hx.symm.trans hq
  · intro q hq
    cases hx.symm.trans hq
  · intro p hp
    by_cases hpo : p = old
    · exact .inr (.inr (hpo ▸ hold))
    · rcases hp with hactive | hinstalled | hclosed
      · exact .inl (ha.trans hactive)
      · rw [h.installed] at hinstalled
        cases hinstalled
        exact absurd rfl hpo
      · exact .inr (.inr ((hother p hpo).trans hclosed))

/-- The end of an exchange: the old pool is closed, and what was known stays so. -/
theorem Serves.retire {old new : Nat} (h : s.Serves old new) (hr : s.retire = some t) :
    t.Serves new new ∧ ∀ p, s.IsKnown p → t.IsKnown p := by
  obtain ⟨q, he, journal, rfl⟩ := of_retire hr
  obtain ⟨rfl, hne⟩ := h.published q he
  obtain ⟨hserves, hknown⟩ := h.adopt hne
  rw [h.installed]
  exact ⟨hserves.of_lasts (lasts_of_standing rfl) rfl rfl rfl,
    fun p hp => (hknown p hp).of_lasts (lasts_of_standing rfl) rfl rfl⟩

/-- A quiet step leaves the carrier with a running pool, and a pool that it
gives up is closed. -/
theorem Serves.step {old new : Nat} (h : s.Serves old new) {a : Action α} (hq : a.isQuiet = true)
    (hs : s.step a = some t) :
    (∃ old new, t.Serves old new) ∧ ∀ p, s.IsKnown p → t.IsKnown p := by
  have keep : ∀ {u : Line α}, s.Lasts u → u.active = s.active → u.installed = s.installed →
      u.exchange = s.exchange →
      (∃ old new, u.Serves old new) ∧ ∀ p, s.IsKnown p → u.IsKnown p :=
    fun hl ha hi he => ⟨⟨old, new, h.of_lasts hl ha hi he⟩, fun _ hp => hp.of_lasts hl ha hi⟩
  rcases standing_step hq hs with hsame | ⟨plan, hb⟩ | ⟨q, rfl⟩ | ⟨plan, hidle, hi⟩ | hp | hr
  · obtain ⟨ha, hi, he, -⟩ := carrier_of_standing hsame
    exact keep (lasts_of_standing hsame) ha hi he
  · obtain ⟨pool, -, rfl⟩ := of_build_eq_ok hb
    exact keep (fun _ _ _ hp => stage?_build hp) rfl rfl rfl
  · obtain ⟨ha, hi, he⟩ := carrier_begin s q
    exact keep (lasts_begin s q) ha hi he
  · obtain ⟨hserves, hknown⟩ := h.install hidle hi
    exact ⟨⟨old, new, hserves⟩, hknown⟩
  · obtain ⟨⟨new', hserves⟩, hknown⟩ := h.publish hp
    exact ⟨⟨old, new', hserves⟩, hknown⟩
  · obtain ⟨hserves, hknown⟩ := h.retire hr
    exact ⟨⟨new, new, hserves⟩, hknown⟩

/-! ## Calls that are turned away -/

end Line

/-- Whether the answer is that no pool runs. -/
def WriteResult.isNoConsumer : WriteResult α → Bool
  | .refused .noConsumer _ => true
  | _ => false

/-- Whether a call at this place was turned away, and has got its item back
or is about to. -/
def Place.isTurnedAway (place : Place α) : Bool :=
  match place with
  | .turnedAway _ => true
  | _ => place.result?.any WriteResult.isNoConsumer

/-- A call that has given its pass back is turned away as it was before. -/
theorem Place.isTurnedAway_over (verdict : Verdict α) :
    (Place.over verdict).isTurnedAway = (Place.leaving verdict).isTurnedAway := by
  cases verdict <;> rfl

/-- A call with a channel to write to has not been turned away. -/
theorem Call.isTurnedAway_of_target {c : Call α} {n : Nat} {policy : WhenFull}
    (h : c.target? = some (n, policy)) : c.place.isTurnedAway = false := by
  cases hp : c.place <;> simp [target?, hp] at h <;> rfl

namespace Line

variable {s t : Line α} {i p : Nat} {c c' : Call α}

namespace Turn

/-- A call comes to know a pool by its errand, or by looking the active one up. -/
theorem names_before (turn : Turn s i c c') (h : c'.place.Names p) :
    c.place.Names p ∨ c.errand = .visit p ∨
      (∃ item, c.errand = .produce item) ∧ s.active = some p := by
  cases turn with
  | hop hop =>
    cases hop with
    | find _ he ha =>
      cases h
      exact .inr (.inr ⟨⟨_, he⟩, ha⟩)
    | visit _ he =>
      cases h
      exact .inr (.inl he)
    | turnAway hp =>
      rw [hp]
      exact .inl h
    | _ => exact h.elim
  | enroll hp =>
    rw [hp]
    exact .inl h
  | enter _ _ _ hplace => rcases hplace with rfl | rfl <;> exact h.elim
  | turnBack =>
    cases hi : c.item? <;> rw [hi] at h <;> exact h.elim
  | route | misroute | write | tally | release => exact h.elim

/-- A call comes by its pool only by reading the active one. -/
theorem names_place {item : α} (turn : Turn s i c c') (he : c.errand = .produce item)
    (h : c'.place.Names p) : c.place.Names p ∨ s.active = some p := by
  rcases turn.names_before h with hold | hvisit | ⟨-, hactive⟩
  · exact .inl hold
  · rw [he] at hvisit
    cases hvisit
  · exact .inr hactive

/-- A call is turned away where it sees that its pool does not run, and
nowhere else. -/
theorem turnedAway_before (turn : Turn s i c c') (h : c'.place.isTurnedAway = true) :
    c.place.isTurnedAway = true ∨ ∃ p, c.place = .counted p ∧ s.isRunning p = false := by
  cases turn with
  | hop hop =>
    cases hop with
    | turnAway hp hr => exact .inr ⟨_, hp, hr⟩
    | refuse _ _ _ ha =>
      obtain ⟨-, rfl | rfl⟩ := Lane.of_attempt_refused ha <;> cases h
    | finish hp =>
      rw [Place.isTurnedAway_over] at h
      rw [hp]
      exact .inl h
    | _ => cases h
  | turnBack hp =>
    rw [hp]
    exact .inl rfl
  | tally hp =>
    rw [hp]
    exact .inl h
  | release hp =>
    rw [Place.isTurnedAway_over] at h
    rw [hp]
    exact .inl h
  | enter _ _ _ hplace => rcases hplace with rfl | rfl <;> cases h
  | enroll | route | misroute | write => cases h

/-- A call that was turned away stays so. -/
theorem turnedAway_after {item : α} (turn : Turn s i c c') (he : c.errand = .produce item)
    (h : c.place.isTurnedAway = true) : c'.place.isTurnedAway = true := by
  cases turn with
  | hop hop =>
    cases hop with
    | refuse ht | wait ht | stray ht | fail ht =>
      rw [Call.isTurnedAway_of_target ht] at h
      cases h
    | finish hp =>
      rw [hp] at h
      exact (Place.isTurnedAway_over _).trans h
    | find hp | skip hp | start hp | insist hp | visit hp | turnAway hp | ask hp | callAway hp =>
      rw [hp] at h
      cases h
  | turnBack =>
    have hi : c.item? = some item := by rw [Call.item?, he]
    rw [hi]
    rfl
  | tally hp =>
    rw [hp] at h
    exact h
  | release hp =>
    rw [hp] at h
    exact (Place.isTurnedAway_over _).trans h
  | write ht =>
    rw [Call.isTurnedAway_of_target ht] at h
    cases h
  | enroll hp | enter hp | route hp | misroute hp =>
    rw [hp] at h
    cases h

/-- A call that knows a closed pool sees that it does not run. -/
theorem doomed_after (turn : Turn s i c c') (hclosed : s.stage? p = some .closed)
    (h : c.place = .found p ∨ c.place = .counted p) :
    c'.place.isTurnedAway = true ∨ c'.place = .counted p := by
  have htarget : ∀ {n policy}, c.target? ≠ some (n, policy) := by
    intro n policy ht
    rcases h with hp | hp <;> simp [Call.target?, hp] at ht
  cases turn with
  | hop hop =>
    cases hop with
    | refuse ht | wait ht | stray ht | fail ht => exact absurd ht htarget
    | turnAway => exact .inl rfl
    | find hp | skip hp | start hp | insist hp | visit hp | ask hp | callAway hp | finish hp =>
      rw [hp] at h
      rcases h with h | h <;> cases h
  | enroll hp =>
    rw [hp] at h
    rcases h with h | h <;> cases h
    exact .inr rfl
  | enter hp hq hrun =>
    rw [hp] at h
    rcases h with h | h <;> cases h
    rw [stage?_eq hq, hrun] at hclosed
    cases hclosed
  | write ht => exact absurd ht htarget
  | turnBack hp | route hp | misroute hp | tally hp | release hp =>
    rw [hp] at h
    rcases h with h | h <;> cases h

end Turn

/-! ## Who is turned away -/

/-- The carrier has a running pool; and a pool that is known to one of the
calls from number `n` on is one that the carrier has, or it is closed. -/
structure Upheld (n : Nat) (s : Line α) : Prop where
  serves : ∃ old new, s.Serves old new
  known : ∀ i c item p, n ≤ i → s.calls[i]? = some c → c.errand = .produce item →
    c.place.Names p → s.IsKnown p

/-- One quiet step keeps what holds of the calls from number `n` on. -/
theorem Upheld.step {n : Nat} (h : s.Upheld n) (hn : s.Named) {a : Action α}
    (hq : a.isQuiet = true) (hs : s.step a = some t) : t.Upheld n := by
  obtain ⟨old, new, hserves⟩ := h.serves
  obtain ⟨hserves', hknown⟩ := hserves.step hq hs
  refine ⟨hserves', ?_⟩
  intro i c' item p hi hc' he hp
  rcases call_of_step hn hs hc' with hbegun | ⟨c, hc, rfl | turn⟩
  · rw [hbegun] at hp
    exact hp.elim
  · exact hknown p (h.known i _ item p hi hc he hp)
  · have he' : c.errand = .produce item := turn.errand.symm.trans he
    rcases turn.names_place he' hp with hnames | hactive
    · exact hknown p (h.known i c item p hi hc he' hnames)
    · exact hknown p (.inl hactive)

/-- The carrier has another pool than `p`, for new calls as well as to own. -/
def IsReplaced (s : Line α) (p : Nat) : Prop := s.active ≠ some p ∧ s.installed ≠ some p

/-- The pools that the carrier has are running, so one that is not is none of them. -/
theorem Serves.isReplaced {old new : Nat} (h : s.Serves old new) (hr : s.isRunning p = false) :
    s.IsReplaced p := by
  have hstage : s.stage? p ≠ some .running := fun hs => by
    rw [isRunning_iff.mpr hs] at hr
    cases hr
  constructor
  · intro hactive
    rw [h.active] at hactive
    cases hactive
    exact hstage h.new_running
  · intro hinstalled
    rw [h.installed] at hinstalled
    cases hinstalled
    exact hstage h.old_running

/-- A known pool that the carrier no longer has is closed. -/
theorem IsKnown.closed (h : s.IsKnown p) (hr : s.IsReplaced p) : s.stage? p = some .closed := by
  rcases h with hactive | hinstalled | hclosed
  · exact absurd hactive hr.1
  · exact absurd hinstalled hr.2
  · exact hclosed

/-- Along a quiet run, by induction over its steps. -/
theorem QuietlyReaches.upheld {n : Nat} (hq : QuietlyReaches s t) (hs : s.Reachable)
    (h : s.Upheld n) : t.Upheld n := by
  induction hq with
  | refl => exact h
  | step a hq ha hstep ih => exact ih.step (hs.reaches hq.reaches).named ha hstep

/-- A closed pool stays closed. -/
theorem Effect.stage_closed (e : Effect s t) (hf : s.Fit) (h : s.stage? p = some .closed) :
    t.stage? p = some .closed := by
  obtain ⟨pool, hp, hc⟩ := exists_pool_of_stage? h
  rw [stage?, List.getElem?_map]
  rcases e.change hf with hsame | ⟨new, -, happ⟩ | ⟨q, old, new, hq, hset, hstage, -⟩
  · rw [hsame, hp, Option.map_some, hc]
  · have hlt := (List.getElem?_eq_some_iff.mp hp).1
    rw [happ, List.getElem?_append_left hlt, hp, Option.map_some, hc]
  · by_cases hqp : q = p
    · subst hqp
      rw [hp] at hq
      cases hq
      rw [hset, List.getElem?_set_self (List.getElem?_eq_some_iff.mp hp).1, Option.map_some,
        hstage hc]
    · rw [hset, List.getElem?_set_ne hqp, hp, Option.map_some, hc]

/-- A call that knows a closed pool is turned away by the time it is over. -/
theorem Reaches.turned_away (hr : Reaches s t) (h : s.Reachable) {item : α}
    (hc : s.calls[i]? = some c) (he : c.errand = .produce item)
    (hclosed : s.stage? p = some .closed) (hp : c.place = .found p ∨ c.place = .counted p)
    (hc' : t.calls[i]? = some c') (hover : c'.isOver = true) : c'.place.isTurnedAway = true := by
  have hall : t.Fit ∧ t.stage? p = some .closed ∧ ∃ c, t.calls[i]? = some c ∧
      c.errand = .produce item ∧
      (c.place.isTurnedAway = true ∨ c.place = .found p ∨ c.place = .counted p) := by
    refine Reaches.induction (P := fun u => u.Fit ∧ u.stage? p = some .closed ∧
      ∃ c, u.calls[i]? = some c ∧ c.errand = .produce item ∧
        (c.place.isTurnedAway = true ∨ c.place = .found p ∨ c.place = .counted p))
      hr h ⟨h.fit, hclosed, c, hc, he, .inr hp⟩ ?_
    rintro u v ⟨hf, hcl, d, hd, hde, hdp⟩ e
    refine ⟨e.fit hf, e.stage_closed hf hcl, ?_⟩
    obtain ⟨d', hd', rfl | turn⟩ := e.call_after hd
    · exact ⟨_, hd', hde, hdp⟩
    · refine ⟨d', hd', turn.errand.trans hde, ?_⟩
      rcases hdp with haway | hknows
      · exact .inl (turn.turnedAway_after hde haway)
      · exact (turn.doomed_after hcl hknows).imp id .inr
  obtain ⟨-, -, d, hd, -, hdp⟩ := hall
  rw [hc'] at hd
  cases hd
  rcases hdp with haway | hknows | hknows
  · exact haway
  · rw [Call.isOver, hknows] at hover
    cases hover
  · rw [Call.isOver, hknows] at hover
    cases hover

/-- A call that was turned away has seen its pool after it was replaced. -/
theorem QuietlyReaches.of_turned_away (hq : QuietlyReaches s t) (h : s.Reachable)
    (hup : s.Upheld s.calls.length) {item : α} (hi : s.calls.length ≤ i)
    (hc : t.calls[i]? = some c) (he : c.errand = .produce item)
    (haway : c.place.isTurnedAway = true) :
    ∃ u p c, QuietlyReaches s u ∧ QuietlyReaches u t ∧ u.calls[i]? = some c ∧
      c.place = .counted p ∧ u.IsReplaced p := by
  induction hq generalizing c with
  | refl =>
    have hlt := (List.getElem?_eq_some_iff.mp hc).1
    omega
  | @step t u a hq ha hs ih =>
    have before : ∀ {d : Call α}, t.calls[i]? = some d → d.errand = .produce item →
        d.place.isTurnedAway = true → ∃ v p c, QuietlyReaches s v ∧ QuietlyReaches v u ∧
          v.calls[i]? = some c ∧ c.place = .counted p ∧ v.IsReplaced p := by
      intro d hd hde hdaway
      obtain ⟨v, p, c₁, hsv, hvt, hc₁, hp, hrep⟩ := ih hd hde hdaway
      exact ⟨v, p, c₁, hsv, hvt.step a ha hs, hc₁, hp, hrep⟩
    have hreach := h.reaches hq.reaches
    rcases call_of_step hreach.named hs hc with hbegun | ⟨d, hd, rfl | turn⟩
    · rw [hbegun] at haway
      cases haway
    · exact before hd he haway
    · have hde : d.errand = .produce item := turn.errand.symm.trans he
      rcases turn.turnedAway_before haway with hdaway | ⟨p, hp, hr⟩
      · exact before hd hde hdaway
      · obtain ⟨old, new, hserves⟩ := (hq.upheld h hup).serves
        exact ⟨t, p, d, hq, .step a .refl ha hs, hd, hp, hserves.isReplaced hr⟩

/-- What an end that turns a call away looks like. -/
theorem exists_of_turnedAway (haway : c.place.isTurnedAway = true) (hover : c.isOver = true) :
    ∃ back, c.place = .over (.answered (.refused .noConsumer back)) := by
  cases hp : c.place with
  | «over» verdict =>
    rw [hp] at haway
    cases verdict with
    | answered result =>
      cases result with
      | accepted how => cases haway
      | refused why back => cases why <;> first | exact ⟨back, rfl⟩ | cases haway
    | faulted | visited => cases haway
  | _ => simp [Call.isOver, hp] at hover

/-- A call keeps its errand. -/
theorem Reaches.errand (hr : Reaches s t) (h : s.Reachable) (hc : s.calls[i]? = some c) :
    ∃ c', t.calls[i]? = some c' ∧ c'.errand = c.errand := by
  refine Reaches.induction (P := fun u => ∃ c', u.calls[i]? = some c' ∧ c'.errand = c.errand)
    hr h ⟨c, hc, rfl⟩ ?_
  rintro u v ⟨d, hd, hde⟩ e
  obtain ⟨d', hd', rfl | turn⟩ := e.call_after hd
  · exact ⟨_, hd', hde⟩
  · exact ⟨d', hd', turn.errand.trans hde⟩

/-- **Exchanges of pools leave no gap, and turn away the calls that they
overtake.** From a line with a running pool, as long as nobody closes a pool
otherwise, the carrier has a running pool at every moment; and a call that was
offered since is answered that no pool runs exactly if, at some moment between
its look-up and its look at the stage, the pool it had found was replaced. -/
theorem QuietlyReaches.refused_iff (hq : QuietlyReaches s t) (h : s.Reachable) {owned : Nat}
    (hactive : s.active = some owned) (hinstalled : s.installed = some owned)
    (hidle : s.exchange = .idle) (hrun : s.isRunning owned = true) :
    t.isConsuming = true ∧
      ∀ i c item, s.calls.length ≤ i → t.calls[i]? = some c → c.errand = .produce item →
        c.isOver = true →
        ((∃ back, c.place = .over (.answered (.refused .noConsumer back))) ↔
          ∃ u p c', QuietlyReaches s u ∧ QuietlyReaches u t ∧ u.calls[i]? = some c' ∧
            (c'.place = .found p ∨ c'.place = .counted p) ∧ u.IsReplaced p) := by
  have hserves : s.Serves owned owned :=
    ⟨hinstalled, hactive, isRunning_iff.mp hrun, isRunning_iff.mp hrun, fun _ => rfl,
      fun q he => (by rw [hidle] at he; cases he), fun q he => (by rw [hidle] at he; cases he)⟩
  have hup : s.Upheld s.calls.length := by
    refine ⟨⟨owned, owned, hserves⟩, ?_⟩
    intro i c item p hi hc
    have hlt := (List.getElem?_eq_some_iff.mp hc).1
    omega
  refine ⟨?_, fun i c item hi hc he hover => ⟨?_, ?_⟩⟩
  · obtain ⟨old, new, hserves⟩ := (hq.upheld h hup).serves
    rw [isConsuming, hserves.active]
    exact isRunning_iff.mpr hserves.new_running
  · rintro ⟨back, hplace⟩
    have haway : c.place.isTurnedAway = true := by
      rw [hplace]
      rfl
    obtain ⟨u, p, c', hsu, hut, hc', hp, hrep⟩ := hq.of_turned_away h hup hi hc he haway
    exact ⟨u, p, c', hsu, hut, hc', .inr hp, hrep⟩
  · rintro ⟨u, p, c', hsu, hut, hc', hp, hrep⟩
    have hu := h.reaches hsu.reaches
    have he' : c'.errand = .produce item := by
      obtain ⟨d, hd, hde⟩ := hut.reaches.errand hu hc'
      rw [hc] at hd
      cases hd
      exact hde.symm.trans he
    have hnames : c'.place.Names p := by
      rcases hp with hp | hp <;> rw [hp] <;> rfl
    have hclosed := ((hsu.upheld h hup).known i c' item p hi hc' he' hnames).closed hrep
    exact exists_of_turnedAway (hut.reaches.turned_away hu hc' he' hclosed hp hc hover) hover

/-! ## A call that is overtaken -/

theorem quietlyReaches_after (s : Line α) (actions : List (Action α))
    (h : actions.all Action.isQuiet = true) : QuietlyReaches s (s.after actions) := by
  have go : ∀ (u : Line α) (actions : List (Action α)), actions.all Action.isQuiet = true →
      QuietlyReaches s u → QuietlyReaches s (u.after actions) := by
    intro u actions
    induction actions generalizing u with
    | nil => exact fun _ hu => hu
    | cons a actions ih =>
      intro hall hu
      rw [List.all_cons, Bool.and_eq_true] at hall
      cases hs : u.step a with
      | none =>
        rw [after_cons_of_none hs]
        exact ih u hall.2 hu
      | some v =>
        rw [after_cons_of_some hs]
        exact ih v hall.2 (hu.step a hall.1 hs)
  exact go s actions h .refl

/-- A pool with one worker, installed without a break. -/
def swap : List (Action Nat) :=
  [.install loner, .publish, .retire]

/-- A line with a running pool. -/
def served : Line Nat := (blank 1 1 (by decide) .wait).after swap

/-- A call looks the pool up, all of an exchange comes next, and the call goes
on. -/
def overtaken : List (Action Nat) :=
  [.offer 0 (.produce 7), .advance 0] ++ swap ++ List.replicate 5 (.advance 0)

/-- The call is answered that no pool runs, though one ran all the time. -/
theorem refused_of_overtaken :
    served.Reachable ∧ served.active = some 0 ∧ served.installed = some 0 ∧
      served.exchange = .idle ∧ served.isRunning 0 = true ∧
      QuietlyReaches served (served.after overtaken) ∧
      (served.after overtaken).isConsuming = true ∧
      (served.after overtaken).calls.map Call.place =
        [.over (.answered (.refused .noConsumer 7))] :=
  ⟨reachable_after (by decide) (by decide) .wait swap, by decide +kernel, by decide +kernel,
    by decide +kernel, by decide +kernel, quietlyReaches_after _ _ (by decide), by decide +kernel,
    by decide +kernel⟩

/-- What the equivalence says of the overtaken call: a pool that it had found
was replaced before it looked. -/
theorem refused_iff_overtaken :
    ∃ u p c', QuietlyReaches served u ∧ QuietlyReaches u (served.after overtaken) ∧
      u.calls[0]? = some c' ∧ (c'.place = .found p ∨ c'.place = .counted p) ∧
      u.IsReplaced p := by
  obtain ⟨c, hc, hplace, he⟩ : ∃ c, (served.after overtaken).calls[0]? = some c ∧
      c.place = .over (.answered (.refused .noConsumer 7)) ∧ c.errand = .produce 7 := by
    exact ⟨_, rfl, rfl, rfl⟩
  have hactive : served.active = some 0 := by decide +kernel
  have hinstalled : served.installed = some 0 := by decide +kernel
  have hrun : served.isRunning 0 = true := by decide +kernel
  have hboth := QuietlyReaches.refused_iff (quietlyReaches_after served overtaken (by decide))
    (reachable_after (by decide) (by decide) .wait swap) hactive hinstalled (by decide +kernel) hrun
  have hover : c.isOver = true := by rw [Call.isOver, hplace]
  exact (hboth.2 0 c 7 (by decide +kernel) hc he hover).mp ⟨7, hplace⟩

end Line

end Conveyor
