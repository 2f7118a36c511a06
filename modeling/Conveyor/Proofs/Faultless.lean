/-
Conveyor.Proofs.Faultless — settings that pass their check, and what they are good for.

A carrier checks itself at many places: when its channels are made and its pools are
built, when the router answers, and whenever a ring is written to or read. With settings
that passed the check, and routers that name channels that exist, none of these ever
trips (`Settings.faultless`), whatever producers, readers, workers and owners do.

The only limit is that of the sequence numbers of a ring. An item needs one, and there
are no more of them than items were written (`Reachable.cursor_le`), so it is enough
that fewer calls than `UInt64.size` were ever given a channel.
-/
import Conveyor.Hub.Basic
import Conveyor.Proofs.Flow
import Conveyor.Proofs.Hooks
import Conveyor.Proofs.Routes
import Mathlib.Data.List.Perm.Subperm

namespace Conveyor

variable {α : Type u}

/-! ## Routers that name channels -/

/-- The router has no answer, now or later, that is not below `total`, where the answer
is not reduced to the number of channels anyway. -/
def Router.IsHonest (total : Nat) : Router α → Prop
  | rolling _ | keyed _ => True
  | custom pick turn => ∀ later a, turn ≤ later → pick later total a < total

theorem Router.IsHonest.inRange {total : Nat} {r : Router α} (h : r.IsHonest total)
    (ht : 0 < total) : r.InRange total := by
  cases r with
  | rolling | keyed => exact ht
  | custom pick turn => exact h

theorem Router.IsHonest.comap {β : Type v} {total : Nat} {r : Router α} (h : r.IsHonest total)
    (f : β → α) : (r.comap f).IsHonest total := by
  cases r with
  | rolling | keyed => trivial
  | custom pick turn => exact fun later b hle => h later (f b) hle

namespace Lane

variable {l : Lane α}

/-- Reading takes no sequence number. -/
theorem IsSound.write_of_take (h : l.IsSound) {limit : Nat} {taken : Taken α}
    (ht : l.take limit = .ok taken) : taken.lane.ring.write = l.ring.write := by
  obtain ⟨l', htake, -, -, -, hwrite⟩ := Holds.take h limit
  cases htake.symm.trans ht
  exact hwrite

/-- A write that is accepted takes one sequence number. -/
theorem IsSound.write_of_accepted (h : l.IsSound) {policy : WhenFull} {a : α} {how : Acceptance}
    {out : Option α} {l' : Lane α} (ha : l.attempt policy a = .ok (.accepted how out l')) :
    l'.ring.write.toNat = l.ring.write.toNat + 1 := by
  have hall := h.attempted policy a
  rw [ha] at hall
  cases hall with
  | stored _ _ hadv => exact hadv.write
  | evicted _ _ _ hadv => exact hadv.write

end Lane

/-- A call at this place has met a fault. -/
def Place.isFaulted : Place α → Bool
  | .leaving (.faulted _) | .over (.faulted _) => true
  | _ => false

theorem Place.isFaulted_over (verdict : Verdict α) :
    (Place.over verdict).isFaulted = (Place.leaving verdict).isFaulted := by
  cases verdict <;> rfl

namespace Line

variable {s t : Line α} {i n : Nat} {c c' : Call α} {policy : WhenFull} {fault : Fault}

/-! ## Sequence numbers -/

theorem Effect.cursor_le (e : Effect s t) (hs : s.Sound)
    (h : ∀ lane ∈ s.store.lanes, lane.ring.write.toNat ≤ s.written.length) :
    ∀ lane ∈ t.store.lanes, lane.ring.write.toNat ≤ t.written.length := by
  -- At most one channel is another one, and it is at most as far as that many writes.
  have keep : ∀ {n : Nat} {new : Lane (Parcel α)} {count : Nat}, s.written.length ≤ count →
      new.ring.write.toNat ≤ count →
      ∀ lane ∈ (s.store.setLane n new).lanes, lane.ring.write.toNat ≤ count := by
    intro n new count hcount hnew lane hmem
    rcases List.mem_or_eq_of_mem_set hmem with hold | rfl
    · exact Nat.le_trans (h lane hold) hcount
    · exact hnew
  cases e with
  | write _ _ _ hl ha =>
    refine keep (by simp) ?_
    rw [(hs.lane hl).write_of_accepted ha, List.length_append, List.length_singleton]
    exact Nat.add_le_add_right (h _ (List.mem_of_getElem? hl)) 1
  | @closeLane _ lane hl =>
    have hclose : lane.close.ring.write.toNat ≤ s.written.length := h lane (List.mem_of_getElem? hl)
    exact keep (Nat.le_refl _) hclose
  | drain hl ht | sweep _ _ _ hl ht =>
    refine keep (Nat.le_refl _) ?_
    rw [(hs.lane hl).write_of_take ht]
    exact h _ (List.mem_of_getElem? hl)
  | _ => exact h

/-- No channel has given out more sequence numbers than items were written. -/
theorem Reachable.cursor_le (h : s.Reachable) :
    ∀ lane ∈ s.store.lanes, lane.ring.write.toNat ≤ s.written.length := by
  refine Reachable.regular_induction h ?_ fun u v hu hp e => e.cursor_le hu.sound hp
  rintro start ⟨_, _, _, _, store, hstore, rfl⟩ lane hmem
  obtain ⟨hroom, rfl⟩ := Lane.exists_of_ofCapacity (ofCapacity_of_mem hstore hmem)
  exact Nat.zero_le _

theorem Effect.routed_prefix (e : Effect s t) : s.routed <+: t.routed := by
  cases e with
  | route => exact List.prefix_append _ _
  | _ => exact List.prefix_rfl

/-- A call that looks at a channel was given one, and has not written yet. -/
theorem Reachable.written_lt (h : s.Reachable) (hc : s.calls[i]? = some c)
    (ht : c.target? = some (n, policy)) : s.written.length < s.routed.length := by
  have hdirected := h.directed
  have hnodup : (s.written.map fun x => (x.2.call, x.1)).Nodup := by
    refine List.Nodup.of_map Prod.fst ?_
    simpa [List.map_map, Function.comp_def] using h.regular.conserved.nodup_written
  have hnew : (i, n) ∉ s.written.map fun x => (x.2.call, x.1) := by
    intro hmem
    obtain ⟨x, hx, heq⟩ := List.mem_map.mp hmem
    cases heq
    exact h.regular.target_of_written hx hc ht
  have hsub : (i, n) :: (s.written.map fun x => (x.2.call, x.1)) ⊆ s.routed := by
    refine List.cons_subset.mpr ⟨hdirected.target i c n policy hc ht, ?_⟩
    intro y hy
    obtain ⟨x, hx, rfl⟩ := List.mem_map.mp hy
    exact hdirected.written x hx
  have hle := (List.subperm_of_subset (List.nodup_cons.mpr ⟨hnew, hnodup⟩) hsub).length_le
  simpa [Nat.succ_le_iff] using hle

/-! ## Calls, workers, readers and pools -/

theorem Reaches.routed_length_le (hr : Reaches s t) (h : s.Reachable) :
    s.routed.length ≤ t.routed.length :=
  hr.induction (P := fun u => s.routed.length ≤ u.routed.length) h (Nat.le_refl _)
    fun _ _ hu e => Nat.le_trans hu e.routed_prefix.length_le

/-- A call meets no fault on its turn while the router is in range and there is a
sequence number left. -/
theorem Turn.isFaulted (turn : Turn s i c c') (h : s.Reachable) (hc : s.calls[i]? = some c)
    (hrouter : s.store.router.InRange s.store.count) (hfew : s.routed.length < UInt64.size)
    (hold : c.place.isFaulted = false) : c'.place.isFaulted = false := by
  cases turn with
  | hop hop =>
    cases hop with
    | stray ht hl =>
      have hlt := h.target_lt hc ht
      rw [List.getElem?_eq_none_iff] at hl
      exact absurd hlt (Nat.not_lt.mpr hl)
    | @fail item n policy lane fault ht hi hl ha =>
      have hall := (h.sound.lane hl).attempted policy ⟨i, item⟩
      rw [ha] at hall
      cases hall with
      | usedUp _ _ hlast =>
        have hcursor := h.cursor_le _ (List.mem_of_getElem? hl)
        have hwritten := h.written_lt hc ht
        omega
    | finish hp => rwa [Place.isFaulted_over, ← hp]
    | _ => rfl
  | enter _ _ _ hplace => rcases hplace with rfl | rfl <;> rfl
  | turnBack => cases c.item? <;> rfl
  | misroute _ _ hr =>
    obtain ⟨n, hn⟩ := hrouter.route _
    rw [hn] at hr
    cases hr
  | release hp => rwa [Place.isFaulted_over, ← hp]
  | _ => rfl

theorem install_eq_error_iff {plan : PoolPlan} (hlimit : plan.limit ≠ 0) (e : BuildError) :
    s.install plan = .error e ↔ plan.workers = 0 ∧ e = .settings .noWorkers := by
  by_cases hw : plan.workers = 0
  · simp [install, build, Pool.ofPlan, hw, bind, Except.bind, eq_comm]
  · have hpool : Pool.ofPlan (α := Parcel α) plan s.store.count = .ok _ :=
      Pool.ofPlan_eq_ok_iff.mpr ⟨hw, hlimit, rfl⟩
    simp [install, build, hw, hpool, bind, Except.bind, pure, Except.pure]

end Line

/-! ## Settings that pass -/

/-- A carrier gets its pool unless the line does not install it. -/
theorem Hub.consume_eq_error_iff {α : Type} {h : Hub α} {c : Carrier} {s : Line α}
    (hl : h.lines[c.line]? = some s) (order : PoolOrder) (e : BuildError) :
    h.consume c order = .error e ↔ s.install (planFor c order) = .error e := by
  unfold consume
  rw [hl]
  cases hi : s.install (planFor c order) <;> simp [hi, bind, Except.bind, pure, Except.pure]

/-- No check has tripped on the line, and none can when a channel is read or a carrier
with these settings asks for a pool. -/
structure Line.Faultless {α : Type} (settings : Settings) (s : Line α) : Prop where
  calls : ∀ c ∈ s.calls, c.place.isFaulted = false
  workers : ∀ pool ∈ s.pools, ∀ worker ∈ pool.workers, ∀ fault, worker.station ≠ .broken fault
  readers : ∀ n limit, n < s.store.count → ∃ items t, s.drain n limit = some (items, t)
  /-- The only thing that can be wrong with an order is that it asks for no workers. -/
  pools : ∀ (h : Hub α) (carrier : Carrier) (order : PoolOrder) e,
    carrier.settings = settings → h.lines[carrier.line]? = some s →
      (h.consume carrier order = .error e ↔ order.workers = 0 ∧ e = .settings .noWorkers)

namespace Settings

variable {α : Type} {settings : Settings} {s t : Line α}

/-- What may happen on the line of a carrier with these settings: it sets honest routers
only, and its pools are those that it orders. -/
def Suits (settings : Settings) : Action α → Prop
  | .setRouter r => r.IsHonest settings.channels.toNat
  | .install plan => ∃ (carrier : Carrier) (order : PoolOrder),
      carrier.settings = settings ∧ plan = Hub.planFor carrier order
  | .build _ | .begin _ => False
  | _ => True

theorem of_check (h : settings.check = .ok ()) :
    0 < settings.channels.toNat ∧ 0 < settings.room.toNat := by
  unfold check at h
  split at h
  · cases h
  · next hchannels =>
    split at h
    · cases h
    · next hroom =>
      have hpos : ∀ w : UInt64, w ≠ 0 → 0 < w.toNat := by
        intro w hw
        exact Nat.pos_of_ne_zero fun hz => hw (UInt64.toNat_inj.mp hz)
      exact ⟨hpos _ hchannels, hpos _ hroom⟩

/-- A row of channels by these settings, and what suits a carrier that works on it. -/
structure Opens (settings : Settings) (s : Line α) : Prop where
  fresh : s.IsFresh
  count : s.store.count = settings.channels.toNat
  router : s.store.router.IsHonest settings.channels.toNat

theorem Suits.routesWithin {a : Action α} (ha : settings.Suits a)
    (hpos : 0 < settings.channels.toNat) : a.RoutesWithin settings.channels.toNat := by
  cases a with
  | setRouter r => exact Router.IsHonest.inRange ha hpos
  | _ => trivial

theorem Opens.inRange (h : settings.Opens s) (hpos : 0 < settings.channels.toNat)
    (hr : Line.ReachesBy settings.Suits s t) : t.store.router.InRange t.store.count := by
  induction hr with
  | refl => exact h.count ▸ h.router.inRange hpos
  | @step t u a hr ha hs ih =>
    have ht : t.Reachable := ⟨s, h.fresh, hr.reaches⟩
    have hcount : t.store.count = settings.channels.toNat :=
      (hr.reaches.count ⟨s, h.fresh, .refl⟩).trans h.count
    exact Line.inRange_of_step ht hs (hcount ▸ ha.routesWithin hpos) ih

/-- No call meets a fault. -/
theorem Opens.calls (h : settings.Opens s) (hpos : 0 < settings.channels.toNat)
    (hr : Line.ReachesBy settings.Suits s t) (hfew : t.routed.length < UInt64.size) :
    ∀ (i : Nat) c, t.calls[i]? = some c → c.place.isFaulted = false := by
  have hs : s.Reachable := ⟨s, h.fresh, .refl⟩
  induction hr with
  | refl =>
    obtain ⟨_, _, _, _, store, _, rfl⟩ := h.fresh
    exact fun _ _ hc => nomatch hc
  | @step t u a hr ha hstep ih =>
    intro i c' hc'
    have ht : t.Reachable := hs.reaches hr.reaches
    have hle := Line.Reaches.routed_length_le (.step a .refl hstep) ht
    have hfew' := Nat.lt_of_le_of_lt hle hfew
    rcases Line.call_of_step ht.named hstep hc' with hbegun | ⟨c, hc, rfl | turn⟩
    · rw [hbegun]
      rfl
    · exact ih hfew' i _ hc
    · exact turn.isFaulted ht hc (h.inRange hpos hr) hfew' (ih hfew' i c hc)

theorem Opens.faultless (h : settings.Opens s) (hcheck : settings.check = .ok ())
    (hr : Line.ReachesBy settings.Suits s t) (hfew : t.routed.length < UInt64.size) :
    t.Faultless settings := by
  obtain ⟨hpos, -⟩ := of_check hcheck
  have ht : t.Reachable := ⟨s, h.fresh, hr.reaches⟩
  refine ⟨?_, ?_, ?_, ?_⟩
  · intro c hc
    obtain ⟨i, hi⟩ := List.getElem?_of_mem hc
    exact h.calls hpos hr hfew i c hi
  · intro pool hpool worker hworker fault hbroken
    have horder := ht.allKeepOrder pool hpool worker hworker
    rw [Worker.KeepsOrder, hbroken] at horder
    exact horder
  · intro n limit hn
    have hl : t.store.lanes[n]? = some t.store.lanes[n] := List.getElem?_eq_getElem hn
    obtain ⟨l', htake, -⟩ := Lane.Holds.take (ht.sound.lane hl) limit
    simp [Line.drain, hl, htake]
  · intro hub carrier order e hsettings hl
    have hlimit : (Hub.planFor carrier order).limit ≠ 0 := by
      have hne := batchLimit_ne_zero_of_check hcheck
      rw [Hub.planFor, hsettings]
      exact fun hz => hne (UInt64.toNat_inj.mp hz)
    rw [Hub.consume_eq_error_iff hl, Line.install_eq_error_iff hlimit]
    rfl

/-- Channels can be made by settings that pass the check. -/
theorem exists_opens (hcheck : settings.check = .ok ()) {router : Router (Parcel α)}
    (hrouter : router.IsHonest settings.channels.toNat) :
    ∃ store, LaneSet.ofCounts settings.channels.toNat settings.room.toNat router
      settings.policy = .ok store ∧ settings.Opens (.ofStore store) := by
  obtain ⟨hchannels, hroom⟩ := of_check hcheck
  have hstore : LaneSet.ofCounts settings.channels.toNat settings.room.toNat router
      settings.policy = .ok
        { lanes := .replicate settings.channels.toNat { ring := .empty _ hroom },
          room := settings.room.toNat, router, policy := settings.policy } := by
    rw [LaneSet.ofCounts, if_neg (Nat.ne_of_gt hchannels), Lane.ofCapacity_of_pos hroom]
    rfl
  exact ⟨_, hstore, ⟨_, _, _, _, _, hstore, rfl⟩, List.length_replicate .., hrouter⟩

/-- **Settings that pass the check never trip another one.** A carrier is made by them,
and nothing that happens on its line trips a check, as long as its routers name channels
that exist and fewer calls than there are sequence numbers are given a channel. -/
theorem faultless_of_check (h : Hub α) (hcheck : settings.check = .ok ()) {router : Router α}
    (hrouter : router.IsHonest settings.channels.toNat) (name : String) (registered : Bool) :
    ∃ h' s, h.addCarrier name settings registered router = .ok h' ∧ h'.lines = h.lines ++ [s] ∧
      ∀ t, Line.ReachesBy settings.Suits s t → t.routed.length < UInt64.size →
        t.Faultless settings := by
  obtain ⟨store, hstore, hopens⟩ := exists_opens hcheck (hrouter.comap Parcel.item)
  have hadd : ∃ h', h.addCarrier name settings registered router = .ok h' ∧
      h'.lines = h.lines ++ [.ofStore store] := by
    simp only [Hub.addCarrier, Hub.addLine, hcheck, hstore, bind, Except.bind, pure, Except.pure,
      Except.mapError]
    exact ⟨_, rfl, rfl⟩
  obtain ⟨h', ha, hlines⟩ := hadd
  exact ⟨h', .ofStore store, ha, hlines, fun t hr hfew => hopens.faultless hcheck hr hfew⟩

/-- A carrier of one channel, which has room for one item. -/
def narrow : Carrier :=
  { name := "narrow", settings := .ofSizes 1 1, line := 0, registered := false }

/-- It gets a pool of two workers. Two items come, of which the second has to wait, and
then the first worker goes to its channel and the second, which has none, round it. -/
def cramped : List (Action Nat) :=
  [.install (Hub.planFor narrow { workers := 2, shared := false }), .publish, .retire] ++
    (.offer 0 (.produce 5) :: List.replicate 8 (.advance 0)) ++
    (.offer 1 (.produce 6) :: List.replicate 8 (.advance 1)) ++
    [.work 0 0, .endHook 0 0 .returned, .work 0 0, .work 0 0, .work 0 0] ++
    [.work 0 1, .endHook 0 1 .returned, .work 0 1, .work 0 1]

theorem faultless_of_check_cramped :
    ∃ h' s, ({} : Hub Nat).addCarrier "narrow" (ofSizes 1 1) false .fresh = .ok h' ∧
      h'.lines = [s] ∧ (s.after cramped).Faultless (ofSizes 1 1) ∧
      (s.after cramped).written.length = 1 ∧ (s.after cramped).routed.length = 2 := by
  have hcheck : (ofSizes 1 1).check = .ok () := by decide
  have hrouter : (Router.fresh : Router Nat).IsHonest (ofSizes 1 1).channels.toNat := trivial
  obtain ⟨h', s, ha, hlines, hall⟩ := faultless_of_check {} hcheck hrouter "narrow" false
  have hline : (({} : Hub Nat).addCarrier "narrow" (ofSizes 1 1) false .fresh).toOption.map
      Hub.lines = some [Line.blank 1 1 (by decide) .wait] := rfl
  have hs : s = Line.blank 1 1 (by decide) .wait := by
    rw [ha] at hline
    simpa [Except.toOption, hlines] using hline
  subst hs
  have hsuits : ∀ a ∈ cramped, (ofSizes 1 1).Suits a := by
    simpa [cramped, or_imp, forall_and, Suits] using ⟨narrow, rfl, _, rfl⟩
  have hwritten : ((Line.blank 1 1 (by decide) .wait).after cramped).written.length = 1 := by
    decide +kernel
  have hrouted : ((Line.blank 1 1 (by decide) .wait).after cramped).routed.length = 2 := by
    decide +kernel
  refine ⟨h', _, ha, hlines, hall _ (Line.reachesBy_after _ hsuits) ?_, hwritten, hrouted⟩
  rw [hrouted]
  decide

end Settings

end Conveyor
