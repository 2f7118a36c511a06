/-
Conveyor.Proofs.Teardown — what still runs when the registry has been taken down.

The registry holds one pool for a name. A carrier that enters a pool in place of
another's leaves that one running, and from then on no entry leads to it. So taking
everything down stops a pool exactly if none was entered under its name later
(`Hub.outlives_tearDown_iff`). If all names differ, nothing is left running
(`Hub.not_running_of_tearDown`).
-/
import Conveyor.Proofs.Entries

namespace Conveyor

/-! ## Pools that do not come back -/

theorem Line.KeepsPools.running {α : Type u} {s t : Line α} (hk : s.KeepsPools t) {p : Nat}
    (hp : t.stage? p = some .running) : s.stage? p = some .running := by
  induction hk with
  | refl => exact hp
  | @step t u a _ ha hs ih =>
    have hclose : ∀ q, (t.closePool q).stage? p = some .running → t.stage? p = some .running := by
      intro q hq
      rw [stage?_closePool_eq] at hq
      split at hq
      · cases hstage : t.stage? p <;> simp [hstage] at hq
      · exact hq
    refine ih ?_
    cases a with
    | build | begin | install | publish | retire => cases ha
    | closePool q =>
      cases hs
      exact hclose q hp
    | shutdown =>
      rcases of_step_shutdown hs with rfl | ⟨q, rfl⟩
      · exact hp
      · exact hclose q hp
    | _ => exact (stage?_of_standing (standing_traffic rfl hs) p).symm.trans hp

namespace Hub

variable {α : Type} {h h' : Hub α} {name : String} {k n m : Nat} {c : Carrier}
  {given : Nat → List PoolPlan} {r : Request α}

theorem stage?_eq_some {stage : Stage} : h.stage? n = some stage ↔
    ∃ place s, h.pools[n]? = some place ∧ h.lines[place.line]? = some s ∧
      s.stage? place.index = some stage := by
  simp [stage?_eq, Option.bind_eq_some_iff]

theorem Tended.running (ht : h.Tended h') (hpools : h'.pools = h.pools)
    (hr : h'.stage? n = some .running) : h.stage? n = some .running := by
  obtain ⟨place, t, hplace, hl, hstage⟩ := stage?_eq_some.mp hr
  obtain ⟨s, hs, hk⟩ := ht.lines _ t hl
  exact stage?_eq_some.mpr ⟨place, s, hpools ▸ hplace, hs, hk.running hstage⟩

/-- What runs on the line of a carrier is the pool that it was given last. -/
theorem Sited.last_of_running (hs : h.Sited given) {place : PoolPlace}
    (hplace : h.pools[n]? = some place) (hr : h.stage? n = some .running) :
    place.index + 1 = (given place.line).length := by
  obtain ⟨place', s, hplace', hl, hstage⟩ := stage?_eq_some.mp hr
  cases hplace.symm.trans hplace'
  have hp := (hs.hosts _ s hl).provided
  have hrun : s.isRunning place.index = true := Line.isRunning_iff.mpr hstage
  have hlt : place.index < (given place.line).length := by
    have := Line.lt_of_isRunning hrun
    rwa [← hp.plans, Line.plans, List.length_map]
  by_contra hne
  have hclosed := hp.earlier place.index (by omega)
  rw [hstage] at hclosed
  cases hclosed

/-- When a carrier has been shut down, none of its pools runs. -/
theorem Filed.not_running_of_shutdown (hf : h.Filed given) (hc : h.carriers[k]? = some c)
    (ho : h.owner? n = some k) : (h.shutdown c).stage? n ≠ some .running := by
  intro hr
  have hpools := (desk_eq_iff.mp (h.desk_shutdown c)).2.1
  obtain ⟨⟨k, index⟩, hplace, rfl⟩ := Option.map_eq_some_iff.mp ho
  have hlast : index + 1 = (given k).length :=
    (hf.tended (h.tended_shutdown c)).last_of_running (hpools ▸ hplace) hr
  have hinst := (hf.installed?_eq_some hf.nodup hc).mpr ⟨index, hplace, hlast⟩
  obtain ⟨hck, s, hl⟩ := hf.line_eq hc
  have hp := (hf.hosts k s hl).provided
  have hs : s.installed = some index := hp.installed.trans ((hp.active index).mpr hlast)
  have hclosed : s.shutdown.stage? index ≠ some .running := by
    rw [Line.shutdown, hs]
    simp [Line.stage?_closePool_eq]
  obtain ⟨place, t, hplace', ht, hstage⟩ := stage?_eq_some.mp hr
  cases hplace.symm.trans (hpools ▸ hplace')
  rw [shutdown, hinst] at ht
  simp only [(lines_unregister _ c n).1, lines_mapLine, hck, hl, ↓reduceIte, Option.map_some,
    Option.some.injEq] at ht
  exact hclosed (ht ▸ hstage)

/-! ## Pools under one name -/

/-- What a carrier enters its pools under, and whether it does. -/
def badge? (h : Hub α) (k : Nat) : Option (String × Bool) :=
  h.carriers[k]?.map fun c => (c.name, c.registered)

/-- Pool `n` was given to a carrier that enters its pools under `name`. -/
def Bears (h : Hub α) (name : String) (n : Nat) : Prop :=
  ∃ k, h.owner? n = some k ∧ h.badge? k = some (name, true)

/-- An entry leads to the latest pool under its name. A pool that runs is entered, or
there is a later one under its name. -/
structure Covered (h : Hub α) : Prop where
  latest : ∀ name n m, h.registry.get? name = some n → h.Bears name m → m ≤ n
  running : ∀ name n, h.Bears name n → h.stage? n = some .running →
    h.registry.get? name = some n ∨ ∃ m, n < m ∧ h.Bears name m

theorem Filed.bears_of_entry (hf : h.Filed given) (he : h.registry.get? name = some n) :
    h.Bears name n := by
  obtain ⟨k, c, hk, hc, hreg, hname, -⟩ := hf.owner?_of_entry he
  exact ⟨k, hk, by simp [badge?, (of_receiver? hc).1, hreg, hname]⟩

theorem Bears.name_eq {other : String} (hn : h.Bears name n) (ho : h.Bears other n) :
    name = other := by
  obtain ⟨k, hk, hbadge⟩ := hn
  obtain ⟨j, hj, hbadge'⟩ := ho
  cases hk.symm.trans hj
  cases hbadge.symm.trans hbadge'
  rfl

theorem lt_of_owner? (ho : h.owner? n = some k) : n < h.pools.length := by
  obtain ⟨place, hplace, -⟩ := Option.map_eq_some_iff.mp ho
  exact (List.getElem?_eq_some_iff.mp hplace).1

theorem Filed.carrier_of_owner? (hf : h.Filed given) (ho : h.owner? n = some k) :
    ∃ c, h.carriers[k]? = some c := by
  obtain ⟨place, hplace, rfl⟩ := Option.map_eq_some_iff.mp ho
  have hlt := hf.placed place (List.mem_of_getElem? hplace)
  have hline : place.line < h.lines.length := by
    by_contra hge
    simp [hf.later place.line (Nat.not_lt.mp hge)] at hlt
  have hcount := congrArg List.length hf.homes
  rw [List.length_map, List.length_range] at hcount
  exact ⟨_, List.getElem?_eq_getElem (hcount ▸ hline)⟩

/-- The same pools are under the same names if nobody got another one. -/
theorem Filed.bears_congr (hf : h.Filed given) (hpools : h'.pools = h.pools)
    (hbadges : ∀ k c, h.carriers[k]? = some c → h'.badge? k = h.badge? k) :
    h'.Bears name n ↔ h.Bears name n := by
  have howner : h'.owner? n = h.owner? n := by rw [Hub.owner?, hpools, Hub.owner?]
  refine exists_congr fun k => ?_
  rw [howner]
  refine and_congr_right fun ho => ?_
  obtain ⟨c, hc⟩ := hf.carrier_of_owner? ho
  rw [hbadges k c hc]

/-- Nobody got another pool, no stopped pool runs, and no entry is taken back for a pool
that still does. -/
theorem Covered.keep (hv : h.Covered)
    (hbears : ∀ name n, h'.Bears name n ↔ h.Bears name n)
    (hentry : ∀ name n, h'.registry.get? name = some n → h.registry.get? name = some n)
    (hrunning : ∀ n, h'.stage? n = some .running → h.stage? n = some .running)
    (hstill : ∀ name n, h.Bears name n → h'.stage? n = some .running →
      h.registry.get? name = some n → h'.registry.get? name = some n) : h'.Covered where
  latest name n m he hm := hv.latest name n m (hentry name n he) ((hbears name m).mp hm)
  running := by
    intro name n hn hr
    have hn' := (hbears name n).mp hn
    rcases hv.running name n hn' (hrunning n hr) with he | ⟨m, hm, hb⟩
    · exact .inl (hstill name n hn' hr he)
    · exact .inr ⟨m, hm, (hbears name m).mpr hb⟩

/-- A carrier's new pool runs, and no older one of it. Nothing changes for others. -/
theorem Filed.running_of_consume (hf : h.Filed given) {order : PoolOrder}
    (hc : h.receiver? k = some c) (ho : h.consume c order = .ok h')
    (hdesk : h'.desk =
      (h.carriers, h.pools ++ [⟨k, (given k).length⟩], h.entered c h.pools.length))
    (hn : n < h.pools.length) (hr : h'.stage? n = some .running) :
    h.stage? n = some .running := by
  obtain ⟨-, hpools, -⟩ := desk_eq_iff.mp hdesk
  obtain ⟨place, t, hplace, ht, hstage⟩ := stage?_eq_some.mp hr
  have hold : h.pools[n]? = some place := by
    rwa [hpools, List.getElem?_append_left hn] at hplace
  have hlast := (hf.consume hc ho hdesk).last_of_running hplace hr
  have hlt := hf.placed place (List.mem_of_getElem? hold)
  have hne : k ≠ place.line := by
    rintro rfl
    simp only [↓reduceIte, List.length_append, List.length_singleton] at hlast
    omega
  obtain ⟨hck, s, hl⟩ := hf.line_eq (of_receiver? hc).1
  obtain ⟨begun, -, hlines, -⟩ := of_consume_eq_ok (hck ▸ hl) ho
  rw [hlines, hck, List.getElem?_set_ne hne] at ht
  exact stage?_eq_some.mpr ⟨place, t, hold, ht, hstage⟩

theorem Covered.consume (hv : h.Covered) (hf : h.Filed given) {order : PoolOrder}
    (hc : h.receiver? k = some c) (ho : h.consume c order = .ok h')
    (hdesk : h'.desk =
      (h.carriers, h.pools ++ [⟨k, (given k).length⟩], h.entered c h.pools.length)) :
    h'.Covered := by
  obtain ⟨hcarriers, hpools, hregistry⟩ := desk_eq_iff.mp hdesk
  have hbadge : ∀ j, h'.badge? j = h.badge? j := fun j => by rw [badge?, hcarriers, badge?]
  have hnew : h'.owner? h.pools.length = some k := by simp [Hub.owner?, hpools]
  have hkbadge : h.badge? k = some (c.name, c.registered) := by
    simp [badge?, (of_receiver? hc).1]
  have hold : ∀ {name n}, n < h.pools.length → (h'.Bears name n ↔ h.Bears name n) := by
    intro name n hn
    simp only [Bears, hbadge, Hub.owner?, hpools, List.getElem?_append_left hn]
  have hbears : ∀ {name}, h'.Bears name h.pools.length ↔ c.registered = true ∧ name = c.name := by
    intro name
    simp only [Bears, hbadge, hnew, Option.some.injEq, exists_eq_left', hkbadge, Prod.mk.injEq]
    rw [and_comm, eq_comm (a := name)]
  have hlt : ∀ {name n}, h'.Bears name n → n ≤ h.pools.length := by
    rintro name n ⟨j, hj, -⟩
    have := lt_of_owner? hj
    rw [hpools, List.length_append, List.length_singleton] at this
    omega
  -- Either the new pool is under the name, or this name's entry is as it was.
  refine ⟨fun name n m he hm => ?_, fun name n hn hr => ?_⟩
  · by_cases hname : c.registered = true ∧ name = c.name
    · have hn : n = h.pools.length := by simpa [hregistry, entered, hname, eq_comm] using he
      exact hn ▸ hlt hm
    · have he' := (get?_entered_of_ne hname).mp (hregistry ▸ he)
      have hm' : m < h.pools.length := by
        refine Nat.lt_of_le_of_ne (hlt hm) ?_
        rintro rfl
        exact hname (hbears.mp hm)
      exact hv.latest name n m he' ((hold hm').mp hm)
  · by_cases hname : c.registered = true ∧ name = c.name
    · rcases Nat.lt_or_eq_of_le (hlt hn) with hlt | rfl
      · exact .inr ⟨h.pools.length, hlt, hbears.mpr hname⟩
      · exact .inl (by simp [hregistry, entered, hname])
    · have hn' : n < h.pools.length := by
        refine Nat.lt_of_le_of_ne (hlt hn) ?_
        rintro rfl
        exact hname (hbears.mp hn)
      have hr' := hf.running_of_consume hc ho hdesk hn' hr
      rcases hv.running name n ((hold hn').mp hn) hr' with he | ⟨m, hm, hb⟩
      · exact .inl (hregistry ▸ (get?_entered_of_ne hname).mpr he)
      · obtain ⟨j, hj, -⟩ := id hb
        exact .inr ⟨m, hm, (hold (lt_of_owner? hj)).mpr hb⟩

theorem Covered.serve (hv : h.Covered) (hf : h.Filed given) (r : Request α) :
    (h.serve r).Covered := by
  have hfiling := hf.filing r
  generalize hserve : h.serve r = h' at *
  cases hfiling with
  | granted k c order hr hc ho hdesk => exact hv.consume hf hc ho hdesk
  | added c s hr hnone hlines hdesk =>
    obtain ⟨hcarriers, hpools, hregistry⟩ := desk_eq_iff.mp hdesk
    refine hv.keep (fun name n => hf.bears_congr hpools fun k d hd => ?_)
      (fun name n he => hregistry ▸ he) (fun n hn => ?_) (fun name n _ _ he => hregistry ▸ he)
    · rw [badge?, hcarriers, List.getElem?_append_left (List.getElem?_eq_some_iff.mp hd).1, badge?]
    · obtain ⟨place, t, hplace, ht, hstage⟩ := stage?_eq_some.mp hn
      rw [hpools] at hplace
      obtain ⟨stage, hs⟩ := hf.exists_stage hplace
      obtain ⟨place', s', hplace', hs', -⟩ := stage?_eq_some.mp hs
      cases hplace.symm.trans hplace'
      rw [hlines, List.getElem?_append_left (List.getElem?_eq_some_iff.mp hs').1] at ht
      exact stage?_eq_some.mpr ⟨place, t, hplace, ht, hstage⟩
  | ended k c carriers hr hnone hc hcarriers hlines hdesk =>
    obtain ⟨rfl, hpools, hregistry⟩ := desk_eq_iff.mp hdesk
    obtain ⟨-, hdown, -⟩ := desk_eq_iff.mp (h.desk_shutdown c)
    have hshut : ∀ n, h'.stage? n = some .running → (h.shutdown c).stage? n = some .running :=
      fun n hn => hlines.running (hpools.trans hdown.symm) hn
    refine hv.keep (fun name n => hf.bears_congr hpools fun j d hd => ?_)
      (fun name n he => (get?_withdrawn.mp (hregistry ▸ he)).1)
      (fun n hn => (h.tended_shutdown c).running hdown (hshut n hn)) (fun name n hb hn he => ?_)
    · rcases hcarriers with hsame | hset
      · rw [badge?, hsame, badge?]
      · have hck := (of_receiver? hc).1
        by_cases hj : k = j
        · subst hj
          rw [badge?, hset, List.getElem?_set_self (List.getElem?_eq_some_iff.mp hck).1, badge?, hck]
          rfl
        · rw [badge?, hset, List.getElem?_set_ne hj, badge?]
    · obtain ⟨j, hj, -⟩ := hb
      have hne : k ≠ j := by
        rintro rfl
        exact hf.not_running_of_shutdown (of_receiver? hc).1 hj (hshut n hn)
      exact ((hf.lists_withdrawn hc hpools hregistry).mpr ⟨⟨he, hj⟩, hne⟩).1
  | cleared hr hdesk =>
    obtain ⟨hcarriers, hpools, hregistry⟩ := desk_eq_iff.mp hdesk
    have hclose : h' = h.closeAll := by
      rw [← hserve, hr]
      rfl
    have hopen : ∀ n, h'.stage? n = some .running → n ∉ h.registry.entries.map Prod.snd ∧
        h.stage? n = some .running := by
      intro n hn
      rw [hclose, hf.stage?_closeAll] at hn
      split at hn
      · cases hstage : h.stage? n <;> simp [hstage] at hn
      · next hnot => exact ⟨hnot, hn⟩
    refine hv.keep (fun name n => hf.bears_congr hpools fun k d _ => by rw [badge?, hcarriers, badge?])
      (fun name n he => ?_) (fun n hn => (hopen n hn).2) (fun name n _ hn he => ?_)
    · simp [hregistry] at he
    · exact absurd (List.mem_map_of_mem (f := Prod.snd) (Registry.mem_of_get? he)) (hopen n hn).1
  | kept hr hnone hlines hdesk =>
    obtain ⟨hcarriers, hpools, hregistry⟩ := desk_eq_iff.mp hdesk
    exact hv.keep (fun name n => hf.bears_congr hpools fun k d _ => by rw [badge?, hcarriers, badge?])
      (fun name n he => hregistry ▸ he) (fun n hn => hlines.running hpools hn)
      (fun name n _ _ he => hregistry ▸ he)

theorem covered_start : ({} : Hub α).Covered where
  latest _ _ _ h _ := nomatch h
  running _ _ h _ := by
    obtain ⟨k, hk, -⟩ := h
    cases hk

theorem Covered.after (hv : h.Covered) (hf : h.Filed given) (requests : List (Request α)) :
    (h.after requests).Covered := by
  induction requests generalizing h given with
  | nil => exact hv
  | cons r rest ih => exact ih (hv.serve hf r) (hf.serve r)

theorem Covered.running_closeAll_iff (hv : h.Covered) (hf : h.Filed given)
    (hn : h.Bears name n) :
    h.closeAll.stage? n = some .running ↔
      h.stage? n = some .running ∧ ∃ m, n < m ∧ h.Bears name m := by
  rw [hf.stage?_closeAll]
  constructor
  · intro hr
    split at hr
    · cases hstage : h.stage? n <;> simp [hstage] at hr
    · next hnot =>
      refine ⟨hr, (hv.running name n hn hr).resolve_left fun he => ?_⟩
      exact hnot (List.mem_map_of_mem (f := Prod.snd) (Registry.mem_of_get? he))
  · rintro ⟨hr, m, hm, hb⟩
    refine (if_neg fun hmem => ?_).trans hr
    obtain ⟨⟨other, n'⟩, hentry, rfl⟩ := List.mem_map.mp hmem
    have he := hf.sorted.get?_of_mem hentry
    cases hn.name_eq (hf.bears_of_entry he)
    exact absurd (hv.latest name _ m he hb) (Nat.not_le.mpr hm)

/-- **What is left running.** When everything has been taken down, a pool still runs if it
did before and a later one was given to a carrier that enters its pools under the same
name; and only then. -/
theorem outlives_tearDown_iff (requests : List (Request α))
    (hn : (after {} requests).Bears name n) :
    (after {} requests).tearDown.2.stage? n = some .running ↔
      (after {} requests).stage? n = some .running ∧
        ∃ m, n < m ∧ (after {} requests).Bears name m :=
  (covered_start.after filed_start requests).running_closeAll_iff (filed_start.after requests) hn

/-- The first of two namesakes goes on when everything has been taken down. -/
theorem outlives_tearDown_namesakes :
    (after {} namesakes).Bears "feed" 0 ∧
      (after {} namesakes).tearDown.2.stage? 0 = some .running := by
  have hfirst : (after {} namesakes).Bears "feed" 0 := ⟨0, by decide +kernel, by decide +kernel⟩
  have hsecond : (after {} namesakes).Bears "feed" 1 := ⟨1, by decide +kernel, by decide +kernel⟩
  have hrun : (after {} namesakes).stage? 0 = some .running := by decide +kernel
  refine ⟨hfirst, ?_⟩
  exact (outlives_tearDown_iff namesakes hfirst).mpr ⟨hrun, 1, Nat.zero_lt_one, hsecond⟩

/-- It is not so that whatever was entered is stopped when everything is taken down. -/
theorem not_all_stopped : ¬∀ (requests : List (Request Nat)) (name : String) (n : Nat),
    (after {} requests).Bears name n →
      (after {} requests).tearDown.2.stage? n ≠ some .running := by
  intro hall
  refine hall namesakes "feed" 0 ⟨0, ?_, ?_⟩ ?_ <;> decide +kernel

/-- If no two carriers enter their pools under one name, none of these pools is left
running. -/
theorem not_running_of_tearDown (requests : List (Request α))
    (hnames : ∀ j k name, (after {} requests).badge? j = some (name, true) →
      (after {} requests).badge? k = some (name, true) → j = k)
    (hn : (after {} requests).Bears name n) :
    (after {} requests).tearDown.2.stage? n ≠ some .running := by
  have hf := filed_start.after requests
  have hv := covered_start.after filed_start requests
  intro hr
  obtain ⟨hrun, m, hlt, k, hk, hbadge⟩ := (hv.running_closeAll_iff hf hn).mp hr
  obtain ⟨j, hj, hbadge'⟩ := hn
  cases hnames j k name hbadge' hbadge
  obtain ⟨place, hplace, rfl⟩ := Option.map_eq_some_iff.mp hj
  obtain ⟨later, hlater, hline⟩ := Option.map_eq_some_iff.mp hk
  -- The later pool is one of the same carrier, so the other one is not its last.
  obtain ⟨hnlt, rfl⟩ := List.getElem?_eq_some_iff.mp hplace
  obtain ⟨hmlt, rfl⟩ := List.getElem?_eq_some_iff.mp hlater
  have hindex := List.pairwise_iff_getElem.mp hf.numbered n m hnlt hmlt hlt hline.symm
  have hlast := hf.last_of_running hplace hrun
  have hplaced := hf.placed _ (List.getElem_mem hmlt)
  rw [hline] at hplaced
  omega

end Hub

end Conveyor
