/-
Conveyor.Proofs.Entries — what the registry holds.

Carriers with one registry are asked for pools, shut down, closed and given up in any
order, pools are closed by signals, and all entries at once. An entry is taken back only
by the carrier that made it (`Hub.get?_serve`), so what stands under a name can be read
off the requests alone: it is the pool that a carrier of this name got last, unless this
carrier has been shut down since, or everything was torn down (`Hub.registry_after`).

Numbers of pools are never used twice (`Hub.Filed`), and an entry is always for the
pool that its carrier has, which is why a carrier with another pool can take it back by
its number.
-/
import Conveyor.Hub.Lemmas
import Conveyor.Proofs.Installed
import Mathlib.Data.List.Induction

namespace Conveyor

theorem Line.stage?_closePool_eq {α : Type u} (s : Line α) (p q : Nat) :
    (s.closePool p).stage? q = if q = p then (s.stage? q).map fun _ => .closed else s.stage? q := by
  split
  · next heq =>
    subst heq
    cases hq : s.stage? q with
    | some stage => exact stage?_closePool_self hq
    | none =>
      rw [stage?, List.getElem?_eq_none_iff, List.length_map] at hq
      simpa [stage?, s.length_closePool] using hq
  · next hne => exact stage?_closePool (Ne.symm hne)

namespace Hub

variable {α : Type} {h h' : Hub α} {name : String} {k n : Nat} {c : Carrier}
  {given : Nat → List PoolPlan} {r : Request α}

/-! ## What a request does to the registry -/

/-- Whose pool number `n` is. -/
def owner? (h : Hub α) (n : Nat) : Option Nat := h.pools[n]?.map PoolPlace.line

/-- The carriers, the places of the pools and the registry. Whatever happens on a line
leaves them alone. -/
def desk (h : Hub α) : List Carrier × List PoolPlace × Registry Nat :=
  (h.carriers, h.pools, h.registry)

/-- The registry once carrier `c` has taken back the entry for its pool. -/
def withdrawn (h : Hub α) (c : Carrier) : Registry Nat :=
  (h.installed? c).elim h.registry fun n => (h.unregister c n).registry

/-- The registry once carrier `c` has another pool, number `n`. -/
def entered (h : Hub α) (c : Carrier) (n : Nat) : Registry Nat :=
  if c.registered then (h.withdrawn c).insert c.name n else h.registry

/-- The carrier that a request is made to. -/
def Request.carrier? : Request α → Option Nat
  | .consume k _ | .shutdown k | .shutdownAndWait k _ | .close k | .drop k => some k
  | _ => none

/-- Whether a request is to stop the pool of carrier `k`, of this carrier or of all, so
that the carrier has none. -/
def Request.ends (k : Nat) : Request α → Bool
  | .shutdown j | .shutdownAndWait j _ | .close j | .drop j => j = k
  | .closeAll => true
  | _ => false

theorem desk_eq_iff {carriers : List Carrier} {pools : List PoolPlace} {registry : Registry Nat} :
    h.desk = (carriers, pools, registry) ↔
      h.carriers = carriers ∧ h.pools = pools ∧ h.registry = registry := by
  simp [desk]

theorem desk_mapLine (h : Hub α) (i : Nat) (f : Line α → Line α) :
    (h.mapLine i f).desk = h.desk := by
  unfold mapLine
  split <;> rfl

theorem desk_closePool (h : Hub α) (n : Nat) : (h.closePool n).desk = h.desk := by
  unfold closePool
  split
  · rfl
  · exact h.desk_mapLine _ _

/-- An action on a line is nothing that the desk notices. -/
theorem desk_act (h : Hub α) (i : Nat) (a : Action α) : (h.act i a).desk = h.desk := by
  unfold act
  split
  · exact h.desk_mapLine _ _
  · rfl

theorem desk_foldl {β : Type} {f : Hub α → β → Hub α} (hf : ∀ (g : Hub α) x, (f g x).desk = g.desk)
    (h : Hub α) (xs : List β) : (xs.foldl f h).desk = h.desk := by
  induction xs generalizing h with
  | nil => rfl
  | cons x xs ih => exact (ih (f h x)).trans (hf h x)

/-- To take everything down empties the registry and leaves the carriers. -/
theorem desk_closeAll (h : Hub α) : h.closeAll.desk = (h.carriers, h.pools, ∅) := by
  unfold closeAll
  refine (desk_foldl ?_ _ _).trans rfl
  rintro g ⟨name, n⟩
  exact (g.note (.entryClosing name)).desk_closePool n

/-- To shut a carrier down takes its own entry back. -/
theorem desk_shutdown (h : Hub α) (c : Carrier) :
    (h.shutdown c).desk = (h.carriers, h.pools, h.withdrawn c) := by
  unfold shutdown withdrawn
  cases h.installed? c with
  | none => rfl
  | some n =>
    obtain ⟨hcarriers, hpools, hregistry⟩ := desk_eq_iff.mp (h.desk_mapLine c.line Line.shutdown)
    simp only [unregister]
    split <;> simp [desk, hcarriers, hpools, hregistry]

theorem desk_close (h : Hub α) (c : Carrier) :
    (h.close c).desk = (h.carriers, h.pools, h.withdrawn c) :=
  (desk_mapLine (h.shutdown c) c.line Line.closeAll).trans (h.desk_shutdown c)

/-- So does to drop it, and the carrier is marked. -/
theorem desk_drop (hc : h.carriers[k]? = some c) :
    (h.drop k).desk =
      (h.carriers.set k { c with dropped := true }, h.pools, h.withdrawn c) := by
  have hdown := desk_eq_iff.mp (h.desk_shutdown c)
  simp [drop, hc, desk, hdown]

/-- A new pool is the last in the list, and takes the place of the carrier's old entry. -/
theorem desk_consume {order : PoolOrder} {s : Line α} (hl : h.lines[c.line]? = some s)
    (ho : h.consume c order = .ok h') :
    h'.desk = (h.carriers, h.pools ++ [⟨c.line, s.pools.length⟩], h.entered c h.pools.length) := by
  unfold consume at ho
  rw [hl] at ho
  cases hi : s.install (planFor c order) with
  | error e => simp [hi, bind, Except.bind] at ho
  | ok begun =>
    simp only [hi, bind, Except.bind, pure, Except.pure, Except.ok.injEq] at ho
    subst ho
    unfold entered withdrawn register unregister
    cases h.installed? c <;> cases c.registered <;> rfl

/-- What a request leaves behind. -/
inductive Filing (h : Hub α) (r : Request α) (given : Nat → List PoolPlan) (h' : Hub α) : Prop
  | added (c : Carrier) (s : Line α) (hr : ∀ k, r.ends k = false) (hnone : ∀ i, h.grant i r = [])
      (hlines : h'.lines = h.lines ++ [s])
      (hdesk : h'.desk = (h.carriers ++ [c], h.pools, h.registry))
  | granted (k : Nat) (c : Carrier) (order : PoolOrder) (hr : r = .consume k order)
      (hc : h.receiver? k = some c) (ho : h.consume c order = .ok h')
      (hdesk : h'.desk =
        (h.carriers, h.pools ++ [⟨k, (given k).length⟩], h.entered c h.pools.length))
  | ended (k : Nat) (c : Carrier) (carriers : List Carrier) (hr : ∀ j, r.ends j = decide (k = j))
      (hnone : ∀ i, h.grant i r = []) (hc : h.receiver? k = some c)
      (hcarriers : carriers = h.carriers ∨
        carriers = h.carriers.set k { c with dropped := true })
      (hlines : (h.shutdown c).Tended h')
      (hdesk : h'.desk = (carriers, h.pools, h.withdrawn c))
  | cleared (hr : r = .closeAll) (hdesk : h'.desk = (h.carriers, h.pools, ∅))
  | kept (hr : ∀ k c, h.receiver? k = some c → r.ends k = false) (hnone : ∀ i, h.grant i r = [])
      (hlines : h.Tended h') (hdesk : h'.desk = (h.carriers, h.pools, h.registry))

/-- Nobody is there to be asked, or the request is refused. -/
theorem Filing.of_refused (hr : ∀ k c, h.receiver? k = some c → r.ends k = false)
    (hnone : ∀ i, h.grant i r = []) : h.Filing r given h :=
  .kept hr hnone (tended_of_eq rfl rfl) rfl

/-- A request by which a carrier gives its pool up. -/
theorem Filing.of_end {f : Carrier → Hub α} (hr : ∀ j, r.ends j = decide (k = j))
    (hnone : ∀ i, h.grant i r = [])
    (hf : ∀ c, h.receiver? k = some c → (h.shutdown c).Tended (f c) ∧
      ((f c).desk = (h.carriers, h.pools, h.withdrawn c) ∨ (f c).desk =
        (h.carriers.set k { c with dropped := true }, h.pools, h.withdrawn c))) :
    h.Filing r given (h.forCarrier k f) := by
  cases hc : h.receiver? k with
  | none =>
    have hunserved : ∀ j c, h.receiver? j = some c → r.ends j = false := by
      intro j c hj
      rw [hr]
      refine decide_eq_false ?_
      rintro rfl
      cases hc.symm.trans hj
    simpa [forCarrier, hc] using Filing.of_refused hunserved hnone
  | some c =>
    have hserve : h.forCarrier k f = f c := by simp [forCarrier, hc]
    rw [hserve]
    obtain ⟨hlines, hdesk | hdesk⟩ := hf c hc
    · exact .ended k c _ hr hnone hc (.inl rfl) hlines hdesk
    · exact .ended k c _ hr hnone hc (.inr rfl) hlines hdesk

/-- Each request is of one of these kinds, by cases on the request. -/
theorem Sited.filing (hs : h.Sited given) (r : Request α) : h.Filing r given (h.serve r) := by
  cases r with
  | addCarrier name settings registered router =>
    show h.Filing _ given ((h.addCarrier name settings registered router).toOption.getD h)
    cases ha : h.addCarrier name settings registered router with
    | error e => exact .of_refused (fun _ _ _ => rfl) fun _ => rfl
    | ok h' =>
      obtain ⟨s, c, -, -, hlines, hcarriers, hpools, hregistry⟩ := of_addCarrier_eq_ok ha
      refine .added c s (fun _ => rfl) (fun _ => rfl) hlines ?_
      exact Prod.ext hcarriers (Prod.ext hpools hregistry)
  | consume k order =>
    cases hc : h.receiver? k with
    | none =>
      have hnone : ∀ i, h.grant i (.consume k order) = [] := by
        intro i
        simp [grant, hc]
      simpa [Hub.serve, forCarrier, hc] using Filing.of_refused (fun _ _ _ => rfl) hnone
    | some c =>
      obtain ⟨hline, s, hl⟩ := hs.line_eq (of_receiver? hc).1
      have hserve : h.serve (.consume k order) = (h.consume c order).toOption.getD h := by
        simp [Hub.serve, forCarrier, hc]
      rw [hserve]
      cases ho : h.consume c order with
      | error e =>
        have hnone : ∀ i, h.grant i (.consume k order) = [] := by
          intro i
          simp [grant, hc, ho, Except.isOk, Except.toBool]
        exact .of_refused (fun _ _ _ => rfl) hnone
      | ok h' =>
        have hdesk := desk_consume (hline ▸ hl) ho
        rw [hline, ← List.length_map Pool.plan, ← Line.plans, (hs.hosts k s hl).plans] at hdesk
        exact .granted k c order rfl hc ho hdesk
  | shutdown k =>
    refine .of_end (fun _ => rfl) (fun _ => rfl) fun c _ => ⟨?_, .inl (h.desk_shutdown c)⟩
    exact tended_of_eq rfl rfl
  | shutdownAndWait k meanwhile =>
    refine .of_end (fun _ => rfl) (fun _ => rfl) fun c _ => ⟨tended_foldl ?_ _ _, .inl ?_⟩
    · rintro g ⟨i, a⟩
      exact g.tended_act i a
    · refine (desk_foldl ?_ _ _).trans (h.desk_shutdown c)
      rintro g ⟨i, a⟩
      exact g.desk_act i a
  | close k =>
    refine .of_end (fun _ => rfl) (fun _ => rfl) fun c _ => ⟨?_, .inl (h.desk_close c)⟩
    exact (tended_mapLine _ _ Line.keepsPools_closeAll).trans (tended_of_eq rfl rfl)
  | drop k =>
    refine .of_end (fun _ => rfl) (fun _ => rfl) fun c hc => ⟨?_, .inr (desk_drop ?_)⟩
    · exact tended_shutdown_drop (of_receiver? hc).1
    · exact (of_receiver? hc).1
  | closePool n =>
    exact .kept (fun _ _ _ => rfl) (fun _ => rfl) (h.tended_closePool n) (h.desk_closePool n)
  | closeAll => exact .cleared rfl h.desk_closeAll
  | act i a => exact .kept (fun _ _ _ => rfl) (fun _ => rfl) (h.tended_act i a) (h.desk_act i a)

/-! ## Entries and the pools of carriers -/

/-- Each pool has a number, and what comes later on a line has a greater one. -/
def Numbered (pools : List PoolPlace) : Prop :=
  pools.Pairwise fun a b => a.line = b.line → a.index < b.index

/-- So no place has two pools. -/
theorem Numbered.nodup {pools : List PoolPlace} (hn : Numbered pools) : pools.Nodup := by
  refine List.Pairwise.imp ?_ hn
  rintro a b hlt rfl
  exact Nat.lt_irrefl _ (hlt rfl)

/-- A hub whose carriers were given pools by these plans, and in the registry only entries
for pools that their carriers still have. -/
structure Filed (h : Hub α) (given : Nat → List PoolPlan) : Prop extends h.Sited given where
  numbered : Numbered h.pools
  placed : ∀ place ∈ h.pools, place.index < (given place.line).length
  sorted : h.registry.IsSorted
  entry : ∀ name n, h.registry.get? name = some n →
    ∃ k c, h.receiver? k = some c ∧ c.registered = true ∧ c.name = name ∧ h.installed? c = some n

/-- A pool is found by its place. -/
theorem numberOf?_eq_some (hn : h.pools.Nodup) {place : PoolPlace} :
    h.numberOf? place = some n ↔ h.pools[n]? = some place := by
  rw [numberOf?, List.idxOf?_eq_some_iff, List.getElem?_eq_some_iff]
  refine exists_congr fun hlt => ⟨And.left, fun heq => ⟨heq, ?_⟩⟩
  intro j hj hplace
  have hsame : j = n := hn.getElem_inj_iff.mp (hplace.trans heq.symm)
  omega

/-- What a carrier has installed is the pool that it was given last. -/
theorem Sited.installed?_eq_some (hs : h.Sited given) (hn : h.pools.Nodup)
    (hc : h.carriers[k]? = some c) :
    h.installed? c = some n ↔ ∃ i, h.pools[n]? = some ⟨k, i⟩ ∧ i + 1 = (given k).length := by
  obtain ⟨hline, s, hl⟩ := hs.line_eq hc
  have hp := (hs.hosts k s hl).provided
  have hlast : ∀ i, s.installed = some i ↔ i + 1 = (given k).length := by
    intro i
    rw [hp.installed]
    exact hp.active i
  simp only [installed?, hline, hl, Option.bind_eq_bind, Option.bind_some, Option.bind_eq_some_iff,
    hlast, numberOf?_eq_some hn]
  exact exists_congr fun i => and_comm

/-- What is installed at a carrier is one of its own pools. -/
theorem Sited.owner?_of_installed? (hs : h.Sited given) (hn : h.pools.Nodup)
    (hc : h.carriers[k]? = some c) (hi : h.installed? c = some n) : h.owner? n = some k := by
  obtain ⟨i, hplace, -⟩ := (hs.installed?_eq_some hn hc).mp hi
  simp [owner?, hplace]

theorem Filed.nodup (hf : h.Filed given) : h.pools.Nodup := hf.numbered.nodup

/-- An entry leads to its carrier, which still has the pool. -/
theorem Filed.owner?_of_entry (hf : h.Filed given) (he : h.registry.get? name = some n) :
    ∃ k c, h.owner? n = some k ∧ h.receiver? k = some c ∧ c.registered = true ∧ c.name = name ∧
      h.installed? c = some n := by
  obtain ⟨k, c, hc, hreg, hname, hinst⟩ := hf.entry name n he
  have howner := hf.owner?_of_installed? hf.nodup (of_receiver? hc).1 hinst
  exact ⟨k, c, howner, hc, hreg, hname, hinst⟩

/-- Only the entry goes that bears the carrier's name and leads to its present pool. -/
theorem get?_withdrawn :
    (h.withdrawn c).get? name = some n ↔
      h.registry.get? name = some n ∧
        ¬(c.registered = true ∧ name = c.name ∧ h.installed? c = some n) := by
  unfold withdrawn unregister
  cases hi : h.installed? c with
  | none => simp
  | some m =>
    cases hreg : c.registered with
    | false => simp
    | true => simp [Registry.get?_eraseIf, eq_comm (a := n)]

theorem isSorted_withdrawn (hs : h.registry.IsSorted) : (h.withdrawn c).IsSorted := by
  unfold withdrawn unregister
  cases h.installed? c with
  | none => exact hs
  | some m =>
    cases c.registered with
    | false => exact hs
    | true => exact hs.eraseIf

/-- Carrier `k`, which enters its pools under `name`, gets one by the request, number `n`. -/
def Enters (h : Hub α) (name : String) (k n : Nat) (r : Request α) : Prop :=
  ∃ c order h', r = .consume k order ∧ h.receiver? k = some c ∧ c.registered = true ∧
    c.name = name ∧ h.consume c order = .ok h' ∧ h'.installed? c = some n

/-- A request that grants no pool enters none. -/
theorem not_enters (hnone : ∀ i, h.grant i r = []) : ¬h.Enters name k n r := by
  rintro ⟨c, order, h', rfl, hc, -, -, ho, -⟩
  simpa [grant, hc, ho, Except.isOk, Except.toBool] using hnone k

/-- A new pool gets the next number. -/
theorem Filed.numbered_append (hf : h.Filed given) (k : Nat) :
    Numbered (h.pools ++ [PoolPlace.mk k (given k).length]) := by
  refine List.pairwise_append.mpr ⟨hf.numbered, List.pairwise_singleton _ _, ?_⟩
  intro place hmem new hnew hline
  cases List.mem_singleton.mp hnew
  have hlt := hf.placed place hmem
  rwa [hline] at hlt

/-- What the carrier has afterwards is the pool that was just granted. -/
theorem Filed.installed?_consume (hf : h.Filed given) (hc : h.receiver? k = some c)
    {order : PoolOrder} (ho : h.consume c order = .ok h') (hcarriers : h'.carriers = h.carriers)
    (hpools : h'.pools = h.pools ++ [⟨k, (given k).length⟩]) :
    h'.installed? c = some n ↔ n = h.pools.length := by
  have hs := hf.toSited.consume (of_receiver? hc).1 ho
  have hn : h'.pools.Nodup := hpools ▸ (hf.numbered_append k).nodup
  rw [hs.installed?_eq_some hn (hcarriers ▸ (of_receiver? hc).1), hpools]
  simp only [↓reduceIte, List.length_append, List.length_singleton, Nat.add_right_cancel_iff]
  constructor
  · rintro ⟨i, hplace, rfl⟩
    rw [List.getElem?_append] at hplace
    split at hplace
    · exact absurd (hf.placed _ (List.mem_of_getElem? hplace)) (Nat.lt_irrefl _)
    · have hlt := (List.getElem?_eq_some_iff.mp hplace).1
      rw [List.length_singleton] at hlt
      omega
  · rintro rfl
    exact ⟨_, by simp, rfl⟩

/-- What a granted request enters, and under which name. -/
theorem Filed.enters_iff (hf : h.Filed given) {order : PoolOrder} (hc : h.receiver? k = some c)
    (ho : h.consume c order = .ok h') (hcarriers : h'.carriers = h.carriers)
    (hpools : h'.pools = h.pools ++ [⟨k, (given k).length⟩]) {j : Nat} :
    h.Enters name j n (.consume k order) ↔
      (c.registered = true ∧ name = c.name) ∧ j = k ∧ n = h.pools.length := by
  have hnumber : h'.installed? c = some n ↔ n = h.pools.length :=
    hf.installed?_consume hc ho hcarriers hpools
  constructor
  · rintro ⟨d, order', g, hr, hd, hreg, rfl, ho', hinst⟩
    cases hr
    cases hc.symm.trans hd
    cases ho.symm.trans ho'
    exact ⟨⟨hreg, rfl⟩, rfl, hnumber.mp hinst⟩
  · rintro ⟨⟨hreg, rfl⟩, rfl, hn⟩
    exact ⟨c, order, h', rfl, hc, hreg, rfl, ho, hnumber.mpr hn⟩

/-- A new entry touches no other name. -/
theorem get?_entered_of_ne (hname : ¬(c.registered = true ∧ name = c.name)) {m : Nat} :
    (h.entered c m).get? name = some n ↔ h.registry.get? name = some n := by
  unfold entered
  split
  · next hreg =>
    have hne : name ≠ c.name := fun heq => hname ⟨hreg, heq⟩
    simp [hne, get?_withdrawn]
  · rfl

/-- Pool `n`, which is one of carrier `k`, is entered under `name`. -/
def Lists (h : Hub α) (name : String) (k n : Nat) : Prop :=
  h.registry.get? name = some n ∧ h.owner? n = some k

/-- An entry and its owner decide what is listed. -/
theorem lists_congr (hregistry : h'.registry.get? name = some n ↔ h.registry.get? name = some n)
    (howner : h.registry.get? name = some n → h'.owner? n = h.owner? n) :
    h'.Lists name k n ↔ h.Lists name k n := by
  rw [Lists, hregistry]
  refine and_congr_right fun hentry => ?_
  rw [howner hentry]

/-- A new pool is entered under its carrier's name, in place of what stood there. -/
theorem Filed.lists_granted (hf : h.Filed given) {j : Nat} {order : PoolOrder}
    (hc : h.receiver? j = some c) (ho : h.consume c order = .ok h')
    (hdesk : h'.desk =
      (h.carriers, h.pools ++ [⟨j, (given j).length⟩], h.entered c h.pools.length)) :
    h'.Lists name k n ↔ h.Enters name k n (.consume j order) ∨
      (h.Lists name k n ∧ ∀ i m, ¬h.Enters name i m (.consume j order)) := by
  obtain ⟨hcarriers, hpools, hregistry⟩ := desk_eq_iff.mp hdesk
  have henters : ∀ {i m}, h.Enters name i m (.consume j order) ↔
      (c.registered = true ∧ name = c.name) ∧ i = j ∧ m = h.pools.length :=
    hf.enters_iff hc ho hcarriers hpools
  by_cases hname : c.registered = true ∧ name = c.name
  · obtain ⟨hreg, rfl⟩ := hname
    have hnew : h'.owner? h.pools.length = some j := by simp [Hub.owner?, hpools]
    have hget : h'.registry.get? c.name = some h.pools.length := by
      simp [hregistry, entered, hreg]
    simp only [Lists, henters, hget, hreg, and_self, true_and, Option.some.injEq]
    constructor
    · rintro ⟨rfl, hk⟩
      exact .inl ⟨Option.some.inj (hk.symm.trans hnew), rfl⟩
    · rintro (⟨rfl, rfl⟩ | ⟨-, hnot⟩)
      · exact ⟨rfl, hnew⟩
      · exact absurd ⟨rfl, rfl⟩ (hnot j h.pools.length)
  · have hsame : h'.Lists name k n ↔ h.Lists name k n := by
      refine lists_congr (hregistry ▸ get?_entered_of_ne hname) fun hentry => ?_
      obtain ⟨i, d, hi, -⟩ := hf.owner?_of_entry hentry
      have hlt : n < h.pools.length := by
        obtain ⟨place, hplace, -⟩ := Option.map_eq_some_iff.mp hi
        exact (List.getElem?_eq_some_iff.mp hplace).1
      rw [Hub.owner?, hpools, List.getElem?_append_left hlt, Hub.owner?]
    simp [henters, hname, hsame]

/-- A carrier takes back the entry for its own pool, and no other. -/
theorem Filed.lists_withdrawn (hf : h.Filed given) {j : Nat} (hc : h.receiver? j = some c)
    (hpools : h'.pools = h.pools) (hregistry : h'.registry = h.withdrawn c) :
    h'.Lists name k n ↔ h.Lists name k n ∧ j ≠ k := by
  have hsame : h'.owner? n = h.owner? n := by rw [Hub.owner?, hpools, Hub.owner?]
  rw [Lists, Lists, hregistry, get?_withdrawn, hsame, and_assoc, and_assoc]
  refine and_congr_right fun hentry => ?_
  obtain ⟨i, d, hi, hd, hreg, rfl, hinst⟩ := hf.owner?_of_entry hentry
  rw [hi, and_comm, Option.some.injEq]
  refine and_congr_right ?_
  rintro rfl
  constructor
  · rintro hnot rfl
    cases hc.symm.trans hd
    exact hnot ⟨hreg, rfl, hinst⟩
  · rintro hne ⟨-, -, hinst'⟩
    have hj := hf.owner?_of_installed? hf.nodup (of_receiver? hc).1 hinst'
    exact hne (Option.some.inj (hj.symm.trans hi))

/-- What is entered after a request was entered by it, or was entered before, and the
request neither put another pool there nor stopped this one. -/
theorem Filed.lists_serve (hf : h.Filed given) (r : Request α) :
    (h.serve r).Lists name k n ↔ h.Enters name k n r ∨
      (h.Lists name k n ∧ (∀ j m, ¬h.Enters name j m r) ∧ r.ends k = false) := by
  have hfiling := hf.filing r
  generalize h.serve r = h' at *
  cases hfiling with
  | added c s hr hnone hlines hdesk =>
    obtain ⟨-, hpools, hregistry⟩ := desk_eq_iff.mp hdesk
    simp [Lists, Hub.owner?, hpools, hregistry, hr, not_enters hnone]
  | granted j c order hr hc ho hdesk =>
    have hends : r.ends k = false := hr ▸ rfl
    subst hr
    simp [hends, hf.lists_granted hc ho hdesk]
  | ended j c carriers hr hnone hc hcarriers hlines hdesk =>
    obtain ⟨-, hpools, hregistry⟩ := desk_eq_iff.mp hdesk
    simp [hf.lists_withdrawn hc hpools hregistry, hr, not_enters hnone]
  | cleared hr hdesk =>
    obtain ⟨-, -, hregistry⟩ := desk_eq_iff.mp hdesk
    have hnone : ∀ i, h.grant i r = [] := fun _ => hr ▸ rfl
    have hends : r.ends k = true := hr ▸ rfl
    simp [Lists, hregistry, hends, not_enters hnone]
  | kept hr hnone hlines hdesk =>
    obtain ⟨-, hpools, hregistry⟩ := desk_eq_iff.mp hdesk
    have hsame : h'.Lists name k n ↔ h.Lists name k n := by
      simp [Lists, Hub.owner?, hpools, hregistry]
    have hserved : h.Lists name k n → r.ends k = false := by
      rintro ⟨hentry, hk⟩
      obtain ⟨i, d, hi, hd, -⟩ := hf.owner?_of_entry hentry
      cases hk.symm.trans hi
      exact hr k d hd
    simp only [hsame, not_enters hnone, not_false_eq_true, implies_true, true_and, false_or]
    exact (and_iff_left_of_imp hserved).symm

/-- An entry stays right while its carrier is there and gets no other pool. -/
theorem Filed.entry_keep (hf : h.Filed given) {given' : Nat → List PoolPlan}
    (hs : h'.Sited given') (hn : h'.pools.Nodup) (hpools : h.pools <+: h'.pools)
    (he : h.registry.get? name = some n)
    (hkeep : ∀ k c, h.owner? n = some k → h.carriers[k]? = some c →
      h'.carriers[k]? = some c ∧ given' k = given k) :
    ∃ k c, h'.receiver? k = some c ∧ c.registered = true ∧ c.name = name ∧
      h'.installed? c = some n := by
  obtain ⟨k, c, howner, hc, hreg, hname, hinst⟩ := hf.owner?_of_entry he
  obtain ⟨hcarrier, hlive⟩ := of_receiver? hc
  obtain ⟨hcarrier', hgiven⟩ := hkeep k c howner hcarrier
  obtain ⟨i, hplace, hlast⟩ := (hf.installed?_eq_some hf.nodup hcarrier).mp hinst
  refine ⟨k, c, by simp [receiver?, hcarrier', hlive], hreg, hname, ?_⟩
  refine (hs.installed?_eq_some hn hcarrier').mpr ⟨i, ?_, hgiven ▸ hlast⟩
  obtain ⟨more, hmore⟩ := hpools
  rw [← hmore, List.getElem?_append_left (List.getElem?_eq_some_iff.mp hplace).1, hplace]

/-- A request that gives nobody a pool, and takes back some entries at most. -/
theorem Filed.keep (hf : h.Filed given) (hs : h'.Sited given) (hpools : h'.pools = h.pools)
    (hsorted : h'.registry.IsSorted)
    (hkeep : ∀ name n, h'.registry.get? name = some n → h.registry.get? name = some n ∧
      ∀ k c, h.owner? n = some k → h.carriers[k]? = some c → h'.carriers[k]? = some c) :
    h'.Filed given := by
  have hn : Numbered h'.pools := hpools ▸ hf.numbered
  refine ⟨hs, hn, hpools ▸ hf.placed, hsorted, ?_⟩
  intro name n he
  obtain ⟨hold, hcarrier⟩ := hkeep name n he
  have hprefix : h.pools <+: h'.pools := hpools ▸ List.prefix_rfl
  exact hf.entry_keep hs hn.nodup hprefix hold fun k c hk hc => ⟨hcarrier k c hk hc, rfl⟩

/-- The one case in which a hub gets another pool and the registry another entry. -/
theorem Filed.consume (hf : h.Filed given) {order : PoolOrder} (hc : h.receiver? k = some c)
    (ho : h.consume c order = .ok h')
    (hdesk : h'.desk =
      (h.carriers, h.pools ++ [⟨k, (given k).length⟩], h.entered c h.pools.length)) :
    h'.Filed fun i => given i ++ if k = i then [planFor c order] else [] := by
  obtain ⟨hcarriers, hpools, hregistry⟩ := desk_eq_iff.mp hdesk
  have hs := hf.toSited.consume (of_receiver? hc).1 ho
  have hn : Numbered h'.pools := hpools ▸ hf.numbered_append k
  refine ⟨hs, hn, ?_, ?_, ?_⟩
  · intro place hplace
    rw [hpools, List.mem_append, List.mem_singleton] at hplace
    rcases hplace with hplace | rfl
    · have hlt := hf.placed place hplace
      simp only [List.length_append]
      omega
    · simp
  · rw [hregistry, entered]
    split
    · exact (isSorted_withdrawn hf.sorted).insert
    · exact hf.sorted
  · intro name n he
    rw [hregistry] at he
    by_cases hname : c.registered = true ∧ name = c.name
    · obtain ⟨hreg, rfl⟩ := hname
      have hnumber : h.pools.length = n := by simpa [entered, hreg] using he
      refine ⟨k, c, ?_, hreg, rfl, (hf.installed?_consume hc ho hcarriers hpools).mpr hnumber.symm⟩
      rwa [receiver?, hcarriers]
    · have hold := (get?_entered_of_ne hname).mp he
      refine hf.entry_keep hs hn.nodup (hpools ▸ List.prefix_append _ _) hold fun j d hj hd => ⟨?_, ?_⟩
      · rwa [hcarriers]
      · -- Another carrier's: that of `c` would stand under the name of `c`.
        have hne : k ≠ j := by
          rintro rfl
          obtain ⟨i, e, hi, he, hreg, hename, -⟩ := hf.owner?_of_entry hold
          cases hi.symm.trans hj
          cases hc.symm.trans he
          exact hname ⟨hreg, hename.symm⟩
        rw [if_neg hne, List.append_nil]

/-- Whatever is asked for, each pool has a number of its own, and each entry is for the
pool that its carrier has. -/
theorem Filed.serve (hf : h.Filed given) (r : Request α) :
    (h.serve r).Filed fun i => given i ++ h.grant i r := by
  have hs := hf.toSited.serve r
  have hfiling := hf.filing r
  generalize h.serve r = h' at *
  cases hfiling with
  | granted k c order hr hc ho hdesk =>
    subst hr
    have hgrant : ∀ i, h.grant i (.consume k order) = if k = i then [planFor c order] else [] := by
      intro i
      simp [grant, hc, ho, Except.isOk, Except.toBool]
    simpa only [hgrant] using hf.consume hc ho hdesk
  | added c s hr hnone hlines hdesk =>
    obtain ⟨hcarriers, hpools, hregistry⟩ := desk_eq_iff.mp hdesk
    simp only [hnone, List.append_nil] at hs ⊢
    refine hf.keep hs hpools (hregistry ▸ hf.sorted) fun name n he => ⟨hregistry ▸ he, ?_⟩
    intro k d _ hd
    rwa [hcarriers, List.getElem?_append_left (List.getElem?_eq_some_iff.mp hd).1]
  | ended k c carriers hr hnone hc hcarriers hlines hdesk =>
    obtain ⟨rfl, hpools, hregistry⟩ := desk_eq_iff.mp hdesk
    simp only [hnone, List.append_nil] at hs ⊢
    refine hf.keep hs hpools (hregistry ▸ isSorted_withdrawn hf.sorted) fun name n he => ?_
    have hold : h.registry.get? name = some n := (get?_withdrawn.mp (hregistry ▸ he)).1
    refine ⟨hold, fun j d hj hd => ?_⟩
    obtain ⟨i, e, hi, -⟩ := hf.owner?_of_entry hold
    cases hi.symm.trans hj
    have hlist : h'.Lists name j n := ⟨he, by rwa [Hub.owner?, hpools]⟩
    have hne : k ≠ j := ((hf.lists_withdrawn hc hpools hregistry).mp hlist).2
    rcases hcarriers with hsame | hset
    · rwa [hsame]
    · rwa [hset, List.getElem?_set_ne hne]
  | cleared hr hdesk =>
    obtain ⟨hcarriers, hpools, hregistry⟩ := desk_eq_iff.mp hdesk
    have hnone : ∀ i, h.grant i r = [] := fun _ => hr ▸ rfl
    simp only [hnone, List.append_nil] at hs ⊢
    refine hf.keep hs hpools (hregistry ▸ .empty) fun name n he => ?_
    simp [hregistry] at he
  | kept hr hnone hlines hdesk =>
    obtain ⟨hcarriers, hpools, hregistry⟩ := desk_eq_iff.mp hdesk
    simp only [hnone, List.append_nil] at hs ⊢
    refine hf.keep hs hpools (hregistry ▸ hf.sorted) fun name n he => ⟨hregistry ▸ he, ?_⟩
    intro k d _ hd
    rwa [hcarriers]

theorem filed_start : ({} : Hub α).Filed fun _ => [] where
  toSited := sited_start
  numbered := List.Pairwise.nil
  placed _ h := nomatch h
  sorted := .empty
  entry _ _ h := nomatch h

/-- By induction over the requests. -/
theorem Filed.after (hf : h.Filed given) (requests : List (Request α)) :
    (h.after requests).Filed fun i => given i ++ h.granted i requests := by
  induction requests generalizing h given with
  | nil => simpa [Hub.after, Hub.granted] using hf
  | cons r rest ih => simpa [Hub.after, Hub.granted] using ih (hf.serve r)

/-! ## What the requests say -/

/-- Something in the list has `P`, and all that comes after it has `Q`. -/
def Since {β : Type} (P Q : β → Prop) (xs : List β) : Prop :=
  ∃ earlier x later, xs = earlier ++ x :: later ∧ P x ∧ ∀ y ∈ later, Q y

theorem not_since_nil {β : Type} {P Q : β → Prop} : ¬Since P Q [] := by
  rintro ⟨earlier, x, later, heq, -⟩
  simp at heq

/-- `Since` is read from the end of the list. -/
theorem since_append_singleton {β : Type} {P Q : β → Prop} {xs : List β} {y : β} :
    Since P Q (xs ++ [y]) ↔ P y ∨ (Since P Q xs ∧ Q y) := by
  constructor
  · rintro ⟨earlier, x, later, heq, hx, hlater⟩
    rcases List.eq_nil_or_concat later with rfl | ⟨later, z, rfl⟩
    · obtain ⟨rfl, rfl⟩ : xs = earlier ∧ y = x := by simpa using heq
      exact .inl hx
    · have hsplit : xs ++ [y] = (earlier ++ x :: later) ++ [z] := by simpa using heq
      obtain ⟨rfl, hlast⟩ := List.append_inj' hsplit rfl
      obtain rfl : y = z := by simpa using hlast
      refine .inr ⟨⟨earlier, x, later, rfl, hx, fun w hw => ?_⟩, ?_⟩
      · exact hlater w (by simp [hw])
      · exact hlater y (by simp)
  · rintro (hy | ⟨⟨earlier, x, later, rfl, hx, hlater⟩, hy⟩)
    · exact ⟨xs, y, [], rfl, hy, by simp⟩
    · refine ⟨earlier, x, later ++ [y], by simp, hx, fun w hw => ?_⟩
      rcases List.mem_append.mp hw with hw | hw
      · exact hlater w hw
      · exact List.mem_singleton.mp hw ▸ hy

/-- The requests, each with the hub that it was made to. -/
def history (h : Hub α) : List (Request α) → List (Hub α × Request α)
  | [] => []
  | r :: rest => (h, r) :: (h.serve r).history rest

/-- One more request sees what all the others have left. -/
theorem history_append (h : Hub α) (requests : List (Request α)) (r : Request α) :
    h.history (requests ++ [r]) = h.history requests ++ [(h.after requests, r)] := by
  induction requests generalizing h with
  | nil => rfl
  | cons first rest ih => simp [history, ih, after]

/-- By the requests so far, pool `n` is the one that a carrier with this name was given
last, which is carrier `k`. Since then the carrier was not shut down, closed or given up,
and the registry was not torn down. -/
def InForce (past : List (Hub α × Request α)) (name : String) (k n : Nat) : Prop :=
  Since (fun x => x.1.Enters name k n x.2)
    (fun x => (∀ j m, ¬x.1.Enters name j m x.2) ∧ x.2.ends k = false) past

/-- What is entered can be read off the requests. -/
theorem lists_after_iff (requests : List (Request α)) :
    (after {} requests).Lists name k n ↔ InForce (history {} requests) name k n := by
  induction requests using List.reverseRecOn with
  | nil =>
    have hnone : ¬(after ({} : Hub α) []).Lists name k n := fun h => nomatch h.1
    simpa [history, InForce, not_since_nil] using hnone
  | append_singleton requests r ih =>
    have hserve : after {} (requests ++ [r]) = (after {} requests).serve r := by simp [after]
    rw [hserve, history_append, InForce, since_append_singleton,
      (filed_start.after requests).lists_serve r, ih, InForce]

/-! ## Everything is taken down -/

/-- How far pool `n` is. -/
def stage? (h : Hub α) (n : Nat) : Option Stage := (h.pool? n).map Pool.stage

theorem stage?_eq (h : Hub α) (n : Nat) :
    h.stage? n = h.pools[n]?.bind fun place => h.lines[place.line]?.bind (·.stage? place.index) := by
  unfold stage? pool?
  cases h.pools[n]? with
  | none => rfl
  | some place => cases hl : h.lines[place.line]? <;> simp [hl, Line.stage?]

theorem lines_mapLine (h : Hub α) (i : Nat) (f : Line α → Line α) (j : Nat) :
    (h.mapLine i f).lines[j]? = if j = i then h.lines[j]?.map f else h.lines[j]? := by
  unfold mapLine
  cases hl : h.lines[i]? with
  | none => by_cases hj : j = i <;> simp [hj, hl]
  | some s =>
    have hlt := (List.getElem?_eq_some_iff.mp hl).1
    by_cases hj : j = i
    · rw [hj, if_pos rfl, hl]
      exact List.getElem?_set_self hlt
    · simp [setLine, hj, List.getElem?_set_ne (Ne.symm hj)]

/-- A signal closes the pool it is for, and no other. -/
theorem stage?_closePool (hn : h.pools.Nodup) (n m : Nat) :
    (h.closePool n).stage? m = if m = n then (h.stage? m).map fun _ => .closed else h.stage? m := by
  rw [stage?_eq, stage?_eq, (desk_eq_iff.mp (h.desk_closePool n)).2.1]
  cases hm : h.pools[m]? with
  | none => simp
  | some other =>
    rw [closePool]
    cases hplace : h.pools[n]? with
    | none =>
      have hne : m ≠ n := by
        rintro rfl
        cases hplace.symm.trans hm
      simp [hne]
    | some place =>
      have hsame : m = n ↔ other = place := by
        constructor
        · rintro rfl
          exact Option.some.inj (hm.symm.trans hplace)
        · rintro rfl
          exact (List.getElem?_inj (List.getElem?_eq_some_iff.mp hm).1 hn).mp (hm.trans hplace.symm)
      simp only [Option.bind_some, lines_mapLine]
      by_cases hline : other.line = place.line
      · have hindex : m = n ↔ other.index = place.index := by
          rw [hsame]
          cases other
          cases place
          simp_all
        cases hl : h.lines[other.line]? <;> simp [hline, hindex, Line.stage?_closePool_eq]
      · have hne : m ≠ n := fun heq => hline (congrArg PoolPlace.line (hsame.mp heq))
        simp [hline, hne]

/-- To close the pools of all entries closes these and no others. -/
theorem stage?_foldl_closePool (hn : h.pools.Nodup) (entries : List (String × Nat)) (m : Nat) :
    (entries.foldl (fun h (name, n) => (h.note (.entryClosing name)).closePool n) h).stage? m =
      if m ∈ entries.map Prod.snd then (h.stage? m).map fun _ => .closed else h.stage? m := by
  induction entries generalizing h with
  | nil => simp
  | cons entry rest ih =>
    obtain ⟨name, n⟩ := entry
    have hn' : (h.note (.entryClosing name)).pools.Nodup := hn
    have hkept : ((h.note (.entryClosing name)).closePool n).pools = h.pools :=
      (desk_eq_iff.mp ((h.note (.entryClosing name)).desk_closePool n)).2.1
    have hnote : (h.note (.entryClosing name)).stage? m = h.stage? m := rfl
    rw [List.foldl_cons, ih (hkept ▸ hn), stage?_closePool hn', hnote]
    have htwice : ∀ stage : Option Stage,
        (stage.map fun _ => Stage.closed).map (fun _ => Stage.closed) =
          stage.map fun _ => .closed := fun stage => Option.map_map ..
    by_cases hm : m = n
    · simp only [hm, List.map_cons, List.mem_cons, true_or, ↓reduceIte, htwice, ite_self]
    · simp only [hm, List.map_cons, List.mem_cons, false_or, ↓reduceIte]

/-- Whatever is entered is closed, and nothing else is. -/
theorem Filed.stage?_closeAll (hf : h.Filed given) (m : Nat) :
    h.closeAll.stage? m =
      if m ∈ h.registry.entries.map Prod.snd then (h.stage? m).map fun _ => .closed
      else h.stage? m :=
  stage?_foldl_closePool (h := { h with registry := ∅ }) hf.nodup h.registry.entries m

/-- Every pool that the hub knows is at some stage. -/
theorem Filed.exists_stage (hf : h.Filed given) {place : PoolPlace}
    (hplace : h.pools[n]? = some place) : ∃ stage, h.stage? n = some stage := by
  have hlt := hf.placed place (List.mem_of_getElem? hplace)
  cases hl : h.lines[place.line]? with
  | none =>
    rw [hf.later place.line (List.getElem?_eq_none_iff.mp hl)] at hlt
    exact absurd hlt (Nat.not_lt_zero _)
  | some s =>
    rw [← (hf.hosts _ s hl).plans, Line.plans, List.length_map] at hlt
    exact ⟨s.pools[place.index].stage, by simp [stage?_eq, hplace, hl, Line.stage?, hlt]⟩

/-- What there is to say of the registry of a hub that these requests have led to. -/
structure Registers (h : Hub α) (past : List (Hub α × Request α)) : Prop where
  /-- Under a name stands the pool that a carrier of this name was given last, as long as
  it is in force. -/
  entry : ∀ name n, h.registry.get? name = some n ↔ ∃ k, InForce past name k n
  owner : ∀ name k n, InForce past name k n → h.owner? n = some k
  /-- No carrier takes back the entry for another's pool. It can put one of its own under
  the same name. -/
  others : ∀ name k n j r, InForce past name k n → r.carrier? = some j → j ≠ k →
    (h.serve r).registry.get? name = some n ∨
      ∃ m, h.Enters name j m r ∧ (h.serve r).registry.get? name = some m
  sorted : h.registry.names.Pairwise (· < ·)
  names : ∀ name, name ∈ h.registry.names ↔ ∃ k n, InForce past name k n
  /-- Taking everything down says how many names there were. -/
  count : h.tearDown.1 = h.registry.names.length
  closed : ∀ name k n, InForce past name k n → h.tearDown.2.stage? n = some .closed
  emptied : h.tearDown.2.registry.names = []

/-- A request to one carrier does not end the pool of another. -/
theorem ends_of_carrier? {j : Nat} (hr : r.carrier? = some j) (hne : j ≠ k) : r.ends k = false := by
  cases r <;> simp_all [Request.carrier?, Request.ends]

theorem carrier?_of_enters (he : h.Enters name k n r) : r.carrier? = some k := by
  obtain ⟨c, order, h', rfl, -⟩ := he
  rfl

/-- **What the registry holds**, after any requests for any carriers, for single pools and
for all of them. -/
theorem registers_after (requests : List (Request α)) :
    (after {} requests).Registers (history {} requests) := by
  have hf := filed_start.after requests
  have hlists : ∀ name k n, (after {} requests).Lists name k n ↔
      InForce (history {} requests) name k n := fun _ _ _ => lists_after_iff requests
  have hentry : ∀ name n, (after {} requests).registry.get? name = some n ↔
      ∃ k, InForce (history {} requests) name k n := by
    intro name n
    simp only [← hlists]
    constructor
    · intro he
      obtain ⟨k, c, hk, -⟩ := hf.owner?_of_entry he
      exact ⟨k, he, hk⟩
    · rintro ⟨k, he, -⟩
      exact he
  refine ⟨hentry, ?_, ?_, hf.sorted, ?_, ?_, ?_, ?_⟩
  · intro name k n hin
    exact ((hlists name k n).mpr hin).2
  · intro name k n j r hin hr hne
    by_cases henters : ∃ i m, (after {} requests).Enters name i m r
    · obtain ⟨i, m, he⟩ := henters
      cases hr.symm.trans (carrier?_of_enters he)
      exact .inr ⟨m, he, ((hf.lists_serve r).mpr (.inl he)).1⟩
    · have hlist := (hlists name k n).mpr hin
      have hnone : ∀ i m, ¬(after {} requests).Enters name i m r :=
        fun i m he => henters ⟨i, m, he⟩
      exact .inl ((hf.lists_serve r).mpr (.inr ⟨hlist, hnone, ends_of_carrier? hr hne⟩)).1
  · intro name
    rw [Registry.mem_names, Option.isSome_iff_exists, exists_comm]
    exact exists_congr (hentry name)
  · exact (List.length_map Prod.fst).symm
  · intro name k n hin
    have hlist := (hlists name k n).mpr hin
    have hmem : n ∈ (after {} requests).registry.entries.map Prod.snd :=
      List.mem_map_of_mem (f := Prod.snd) (Registry.mem_of_get? hlist.1)
    obtain ⟨place, hplace, -⟩ := Option.map_eq_some_iff.mp hlist.2
    obtain ⟨stage, hstage⟩ := hf.exists_stage hplace
    show (after {} requests).closeAll.stage? n = some .closed
    rw [hf.stage?_closeAll, if_pos hmem, hstage, Option.map_some]
  · exact congrArg Registry.names (desk_eq_iff.mp (desk_closeAll _)).2.2

/-- Two carriers with one name get a pool each. -/
def namesakes : List (Request Nat) :=
  [.addCarrier "feed" (.ofSizes 1 4) true .fresh,
    .addCarrier "feed" (.ofSizes 1 4) true .fresh,
    .consume 0 { workers := 1, shared := false },
    .consume 1 { workers := 1, shared := false }]

/-- The second pool stands under the name, and the first carrier cannot take it back. -/
example : (after {} (namesakes ++ [.shutdown 0])).registry.entries = [("feed", 1)] := by
  decide +kernel

end Hub

end Conveyor
