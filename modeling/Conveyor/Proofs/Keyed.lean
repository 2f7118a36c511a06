/-
Conveyor.Proofs.Keyed — items with one key are handed over in order.

Where a router goes by a key, all items with this key take the way of one channel
and one worker. A producer makes one call after the other, so what it wrote to a
channel was written in the order of its calls (`WritesInTurn`); the channel is read
in the order of the writes; and what the worker takes from other channels in
between does not change that (`ReachesBy.order_of_key`).

The router may be set once, before any call has asked it for a channel; what
follows are runs on which nobody sets another one (`RoutedBy`).
-/
import Conveyor.Proofs.Order
import Conveyor.Proofs.Routes
import Mathlib.Data.List.Sort

namespace Conveyor

variable {α : Type u}

namespace Line

variable {s t : Line α} {i p : Nat}

/-! ## Producers -/

/-- Who made call `i`. -/
def producer? (s : Line α) (i : Nat) : Option Nat := s.calls[i]?.map Call.producer

/-- What producer `q` has offered, in the order of its calls. -/
def offeredBy (s : Line α) (q : Nat) : List (Parcel α) :=
  s.calls.zipIdx.filterMap fun (c, i) => if c.producer = q then c.item?.map (Parcel.mk i) else none

/-- Those of `items` that producer `q` offered. -/
def ofProducer (s : Line α) (q : Nat) (items : List (Parcel α)) : List (Parcel α) :=
  items.filter fun x => s.producer? x.call = some q

theorem Effect.producer? (e : Effect s t) {c : Call α} (hc : s.calls[i]? = some c) :
    t.producer? i = s.producer? i := by
  obtain ⟨c', hc', rfl | turn⟩ := e.call_after hc
  · rw [Line.producer?, Line.producer?, hc, hc']
  · rw [Line.producer?, Line.producer?, hc, hc', Option.map_some, Option.map_some, turn.producer]

theorem mem_offeredBy {q : Nat} {x : Parcel α} :
    x ∈ s.offeredBy q ↔
      ∃ c, s.calls[x.call]? = some c ∧ c.producer = q ∧ c.item? = some x.item := by
  rw [offeredBy, List.mem_filterMap]
  constructor
  · rintro ⟨⟨c, i⟩, hmem, hx⟩
    simp only [Option.ite_none_right_eq_some, Option.map_eq_some_iff] at hx
    obtain ⟨hq, item, hitem, rfl⟩ := hx
    exact ⟨c, List.mem_zipIdx_iff_getElem?.mp hmem, hq, hitem⟩
  · rintro ⟨c, hc, hq, hitem⟩
    refine ⟨(c, x.call), List.mem_zipIdx_iff_getElem?.mpr hc, ?_⟩
    simp [hq, hitem]

/-- The calls of a producer are numbered in the order in which it makes them. -/
theorem pairwise_offeredBy (s : Line α) (q : Nat) :
    (s.offeredBy q).Pairwise fun x y => x.call < y.call := by
  have hnumbers : s.calls.zipIdx.Pairwise fun a b => a.2 < b.2 := by
    rw [← List.pairwise_map (f := Prod.snd), List.zipIdx_map_snd]
    exact List.pairwise_lt_range'
  refine List.Pairwise.filterMap _ ?_ hnumbers
  rintro ⟨c, i⟩ ⟨d, j⟩ hlt x hx y hy
  simp only [Option.ite_none_right_eq_some, Option.map_eq_some_iff] at hx hy
  obtain ⟨-, _, -, rfl⟩ := hx
  obtain ⟨-, _, -, rfl⟩ := hy
  exact hlt

/-! ## One call after the other -/

/-- When a producer makes a call, its calls before are over. -/
def InTurn (s : Line α) : Prop :=
  ∀ (i j : Nat) (c d : Call α), i < j → s.calls[i]? = some c → s.calls[j]? = some d →
    c.producer = d.producer → c.isOver = true

theorem Effect.inTurn (e : Effect s t) (h : s.InTurn) : t.InTurn := by
  intro i j c d hij hc hd hsame
  rcases e.calls with hcalls | ⟨new, -, -, hcalls, hone⟩ | ⟨k, old, new, hold, hcalls, turn⟩
  · rw [hcalls] at hc hd
    exact h i j c d hij hc hd hsame
  · rw [hcalls] at hc hd
    have hlen := (List.getElem?_eq_some_iff.mp hd).1
    rw [List.length_append, List.length_singleton] at hlen
    have hi : i < s.calls.length := by omega
    rw [List.getElem?_append_left hi] at hc
    by_cases hj : j < s.calls.length
    · rw [List.getElem?_append_left hj] at hd
      exact h i j c d hij hc hd hsame
    · rw [List.getElem?_append_right (by omega)] at hd
      obtain rfl := List.mem_singleton.mp (List.mem_of_getElem? hd)
      exact hone c (List.mem_of_getElem? hc) hsame
  · rw [hcalls] at hc hd
    rcases eq_of_getElem?_set hc with ⟨rfl, rfl⟩ | ⟨-, hc₀⟩
    · -- A call with a successor of the same producer was over and made no turn.
      rw [List.getElem?_set_ne (Nat.ne_of_lt hij)] at hd
      have hover := h _ j old d hij hold hd (turn.producer.symm.trans hsame)
      rw [turn.isOver_eq_false] at hover
      cases hover
    · rcases eq_of_getElem?_set hd with ⟨rfl, rfl⟩ | ⟨-, hd₀⟩
      · exact h i _ c old hij hc₀ hold (hsame.trans turn.producer)
      · exact h i j c d hij hc₀ hd₀ hsame

/-- What a producer has written was written in the order of its calls. -/
def WritesInTurn (s : Line α) : Prop :=
  s.written.Pairwise fun x y =>
    s.producer? x.2.call = s.producer? y.2.call → x.2.call < y.2.call

theorem Effect.writesInTurn (e : Effect s t) (h : s.Regular) (ho : s.InTurn)
    (hw : s.WritesInTurn) : t.WritesInTurn := by
  have hproducer : ∀ x ∈ s.written, t.producer? x.2.call = s.producer? x.2.call := by
    intro x hx
    obtain ⟨c, hc, -⟩ := h.conserved.accepted_of_written hx
    exact e.producer? hc
  have hold : s.written.Pairwise fun x y =>
      t.producer? x.2.call = t.producer? y.2.call → x.2.call < y.2.call := by
    refine List.Pairwise.imp_of_mem ?_ hw
    intro x y hx hy hlt hsame
    rw [hproducer x hx, hproducer y hy] at hsame
    exact hlt hsame
  have e' := e
  cases e with
  | @write i n c policy item lane lane' how out hc htarget hi hl ha =>
    refine List.pairwise_append.mpr ⟨hold, List.pairwise_singleton _ _, ?_⟩
    intro x hx y hy hsame
    obtain rfl := List.mem_singleton.mp hy
    rw [hproducer x hx, e'.producer? hc] at hsame
    obtain ⟨d, hd, -⟩ := h.conserved.accepted_of_written hx
    by_contra hge
    -- The call that writes is not over, so it is not before one of its producer.
    have hne : i ≠ x.2.call := by
      intro he
      exact h.target_of_written hx (he ▸ hc) htarget
    have hlt : i < x.2.call := by
      have : ¬ x.2.call < i := hge
      omega
    have hproducers : d.producer = c.producer := by
      rw [Line.producer?, Line.producer?, hd, hc] at hsame
      exact Option.some.inj hsame
    have hover := ho i x.2.call c d hlt hc hd hproducers.symm
    rw [Call.isOver_of_target htarget] at hover
    cases hover
  | _ => exact hold

theorem Reachable.writesInTurn (h : s.Reachable) : s.WritesInTurn := by
  have hall : s.InTurn ∧ s.WritesInTurn := by
    refine h.regular_induction (P := fun u => u.InTurn ∧ u.WritesInTurn) ?_ ?_
    · rintro start ⟨_, _, _, _, store, _, rfl⟩
      exact ⟨fun i j c d _ hc => by simp [ofStore] at hc, List.Pairwise.nil⟩
    · rintro u v hu ⟨ho, hw⟩ e
      exact ⟨e.inTurn ho, e.writesInTurn hu ho hw⟩
  exact hall.2

/-! ## Routing by a digest -/

/-- All calls that were given a channel got it by this digest of their item, and
so will the others. -/
structure RoutedBy (s : Line α) (digest : α → UInt64) : Prop where
  router : s.store.router = (Router.keyed digest).comap Parcel.item
  routed : ∀ i n, (i, n) ∈ s.routed → ∃ c item, s.calls[i]? = some c ∧ c.item? = some item ∧
    n = (digest item).toNat % s.store.count

theorem RoutedBy.step {digest : α → UInt64} (hb : s.RoutedBy digest) (h : s.Reachable)
    {a : Action α} (hs : s.step a = some t) (ha : a.keepsRouter = true) : t.RoutedBy digest := by
  have hcount : t.store.count = s.store.count := Reaches.count (.step a .refl hs) h
  have hrouter : t.store.router = (Router.keyed digest).comap Parcel.item := by
    rcases router_of_step hs ha with he | he
    · exact he.trans hb.router
    · rw [he, hb.router]
      rfl
  refine ⟨hrouter, ?_⟩
  intro i n hin
  rw [hcount]
  rcases calls_of_step h.named hs with ⟨hcalls, hrouted⟩ | e
  · rw [hcalls]
    exact hb.routed i n (hrouted ▸ hin)
  · have old : (i, n) ∈ s.routed → ∃ c item, t.calls[i]? = some c ∧ c.item? = some item ∧
        n = (digest item).toNat % s.store.count := by
      intro hold
      obtain ⟨c, item, hc, hitem, hn⟩ := hb.routed i n hold
      obtain ⟨c', hc', rfl | turn⟩ := e.call_after hc
      · exact ⟨c', item, hc', hitem, hn⟩
      · exact ⟨c', item, hc', by rw [Call.item?, turn.errand]; exact hitem, hn⟩
    cases e with
    | @route j m c policy item hc hplace hitem hroute =>
      rcases List.mem_append.mp hin with hold | hnew
      · exact old hold
      · cases List.mem_singleton.mp hnew
        refine ⟨{ c with place := .routed n policy }, item, ?_, hitem, ?_⟩
        · exact List.getElem?_set_self (List.getElem?_eq_some_iff.mp hc).1
        · rw [hb.router] at hroute
          have hkeyed : (Router.keyed fun x : Parcel α => digest x.item).route s.store.count
              ⟨i, item⟩ = .ok n := hroute
          exact Router.eq_of_route_keyed hkeyed
    | _ => exact old hin

theorem ReachesBy.routedBy {digest : α → UInt64} {start : Line α}
    (hr : ReachesBy (fun a => a.keepsRouter = true) start s) (h : start.Reachable)
    (hfirst : start.routed = [])
    (hrouter : start.store.router = (Router.keyed digest).comap Parcel.item) :
    s.RoutedBy digest := by
  induction hr with
  | refl => exact ⟨hrouter, by simp [hfirst]⟩
  | step a hr ha hs ih => exact ih.step (h.reaches hr.reaches) hs ha

/-- An item that was written went to the channel of its digest. -/
theorem RoutedBy.channel {digest : α → UInt64} (hb : s.RoutedBy digest) (h : s.Reachable)
    {x : Nat × Parcel α} (hx : x ∈ s.written) :
    x.1 = (digest x.2.item).toNat % s.store.count := by
  obtain ⟨c, item, hc, hitem, hn⟩ := hb.routed _ _ (h.directed.written x hx)
  obtain ⟨c', hc', -, hitem'⟩ := h.conserved.accepted_of_written hx
  rw [hc] at hc'
  cases hc'
  rw [hitem] at hitem'
  cases hitem'
  exact hn

/-! ## Items of one key -/

section
variable {κ : Type v} {key : α → κ} {hash : κ → UInt64} {k : κ} {pool : Pool (Parcel α)}

/-- A worker has taken an item from the channel of its key, which is the worker's. -/
theorem RoutedBy.of_took (hb : s.RoutedBy fun item => hash (key item)) (h : s.Reachable)
    (hp : s.pools[p]? = some pool) {w : Nat} {x : Parcel α} (hx : x ∈ s.took p w)
    (hk : key x.item = k) :
    ((hash k).toNat % s.store.count, x) ∈ s.written ∧
      w = (hash k).toNat % s.store.count % pool.plan.workers := by
  obtain ⟨n, hn, hown⟩ := h.traced.took p pool w hp x hx
  obtain rfl : n = (hash (key x.item)).toNat % s.store.count := hb.channel h hn
  exact hk ▸ ⟨hn, hown.symm⟩

/-- What a producer wrote to a channel, and what of it was not evicted, is in the
order of its calls. -/
theorem Reachable.pairwise_kept (h : s.Reachable) (c : Nat) :
    (s.kept c).Pairwise fun x y =>
      s.producer? x.call = s.producer? y.call → x.call < y.call := by
  have hall : (s.writtenTo c).Pairwise fun x y =>
      s.producer? x.call = s.producer? y.call → x.call < y.call := by
    rw [writtenTo, ofChannel, List.pairwise_map]
    exact h.writesInTurn.sublist List.filter_sublist
  exact hall.sublist List.filter_sublist

/-- What a worker has handed over of a channel is in the order in which it was kept. -/
theorem Reachable.sublist_kept (h : s.Reachable) (hp : s.pools[p]? = some pool)
    (only : s.OnlyReader p) (c : Nat) :
    (s.itemsOf c (s.handedBy p (c % pool.plan.workers))).Sublist (s.kept c) := by
  have ho := h.inOrder hp only c
  rw [took_eq_append, itemsOf_append, List.append_assoc] at ho
  rw [← ho]
  exact List.sublist_append_left _ _

variable [DecidableEq κ]

/-- Those of `items` that have key `k`. -/
def ofKey (key : α → κ) (k : κ) (items : List (Parcel α)) : List (Parcel α) :=
  items.filter fun x => key x.item = k

theorem mem_ofKey_ofProducer {q : Nat} {items : List (Parcel α)} {x : Parcel α} :
    x ∈ ofKey key k (s.ofProducer q items) ↔
      x ∈ items ∧ s.producer? x.call = some q ∧ key x.item = k := by
  simp only [ofKey, ofProducer, List.mem_filter, decide_eq_true_eq, and_assoc]

/-- What the worker of a key has handed over of a producer is in the order of its
calls, although other channels of the worker come in between. -/
theorem RoutedBy.pairwise_handed (hb : s.RoutedBy fun item => hash (key item))
    (h : s.Reachable) (hp : s.pools[p]? = some pool) (only : s.OnlyReader p) {c : Nat}
    (hc : c = (hash k).toNat % s.store.count) (q : Nat) :
    (ofKey key k (s.ofProducer q (s.handedBy p (c % pool.plan.workers)))).Pairwise
      fun x y => x.call < y.call := by
  have hitems : ofKey key k (s.ofProducer q (s.handedBy p (c % pool.plan.workers))) =
      ofKey key k (s.ofProducer q (s.itemsOf c (s.handedBy p (c % pool.plan.workers)))) := by
    simp only [ofKey, ofProducer, itemsOf, List.filter_filter]
    refine List.filter_congr ?_
    intro x hx
    by_cases hk : key x.item = k
    · have htook : x ∈ s.took p (c % pool.plan.workers) :=
        s.took_eq_append p _ ▸ List.mem_append_left _ hx
      have hwritten := (hb.of_took h hp htook hk).1
      have hcall : x.call ∈ (s.writtenTo c).map Parcel.call :=
        List.mem_map_of_mem (mem_writtenTo.mpr (hc ▸ hwritten))
      simp [hcall]
    · simp [hk]
  have hpart : (ofKey key k (s.ofProducer q (s.itemsOf c
      (s.handedBy p (c % pool.plan.workers))))).Sublist (s.kept c) :=
    (List.filter_sublist.trans List.filter_sublist).trans (h.sublist_kept hp only c)
  rw [hitems]
  refine List.Pairwise.imp_of_mem ?_ ((h.pairwise_kept c).sublist hpart)
  intro x y hx hy hlt
  have hsame := (mem_ofKey_ofProducer.mp hx).2.1.trans (mem_ofKey_ofProducer.mp hy).2.1.symm
  exact hlt hsame

/-- Lists in the order of the calls: one that has no others is a part of the other. -/
theorem sublist_of_subset {l l' : List (Parcel α)} (hl : l.Pairwise fun x y => x.call < y.call)
    (hl' : l'.Pairwise fun x y => x.call < y.call) (hsub : l ⊆ l') : l.Sublist l' := by
  have hanti : Std.Antisymm fun x y : Parcel α => x.call < y.call :=
    ⟨fun x y hxy hyx => absurd hxy (Nat.lt_asymm hyx)⟩
  have hnodup : l.Nodup := hl.imp fun hlt he => by simp [he] at hlt
  exact List.sublist_of_subperm_of_pairwise (List.subperm_of_subset hnodup hsub) hl hl'

end

/-- **The items of a producer with one key are handed over in the order in which it
offered them, by one worker.** Let the router go by a key before any call has asked
it for a channel, and let nobody set another one. Where pool `p` is the only reader,
one of its workers has all items with key `k`; and those of producer `q` among what
this worker has handed over are some of those that `q` offered, each once and in
that order. The policies, and what the other producers do, do not matter. -/
theorem ReachesBy.order_of_key {κ : Type v} [DecidableEq κ] (key : α → κ) (hash : κ → UInt64)
    {start : Line α} (h : start.Reachable) (hfirst : start.routed = [])
    (hrouter : start.store.router = (Router.keyed fun item => hash (key item)).comap Parcel.item)
    (hr : ReachesBy (fun a => a.keepsRouter = true) start s) {pool : Pool (Parcel α)}
    (hp : s.pools[p]? = some pool) (only : s.OnlyReader p) (k : κ) :
    let w := (hash k).toNat % s.store.count % pool.plan.workers
    (∀ v, ∀ x ∈ s.handedBy p v, key x.item = k → v = w) ∧
      ∀ q, (ofKey key k (s.ofProducer q (s.handedBy p w))).Sublist (ofKey key k (s.offeredBy q)) ∧
        ((ofKey key k (s.ofProducer q (s.handedBy p w))).map Parcel.call).Nodup := by
  intro w
  have hs : s.Reachable := h.reaches hr.reaches
  have hb : s.RoutedBy fun item => hash (key item) := hr.routedBy h hfirst hrouter
  have htook : ∀ v, ∀ x ∈ s.handedBy p v, x ∈ s.took p v := by
    intro v x hx
    rw [took_eq_append]
    exact List.mem_append_left _ hx
  refine ⟨fun v x hx hk => (hb.of_took hs hp (htook v x hx) hk).2, ?_⟩
  intro q
  have hordered := hb.pairwise_handed (k := k) hs hp only rfl q
  constructor
  · refine sublist_of_subset hordered ((s.pairwise_offeredBy q).sublist List.filter_sublist) ?_
    intro x hx
    obtain ⟨hhanded, hproducer, hk⟩ := mem_ofKey_ofProducer.mp hx
    obtain ⟨c, hc, -, hitem⟩ :=
      hs.conserved.accepted_of_written (hb.of_took hs hp (htook w x hhanded) hk).1
    have hq : c.producer = q := by
      rw [producer?, hc] at hproducer
      exact Option.some.inj hproducer
    exact List.mem_filter.mpr ⟨mem_offeredBy.mpr ⟨c, hc, hq, hitem⟩, decide_eq_true hk⟩
  · rw [List.Nodup, List.pairwise_map]
    exact hordered.imp Nat.ne_of_lt

/-- By the remainder of the item by three. -/
def byRemainder : Router (Parcel Nat) :=
  (Router.keyed fun item : Nat => UInt64.ofNat (item % 3)).comap Parcel.item

/-- Two producers write to two of three channels, first waiting and then evicting.
The first of two workers hands over one batch from both channels, on which the
consumer panics, and then one more item. -/
def interleaved : List (Action Nat) :=
  let write (i producer item : Nat) : List (Action Nat) :=
    .offer producer (.write item none) :: List.replicate 6 (.advance i)
  let work : Action Nat := .work 0 0
  write 0 0 2 ++ write 1 1 5 ++ write 2 0 8 ++ write 3 1 0 ++ .setPolicy .evict :: write 4 0 11 ++
    [.install ⟨"", 2, 2, false, ⟨1, 0, nanosPerSecond_pos⟩⟩, work, .endHook 0 0 .returned] ++
    [work, work, work, work, work, .endHook 0 0 (.panicked .other), work, work] ++
    [.endHook 0 0 .returned, work, work, work, work, work]

/-- Of the three items of the first producer with remainder two, one was evicted;
the others were handed over in order, in two batches. -/
theorem order_of_key_interleaved :
    let start := (blank 3 3 (by decide) .wait).after [.setRouter byRemainder]
    let s := start.after interleaved
    (start.Reachable ∧ start.routed = [] ∧ s.OnlyReader 0) ∧
      (s.evicted.map (fun e => e.2.item) = [2] ∧
        (s.handedBy 0 0).map Parcel.item = [0, 5, 8, 11] ∧
        (ofKey (· % 3) 2 (s.offeredBy 0)).map Parcel.item = [2, 8, 11]) ∧
      ((ofKey (· % 3) 2 (s.ofProducer 0 (s.handedBy 0 0))).map Parcel.item = [8, 11] ∧
        (ofKey (· % 3) 2 (s.ofProducer 0 (s.handedBy 0 0))).Sublist
          (ofKey (· % 3) 2 (s.offeredBy 0))) := by
  intro start s
  have hstart : start.Reachable := reachable_after (by decide) (by decide) .wait _
  have hfirst : start.routed = [] := rfl
  have hr : ReachesBy (fun a => a.keepsRouter = true) start s := reachesBy_after start (by decide)
  have hlen : s.pools.length ≤ 1 := by decide +kernel
  have only : s.OnlyReader 0 :=
    onlyReader_of_length (List.length_eq_zero_iff.mp (by decide +kernel)) hlen
  obtain ⟨pool, hp, hplan⟩ : ∃ pool, s.pools[0]? = some pool ∧ pool.plan.workers = 2 :=
    Option.map_eq_some_iff.mp (by decide +kernel)
  have hcount : s.store.count = 3 := by decide +kernel
  have horder := ReachesBy.order_of_key (· % 3) UInt64.ofNat hstart hfirst rfl hr hp only 2
  rw [hplan, hcount] at horder
  exact ⟨⟨hstart, hfirst, only⟩, by decide +kernel, by decide +kernel, (horder.2 0).1⟩

end Line

end Conveyor
