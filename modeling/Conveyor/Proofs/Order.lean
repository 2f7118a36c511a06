/-
Conveyor.Proofs.Order — a channel is read in the order in which it was
written.

Where one pool is the only reader, each channel has one worker who ever takes
from it. The items of the channel that this worker handed over, those it has in
hand, and those still in the channel, one after the other, are what was written
to the channel, in the order of the writes, without what was evicted
(`Reachable.in_order`). Items are told apart by the calls that offered them, so
the batches of a worker need not say which channel an item is from.

One flow of items keeps this (`Effect.inOrder`): a write adds at the end of
both sides, an eviction removes the oldest item that is still in the channel,
and a worker moves the oldest items to the end of what it has.
-/
import Conveyor.Proofs.Flow

namespace Conveyor.Line

variable {α : Type u} {s t : Line α} {p c : Nat}

/-! ## The history of a channel -/

/-- The parcels of a history that are of channel `c`. -/
def ofChannel (c : Nat) (history : List (Nat × Parcel α)) : List (Parcel α) :=
  (history.filter fun e => e.1 = c).map Prod.snd

/-- What was written to channel `c`, in the order of the writes. -/
def writtenTo (s : Line α) (c : Nat) : List (Parcel α) := ofChannel c s.written

/-- What was evicted from channel `c`. -/
def evictedFrom (s : Line α) (c : Nat) : List (Parcel α) := ofChannel c s.evicted

/-- What was written to channel `c` and not evicted. -/
def kept (s : Line α) (c : Nat) : List (Parcel α) :=
  (s.writtenTo c).filter fun x => x.call ∉ (s.evictedFrom c).map Parcel.call

/-- Those of `items` that were written to channel `c`. -/
def itemsOf (s : Line α) (c : Nat) (items : List (Parcel α)) : List (Parcel α) :=
  items.filter fun x => x.call ∈ (s.writtenTo c).map Parcel.call

@[simp] theorem ofChannel_append (c : Nat) (l l' : List (Nat × Parcel α)) :
    ofChannel c (l ++ l') = ofChannel c l ++ ofChannel c l' := by
  simp [ofChannel]

@[simp] theorem ofChannel_self (c : Nat) (x : Parcel α) : ofChannel c [(c, x)] = [x] := by
  simp [ofChannel]

theorem ofChannel_of_ne {n c : Nat} (h : n ≠ c) (x : Parcel α) : ofChannel c [(n, x)] = [] := by
  simp [ofChannel, h]

/-- A history by channels says the same as the history. -/
theorem mem_ofChannel {l : List (Nat × Parcel α)} {x : Parcel α} :
    x ∈ ofChannel c l ↔ (c, x) ∈ l := by
  simp [ofChannel]

theorem mem_writtenTo {x : Parcel α} : x ∈ s.writtenTo c ↔ (c, x) ∈ s.written := mem_ofChannel

/-- The items of a channel are picked out of each part by itself. -/
theorem itemsOf_append (s : Line α) (c : Nat) (l l' : List (Parcel α)) :
    s.itemsOf c (l ++ l') = s.itemsOf c l ++ s.itemsOf c l' := List.filter_append ..

/-- Where all items are of the channel, none is left out. -/
theorem itemsOf_eq_self {l : List (Parcel α)} (h : ∀ x ∈ l, (c, x) ∈ s.written) :
    s.itemsOf c l = l := by
  refine List.filter_eq_self.mpr ?_
  intro x hx
  exact decide_eq_true (List.mem_map_of_mem (mem_writtenTo.mpr (h x hx)))

/-- Nothing of channel `c` is among the items of other channels. -/
theorem Regular.itemsOf_eq_nil (h : s.Regular) {l : List (Parcel α)}
    (hl : ∀ x ∈ l, ∃ n, (n, x) ∈ s.written ∧ n ≠ c) : s.itemsOf c l = [] := by
  refine List.filter_eq_nil_iff.mpr ?_
  intro x hx hmem
  obtain ⟨y, hy, hcall⟩ := List.mem_map.mp (of_decide_eq_true hmem)
  obtain ⟨n, hn, hne⟩ := hl x hx
  have he := h.conserved.eq_of_call hn (mem_writtenTo.mp hy) hcall.symm
  exact hne (congrArg Prod.fst he)

/-- No call has written twice to a channel. -/
theorem Regular.nodup_kept (h : s.Regular) (c : Nat) : ((s.kept c).map Parcel.call).Nodup := by
  refine h.conserved.nodup_written.sublist (List.Sublist.map _ ?_)
  exact List.filter_sublist.trans (List.filter_sublist.map _)

/-! ## One reader -/

/-- No pool but `p`, and no reader that is no worker, has taken an item. -/
structure OnlyReader (s : Line α) (p : Nat) : Prop where
  viewed : s.viewed = []
  others : ∀ q w, q ≠ p → s.took q w = []

/-- Where there is one pool, and nobody else has read, it is the only reader. -/
theorem onlyReader_of_length (hviewed : s.viewed = []) (hpools : s.pools.length ≤ 1) :
    s.OnlyReader 0 := by
  refine ⟨hviewed, ?_⟩
  intro q w hq
  exact took_of_none (List.getElem?_eq_none (by omega)) w

/-- Where there is one reader now, there was no other before. -/
theorem Effect.onlyReader_before (e : Effect s t) (h : s.Regular) (only : t.OnlyReader p) :
    s.OnlyReader p := by
  cases e.flow h with
  | still _ htook _ _ hviewed =>
    exact ⟨hviewed ▸ only.viewed, fun q w hq => htook q w ▸ only.others q w hq⟩
  | enters _ _ _ _ _ _ _ _ htook _ _ hviewed =>
    exact ⟨hviewed ▸ only.viewed, fun q w hq => htook q w ▸ only.others q w hq⟩
  | leaves _ _ _ _ htook _ _ hviewed =>
    have hnil := only.viewed
    rw [hviewed] at hnil
    exact ⟨(List.append_eq_nil_iff.mp hnil).1, fun q w hq => htook q w ▸ only.others q w hq⟩
  | taken q w _ _ _ _ _ _ _ htook hrest _ _ hviewed =>
    refine ⟨hviewed ▸ only.viewed, ?_⟩
    intro q' v hq'
    have hnil := only.others q' v hq'
    by_cases he : (q, w) = (q', v)
    · cases he
      rw [htook] at hnil
      exact (List.append_eq_nil_iff.mp hnil).1
    · rw [← hrest q' v he]
      exact hnil

/-! ## The order of a channel -/

/-- What worker `c % workers` of pool `p` took from channel `c`, and what lies in
the channel, is what was written to it and not evicted. -/
def InOrder (s : Line α) (p workers : Nat) : Prop :=
  ∀ c, s.itemsOf c (s.took p (c % workers)) ++ s.contents c = s.kept c

/-- Without the part `m` in the middle, a list without repetitions is what is
before it and what is behind it. -/
theorem filter_notMem_middle {l m r : List (Parcel α)} (h : ((l ++ m ++ r).map Parcel.call).Nodup) :
    (l ++ m ++ r).filter (fun x => x.call ∉ m.map Parcel.call) = l ++ r := by
  rw [List.map_append, List.map_append] at h
  have hlm := (List.nodup_append'.mp (List.nodup_append'.mp h).1).2.2
  have hmr := (List.nodup_append'.mp h).2.2
  rw [List.filter_append, List.filter_append]
  have hl : l.filter (fun x => x.call ∉ m.map Parcel.call) = l := by
    refine List.filter_eq_self.mpr ?_
    intro x hx
    exact decide_eq_true (hlm (List.mem_map_of_mem hx))
  have hm : m.filter (fun x => x.call ∉ m.map Parcel.call) = [] := by
    refine List.filter_eq_nil_iff.mpr ?_
    intro x hx hnot
    exact of_decide_eq_true hnot (List.mem_map_of_mem hx)
  have hr : r.filter (fun x => x.call ∉ m.map Parcel.call) = r := by
    refine List.filter_eq_self.mpr ?_
    intro x hx
    refine decide_eq_true ?_
    intro hmem
    exact hmr (List.mem_append_right _ hmem) (List.mem_map_of_mem hx)
  rw [hl, hm, hr, List.append_nil]

/-- Whoever has taken the oldest items of a channel, it is as it was, if there
were none. -/
theorem contents_of_nil {n : Nat} {items : List (Parcel α)}
    (hbefore : s.contents n = items ++ t.contents n)
    (hothers : ∀ m, n ≠ m → t.contents m = s.contents m) (hnil : items = []) (m : Nat) :
    t.contents m = s.contents m := by
  by_cases hnm : n = m
  · rw [← hnm, hbefore, hnil, List.nil_append]
  · exact hothers m hnm

theorem itemsOf_of_written (h : t.written = s.written) (c : Nat) (items : List (Parcel α)) :
    t.itemsOf c items = s.itemsOf c items := by
  rw [itemsOf, writtenTo, h]
  rfl

/-- What is kept is a matter of the two histories. -/
theorem kept_of_history (hw : t.written = s.written) (he : t.evicted = s.evicted) (c : Nat) :
    t.kept c = s.kept c := by
  rw [kept, writtenTo, evictedFrom, hw, he]
  rfl

/-- A write goes to the end of what its channel has seen; what it pushes out was
the oldest in the channel. -/
theorem InOrder.enters {workers : Nat} (ho : s.InOrder p workers) (h : s.Regular) (hr : s.Traced)
    {n : Nat} {parcel : Parcel α} {out : Option (Parcel α)} {rest : List (Parcel α)}
    (hfresh : ∀ x ∈ s.written, x.2.call ≠ parcel.call)
    (hbefore : s.contents n = out.toList ++ rest) (hafter : t.contents n = rest ++ [parcel])
    (hothers : ∀ m, n ≠ m → t.contents m = s.contents m)
    (htook : ∀ p w, t.took p w = s.took p w)
    (hwritten : t.written = s.written ++ [(n, parcel)])
    (hevicted : t.evicted = s.evicted ++ (out.map fun parcel => (n, parcel)).toList) :
    t.InOrder p workers := by
  intro c
  rw [htook]
  by_cases hnc : n = c
  · subst hnc
    have hnow : t.writtenTo n = s.writtenTo n ++ [parcel] := by
      rw [writtenTo, hwritten, ofChannel_append, ofChannel_self, writtenTo]
    have hgone : t.evictedFrom n = s.evictedFrom n ++ out.toList := by
      rw [evictedFrom, hevicted, ofChannel_append, evictedFrom]
      cases out <;> simp [ofChannel]
    have hitems : t.itemsOf n (s.took p (n % workers)) = s.itemsOf n (s.took p (n % workers)) := by
      refine List.filter_congr ?_
      intro x hx
      obtain ⟨m, hm⟩ := hr.written_of_took hx
      rw [hnow, List.map_append, decide_eq_decide, List.mem_append]
      refine or_iff_left ?_
      intro hcall
      exact hfresh _ hm (List.mem_singleton.mp hcall)
    have hnew : parcel.call ∉ (t.evictedFrom n).map Parcel.call := by
      intro hmem
      obtain ⟨x, hx, hcall⟩ := List.mem_map.mp hmem
      rw [hgone] at hx
      rcases List.mem_append.mp hx with hx | hx
      · exact hfresh _ (hr.evicted _ (mem_ofChannel.mp hx)) hcall
      · exact hfresh _ (hr.contents n x (hbefore ▸ List.mem_append_left _ hx)) hcall
    have hkept : t.kept n =
        (s.kept n).filter (fun x => x.call ∉ out.toList.map Parcel.call) ++ [parcel] := by
      rw [kept, hnow, List.filter_append, List.filter_singleton, decide_eq_true hnew, cond_true,
        hgone, kept, List.filter_filter]
      congr 1
      refine List.filter_congr ?_
      intro x _
      rw [← Bool.decide_and, decide_eq_decide, List.map_append, List.mem_append, not_or, and_comm]
    have hold := ho n
    rw [hbefore, ← List.append_assoc] at hold
    rw [hitems, hafter, hkept, ← hold, filter_notMem_middle (hold ▸ h.nodup_kept n),
      List.append_assoc]
  · have hitems : t.itemsOf c (s.took p (c % workers)) = s.itemsOf c (s.took p (c % workers)) := by
      rw [itemsOf, writtenTo, hwritten, ofChannel_append, ofChannel_of_ne hnc, List.append_nil]
      rfl
    have hkept : t.kept c = s.kept c := by
      have hgone : ofChannel c (out.map fun parcel => (n, parcel)).toList = [] := by
        cases out <;> simp [ofChannel, hnc]
      rw [kept, writtenTo, evictedFrom, hwritten, hevicted, ofChannel_append, ofChannel_append,
        ofChannel_of_ne hnc, hgone, List.append_nil, List.append_nil]
      rfl
    rw [hitems, hothers c hnc, hkept]
    exact ho c

/-- One step keeps the order: an item enters at the end, leaves at the front to an eviction, or
goes over to the worker of the channel behind all that this worker has taken. -/
theorem Effect.inOrder (e : Effect s t) (h : s.Regular) (hr : s.Traced) {workers : Nat}
    (hplan : ∀ pool, s.pools[p]? = some pool → pool.plan.workers = workers)
    (only : t.OnlyReader p) (ho : s.InOrder p workers) : t.InOrder p workers := by
  cases e.flow h with
  | still hcontents htook hwritten hevicted _ =>
    intro c
    rw [hcontents, htook, itemsOf_of_written hwritten, kept_of_history hwritten hevicted]
    exact ho c
  | enters n parcel out rest hfresh hbefore hafter hothers htook hwritten hevicted _ =>
    exact ho.enters h hr hfresh hbefore hafter hothers htook hwritten hevicted
  | leaves n items hbefore hothers htook hwritten hevicted hviewed =>
    have hnil : items = [] := by
      have hv := only.viewed
      rw [hviewed] at hv
      exact List.map_eq_nil_iff.mp (List.append_eq_nil_iff.mp hv).2
    intro c
    rw [contents_of_nil hbefore hothers hnil, htook, itemsOf_of_written hwritten,
      kept_of_history hwritten hevicted]
    exact ho c
  | taken q w n items pool hq hown hbefore hothers htook hrest hwritten hevicted _ =>
    intro c
    rw [itemsOf_of_written hwritten, kept_of_history hwritten hevicted]
    by_cases hqp : q = p
    · subst hqp
      have hw : n % workers = w := hplan pool hq ▸ hown
      have hitems : ∀ x ∈ items, (n, x) ∈ s.written := fun x hx =>
        hr.contents n x (hbefore ▸ List.mem_append_left _ hx)
      by_cases hnc : n = c
      · subst hnc
        rw [hw, htook, itemsOf_append, itemsOf_eq_self hitems, List.append_assoc, ← hbefore, ← hw]
        exact ho n
      · rw [hothers c hnc]
        by_cases hv : c % workers = w
        · have hnil : s.itemsOf c items = [] :=
            h.itemsOf_eq_nil fun x hx => ⟨n, hitems x hx, hnc⟩
          rw [hv, htook, itemsOf_append, hnil, List.append_nil, ← hv]
          exact ho c
        · rw [hrest q _ (fun he => hv (congrArg Prod.snd he).symm)]
          exact ho c
    · have hnil : items = [] := by
        have hv := only.others q w hqp
        rw [htook] at hv
        exact (List.append_eq_nil_iff.mp hv).2
      rw [contents_of_nil hbefore hothers hnil, hrest p _ (fun he => hqp (congrArg Prod.fst he))]
      exact ho c

theorem IsFresh.inOrder (h : s.IsFresh) (p workers : Nat) : s.InOrder p workers := by
  intro c
  rw [h.contents, took_of_none (by rw [h.pools]; rfl)]
  obtain ⟨_, _, _, _, store, _, rfl⟩ := h
  rfl

/-- What worker `w` of pool `p` has handed to its consumer, in the order of its
calls. -/
def handedBy (s : Line α) (p w : Nat) : List (Parcel α) := (s.worker? p w).elim [] Worker.handed

/-- What worker `w` of pool `p` has taken and not handed over. -/
def heldBy (s : Line α) (p w : Nat) : List (Parcel α) := (s.worker? p w).elim [] Worker.held

/-- A worker hands over what it took first. -/
theorem took_eq_append (s : Line α) (p w : Nat) : s.took p w = s.handedBy p w ++ s.heldBy p w := by
  rw [took, handedBy, heldBy]
  cases s.worker? p w <;> rfl

/-- As long as the pool is the only reader, by induction over the run. -/
theorem Reachable.inOrder (h : s.Reachable) {pool : Pool (Parcel α)} (hp : s.pools[p]? = some pool)
    (only : s.OnlyReader p) : s.InOrder p pool.plan.workers := by
  have hall : s.Traced ∧
      ((∀ old, s.pools[p]? = some old → old.plan.workers = pool.plan.workers) →
        s.OnlyReader p → s.InOrder p pool.plan.workers) := by
    refine h.regular_induction (P := fun u => u.Traced ∧
      ((∀ old, u.pools[p]? = some old → old.plan.workers = pool.plan.workers) →
        u.OnlyReader p → u.InOrder p pool.plan.workers)) ?_ ?_
    · intro start hf
      exact ⟨hf.traced, fun _ _ => hf.inOrder p _⟩
    · rintro u v hu ⟨hr, ih⟩ e
      refine ⟨e.traced hu hr, ?_⟩
      intro hplan only
      have hold : ∀ old, u.pools[p]? = some old → old.plan.workers = pool.plan.workers := by
        intro old hq
        obtain ⟨new, hnew, hsame⟩ := e.plan_after hq
        rw [← hsame]
        exact hplan new hnew
      exact e.inOrder hu hr hold only (ih hold (e.onlyReader_before hu only))
  refine hall.2 ?_ only
  intro old hq
  rw [hp] at hq
  cases hq
  rfl

/-- **Each channel is read in order.** Where pool `p` is the only reader, take the
items of channel `c` that its worker `c % workers` has handed over, those that it
has in hand, and those in the channel: one after the other they are what was
written to the channel, in the order of the writes, without what was evicted. No
other worker of the pool has ever handed over, or has in hand, an item of the
channel. -/
theorem Reachable.in_order (h : s.Reachable) {pool : Pool (Parcel α)}
    (hp : s.pools[p]? = some pool) (only : s.OnlyReader p) (c : Nat) :
    s.itemsOf c (s.handedBy p (c % pool.plan.workers)) ++
        s.itemsOf c (s.heldBy p (c % pool.plan.workers)) ++ s.contents c = s.kept c ∧
      ∀ w, w ≠ c % pool.plan.workers →
        s.itemsOf c (s.handedBy p w) = [] ∧ s.itemsOf c (s.heldBy p w) = [] := by
  constructor
  · rw [← itemsOf_append, ← took_eq_append]
    exact h.inOrder hp only c
  · intro w hw
    have hnil : s.itemsOf c (s.took p w) = [] := by
      refine h.regular.itemsOf_eq_nil ?_
      intro x hx
      obtain ⟨n, hn, hown⟩ := h.traced.took p pool w hp x hx
      refine ⟨n, hn, ?_⟩
      rintro rfl
      exact hw hown.symm
    rw [took_eq_append, itemsOf_append] at hnil
    exact List.append_eq_nil_iff.mp hnil

/-- Nine writes to three channels of two, of which each evicts one item; then two
workers, who take one item from a channel at a time. The first has two channels.
It hands one batch over, which its consumer panics on, and has the next in hand. -/
def ninefold : List (Action Nat) :=
  let work : Action Nat := .work 0 0
  (List.range 9).flatMap
      (fun i => .offer i (.write (10 + i) none) :: List.replicate 6 (.advance i)) ++
    [.install ⟨"", 2, 1, false, ⟨1, 0, nanosPerSecond_pos⟩⟩, work, .endHook 0 0 .returned] ++
    [work, work, work, work, work, .endHook 0 0 (.panicked .other), work] ++
    [work, .endHook 0 0 .returned, work, work]

/-- The first channel saw three items: one was evicted, the worker handed one over
and has one in hand. -/
theorem in_order_ninefold :
    let s := (blank 3 2 (by decide) .evict).after ninefold
    (s.Reachable ∧ s.OnlyReader 0) ∧
      (s.evicted.map (fun e => e.2.item) = [10, 11, 12] ∧ s.handed.map Parcel.item = [13, 15] ∧
        s.held.map Parcel.item = [16] ∧ s.buffered.map Parcel.item = [14, 17, 18]) ∧
      ∃ pool, s.pools[0]? = some pool ∧ pool.plan.workers = 2 ∧
        (s.kept 0).map Parcel.item = [13, 16] ∧
        s.itemsOf 0 (s.handedBy 0 0) ++ s.itemsOf 0 (s.heldBy 0 0) ++ s.contents 0 = s.kept 0 ∧
        s.itemsOf 0 (s.handedBy 0 1) = [] := by
  intro s
  have hreach : s.Reachable := reachable_after (by decide) (by decide) .evict ninefold
  have hlen : s.pools.length ≤ 1 := by decide +kernel
  have only : s.OnlyReader 0 :=
    onlyReader_of_length (List.length_eq_zero_iff.mp (by decide +kernel)) hlen
  obtain ⟨pool, hp, hplan⟩ : ∃ pool, s.pools[0]? = some pool ∧ pool.plan.workers = 2 :=
    Option.map_eq_some_iff.mp (by decide +kernel)
  obtain ⟨horder, hrest⟩ := Reachable.in_order hreach hp only 0
  rw [hplan] at horder hrest
  exact ⟨⟨hreach, only⟩, by decide +kernel, pool, hp, hplan, by decide +kernel, horder,
    (hrest 1 (by decide)).1⟩

end Conveyor.Line
