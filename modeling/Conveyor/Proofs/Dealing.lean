/-
Conveyor.Proofs.Dealing — the channels of a pool are dealt out fairly.

Dealing gives each worker the channels with its number as the remainder
(`Assignment.getElem?_deal_eq_some`): each channel goes to one worker, and no worker has two
more than another (`Assignment.isFair_deal`). The check of an assignment counts the channels
in its own way, and passes those assignments that name each channel once, and no others
(`Assignment.check_eq_ok_iff`). So a pool that may be built at all is built, with its channels
dealt out fairly (`Pool.fairly_dealt`).
-/
import Conveyor.Crew.Pool
import Mathlib.Data.Int.CardIntervalMod

namespace Conveyor

/-- Of the first `m` numbers, as many have remainder `r` as there are whole rounds, and one
more if the last round comes past it. -/
theorem countP_range_mod (m : Nat) {total r : Nat} (hr : r < total) :
    ((List.range m).countP fun k => k % total = r) =
      m / total + if r < m % total then 1 else 0 := by
  have hmod : r % total = r := Nat.mod_eq_of_lt hr
  have hcount := Nat.count_modEq_card m (Nat.zero_lt_of_lt hr) r
  rw [hmod] at hcount
  rw [← hcount, Nat.count]
  refine List.countP_congr fun k _ => ?_
  rw [decide_eq_true_eq, decide_eq_true_eq, Nat.ModEq, hmod]

/-- What it takes for a list to hold the numbers below `total`, each of them once. -/
theorem perm_range_iff {list : List Nat} {total : Nat} : list.Perm (List.range total) ↔
    (∀ c ∈ list, c < total) ∧ ∀ c < total, list.count c = 1 := by
  constructor
  · intro hperm
    refine ⟨fun c hc => List.mem_range.mp (hperm.mem_iff.mp hc), fun c hc => ?_⟩
    rw [hperm.count_eq, List.count_range, if_pos hc]
  · rintro ⟨hlt, hone⟩
    refine List.perm_iff_count.mpr fun c => ?_
    rw [List.count_range]
    split
    · next hc => exact hone c hc
    · next hc => exact List.count_eq_zero.mpr fun hmem => hc (hlt c hmem)

namespace Assignment

/-! ## Who is dealt what -/

theorem length_deal (workers channels : Nat) :
    (deal workers channels).length = workers := by
  unfold deal
  induction channels with
  | zero => simp
  | succ n ih => rw [List.range_succ, List.foldl_append, List.foldl_cons, List.foldl_nil,
      List.length_modify, ih]

/-- Worker `w` is dealt the channels with remainder `w`. -/
theorem deal_eq (workers channels : Nat) :
    deal workers channels =
      (List.range workers).map fun w => (List.range channels).filter fun c => c % workers = w := by
  unfold deal
  induction channels with
  | zero => simp [List.map_const']
  | succ n ih =>
    rw [List.range_succ, List.foldl_append, ih]
    apply List.ext_getElem?
    intro w
    simp only [List.foldl_cons, List.foldl_nil, List.getElem?_modify, List.getElem?_map,
      List.filter_append, List.filter_cons, List.filter_nil, decide_eq_true_eq]
    by_cases hw : w < workers
    · by_cases hn : n % workers = w
      · simp [List.getElem?_range hw, hn]
      · simp [List.getElem?_range hw, hn]
    · have hnone : (List.range workers)[w]? = none :=
        List.getElem?_eq_none_iff.mpr (by simpa using hw)
      rw [hnone]
      rfl

variable {workers channels w : Nat} {list : List Nat}

theorem getElem?_deal_eq_some : (deal workers channels)[w]? = some list ↔
    w < workers ∧ list = (List.range channels).filter fun c => c % workers = w := by
  rw [deal_eq, List.getElem?_map, Option.map_eq_some_iff]
  constructor
  · rintro ⟨k, hk, rfl⟩
    obtain ⟨hlt, rfl⟩ := List.getElem?_eq_some_iff.mp hk
    rw [List.length_range] at hlt
    exact ⟨hlt, by rw [List.getElem_range]⟩
  · rintro ⟨hw, rfl⟩
    exact ⟨w, List.getElem?_range hw, rfl⟩

/-- How many channels a worker is dealt: one from each whole round, and one from the last round
if that comes as far as this worker. -/
theorem length_of_deal (h : (deal workers channels)[w]? = some list) :
    list.length = channels / workers + if w < channels % workers then 1 else 0 := by
  obtain ⟨hw, rfl⟩ := getElem?_deal_eq_some.mp h
  rw [← List.countP_eq_length_filter]
  exact countP_range_mod channels hw

/-! ## Every channel once -/

theorem foldlM_countOne (channels counts : List Nat) (h : ∀ c ∈ channels, c < counts.length) :
    channels.foldlM countOne counts = .ok (counts.mapIdx fun c n => n + channels.count c) := by
  induction channels generalizing counts with
  | nil =>
    have hsame : (counts.mapIdx fun c n => n + [].count c) = counts := by
      simp [List.mapIdx_eq_iff]
    rw [hsame]
    rfl
  | cons c rest ih =>
    have hone : countOne counts c = .ok (counts.modify c (· + 1)) := if_pos (h c List.mem_cons_self)
    have hrest : ∀ d ∈ rest, d < (counts.modify c (· + 1)).length := by
      intro d hd
      rw [List.length_modify]
      exact h d (List.mem_cons_of_mem _ hd)
    rw [List.foldlM_cons, hone]
    refine (ih _ hrest).trans (congrArg Except.ok (List.ext_getElem? fun i => ?_))
    rw [List.getElem?_mapIdx, List.getElem?_mapIdx, List.getElem?_modify]
    cases counts[i]? with
    | none => rfl
    | some n => by_cases hi : c = i <;> simp [hi, Nat.add_assoc, Nat.add_comm 1]

/-- Counting stops at a channel that there is no place for. -/
theorem lt_of_foldlM_countOne {channels counts counts' : List Nat}
    (h : channels.foldlM countOne counts = .ok counts') : ∀ c ∈ channels, c < counts.length := by
  induction channels generalizing counts with
  | nil => exact fun c hc => nomatch hc
  | cons c rest ih =>
    rw [List.foldlM_cons, countOne] at h
    split at h
    · next hlt =>
      have hrest := ih h
      rw [List.length_modify] at hrest
      exact List.forall_mem_cons.mpr ⟨hlt, hrest⟩
    · cases h

/-- The channels are counted one worker after the other. -/
theorem countChannels_eq_foldlM (a : Assignment) (total : Nat) :
    a.countChannels total = a.flatten.foldlM countOne (List.replicate total 0) := by
  unfold countChannels
  generalize List.replicate total 0 = counts
  induction a generalizing counts with
  | nil => rfl
  | cons channels rest ih =>
    rw [List.flatten_cons, List.foldlM_append, List.foldlM_cons]
    exact congrArg _ (funext ih)

theorem countChannels_eq_ok_iff {a : Assignment} {total : Nat} {counts : List Nat} :
    a.countChannels total = .ok counts ↔
      (∀ c ∈ a.flatten, c < total) ∧ counts = (List.range total).map a.flatten.count := by
  have hcounts (h : ∀ c ∈ a.flatten, c < total) :
      a.countChannels total = .ok ((List.range total).map a.flatten.count) := by
    rw [countChannels_eq_foldlM, foldlM_countOne _ _ (by simpa using h)]
    refine congrArg Except.ok (List.ext_getElem? fun i => ?_)
    by_cases hi : i < total <;> simp [hi]
  constructor
  · intro h
    have hlt : ∀ c ∈ a.flatten, c < total := by
      rw [countChannels_eq_foldlM] at h
      simpa using lt_of_foldlM_countOne h
    exact ⟨hlt, Except.ok.inj (h.symm.trans (hcounts hlt))⟩
  · rintro ⟨hlt, rfl⟩
    exact hcounts hlt

theorem check_eq_ok_iff_counts {a : Assignment} {total : Nat} : a.check total = .ok () ↔
    ∃ counts, a.countChannels total = .ok counts ∧ ∀ n ∈ counts, n = 1 := by
  unfold check
  cases a.countChannels total with
  | error fault => simp [bind, Except.bind]
  | ok counts => by_cases hall : ∀ n ∈ counts, n = 1 <;>
      simp [bind, Except.bind, hall, pure, Except.pure, throw, throwThe, MonadExceptOf.throw]

/-- The check passes an assignment exactly if its lists hold the channels below `total`, each of
them once. -/
theorem check_eq_ok_iff {a : Assignment} {total : Nat} :
    a.check total = .ok () ↔ a.flatten.Perm (List.range total) := by
  rw [check_eq_ok_iff_counts, perm_range_iff]
  constructor
  · rintro ⟨counts, hcounts, hone⟩
    obtain ⟨hlt, rfl⟩ := countChannels_eq_ok_iff.mp hcounts
    exact ⟨hlt, fun c hc => hone _ (List.mem_map_of_mem (List.mem_range.mpr hc))⟩
  · rintro ⟨hlt, hone⟩
    refine ⟨_, countChannels_eq_ok_iff.mpr ⟨hlt, rfl⟩, List.forall_mem_map.mpr fun c hc => ?_⟩
    exact hone c (List.mem_range.mp hc)

theorem flatten_modify_perm (a : Assignment) {w : Nat} (c : Nat) (hw : w < a.length) :
    (List.modify a w (· ++ [c])).flatten.Perm (a.flatten ++ [c]) := by
  induction a generalizing w with
  | nil => exact absurd hw (Nat.not_lt_zero _)
  | cons channels rest ih =>
    cases w with
    | zero =>
      simp only [List.modify_zero_cons, List.flatten_cons, List.append_assoc]
      exact List.perm_append_comm.append_left channels
    | succ w =>
      simp only [List.modify_succ_cons, List.flatten_cons, List.append_assoc]
      exact (ih (Nat.lt_of_succ_lt_succ hw)).append_left channels

/-- Every channel is dealt to one worker. -/
theorem deal_perm {workers : Nat} (hw : 0 < workers) (channels : Nat) :
    (deal workers channels).flatten.Perm (List.range channels) := by
  induction channels with
  | zero => simp [deal]
  | succ n ih =>
    have hdeal : deal workers (n + 1) = (deal workers n).modify (n % workers) (· ++ [n]) := by
      simp [deal, List.range_succ]
    have hlt : n % workers < (deal workers n).length := by
      rw [length_deal]
      exact Nat.mod_lt _ hw
    rw [hdeal, List.range_succ]
    exact (flatten_modify_perm _ n hlt).trans (ih.append_right [n])

/-- An assignment that was dealt is complete. -/
theorem check_deal {workers : Nat} (hw : 0 < workers) (channels : Nat) :
    (deal workers channels).check channels = .ok () :=
  check_eq_ok_iff.mpr (deal_perm hw channels)

/-- Of each channel that was dealt, the count is one. -/
theorem countChannels_deal {workers : Nat} (hw : 0 < workers) (channels : Nat) :
    (deal workers channels).countChannels channels = .ok (List.replicate channels 1) := by
  obtain ⟨hlt, hone⟩ := perm_range_iff.mp (deal_perm hw channels)
  refine countChannels_eq_ok_iff.mpr ⟨hlt, (List.eq_replicate_iff.mpr ⟨by simp, ?_⟩).symm⟩
  exact List.forall_mem_map.mpr fun c hc => hone c (List.mem_range.mp hc)

/-! ## Fair shares -/

/-- The channels below `channels` are dealt out fairly to `workers` workers. -/
structure IsFair (a : Assignment) (workers channels : Nat) : Prop where
  /-- Every worker has a list, if only an empty one. -/
  size : a.length = workers
  /-- A channel is on the list of the worker with its remainder, once. -/
  once : ∀ c < channels, ∃ own, a[c % workers]? = some own ∧ own.count c = 1
  /-- It is on no other list, and nothing else is on any. -/
  apart : ∀ w list c, a[w]? = some list → c ∈ list → c < channels ∧ w = c % workers
  inOrder : ∀ list ∈ a, list.Pairwise (· < ·)
  /-- No worker has two channels more than another. -/
  even : ∀ list ∈ a, ∀ list' ∈ a, list.length ≤ list'.length + 1

theorem isFair_deal {workers : Nat} (hw : 0 < workers) (channels : Nat) :
    (deal workers channels).IsFair workers channels where
  size := length_deal workers channels
  once c hc := by
    have hone : (List.range channels).count c = 1 := by rw [List.count_range, if_pos hc]
    refine ⟨_, getElem?_deal_eq_some.mpr ⟨Nat.mod_lt c hw, rfl⟩, ?_⟩
    rwa [List.count_filter (by simp)]
  apart w list c hlist hc := by
    obtain ⟨-, rfl⟩ := getElem?_deal_eq_some.mp hlist
    rw [List.mem_filter, List.mem_range, decide_eq_true_eq] at hc
    exact ⟨hc.1, hc.2.symm⟩
  inOrder list hmem := by
    obtain ⟨w, hlist⟩ := List.getElem?_of_mem hmem
    obtain ⟨-, rfl⟩ := getElem?_deal_eq_some.mp hlist
    exact List.pairwise_lt_range.filter _
  even list hmem list' hmem' := by
    obtain ⟨w, hlist⟩ := List.getElem?_of_mem hmem
    obtain ⟨w', hlist'⟩ := List.getElem?_of_mem hmem'
    rw [length_of_deal hlist, length_of_deal hlist']
    split <;> omega

/-- Of more workers than channels, the last have nothing to read. -/
example : deal 3 2 = [[0], [1], []] := by decide

end Assignment

/-! ## Building a pool -/

namespace Pool

variable {α : Type u} {plan : PoolPlan} {channels : Nat} {pool : Pool α}

/-- A pool is built for any plan that has workers and a batch, and from nothing else. -/
theorem ofPlan_eq_ok_iff : ofPlan plan channels = .ok pool ↔ plan.workers ≠ 0 ∧ plan.limit ≠ 0 ∧
    pool = { plan, assignment := .deal plan.workers channels } := by
  unfold ofPlan
  by_cases hw : plan.workers = 0
  · simp [hw]
  · by_cases hl : plan.limit = 0
    · simp [hw, hl]
    · have hcheck := Assignment.check_deal (Nat.pos_of_ne_zero hw) channels
      simp [hw, hl, hcheck, eq_comm]

/-- However many channels there are, and however many workers, a pool is built with its channels
dealt out fairly, and the count that it makes of them finds each of them once. -/
theorem fairly_dealt (plan : PoolPlan) (channels : Nat) (hw : 0 < plan.workers)
    (hl : 0 < plan.limit) :
    ∃ pool : Pool α, ofPlan plan channels = .ok pool ∧
      pool.assignment.IsFair plan.workers channels ∧
      pool.assignment.countChannels channels = .ok (List.replicate channels 1) ∧
      pool.assignment.check channels = .ok () := by
  refine ⟨_, ofPlan_eq_ok_iff.mpr ⟨Nat.ne_of_gt hw, Nat.ne_of_gt hl, rfl⟩, ?_, ?_, ?_⟩
  · exact Assignment.isFair_deal hw channels
  · exact Assignment.countChannels_deal hw channels
  · exact Assignment.check_deal hw channels

/-- Three workers, of whom not all can have as many channels as the others. -/
def crewOfThree : PoolPlan := ⟨"feed", 3, 16, false, ⟨0, 5000000, by decide⟩⟩

theorem fairly_dealt_crewOfThree :
    0 < crewOfThree.workers ∧ 0 < crewOfThree.limit ∧
      ∃ pool : Pool Nat, ofPlan crewOfThree 5 = .ok pool ∧
        pool.assignment = [[0, 3], [1, 4], [2]] ∧ pool.assignment.IsFair 3 5 ∧
        pool.assignment.countChannels 5 = .ok [1, 1, 1, 1, 1] ∧
        pool.assignment.check 5 = .ok () := by
  obtain ⟨pool, hpool, hfair, hcounts, hcheck⟩ :=
    fairly_dealt (α := Nat) crewOfThree 5 (by decide) (by decide)
  refine ⟨by decide, by decide, pool, hpool, ?_, hfair, hcounts, hcheck⟩
  obtain ⟨-, -, rfl⟩ := ofPlan_eq_ok_iff.mp hpool
  decide

end Pool

end Conveyor
