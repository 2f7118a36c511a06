/-
Conveyor.Proofs.Waking — a writer who waits for room is not forgotten.

A writer parks in the same hold of the lock in which it finds the channel
full, and whoever makes room or closes the channel owes a wake-up from then
on. So in every state that a shared channel gets into, a parked writer means
that the channel is open and full, or that somebody has the writers still to
wake (`Awake`). Writers that evict fill the room they make, and a drain that
takes nothing makes none; both leave it at that.

The second half is about how writes end. What a monitor remembers of the
writes of a thread is what its result says (`Recorded`), and what was written
is in the channel, was drained, or was evicted (`Balanced`).

`Reachable.no_lost_wakeup` says all of it for every state.
-/
import Conveyor.Lane.Monitor
import Conveyor.Proofs.Conservation

namespace Conveyor

variable {α : Type u}

/-! ## Threads -/

namespace LaneThread

/-- The thread is a writer who sleeps. -/
def isParked : LaneThread α → Bool
  | .writer _ _ .parked => true
  | _ => false

/-- The thread has changed the channel, and has the writers still to wake. -/
def isOwing : LaneThread α → Bool
  | .drainer _ _ .owing | .closer .owing => true
  | _ => false

/-- What the thread has put into the channel, going by its result. -/
def stored : LaneThread α → List α
  | .writer item _ (.ended (.ok (.accepted _))) => [item]
  | _ => []

/-- What the thread has taken out of the channel. -/
def drained : LaneThread α → List α
  | .drainer _ _ .ready => []
  | t => t.taken.toOption.getD []

/-- The result of the thread is one that its policy allows. -/
def IsFair : LaneThread α → Prop
  | .writer _ policy (.ended (.ok (.accepted how))) => how = .evicted → policy = .evict
  | .writer item policy (.ended (.ok (.refused why back))) =>
    back = item ∧ (why = .closed ∨ why = .full ∧ policy = .refuse)
  | _ => True

/-- The thread broke off. -/
def isBroken : LaneThread α → Bool
  | .writer _ _ (.ended (.error _)) => true
  | _ => false

/-- The thread has done nothing yet. -/
inductive IsNew : LaneThread α → Prop
  | write (item : α) (policy : WhenFull) : IsNew (write item policy)
  | drain (limit : Nat) : IsNew (drain limit)
  | close : IsNew close

variable (t : LaneThread α)

/-- Nobody sleeps who has been woken. -/
@[simp] theorem isParked_wake : t.wake.isParked = false := by
  fun_cases wake t <;> simp_all [isParked]

/-- To be woken changes nothing of what a thread has written. -/
@[simp] theorem stored_wake : t.wake.stored = t.stored := by
  fun_cases wake t <;> rfl

/-- Nor of what it has taken. -/
@[simp] theorem drained_wake : t.wake.drained = t.drained := by
  fun_cases wake t <;> rfl

@[simp] theorem isBroken_wake : t.wake.isBroken = t.isBroken := by
  fun_cases wake t <;> rfl

/-- A writer that is woken has no result yet. -/
theorem IsFair.wake {t : LaneThread α} (h : t.IsFair) : t.wake.IsFair := by
  fun_cases LaneThread.wake t
  · trivial
  · exact h

end LaneThread

/-- An open channel without room: the one that a writer waits on. -/
def Lane.IsFull (l : Lane α) : Prop := l.closed = false ∧ l.toList.length = l.capacity

namespace Monitor

variable {m m' : Monitor α} {i j : Nat}

section

variable {t t' x : LaneThread α}

/-- Another thread in the place of one that is there. -/
theorem getElem?_setThread (ht : m.threads[i]? = some t) (t' : LaneThread α) (j : Nat) :
    (m.setThread i t').threads[j]? = if i = j then some t' else m.threads[j]? := by
  obtain ⟨hi, -⟩ := Array.getElem?_eq_some_iff.mp ht
  by_cases hij : i = j
  · subst hij
    simp [setThread, hi]
  · simp [setThread, hij]

theorem mem_setThread_self (ht : m.threads[i]? = some t) : t' ∈ (m.setThread i t').threads :=
  Array.mem_of_getElem? (i := i) (by rw [getElem?_setThread ht, if_pos rfl])

/-- Who is not replaced stays. -/
theorem mem_setThread_of_ne (ht : m.threads[i]? = some t) (hx : x ∈ m.threads) (hne : x ≠ t) :
    x ∈ (m.setThread i t').threads := by
  obtain ⟨j, hj⟩ := Array.mem_iff_getElem?.mp hx
  have hij : i ≠ j := by
    rintro rfl
    exact hne (Option.some.inj (hj.symm.trans ht))
  exact Array.mem_of_getElem? (i := j) (by rw [getElem?_setThread ht, if_neg hij, hj])

/-- Who owes a wake-up goes on owing it, while another thread makes a step. -/
theorem owing_setThread (ht : m.threads[i]? = some t) (hquiet : t.isOwing = false)
    (howing : ∃ x ∈ m.threads, x.isOwing = true) :
    ∃ x ∈ (m.setThread i t').threads, x.isOwing = true := by
  obtain ⟨x, hx, howing⟩ := howing
  refine ⟨x, mem_setThread_of_ne ht hx ?_, howing⟩
  rintro rfl
  rw [hquiet] at howing
  cases howing

/-- Whoever is there is new, or was there before. -/
theorem of_mem_setThread (hx : x ∈ (m.setThread i t').threads) : x = t' ∨ x ∈ m.threads := by
  rcases Array.mem_or_eq_of_mem_setIfInBounds hx with hx | rfl
  · exact .inr hx
  · exact .inl rfl

/-- Nobody comes or goes when all are woken. -/
theorem of_mem_wakeAll (hx : x ∈ m.wakeAll.threads) : ∃ y ∈ m.threads, y.wake = x := by
  simpa [wakeAll] using hx

/-! ## What was written and what became of it -/

/-- What thread `i` has written, going by the history. -/
def writtenBy (m : Monitor α) (i : Nat) : List α :=
  m.written.toList.filterMap fun e => if e.1 = i then some e.2 else none

/-- What thread `i` has written, going by its result. -/
def storedBy (m : Monitor α) (i : Nat) : List α := m.threads[i]?.elim [] LaneThread.stored

/-- What all threads have taken out of the channel. -/
def drained (m : Monitor α) : List α := m.threads.toList.flatMap LaneThread.drained

/-- A write is one more of its writer, and of nobody else. -/
theorem writtenBy_push (m : Monitor α) (i j : Nat) (item : α) :
    { m with written := m.written.push (i, item) }.writtenBy j =
      m.writtenBy j ++ if i = j then [item] else [] := by
  by_cases hij : i = j
  · simp [writtenBy, hij]
  · simp [writtenBy, hij]

/-- What a thread has written by its result, when one result has changed. -/
theorem storedBy_setThread (ht : m.threads[i]? = some t) (t' : LaneThread α) (j : Nat) :
    (m.setThread i t').storedBy j = if i = j then t'.stored else m.storedBy j := by
  rw [storedBy, getElem?_setThread ht]
  by_cases hij : i = j
  · simp [hij]
  · simp [hij, storedBy]

theorem storedBy_eq (ht : m.threads[i]? = some t) : m.storedBy i = t.stored := by
  rw [storedBy, ht, Option.elim_some]

/-- A thread whose result says no more and no less about what it wrote. -/
theorem storedBy_setThread_of_eq (ht : m.threads[i]? = some t) (t' : LaneThread α)
    (h : t'.stored = t.stored) (j : Nat) : (m.setThread i t').storedBy j = m.storedBy j := by
  rw [storedBy_setThread ht]
  by_cases hij : i = j
  · rw [if_pos hij, h, ← hij, storedBy_eq ht]
  · rw [if_neg hij]

theorem getElem?_wakeAll (m : Monitor α) (i : Nat) :
    m.wakeAll.threads[i]? = m.threads[i]?.map LaneThread.wake := by
  simp [wakeAll]

/-- To wake the writers is to write nothing. -/
theorem storedBy_wakeAll (m : Monitor α) (i : Nat) : m.wakeAll.storedBy i = m.storedBy i := by
  rw [storedBy, storedBy, getElem?_wakeAll]
  cases m.threads[i]? <;> simp

/-- A thread that is replaced takes what it has taken out of the sum. -/
theorem drained_setThread (ht : m.threads[i]? = some t) (t' : LaneThread α) :
    ((m.setThread i t').drained ++ t.drained).Perm (m.drained ++ t'.drained) := by
  rw [drained, setThread, Array.toList_setIfInBounds]
  exact perm_flatMap_set (by rwa [Array.getElem?_toList]) t' LaneThread.drained

theorem drained_setThread_of_eq (ht : m.threads[i]? = some t) (t' : LaneThread α)
    (h : t'.drained = t.drained) :
    (m.setThread i t').drained.Perm m.drained := by
  have hperm := drained_setThread ht t'
  rw [h] at hperm
  exact (List.perm_append_right_iff _).mp hperm

/-- To wake the writers is to take nothing. -/
theorem drained_wakeAll (m : Monitor α) : m.wakeAll.drained = m.drained := by
  simp [drained, wakeAll, List.flatMap_map]

end

/-! ## What a thread can do -/

/-- One thing that thread `i` does, as far as the others can tell. -/
inductive Turn (m : Monitor α) (i : Nat) : Monitor α → Prop
  | stores {item : α} {policy : WhenFull} {how : Acceptance} {out : Option α} {lane : Lane α} :
      m.threads[i]? = some (.writer item policy .ready) →
      m.lane.Attempted policy item (.ok (.accepted how out lane)) →
      Turn m i ({ m with
        lane, written := m.written.push (i, item), evicted := m.evicted ++ out.toArray }.setThread i
          (.writer item policy (.ended (.ok (.accepted how)))))
  | drains {limit : Nat} {old : Checked (List α)} {items : List α} {after : WakerState}
      {lane : Lane α} : m.threads[i]? = some (.drainer limit old .ready) →
      m.lane.toList = items ++ lane.toList → lane.IsSound → lane.closed = m.lane.closed →
      lane.capacity = m.lane.capacity → lane.ring.write = m.lane.ring.write →
      after = .owing ∨ after = .ended ∧ items = [] →
      Turn m i ({ m with lane }.setThread i (.drainer limit (.ok items) after))
  | closes : m.threads[i]? = some (.closer .ready) →
      Turn m i ({ m with lane := m.lane.close }.setThread i (.closer .owing))
  /-- It wakes the writers. -/
  | pays {t t' : LaneThread α} : m.threads[i]? = some t → t'.isParked = false →
      t'.isBroken = false → t'.IsFair → t'.stored = t.stored → t'.drained = t.drained →
      Turn m i (m.wakeAll.setThread i t')
  /-- It has looked at the channel, or was woken for no reason. -/
  | looks {t t' : LaneThread α} : m.threads[i]? = some t → t.isOwing = false → t'.IsFair →
      (t'.isParked = true → m.lane.IsFull) →
      (t'.isBroken = true → m.lane.ring.write.toNat + 1 = UInt64.size) →
      t'.stored = t.stored → t'.drained = t.drained → Turn m i (m.setThread i t')

/-- Every step of a thread is one of five turns. -/
theorem turn_of_step (hs : m.lane.IsSound) (h : m.step i = some m') : m.Turn i m' := by
  unfold step at h
  split at h
  · next item policy ht =>
    have hattempt := hs.attempted policy item
    split at h <;> rename_i ha <;> rw [ha] at hattempt <;> cases h
    · exact .stores ht hattempt
    · cases hattempt with
      | closed hc => exact .looks ht rfl ⟨rfl, .inl rfl⟩ nofun nofun rfl rfl
      | full ho hlen hp => exact .looks ht rfl ⟨rfl, .inr ⟨rfl, hp⟩⟩ nofun nofun rfl rfl
    · cases hattempt with
      | waits ho hlen hp => exact .looks ht rfl trivial (fun _ => ⟨ho, hlen.symm⟩) nofun rfl rfl
    · cases hattempt with
      | usedUp _ ho hlast => exact .looks ht rfl trivial nofun (fun _ => hlast) rfl rfl
  · next limit old ht =>
    obtain ⟨lane, htake, hholds, hclosed, hcap, hwrite⟩ := Lane.Holds.take hs limit
    rw [htake] at h
    simp only [Option.some.injEq] at h
    subst h
    refine .drains ht ?_ hholds.isSound hclosed hcap hwrite ?_
    · rw [hholds.toList_eq, List.take_append_drop]
    · by_cases hmoved : 0 < min m.lane.toList.length limit
      · exact .inl (if_pos hmoved)
      · refine .inr ⟨if_neg hmoved, List.take_eq_nil_iff.mpr ?_⟩
        by_cases hl : limit = 0
        · exact .inl hl
        · exact .inr (List.length_eq_zero_iff.mp (by omega))
  · next limit taken ht =>
    cases h
    exact .pays ht rfl rfl trivial rfl rfl
  · next ht =>
    cases h
    exact .closes ht
  · next ht =>
    cases h
    exact .pays ht rfl rfl trivial rfl rfl
  · cases h

/-- A writer that is woken for no reason only looks again. -/
theorem turn_of_stir (h : m.stir i = some m') : m.Turn i m' := by
  unfold stir at h
  split at h
  · next item policy ht =>
    cases h
    exact .looks ht rfl trivial nofun nofun rfl rfl
  · cases h

/-! ## What a thread leaves behind -/

namespace Turn

variable {m m' : Monitor α} {i : Nat}

/-- Every turn leaves a sound channel of the same size. -/
theorem lane (h : m.Turn i m') (hs : m.lane.IsSound) :
    m'.lane.IsSound ∧ m'.lane.capacity = m.lane.capacity := by
  cases h with
  | stores ht ha =>
    cases ha with
    | stored _ _ hadv _ => exact ⟨hadv.sound, hadv.capacity⟩
    | evicted _ _ _ hadv _ _ => exact ⟨hadv.sound, hadv.capacity⟩
  | drains ht hlist hsound hclosed hcap hwrite hafter => exact ⟨hsound, hcap⟩
  | closes => exact ⟨hs, rfl⟩
  | pays => exact ⟨hs, rfl⟩
  | looks => exact ⟨hs, rfl⟩

/-- Who can say that the channel is full, or that somebody owes a wake-up, can
say so after the turn, unless all writers were woken. -/
theorem waiting (h : m.Turn i m')
    (hw : (∃ t ∈ m.threads, t.isParked = true) →
      m.lane.IsFull ∨ ∃ t ∈ m.threads, t.isOwing = true) :
    (∃ t ∈ m'.threads, t.isParked = true) →
      m'.lane.IsFull ∨ ∃ t ∈ m'.threads, t.isOwing = true := by
  rintro ⟨x, hx, hparked⟩
  cases h with
  | @stores item policy how out lane ht ha =>
    rcases of_mem_setThread hx with rfl | hx
    · cases hparked
    rcases hw ⟨x, hx, hparked⟩ with ⟨ho, hlen⟩ | howing
    · left
      cases ha with
      | stored _ room _ _ => omega
      | evicted _ _ _ hadv hq hq' =>
        -- The newcomer takes the place of the one that it pushed out.
        refine ⟨hadv.closed, ?_⟩
        show lane.toList.length = lane.capacity
        rw [hadv.capacity, ← hlen, hq, hq']
        simp
    · exact .inr (owing_setThread (m := { m with
        lane, written := m.written.push (i, item), evicted := m.evicted ++ out.toArray })
          ht rfl howing)
  | drains ht hlist _ hclosed hcap _ hafter =>
    rcases hafter with rfl | ⟨rfl, rfl⟩
    · exact .inr ⟨_, mem_setThread_self ht, rfl⟩
    · rcases of_mem_setThread hx with rfl | hx
      · cases hparked
      rcases hw ⟨x, hx, hparked⟩ with ⟨ho, hlen⟩ | howing
      · left
        exact ⟨hclosed.trans ho, (congrArg List.length hlist).symm.trans (hlen.trans hcap.symm)⟩
      · exact .inr (owing_setThread (m := { m with lane := _ }) ht rfl howing)
  | closes ht => exact .inr ⟨_, mem_setThread_self ht, rfl⟩
  | pays ht hp =>
    rcases of_mem_setThread hx with rfl | hx
    · rw [hp] at hparked
      cases hparked
    · obtain ⟨y, -, rfl⟩ := of_mem_wakeAll hx
      rw [LaneThread.isParked_wake] at hparked
      cases hparked
  | looks ht hquiet _ hfull =>
    rcases of_mem_setThread hx with rfl | hx
    · exact .inl (hfull hparked)
    rcases hw ⟨x, hx, hparked⟩ with hfull' | howing
    · exact .inl hfull'
    · exact .inr (owing_setThread ht hquiet howing)

/-- A thread that is there after the turn was there before, and was woken if
anything; or it is the one whose turn it was. -/
theorem old_or_new (h : m.Turn i m') {x : LaneThread α} (hx : x ∈ m'.threads) :
    (∃ y ∈ m.threads, x = y ∨ x = y.wake) ∨
      x.IsFair ∧ (x.isBroken = true → m.lane.ring.write.toNat + 1 = UInt64.size ∧
        m'.written = m.written) := by
  cases h with
  | stores ht ha =>
    rcases of_mem_setThread hx with rfl | hx
    · refine .inr ⟨?_, nofun⟩
      cases ha with
      | stored => exact nofun
      | evicted _ _ hp _ _ _ => exact fun _ => hp
    · exact .inl ⟨x, hx, .inl rfl⟩
  | drains ht =>
    rcases of_mem_setThread hx with rfl | hx
    · exact .inr ⟨trivial, nofun⟩
    · exact .inl ⟨x, hx, .inl rfl⟩
  | closes ht =>
    rcases of_mem_setThread hx with rfl | hx
    · exact .inr ⟨trivial, nofun⟩
    · exact .inl ⟨x, hx, .inl rfl⟩
  | pays ht _ hsound hfair =>
    rcases of_mem_setThread hx with rfl | hx
    · exact .inr ⟨hfair, fun hb => nomatch hsound.symm.trans hb⟩
    · obtain ⟨y, hy, rfl⟩ := of_mem_wakeAll hx
      exact .inl ⟨y, hy, .inr rfl⟩
  | looks ht _ hfair _ hlast =>
    rcases of_mem_setThread hx with rfl | hx
    · exact .inr ⟨hfair, fun hb => ⟨hlast hb, rfl⟩⟩
    · exact .inl ⟨x, hx, .inl rfl⟩

/-- No turn gives a thread a result that its policy does not allow. -/
theorem fair (h : m.Turn i m') (hf : ∀ t ∈ m.threads, t.IsFair) : ∀ t ∈ m'.threads, t.IsFair := by
  intro x hx
  rcases h.old_or_new hx with ⟨y, hy, rfl | rfl⟩ | ⟨hfair, -⟩
  · exact hf x hy
  · exact (hf y hy).wake
  · exact hfair

/-- The history and the results go on telling the same. -/
theorem recorded (h : m.Turn i m') (hr : ∀ j, m.writtenBy j = m.storedBy j) (j : Nat) :
    m'.writtenBy j = m'.storedBy j := by
  cases h with
  | @stores item policy how out lane ht ha =>
    have hwritten := writtenBy_push m i j item
    have hstored := storedBy_setThread ht (.writer item policy (.ended (.ok (.accepted how)))) j
    rw [hr] at hwritten
    refine hwritten.trans (Eq.trans ?_ hstored.symm)
    by_cases hij : i = j
    · rw [if_pos hij, if_pos hij, ← hij, storedBy_eq ht]
      rfl
    · rw [if_neg hij, if_neg hij, List.append_nil]
  | @drains limit old items after _ ht =>
    have hstored := storedBy_setThread_of_eq ht (.drainer limit (.ok items) after) rfl j
    exact (hr j).trans hstored.symm
  | closes ht =>
    have hstored := storedBy_setThread_of_eq ht (.closer .owing) rfl j
    exact (hr j).trans hstored.symm
  | @pays t t' ht _ _ _ hstored _ =>
    have hwake : m.wakeAll.threads[i]? = some t.wake := by rw [getElem?_wakeAll, ht]; rfl
    have hsame : t'.stored = t.wake.stored := by rw [hstored, LaneThread.stored_wake]
    rw [storedBy_setThread_of_eq hwake t' hsame, storedBy_wakeAll]
    exact hr j
  | looks ht _ _ _ _ hstored _ => exact (hr j).trans (storedBy_setThread_of_eq ht _ hstored j).symm

/-- The write cursor counts the writes. -/
theorem cursor (h : m.Turn i m') (hc : m.lane.ring.write.toNat = m.written.size) :
    m'.lane.ring.write.toNat = m'.written.size := by
  cases h with
  | @stores item policy how out lane ht ha =>
    show lane.ring.write.toNat = (m.written.push (i, item)).size
    rw [Array.size_push, ← hc]
    cases ha with
    | stored _ _ hadv _ => exact hadv.write
    | evicted _ _ _ hadv _ _ => exact hadv.write
  | drains ht _ _ _ _ hwrite _ => exact (congrArg UInt64.toNat hwrite).trans hc
  | closes => exact hc
  | pays => exact hc
  | looks => exact hc

/-- What was written stays written. -/
theorem written_le (h : m.Turn i m') : m.written.size ≤ m'.written.size := by
  cases h with
  | @stores item =>
    show m.written.size ≤ (m.written.push (i, item)).size
    rw [Array.size_push]
    exact Nat.le_succ _
  | _ => exact Nat.le_refl _

/-- A thread breaks off only when the sequence numbers are used up, and after
that nobody writes. -/
theorem broken (h : m.Turn i m') (hc : m.lane.ring.write.toNat = m.written.size)
    (hb : (∃ t ∈ m.threads, t.isBroken = true) → m.written.size + 1 = UInt64.size) :
    (∃ t ∈ m'.threads, t.isBroken = true) → m'.written.size + 1 = UInt64.size := by
  rintro ⟨x, hx, hbroken⟩
  have hle := h.written_le
  have hcursor := h.cursor hc
  have hlt := m'.lane.ring.write.toNat_lt_size
  rcases h.old_or_new hx with ⟨y, hy, rfl | rfl⟩ | ⟨-, hnew⟩
  · have hlast := hb ⟨x, hy, hbroken⟩
    omega
  · have hlast := hb ⟨y, hy, (LaneThread.isBroken_wake y).symm.trans hbroken⟩
    omega
  · obtain ⟨hlast, hwritten⟩ := hnew hbroken
    rw [hwritten, ← hc, hlast]

/-- What was written is still in the channel, or was drained or evicted. -/
theorem balanced (h : m.Turn i m') (hb : (m.written.toList.map Prod.snd).Perm
      (m.evicted.toList ++ m.drained ++ m.lane.toList)) :
    (m'.written.toList.map Prod.snd).Perm
      (m'.evicted.toList ++ m'.drained ++ m'.lane.toList) := by
  cases h with
  | @stores item policy how out lane ht ha =>
    have hdrained := drained_setThread_of_eq ht
      (.writer item policy (.ended (.ok (.accepted how)))) rfl
    obtain ⟨rest, hlist, hlist'⟩ : ∃ rest, m.lane.toList = out.toList ++ rest ∧
        lane.toList = rest ++ [item] := by
      cases ha with
      | stored _ _ _ hq => exact ⟨_, rfl, hq⟩
      | evicted _ _ _ _ hq hq' => exact ⟨_, hq, hq'⟩
    show ((m.written.push (i, item)).toList.map Prod.snd).Perm
      ((m.evicted ++ out.toArray).toList ++ (m.setThread i _).drained ++ lane.toList)
    rw [hlist', Array.toList_push, List.map_append, Array.toList_append, Option.toList_toArray]
    classical
    rw [hlist, List.perm_iff_count] at hb
    rw [List.perm_iff_count]
    intro x
    have hx := hb x
    have hdx := hdrained.count_eq x
    simp only [List.count_append, List.map_cons, List.map_nil] at hx ⊢
    omega
  | @drains limit old items after lane ht hlist _ _ _ _ hafter =>
    have htaken : (LaneThread.drainer limit (.ok items) after).drained = items := by
      rcases hafter with rfl | ⟨rfl, rfl⟩ <;> rfl
    have hdrained := drained_setThread ht (.drainer limit (.ok items) after)
    rw [htaken, show (LaneThread.drainer limit old .ready).drained = [] from rfl,
      List.append_nil] at hdrained
    rw [hlist, ← List.append_assoc, List.append_assoc _ _ items] at hb
    exact hb.trans ((hdrained.symm.append_left _).append_right _)
  | closes ht =>
    have hdrained := drained_setThread_of_eq ht (.closer .owing) rfl
    exact hb.trans ((hdrained.symm.append_left _).append_right _)
  | @pays t t' ht _ _ _ _ hdrained =>
    have hwake : m.wakeAll.threads[i]? = some t.wake := by rw [getElem?_wakeAll, ht]; rfl
    have hperm := drained_setThread_of_eq hwake t' (by rw [hdrained, LaneThread.drained_wake])
    rw [drained_wakeAll] at hperm
    exact hb.trans ((hperm.symm.append_left _).append_right _)
  | looks ht _ _ _ _ _ hdrained =>
    exact hb.trans (((drained_setThread_of_eq ht _ hdrained).symm.append_left _).append_right _)

end Turn

/-! ## Every state -/

/-- What is true of every shared channel with room for `capacity` items. -/
structure Valid (capacity : Nat) (m : Monitor α) : Prop where
  sound : m.lane.IsSound
  room : m.lane.capacity = capacity
  waiting : (∃ t ∈ m.threads, t.isParked = true) →
    m.lane.IsFull ∨ ∃ t ∈ m.threads, t.isOwing = true
  fair : ∀ t ∈ m.threads, t.IsFair
  recorded : ∀ i, m.writtenBy i = m.storedBy i
  cursor : m.lane.ring.write.toNat = m.written.size
  broken : (∃ t ∈ m.threads, t.isBroken = true) → m.written.size + 1 = UInt64.size
  balanced : (m.written.toList.map Prod.snd).Perm
    (m.evicted.toList ++ m.drained ++ m.lane.toList)

/-- The whole invariant is kept by a turn, each field by a lemma of its own. -/
theorem Turn.valid {capacity : Nat} (h : m.Turn i m') (hv : m.Valid capacity) :
    m'.Valid capacity where
  sound := (h.lane hv.sound).1
  room := (h.lane hv.sound).2.trans hv.room
  waiting := h.waiting hv.waiting
  fair := h.fair hv.fair
  recorded := h.recorded hv.recorded
  cursor := h.cursor hv.cursor
  broken := h.broken hv.cursor hv.broken
  balanced := h.balanced hv.balanced

/-- A thread that has done nothing yet is no burden. -/
theorem Valid.spawn {capacity : Nat} {t : LaneThread α} (hv : m.Valid capacity) (hnew : t.IsNew) :
    (m.spawn t).Valid capacity where
  sound := hv.sound
  room := hv.room
  waiting := by
    rintro ⟨x, hx, hparked⟩
    rcases Array.mem_push.mp hx with hx | rfl
    · rcases hv.waiting ⟨x, hx, hparked⟩ with hfull | ⟨y, hy, howing⟩
      · exact .inl hfull
      · exact .inr ⟨y, Array.mem_push_of_mem _ hy, howing⟩
    · cases hnew <;> cases hparked
  fair := by
    intro x hx
    rcases Array.mem_push.mp hx with hx | rfl
    · exact hv.fair x hx
    · cases hnew <;> trivial
  recorded := by
    intro i
    refine (hv.recorded i).trans ?_
    have hstored : t.stored = [] := by cases hnew <;> rfl
    rw [storedBy, storedBy, Monitor.spawn, Array.getElem?_push]
    by_cases hi : i = m.threads.size
    · simp [hi, hstored]
    · rw [if_neg hi]
  cursor := hv.cursor
  broken := by
    rintro ⟨x, hx, hbroken⟩
    rcases Array.mem_push.mp hx with hx | rfl
    · exact hv.broken ⟨x, hx, hbroken⟩
    · cases hnew <;> cases hbroken
  balanced := by
    have hdrained : t.drained = [] := by cases hnew <;> rfl
    have hspawn : (m.spawn t).drained = m.drained := by simp [drained, Monitor.spawn, hdrained]
    rw [hspawn]
    exact hv.balanced

theorem Valid.step {capacity : Nat} (hv : m.Valid capacity) (h : Step m m') :
    m'.Valid capacity := by
  cases h with
  | spawn item policy => exact hv.spawn (.write item policy)
  | spawnDrain limit => exact hv.spawn (.drain limit)
  | spawnClose => exact hv.spawn .close
  | step i hs => exact (turn_of_step hv.sound hs).valid hv
  | stir i hs => exact (turn_of_stir hs).valid hv

/-- An empty channel to which nobody has come. -/
theorem valid_start {capacity : Nat} {lane : Lane α} (h : Lane.ofCapacity capacity = .ok lane) :
    Valid capacity ({ lane } : Monitor α) where
  sound := (Lane.isSound_ofCapacity h).1
  room := (Lane.holds_ofCapacity h).2.2
  waiting := by simp
  fair := by simp
  recorded := by simp [writtenBy, storedBy]
  cursor := by
    obtain ⟨hn, rfl⟩ := Lane.exists_of_ofCapacity h
    rfl
  broken := by simp
  balanced := by simp [drained, (Lane.isSound_ofCapacity h).2]

/-- The invariant holds in every state. -/
theorem Reachable.valid {capacity : Nat} (h : Reachable capacity m) : m.Valid capacity := by
  induction h with
  | start hl => exact valid_start hl
  | step _ hs ih => exact ih.step hs

/-! ## Runs by their events -/

/-- Something that can happen to a shared channel. -/
inductive Event (α : Type u) where
  | write (policy : WhenFull) (item : α)
  | drain (limit : Nat)
  | close
  /-- Thread `i` makes a step. -/
  | go (i : Nat)
  | stir (i : Nat)

/-- The channel and its threads after an event; one that cannot happen is left
out. -/
def next (m : Monitor α) : Event α → Monitor α
  | .write policy item => m.spawn (.write item policy)
  | .drain limit => m.spawn (.drain limit)
  | .close => m.spawn .close
  | .go i => (m.step i).getD m
  | .stir i => (m.stir i).getD m

theorem Reachable.next {capacity : Nat} (h : Reachable capacity m) (e : Event α) :
    Reachable capacity (m.next e) := by
  cases e with
  | write policy item => exact h.step (.spawn m item policy)
  | drain limit => exact h.step (.spawnDrain m limit)
  | close => exact h.step (.spawnClose m)
  | go i =>
    cases hs : m.step i with
    | none => rwa [Monitor.next, hs]
    | some m' => rw [Monitor.next, hs]; exact h.step (.step i hs)
  | stir i =>
    cases hs : m.stir i with
    | none => rwa [Monitor.next, hs]
    | some m' => rw [Monitor.next, hs]; exact h.step (.stir i hs)

/-- Every list of events makes a run. -/
theorem Reachable.foldl {capacity : Nat} (h : Reachable capacity m) (events : List (Event α)) :
    Reachable capacity (events.foldl Monitor.next m) := by
  induction events generalizing m with
  | nil => exact h
  | cons e events ih => exact ih (h.next e)

/-! ## No lost wake-up -/

/-- **No lost wake-up.** While a writer is parked, the channel is open and full,
or somebody has the writers still to wake; so when nobody has, no writer waits on
a channel that has room or is closed. A write that waits for room stores its own
item, once, or has it handed back by a closed channel. It does not break off
before the sequence numbers are used up. What was written was evicted, was
drained, or is in the channel. -/
theorem Reachable.no_lost_wakeup {capacity : Nat} (h : Reachable capacity m) :
    ((∃ t ∈ m.threads, t.isParked = true) →
      (m.lane.closed = false ∧ m.lane.toList.length = capacity) ∨
        ∃ t ∈ m.threads, t.isOwing = true) ∧
    ((∀ t ∈ m.threads, t.isOwing = false) → ∀ t ∈ m.threads, t.isParked = true →
      m.lane.closed = false ∧ m.lane.hasRoom = false) ∧
    (∀ i item result, m.threads[i]? = some (.writer item .wait (.ended (.ok result))) →
      (result = .accepted .stored ∧ m.writtenBy i = [item]) ∨
        (result = .refused .closed item ∧ m.writtenBy i = [])) ∧
    (∀ i item policy fault, m.threads[i]? = some (.writer item policy (.ended (.error fault))) →
      m.writtenBy i = [] ∧ m.written.size + 1 = UInt64.size) ∧
    (m.written.toList.map Prod.snd).Perm (m.evicted.toList ++ m.drained ++ m.lane.toList) := by
  have hv := h.valid
  refine ⟨?_, ?_, ?_, ?_, hv.balanced⟩
  · intro hparked
    rcases hv.waiting hparked with ⟨ho, hlen⟩ | howing
    · exact .inl ⟨ho, hlen.trans hv.room⟩
    · exact .inr howing
  · intro hquiet t ht hparked
    rcases hv.waiting ⟨t, ht, hparked⟩ with ⟨ho, hlen⟩ | ⟨x, hx, howing⟩
    · exact ⟨ho, hv.sound.hasRoom_of_full (Nat.le_of_eq hlen.symm)⟩
    · rw [hquiet x hx] at howing
      cases howing
  · intro i item result ht
    have hfair := hv.fair _ (Array.mem_of_getElem? ht)
    have hwritten := (hv.recorded i).trans (storedBy_eq ht)
    cases result with
    | accepted how =>
      cases how with
      | stored => exact .inl ⟨rfl, hwritten⟩
      | evicted => exact nomatch hfair rfl
    | refused why back =>
      obtain ⟨rfl, rfl | ⟨-, hp⟩⟩ := hfair
      · exact .inr ⟨rfl, hwritten⟩
      · cases hp
  · intro i item policy fault ht
    exact ⟨(hv.recorded i).trans (storedBy_eq ht), hv.broken ⟨_, Array.mem_of_getElem? ht, rfl⟩⟩

/-- Two writers park before a channel of one slot. A drain makes room and wakes
them; one of them is faster, and the other parks again. -/
def overtaken : Monitor Nat :=
  [.write .wait 1, .go 0, .write .wait 2, .go 1, .write .wait 3, .go 2, .drain 5, .go 3, .go 3,
    .go 2, .go 1].foldl Monitor.next { lane := { ring := .empty 1 Nat.one_pos } }

theorem reachable_overtaken : Reachable 1 overtaken :=
  (Reachable.start (Lane.ofCapacity_of_pos Nat.one_pos)).foldl _

/-- The writer that was overtaken is parked before a full channel, and nobody
owes it anything; the first item was drained, and the one that was faster has
stored its own. -/
theorem no_lost_wakeup_overtaken :
    Reachable 1 overtaken ∧
    overtaken.threads.toList.map LaneThread.stored = [[1], [], [3], []] ∧
    overtaken.drained = [1] ∧ overtaken.lane.toList = [3] ∧
    (∃ t ∈ overtaken.threads, t.isParked = true) ∧
    (∀ t ∈ overtaken.threads, t.isOwing = false) ∧
    (overtaken.lane.closed = false ∧ overtaken.lane.hasRoom = false) ∧
    (overtaken.written.toList.map Prod.snd).Perm
      (overtaken.evicted.toList ++ overtaken.drained ++ overtaken.lane.toList) := by
  have hreach := reachable_overtaken
  have hparked : ∃ t ∈ overtaken.threads, t.isParked = true := by decide +kernel
  have hquiet : ∀ t ∈ overtaken.threads, t.isOwing = false := by decide +kernel
  obtain ⟨-, hfull, -, -, hbalanced⟩ := Reachable.no_lost_wakeup hreach
  obtain ⟨t, hmem, ht⟩ := hparked
  exact ⟨hreach, by decide +kernel, by decide +kernel, by decide +kernel, ⟨t, hmem, ht⟩, hquiet,
    hfull hquiet t hmem ht, hbalanced⟩

end Monitor

end Conveyor
