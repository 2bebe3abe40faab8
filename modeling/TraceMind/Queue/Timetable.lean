import TraceMind.Queue.Durable
import TraceMind.Queue.Exclusive

namespace TraceMind.Queue

abbrev Timetable := ℤ → Option (ℚ × Option Str)

structure Scheduled (h : ReadyHeap) (v : Timetable) : Prop where
  nodup : h.items.Nodup
  waiting : ∀ i : ReadyItem, i ∈ h.items ↔ v i.offset = some (i.availableAt, none)

structure Serves (now : ℚ) (v : Timetable) (keys : List ReadyItem) (v' : Timetable) : Prop where
  due : ∀ i ∈ keys, v i.offset = some (i.availableAt, none) ∧ i.availableAt ≤ now
  ordered : keys.Pairwise (· < ·)
  first : ∀ i ∈ keys, ∀ j : ReadyItem, v' j.offset = some (j.availableAt, none) → i < j
  waiting : ∀ o a, v' o = some (a, none) → v o = some (a, none)

section scheduled

variable {h rest : ReadyHeap} {v v' : Timetable} {o : ℤ} {item : ReadyItem} {now : ℚ}
  {l : Option (ℚ × Option Str)} {keys : List ReadyItem}

theorem item_ext {i j : ReadyItem} (ho : i.offset = j.offset)
    (ha : i.availableAt = j.availableAt) : i = j := Prod.ext ha ho

theorem Scheduled.not_mem_offsets (hs : Scheduled h v) (ho : ∀ a, v o ≠ some (a, none)) :
    o ∉ h.offsets := by
  intro hm
  obtain ⟨i, hi, rfl⟩ := List.mem_map.mp hm
  exact ho i.availableAt ((hs.waiting i).mp hi)

theorem Scheduled.push (hs : Scheduled h v) (ho : ∀ a, v o ≠ some (a, none)) (a : ℚ) :
    Scheduled (h.push (readyItem a o)) (Function.update v o (some (a, none))) := by
  have hnot : readyItem a o ∉ h.items := fun hm => ho a ((hs.waiting _).mp hm)
  have hp := h.push_perm (readyItem a o)
  refine ⟨hp.nodup_iff.mpr (List.nodup_cons.mpr ⟨hnot, hs.nodup⟩), fun i => ?_⟩
  rw [hp.mem_iff, List.mem_cons, hs.waiting, Function.update_apply]
  split_ifs with hi
  · rw [hi]
    constructor
    · rintro (rfl | hw)
      · rfl
      · exact absurd hw (ho _)
    · intro ha
      simp only [Option.some.injEq, Prod.mk.injEq, and_true] at ha
      exact Or.inl (item_ext hi ha.symm)
  · refine ⟨fun hw => hw.resolve_left ?_, Or.inr⟩
    rintro rfl
    exact hi rfl

theorem Scheduled.update (hs : Scheduled h v) (ho : ∀ a, v o ≠ some (a, none))
    (hl : ∀ a, l ≠ some (a, none)) : Scheduled h (Function.update v o l) := by
  refine ⟨hs.nodup, fun i => ?_⟩
  rw [hs.waiting, Function.update_apply]
  split_ifs with hi
  · rw [hi]
    simp [ho, hl]
  · rfl

theorem Scheduled.pop_waits (hs : Scheduled h v) (hp : h.pop? = some (item, rest)) :
    v item.offset = some (item.availableAt, none) := by
  apply (hs.waiting item).mp
  rw [PriorityQueue.pop?_eq_some hp]
  exact List.mem_cons_self

theorem Scheduled.pop (hs : Scheduled h v) (hp : h.pop? = some (item, rest))
    (hl : ∀ a, l ≠ some (a, none)) : Scheduled rest (Function.update v item.offset l) := by
  have hn := hs.nodup
  rw [PriorityQueue.pop?_eq_some hp] at hn
  obtain ⟨hnot, hrest⟩ := List.nodup_cons.mp hn
  refine ⟨hrest, fun i => ?_⟩
  have hm := hs.waiting i
  rw [PriorityQueue.pop?_eq_some hp, List.mem_cons] at hm
  rw [Function.update_apply]
  split_ifs with hi
  · refine iff_of_false (fun hr => hnot ?_) (hl _)
    have hw := hm.mp (Or.inr hr)
    rw [hi, hs.pop_waits hp, Option.some.injEq, Prod.mk.injEq] at hw
    rwa [item_ext hi.symm hw.1]
  · rw [← hm]
    refine ⟨Or.inr, fun hr => hr.resolve_left ?_⟩
    rintro rfl
    exact hi rfl

theorem Scheduled.pop_first (hs : Scheduled h v) (hp : h.pop? = some (item, rest))
    {i : ReadyItem} (hi : i ∈ rest.items) : item < i := by
  have hn := hs.nodup
  have hsorted := h.sorted
  rw [PriorityQueue.pop?_eq_some hp] at hn hsorted
  apply lt_of_le_of_ne ((List.pairwise_cons.mp hsorted).1 i hi)
  rintro rfl
  exact (List.nodup_cons.mp hn).1 hi

theorem Serves.nil (now : ℚ) (v : Timetable) : Serves now v [] v :=
  ⟨fun i hi => (by cases hi), List.Pairwise.nil, fun i hi => (by cases hi), fun _ _ hw => hw⟩

theorem Serves.cons (hs : Scheduled h v) (hp : h.pop? = some (item, rest))
    (hl : ∀ a, l ≠ some (a, none)) (hnow : item.availableAt ≤ now)
    (hv : Serves now (Function.update v item.offset l) keys v') :
    Serves now v (item :: keys) v' := by
  have hkept : ∀ o a, Function.update v item.offset l o = some (a, none) →
      v o = some (a, none) := by
    intro o a hw
    rw [Function.update_apply] at hw
    split_ifs at hw
    · exact absurd hw (hl a)
    · exact hw
  have hafter : ∀ i : ReadyItem, Function.update v item.offset l i.offset =
      some (i.availableAt, none) → item < i :=
    fun i hw => hs.pop_first hp (((hs.pop hp hl).waiting i).mpr hw)
  refine ⟨fun i hi => ?_, List.pairwise_cons.mpr ⟨fun i hi => ?_, hv.ordered⟩, fun i hi j hw => ?_,
    fun o a hw => hkept o a (hv.waiting o a hw)⟩
  · rcases List.mem_cons.mp hi with rfl | hi
    · exact ⟨hs.pop_waits hp, hnow⟩
    · exact ⟨hkept _ _ (hv.due i hi).1, (hv.due i hi).2⟩
  · exact hafter i (hv.due i hi).1
  · rcases List.mem_cons.mp hi with rfl | hi
    · exact hafter j (hv.waiting _ _ hw)
    · exact hv.first i hi j hw

end scheduled

namespace WorkQueue

variable {σ : Type}

def OnTime (w : WorkQueue σ) (view : σ → Timetable) (now : ℚ) (count ms : ℤ) (s : σ) : Prop :=
  ∃ keys : List ReadyItem,
    (w.lease now count ms s).1.map LeasedTask.offset = keys.map ReadyItem.offset ∧
    (∀ i ∈ keys, (view s i.offset).map Prod.fst = some i.availableAt ∧ i.availableAt ≤ now) ∧
    keys.Pairwise (· < ·) ∧
    ∀ i ∈ keys, ∀ j : ReadyItem,
      view (w.lease now count ms s).2 j.offset = some (j.availableAt, none) → i < j

def Punctual (w : WorkQueue σ) (view : σ → Timetable) (s : σ) (calls : List (Clock × Call)) :
    Prop :=
  ∀ pre clock count ms post, calls = pre ++ (clock, .lease count ms) :: post →
    w.OnTime view clock.monotonic count ms (w.after pre s)

def Unqueued (view : σ → Timetable) (c : Clock × Call) (s : σ) : Prop :=
  ∀ o t a, c.2 = .reschedule o t → view s o ≠ some (a, none)

structure Timekeeping (w : WorkQueue σ) (view : σ → Timetable) (Good : σ → Prop) : Prop where
  call : ∀ {s c}, Good s → Unqueued view c s → Good (w.call c.1 c.2 s).2
  lease : ∀ {s} (now count ms), Good s → w.OnTime view now count ms s

variable {w : WorkQueue σ} {view : σ → Timetable} {Good : σ → Prop} {s : σ}
  {calls : List (Clock × Call)}

theorem Timekeeping.after (hw : w.Timekeeping view Good) (hs : Good s)
    (hc : w.AllAllowed (Unqueued view) s calls) : Good (w.after calls s) := by
  induction calls generalizing s with
  | nil => exact hs
  | cons c calls ih => exact ih (hw.call hs hc.cons.1) hc.cons.2

theorem Timekeeping.punctual (hw : w.Timekeeping view Good) (hs : Good s)
    (hc : w.AllAllowed (Unqueued view) s calls) : w.Punctual view s calls := by
  rintro pre clock count ms post rfl
  exact hw.lease _ _ _ (hw.after hs hc.append.1)

theorem onTime_none {now : ℚ} {count ms : ℤ} (h : (w.lease now count ms s).1 = []) :
    w.OnTime view now count ms s :=
  ⟨[], by rw [h]; rfl, fun i hi => (by cases hi), List.Pairwise.nil, fun i hi => (by cases hi)⟩

theorem onTime_of_serves {now : ℚ} {count ms : ℤ} {keys : List ReadyItem} {v : Timetable}
    (ho : (w.lease now count ms s).1.map LeasedTask.offset = keys.map ReadyItem.offset)
    (hdates : ∀ o, (v o).map Prod.fst = (view s o).map Prod.fst)
    (hv : Serves now v keys (view (w.lease now count ms s).2)) :
    w.OnTime view now count ms s := by
  refine ⟨keys, ho, fun i hi => ⟨?_, (hv.due i hi).2⟩, hv.ordered, hv.first⟩
  rw [← hdates, (hv.due i hi).1]
  rfl

theorem OnTime.due {now : ℚ} {count ms : ℤ} (h : w.OnTime view now count ms s) {o : ℤ}
    (ho : o ∈ (w.lease now count ms s).1.map LeasedTask.offset) :
    ∃ a, (view s o).map Prod.fst = some a ∧ a ≤ now := by
  obtain ⟨keys, hkeys, hdue, -⟩ := h
  rw [hkeys] at ho
  obtain ⟨i, hi, rfl⟩ := List.mem_map.mp ho
  exact ⟨i.availableAt, hdue i hi⟩

theorem unqueued_of_other {c : Clock × Call} (h : ∀ o t, c.2 ≠ .reschedule o t) :
    Unqueued view c s := fun o t _ hc => absurd hc (h o t)

end WorkQueue

namespace InMemoryWorkQueue

def timetable (q : InMemoryWorkQueue) : Timetable :=
  fun o => (q.entries.get? o).map (fun e => (e.availableAt, e.token))

structure Timed (q : InMemoryWorkQueue) : Prop where
  inv : Inv q
  scheduled : Scheduled q.ready q.timetable

variable {q : InMemoryWorkQueue} {o : ℤ} {e : InMemoryEntry}

theorem timetable_setEntry (q : InMemoryWorkQueue) (o : ℤ) (e : InMemoryEntry) :
    (q.setEntry o e).timetable =
      Function.update q.timetable o (some (e.availableAt, e.token)) := by
  funext o'
  simp only [timetable, setEntry, SortedMap.get?_insert, Function.update_apply]
  split_ifs <;> rfl

theorem timetable_of_get? (h : q.entries.get? o = some e) :
    q.timetable o = some (e.availableAt, e.token) := by
  simp [timetable, h]

theorem scheduled_free (hs : Scheduled q.ready q.timetable)
    (ho : ∀ a, q.timetable o ≠ some (a, none)) (he : e.token = none) :
    Scheduled ((q.setEntry o e).push o e.availableAt).ready
      ((q.setEntry o e).push o e.availableAt).timetable := by
  have ht : ((q.setEntry o e).push o e.availableAt).timetable =
      Function.update q.timetable o (some (e.availableAt, none)) := by
    rw [← he]
    exact timetable_setEntry q o e
  rw [ht]
  exact hs.push ho e.availableAt

theorem not_waiting (he : q.entries.get? o = some e) (hk : e.token ≠ none) (a : ℚ) :
    q.timetable o ≠ some (a, none) := by
  rw [timetable_of_get? he]
  simp [hk]

theorem Timed.erase (h : Timed q) (he : q.entries.get? o = some e) (hk : e.token ≠ none) :
    Timed { q with entries := q.entries.erase o } := by
  have ht : timetable { q with entries := q.entries.erase o } =
      Function.update q.timetable o none := by
    funext o'
    simp only [timetable, SortedMap.get?_erase, Function.update_apply]
    split_ifs <;> rfl
  refine ⟨(h.inv.erase he hk).1, ?_⟩
  rw [ht]
  exact h.scheduled.update (not_waiting he hk) (by simp)

theorem Timed.releaseOne (now : ℚ) (h : Timed q) (o : ℤ) :
    Timed (releaseOne now q o) ∧
      ∀ o', ((releaseOne now q o).timetable o').map Prod.fst =
        (q.timetable o').map Prod.fst := by
  have hinv := (releaseOne_spec now h.inv o).1
  revert hinv
  unfold InMemoryWorkQueue.releaseOne
  rcases he : q.entries.get? o with _ | e
  · exact fun _ => ⟨h, fun _ => rfl⟩
  · simp only
    split_ifs with hk hd
    · exact fun _ => ⟨h, fun _ => rfl⟩
    · rw [not_or] at hk
      intro hinv
      refine ⟨⟨hinv, scheduled_free (e := { e with token := none, leaseDeadline := 0 })
        h.scheduled (not_waiting he hk.2) rfl⟩, fun o' => ?_⟩
      change ((q.setEntry o _).timetable o').map Prod.fst = _
      rw [timetable_setEntry, Function.update_apply]
      split_ifs with ho
      · rw [ho, timetable_of_get? he]
        rfl
      · rfl
    · exact fun _ => ⟨h, fun _ => rfl⟩

theorem Timed.releaseExpired (now : ℚ) (h : Timed q) :
    Timed (q.releaseExpired now) ∧
      ∀ o, ((q.releaseExpired now).timetable o).map Prod.fst = (q.timetable o).map Prod.fst := by
  unfold InMemoryWorkQueue.releaseExpired
  generalize q.entries.keys = keys
  induction keys generalizing q with
  | nil => exact ⟨h, fun _ => rfl⟩
  | cons o keys ih =>
    obtain ⟨h1, hd1⟩ := h.releaseOne now o
    obtain ⟨h2, hd2⟩ := ih h1
    exact ⟨h2, fun o' => (hd2 o').trans (hd1 o')⟩

theorem Timed.leaseLoop (now d : ℚ) (count fuel : ℕ) (leased : List LeasedTask) (h : Timed q) :
    ∃ keys : List ReadyItem,
      (leaseLoop now d count fuel leased q).1.map LeasedTask.offset =
        leased.map LeasedTask.offset ++ keys.map ReadyItem.offset ∧
      Serves now q.timetable keys (leaseLoop now d count fuel leased q).2.timetable ∧
      Timed (leaseLoop now d count fuel leased q).2 := by
  induction fuel generalizing q leased with
  | zero => exact ⟨[], by simp [InMemoryWorkQueue.leaseLoop], Serves.nil _ _, h⟩
  | succ fuel ih =>
    simp only [InMemoryWorkQueue.leaseLoop]
    split_ifs with hcount
    · rcases hp : q.ready.pop? with _ | ⟨item, rest⟩
      · exact ⟨[], by simp, Serves.nil _ _, h⟩
      · simp only
        split_ifs with hnow
        · rw [PriorityQueue.push_pop? hp]
          exact ⟨[], by simp, Serves.nil _ _, h⟩
        · have hfree := h.scheduled.pop_waits hp
          rcases he : q.entries.get? item.offset with _ | e
          · simp [timetable, he] at hfree
          · simp only [h.inv.notAcked _ e he, Bool.false_eq_true, if_false]
            have hl : ∀ a, (some (e.availableAt, some (leaseToken (q.leaseSeq + 1)))) ≠
                some (a, (none : Option Str)) := by simp
            have ht : (grant item.offset e d { q with ready := rest }).2.timetable =
                Function.update q.timetable item.offset
                  (some (e.availableAt, some (leaseToken (q.leaseSeq + 1)))) :=
              timetable_setEntry _ _ _
            have h' : Timed (grant item.offset e d { q with ready := rest }).2 := by
              refine ⟨(grant_spec h.inv hp he d).1, ?_⟩
              rw [ht]
              exact h.scheduled.pop hp hl
            obtain ⟨keys, ho, hv, h2⟩ := ih
              (leased ++ [(grant item.offset e d { q with ready := rest }).1]) h'
            rw [ht] at hv
            refine ⟨item :: keys, ?_, .cons h.scheduled hp hl (not_lt.mp hnow) hv, h2⟩
            rw [ho]
            simp [grant]
    · exact ⟨[], by simp, Serves.nil _ _, h⟩

theorem Timed.put (float : PyFloat) (clock : Clock) (task : Task) (h : Timed q) :
    Scheduled (q.put float clock task).2.ready (q.put float clock task).2.timetable := by
  have ho : ∀ a, q.timetable q.nextOffset ≠ some (a, none) := by
    intro a hw
    rcases he : q.entries.get? q.nextOffset with _ | e
    · simp [timetable, he] at hw
    · exact lt_irrefl _ (h.inv.below _ e he)
  exact scheduled_free (q := { q with nextOffset := q.nextOffset + 1 })
    (e := { task, availableAt := extractAvailableAt float task clock }) h.scheduled ho rfl

theorem Timed.ack (h : Timed q) (o : ℤ) (k : Str) : Timed (q.ack o k) := by
  unfold InMemoryWorkQueue.ack
  rcases he : q.entries.get? o with _ | e
  · exact h
  · simp only
    split_ifs with ha hk
    · exact h
    · exact h
    · rw [not_not] at hk
      exact h.erase he (by simp [hk])

theorem Timed.nack (now : ℚ) (h : Timed q) (o : ℤ) (k : Str) (requeue : Bool) :
    Timed (q.nack now o k requeue) := by
  have hinv := (nack_spec now h.inv o k requeue).1
  revert hinv
  unfold InMemoryWorkQueue.nack
  rcases he : q.entries.get? o with _ | e
  · exact fun _ => h
  · simp only
    split_ifs with ha hk hreq
    · exact fun _ => h
    · exact fun _ => h
    · rw [not_not] at hk
      intro hinv
      refine ⟨hinv, scheduled_free ?_ (not_waiting he ?_) rfl⟩
      · exact h.scheduled
      · simp [hk]
    · rw [not_not] at hk
      exact fun _ => h.erase he (by simp [hk])

theorem Timed.reschedule (h : Timed q) {t : ℚ} (ho : ∀ a, q.timetable o ≠ some (a, none)) :
    Timed (q.reschedule o t) := by
  rcases he : q.entries.get? o with _ | e
  · have hr : q.reschedule o t = q := by simp [InMemoryWorkQueue.reschedule, he]
    rwa [hr]
  · have hk : e.token ≠ none := by
      intro hk
      apply ho e.availableAt
      rw [timetable_of_get? he, hk]
    have hr : q.reschedule o t = q.setEntry o { e with availableAt := t } := by
      simp [InMemoryWorkQueue.reschedule, he, h.inv.notAcked o e he, hk]
    have hinv := (reschedule_spec h.inv (o := o) (t := t) (fun e' he' => ?_)).1
    · refine ⟨hinv, ?_⟩
      rw [hr, timetable_setEntry]
      exact h.scheduled.update (not_waiting he hk) (by simp [hk])
    · rw [he] at he'
      cases he'
      exact hk

theorem timekeeping (float : PyFloat) :
    (workQueue float).Timekeeping timetable Timed where
  call {q c} h hc := by
    obtain ⟨clock, call⟩ := c
    cases call with
    | put task =>
      have ha : Abstracts q (abstractState q h.inv) := ⟨h.inv, rfl, rfl⟩
      obtain ⟨a', -, ha'⟩ := put_step float clock task ha
      exact ⟨ha'.inv, h.put float clock task⟩
    | lease count ms =>
      change Timed (q.lease clock.monotonic count ms).2
      unfold InMemoryWorkQueue.lease
      split_ifs
      · exact h
      · obtain ⟨keys, -, -, h'⟩ := (h.releaseExpired clock.monotonic).1.leaseLoop clock.monotonic
          (clock.monotonic + leaseDelta ms) count.toNat
          (q.releaseExpired clock.monotonic).ready.size []
        exact h'
    | ack o k => exact h.ack o k
    | nack o k requeue => exact h.nack clock.monotonic o k requeue
    | reschedule o t => exact h.reschedule (fun a => hc o t a rfl)
  lease {q} now count ms h := by
    by_cases hcount : count ≤ 0
    · exact WorkQueue.onTime_none (by simp [workQueue, InMemoryWorkQueue.lease, hcount])
    · obtain ⟨h1, hd⟩ := h.releaseExpired now
      obtain ⟨keys, ho, hv, -⟩ := h1.leaseLoop now (now + leaseDelta ms) count.toNat
        (q.releaseExpired now).ready.size []
      have hr : (workQueue float).lease now count ms q = InMemoryWorkQueue.leaseLoop now
          (now + leaseDelta ms) count.toNat (q.releaseExpired now).ready.size []
          (q.releaseExpired now) := by
        simp [workQueue, InMemoryWorkQueue.lease, hcount]
      rw [← hr] at ho hv
      exact WorkQueue.onTime_of_serves ho hd hv

end InMemoryWorkQueue

namespace FileWorkQueue

def timetable (q : FileWorkQueue) : Timetable :=
  fun o => (q.entries.get? o).map (fun e => (e.availableAt, e.token))

def Timed (q : FileWorkQueue) : Prop := Scheduled q.readyHeap q.timetable

variable {q : FileWorkQueue} {o : ℤ} {e : FileEntry}

theorem timetable_congr {q' : FileWorkQueue} (he : q'.entries = q.entries) :
    q'.timetable = q.timetable := by
  funext o
  rw [timetable, timetable, he]

theorem Timed.congr (h : Timed q) (q' : FileWorkQueue) (he : q'.entries = q.entries)
    (hh : q'.readyHeap = q.readyHeap) : Timed q' := by
  rw [Timed, hh, timetable_congr he]
  exact h

theorem timetable_setEntry (q : FileWorkQueue) (o : ℤ) (e : FileEntry) :
    (q.setEntry o e).timetable =
      Function.update q.timetable o (some (e.availableAt, e.token)) := by
  funext o'
  simp only [timetable, setEntry, SortedMap.get?_insert, Function.update_apply]
  split_ifs <;> rfl

theorem timetable_of_get? (h : q.entries.get? o = some e) :
    q.timetable o = some (e.availableAt, e.token) := by
  simp [timetable, h]

theorem not_waiting (he : q.entries.get? o = some e) (hk : e.token ≠ none) (a : ℚ) :
    q.timetable o ≠ some (a, none) := by
  rw [timetable_of_get? he]
  simp [hk]

theorem Timed.free (h : Timed q)
    (hset : ∀ o, q.readySet.contains o = true ↔ o ∈ q.readyHeap.offsets)
    (ho : ∀ a, q.timetable o ≠ some (a, none)) (he : e.token = none) :
    Timed ((q.setEntry o e).pushReady o e.availableAt) := by
  have hnot : q.readySet.contains o ≠ true :=
    fun hc => Scheduled.not_mem_offsets h ho ((hset o).mp hc)
  have hheap : ((q.setEntry o e).pushReady o e.availableAt).readyHeap =
      q.readyHeap.push (readyItem e.availableAt o) := by
    simp [pushReady, setEntry, hnot]
  have ht : ((q.setEntry o e).pushReady o e.availableAt).timetable =
      Function.update q.timetable o (some (e.availableAt, none)) := by
    rw [timetable_congr (pushReady_entries _ _ _), timetable_setEntry, he]
  rw [Timed, hheap, ht]
  exact Scheduled.push h ho e.availableAt

theorem Timed.erase (h : Timed q) (he : q.entries.get? o = some e) (hk : e.token ≠ none) :
    Timed { q with entries := q.entries.erase o } := by
  have ht : timetable { q with entries := q.entries.erase o } =
      Function.update q.timetable o none := by
    funext o'
    simp only [timetable, SortedMap.get?_erase, Function.update_apply]
    split_ifs <;> rfl
  rw [Timed, ht]
  exact Scheduled.update h (not_waiting he hk) (by simp)

theorem Timed.releaseOne (now : ℚ) (h : Timed q) (hl : Leases q) (o : ℤ) :
    Timed (releaseOne now q o) ∧
      ∀ o', ((releaseOne now q o).timetable o').map Prod.fst =
        (q.timetable o').map Prod.fst := by
  unfold FileWorkQueue.releaseOne
  rcases he : q.entries.get? o with _ | e
  · exact ⟨h, fun _ => rfl⟩
  · simp only
    split_ifs with hk hd
    · exact ⟨h, fun _ => rfl⟩
    · rw [not_or] at hk
      refine ⟨h.free (e := { e with token := none, leaseDeadline := 0 }) hl.readySet
        (not_waiting he hk.1) rfl, fun o' => ?_⟩
      rw [timetable_congr (pushReady_entries _ _ _), timetable_setEntry, Function.update_apply]
      split_ifs with ho
      · rw [ho, timetable_of_get? he]
        rfl
      · rfl
    · exact ⟨h, fun _ => rfl⟩

theorem Timed.releaseExpired (now : ℚ) (h : Timed q) (hl : Leases q) :
    Timed (q.releaseExpired now) ∧
      ∀ o, ((q.releaseExpired now).timetable o).map Prod.fst = (q.timetable o).map Prod.fst := by
  unfold FileWorkQueue.releaseExpired
  generalize q.entries.keys = keys
  induction keys generalizing q with
  | nil => exact ⟨h, fun _ => rfl⟩
  | cons o keys ih =>
    obtain ⟨h1, hd1⟩ := h.releaseOne now hl o
    obtain ⟨h2, hd2⟩ := ih h1 (releaseOne_spec now hl o).1.1
    exact ⟨h2, fun o' => (hd2 o').trans (hd1 o')⟩

theorem Timed.leaseLoop (now d : ℚ) (count fuel : ℕ) (leased : List LeasedTask) (h : Timed q)
    (hl : Leases q) :
    ∃ keys : List ReadyItem,
      (leaseLoop now d count fuel leased q).1.map LeasedTask.offset =
        leased.map LeasedTask.offset ++ keys.map ReadyItem.offset ∧
      Serves now q.timetable keys (leaseLoop now d count fuel leased q).2.timetable ∧
      Timed (leaseLoop now d count fuel leased q).2 := by
  induction fuel generalizing q leased with
  | zero => exact ⟨[], by simp [FileWorkQueue.leaseLoop], Serves.nil _ _, h⟩
  | succ fuel ih =>
    simp only [FileWorkQueue.leaseLoop]
    split_ifs with hcount
    · rcases popReady_spec now hl with hpop | ⟨item, rest, e, hp, hnow, he, -, hpop⟩
      · rw [hpop]
        exact ⟨[], by simp, Serves.nil _ _, h⟩
      · rw [hpop]
        have he' : (q.take item rest).entries.get? item.offset = some e := he
        simp only [he']
        have hheld : ∀ a, (some (e.availableAt, some (leaseToken (q.leaseSeq + 1)))) ≠
            some (a, (none : Option Str)) := by simp
        have ht : (grant item.offset e d (q.take item rest)).2.timetable =
            Function.update q.timetable item.offset
              (some (e.availableAt, some (leaseToken (q.leaseSeq + 1)))) :=
          timetable_setEntry _ _ _
        have h' : Timed (grant item.offset e d (q.take item rest)).2 := by
          rw [Timed, ht]
          exact Scheduled.pop h hp hheld
        obtain ⟨keys, ho, hv, h2⟩ := ih
          (leased ++ [(grant item.offset e d (q.take item rest)).1]) h' (grant_spec hl hp he d).1.1
        rw [ht] at hv
        refine ⟨item :: keys, ?_, .cons h hp hheld hnow hv, h2⟩
        rw [ho]
        simp [grant]
    · exact ⟨[], by simp, Serves.nil _ _, h⟩

theorem Timed.reschedule (h : Timed q) {t : ℚ} (ho : ∀ a, q.timetable o ≠ some (a, none)) :
    Timed (q.reschedule o t) := by
  rcases he : q.entries.get? o with _ | e
  · have hr : q.reschedule o t = q := by simp [FileWorkQueue.reschedule, he]
    rwa [hr]
  · have hk : e.token ≠ none := by
      intro hk
      apply ho e.availableAt
      rw [timetable_of_get? he, hk]
    have hr : q.reschedule o t = q.setEntry o { e with availableAt := t } := by
      simp [FileWorkQueue.reschedule, he, hk]
    rw [hr, Timed, timetable_setEntry]
    exact Scheduled.update h (not_waiting he hk) (by simp [hk])

end FileWorkQueue

namespace Opened

structure Timed (n : Opened) : Prop where
  consistent : n.Consistent
  scheduled : n.queue.Timed

def timetable (n : Opened) : Timetable := n.queue.timetable

variable {n : Opened} {o : ℤ} {e : FileEntry}

theorem rotateSegment_timed (h : n.queue.Timed) : n.rotateSegment.queue.Timed :=
  h.congr _ rfl rfl

theorem written_timed (float : PyFloat) (clock : Clock) (doc : Document) {s : FileSegment}
    (h : n.Timed) : (n.written float clock doc s).queue.Timed := by
  obtain ⟨he, hh, hset, -⟩ := placed_frame n s (recordText n.disk.offset doc clock.stamp)
  have hfresh : n.queue.entries.get? (n.disk.offset : ℤ) = none := by
    have ht := h.consistent.stored.offset_fresh
    rw [FileWorkQueue.tasks_get?, Option.map_eq_none_iff] at ht
    exact ht
  let q := (n.placed s (recordText n.disk.offset doc clock.stamp)).queue.setSegment
    ((n.placedSegment s (recordText n.disk.offset doc clock.stamp)).addRecord n.disk.offset
      (recordText n.disk.offset doc clock.stamp).length)
  have hq : q.Timed := h.scheduled.congr q he hh
  refine hq.free (o := n.disk.offset)
    (e := { task := .json doc
            segmentSeq := (n.placedSegment s (recordText n.disk.offset doc clock.stamp)).seq
            availableAt := extractAvailableAt float (.json doc) clock }) ?_ ?_ rfl
  · intro o
    change (n.placed s _).queue.readySet.contains o = true ↔
      o ∈ (n.placed s _).queue.readyHeap.offsets
    rw [hset, hh]
    exact h.consistent.leases.readySet o
  · intro a
    have ht : q.timetable = n.queue.timetable := FileWorkQueue.timetable_congr he
    rw [ht, FileWorkQueue.timetable, hfresh]
    simp

theorem Timed.put (h : n.Timed) (float : PyFloat) (clock : Clock) (task : Task) :
    (n.put float clock task).2.queue.Timed := by
  obtain ⟨s, hc⟩ := h.consistent.active.current?
  cases task with
  | json doc =>
    rw [put_json float clock doc hc]
    have hw := written_timed float clock doc (s := s) h
    rcases maybeRotate_eq (n.written float clock doc s) with hr | hr
    · simp only
      rwa [hr]
    · simp only
      rw [hr]
      exact rotateSegment_timed hw
  | other t =>
    rw [put_other float clock t hc]
    exact h.scheduled.congr _ rfl rfl

theorem Timed.close (h : n.Timed) (he : n.queue.entries.get? o = some e) (hk : e.token ≠ none)
    {s : FileSegment} (hs : n.queue.segmentsBySeq.get? e.segmentSeq = some s) :
    (maybeCompactHead (n.settle o s)).queue.Timed := by
  obtain ⟨-, -, h3⟩ := compactLoop_spec (h.consistent.stored.settle he hs)
    (h.consistent.active.settle o s) rfl
  exact (h.scheduled.erase he hk).congr _ h3.entries h3.readyHeap

theorem Timed.ack (h : n.Timed) (o : ℤ) (k : Str) : (n.ack o k).queue.Timed := by
  unfold Opened.ack
  rcases he : n.queue.entries.get? o with _ | e
  · exact h.scheduled
  · simp only
    split_ifs with hk
    · exact h.scheduled
    · rw [not_not] at hk
      obtain ⟨s, hs, -, -⟩ := h.consistent.stored.owned_entry he
      rw [hs]
      exact h.close he (by simp [hk]) hs

theorem Timed.nack (now : ℚ) (h : n.Timed) (o : ℤ) (k : Str) (requeue : Bool) :
    (n.nack now o k requeue).queue.Timed := by
  unfold Opened.nack
  rcases he : n.queue.entries.get? o with _ | e
  · exact h.scheduled
  · simp only
    split_ifs with hk hreq
    · exact h.scheduled
    · rw [not_not] at hk
      exact h.scheduled.free (e := requeued now e) h.consistent.leases.readySet
        (FileWorkQueue.not_waiting he (by simp [hk])) rfl
    · rw [not_not] at hk
      obtain ⟨s, hs, -, -⟩ := h.consistent.stored.owned_entry he
      rw [hs]
      exact h.close he (by simp [hk]) hs

theorem timekeeping (float : PyFloat) : (workQueue float).Timekeeping timetable Timed where
  call {n c} h hc := by
    refine ⟨h.consistent.call float c, ?_⟩
    obtain ⟨clock, call⟩ := c
    cases call with
    | put task =>
      have hp := h.put float clock task
      simp only [WorkQueue.call, workQueue]
      rcases hr : n.put float clock task with ⟨_ | _, n'⟩
      · rwa [hr] at hp
      · rwa [hr] at hp
    | lease count ms =>
      change (n.queue.lease clock.monotonic count ms).2.Timed
      unfold FileWorkQueue.lease
      split_ifs
      · exact h.scheduled
      · obtain ⟨keys, -, -, h'⟩ :=
          (h.scheduled.releaseExpired clock.monotonic h.consistent.leases).1.leaseLoop
            clock.monotonic (clock.monotonic + leaseDelta ms) count.toNat
            (n.queue.releaseExpired clock.monotonic).readyHeap.size []
            (FileWorkQueue.releaseExpired_spec clock.monotonic h.consistent.leases).1.1
        exact h'
    | ack o k => exact h.ack o k
    | nack o k requeue => exact h.nack clock.monotonic o k requeue
    | reschedule o t => exact h.scheduled.reschedule (fun a => hc o t a rfl)
  lease {n} now count ms h := by
    by_cases hcount : count ≤ 0
    · exact WorkQueue.onTime_none (by simp [workQueue, Opened.lease, FileWorkQueue.lease, hcount])
    · obtain ⟨h1, hd⟩ := h.scheduled.releaseExpired now h.consistent.leases
      obtain ⟨keys, ho, hv, -⟩ := h1.leaseLoop now (now + leaseDelta ms) count.toNat
        (n.queue.releaseExpired now).readyHeap.size []
        (FileWorkQueue.releaseExpired_spec now h.consistent.leases).1.1
      have hr : n.queue.lease now count ms = FileWorkQueue.leaseLoop now
          (now + leaseDelta ms) count.toNat (n.queue.releaseExpired now).readyHeap.size []
          (n.queue.releaseExpired now) := by
        simp [FileWorkQueue.lease, hcount]
      rw [← hr] at ho hv
      exact WorkQueue.onTime_of_serves (w := workQueue float) ho hd hv

section reopening

variable (float : PyFloat) (clock : Clock)

theorem loadRecords_timed (seq : ℕ) (acked : OffsetSet) {q : FileWorkQueue}
    {rs : List (ℤ × Document)} (hn : (rs.map Prod.fst).Nodup)
    (hf : ∀ o ∈ rs.map Prod.fst, q.tasks.get? o = none) (hl : q.Leases) (hu : Unleased q)
    (hq : q.Timed) : (rs.foldl (loadRecord float clock seq acked) q).Timed := by
  induction rs generalizing q with
  | nil => exact hq
  | cons r rs ih =>
    obtain ⟨hr, hn⟩ := List.nodup_cons.mp (by simpa using hn : (r.1 :: rs.map Prod.fst).Nodup)
    have hfr := hf r.1 (by simp)
    have hfrs : ∀ o ∈ rs.map Prod.fst, q.tasks.get? o = none :=
      fun o ho => hf o (by rw [List.map_cons]; exact List.mem_cons_of_mem _ ho)
    rw [List.foldl_cons]
    rcases ha : acked.contains r.1 with _ | _
    · obtain ⟨hl', hu', ht, -⟩ := loadRecord_spec float clock seq acked hl hu ha
      refine ih hn (fun o ho => ?_) hl' hu' ?_
      · rw [ht, SortedMap.get?_insert, if_neg]
        · exact hfrs o ho
        · rintro rfl
          exact hr ho
      · rw [FileWorkQueue.tasks_get?, Option.map_eq_none_iff] at hfr
        have hwait : ∀ a, q.timetable r.1 ≠ some (a, none) := by
          simp [FileWorkQueue.timetable, hfr]
        have hrun := hq.free
          (e := { task := .json r.2
                  segmentSeq := seq
                  availableAt := extractAvailableAt float (.json r.2) clock })
          hl.readySet hwait rfl
        simp only [loadRecord, ha, Bool.false_eq_true, if_false]
        exact hrun
    · have hskip : loadRecord float clock seq acked q r = q := by simp [loadRecord, ha]
      rw [hskip]
      exact ih hn hfrs hl hu hq

theorem loadSegment_timed {q₀ : FileWorkQueue} {d : Disk} {files : List (ℕ × Str)} {n n' : Opened}
    (hd : d.Sound) (h : Loaded q₀ d files n) {k : ℕ} {log : Str} (hlog : d.logs.get? k = some log)
    (hk : k ∉ files.map Prod.fst) (hq : n.queue.Timed)
    (hrun : loadSegment float clock n (k, log) = .ok n') : n'.queue.Timed := by
  obtain ⟨s, m, hb, hm, -, -⟩ := build_spec float clock hd h hlog hk
  have hload : loadSegment float clock n (k, log) = .ok { m with queue :=
      { m.queue.setSegment s with segments := m.queue.segments ++ [k] } } := by
    rw [loadSegment, hb]
    rfl
  rw [hload, Except.ok.injEq] at hrun
  subst hrun
  have ht := loadRecords_timed float clock k (d.acked k) (hd.nodup k) (h.fresh hd hk) h.leases
    h.unleased hq
  rw [← hm] at ht
  exact ht.congr _ rfl rfl

theorem loadSegments_timed {q₀ : FileWorkQueue} {d : Disk} (hd : d.Sound)
    {files done : List (ℕ × Str)} {n n' : Opened} (h : Loaded q₀ d done n)
    (hf : ∀ f ∈ files, d.logs.get? f.1 = some f.2) (hn : ((done ++ files).map Prod.fst).Nodup)
    (hq : n.queue.Timed) (hrun : files.foldlM (loadSegment float clock) n = .ok n') :
    n'.queue.Timed := by
  induction files generalizing done n with
  | nil =>
    cases hrun
    exact hq
  | cons f files ih =>
    obtain ⟨k, log⟩ := f
    have hk : k ∉ done.map Prod.fst := by
      rw [List.map_append, List.nodup_append] at hn
      intro hm
      exact hn.2.2 k hm k (by simp) rfl
    have hlog := hf (k, log) List.mem_cons_self
    obtain ⟨m, hload, hm⟩ := loadSegment_spec float clock hd h hlog hk
    rw [List.foldlM_cons, hload] at hrun
    have hassoc : done ++ (k, log) :: files = (done ++ [(k, log)]) ++ files := by simp
    rw [hassoc] at hn
    exact ih hm (fun f hm => hf f (List.mem_cons_of_mem _ hm)) hn
      (loadSegment_timed float clock hd h hlog hk hq hload) hrun

theorem emptyQueue_timed (cfg : Config) : (emptyQueue cfg).Timed := by
  refine ⟨List.nodup_nil, fun i => ?_⟩
  simp [emptyQueue, PriorityQueue.empty, FileWorkQueue.timetable]

theorem init_timed (cfg : Config) {d : Disk} (hd : d.Sound) :
    ∃ n, init cfg clock d = .ok n ∧ n.Timed := by
  obtain ⟨n, hinit, hr⟩ := reopened cfg clock hd
  refine ⟨n, hinit, hr.consistent, ?_⟩
  have hf : ∀ f ∈ listedFiles d, d.logs.get? f.1 = some f.2 := fun f hf => listedFiles_get? hf
  obtain ⟨m, hload, hm⟩ := loadSegments_spec cfg.float clock hd (loaded_nil cfg hd) hf
    (listedFiles_nodup d)
  have ht := loadSegments_timed cfg.float clock hd (loaded_nil cfg hd) hf (listedFiles_nodup d)
    (emptyQueue_timed cfg) hload
  rw [init_of_loaded clock hd hload hm, Except.ok.injEq] at hinit
  rw [← hinit, activated]
  rcases (listedFiles d).getLast? with _ | f
  · exact ht.congr _ rfl rfl
  · exact ht.congr _ rfl rfl

end reopening

end Opened

def Disk.Left (d : Disk) : Prop :=
  d = {} ∨ ∃ cfg clock n calls, Opened.init cfg clock {} = .ok n ∧
    d = ((Opened.workQueue cfg.float).after calls n).disk

theorem Disk.Left.sound {d : Disk} (h : d.Left) : d.Sound := by
  rcases h with rfl | ⟨cfg, clock, n, calls, hn, rfl⟩
  · exact sound_empty
  · rw [Opened.init_empty] at hn
    cases hn
    exact ((durable_empty cfg).after cfg.float calls).synced.sound

theorem lease_on_time (cfg : Config) (clock : Clock) (calls : List (Clock × Call)) :
    (∀ d : Disk, d.Left → ∃ n, Opened.init cfg clock d = .ok n ∧
      ((Opened.workQueue cfg.float).AllAllowed (WorkQueue.Unqueued Opened.timetable) n calls →
        (Opened.workQueue cfg.float).Punctual Opened.timetable n calls)) ∧
    ((InMemoryWorkQueue.workQueue cfg.float).AllAllowed
        (WorkQueue.Unqueued InMemoryWorkQueue.timetable) {} calls →
      (InMemoryWorkQueue.workQueue cfg.float).Punctual InMemoryWorkQueue.timetable {} calls) := by
  constructor
  · intro d hd
    obtain ⟨n, hinit, hn⟩ := Opened.init_timed clock cfg hd.sound
    exact ⟨n, hinit, (Opened.timekeeping cfg.float).punctual hn⟩
  · apply (InMemoryWorkQueue.timekeeping cfg.float).punctual
    obtain ⟨a, ha⟩ := InMemoryWorkQueue.abstracts_init
    refine ⟨ha.inv, List.nodup_nil, fun i => ?_⟩
    simp [PriorityQueue.empty, InMemoryWorkQueue.timetable]

def postponedCalls : List (Clock × Call) :=
  [(clockAt 0, .put plainTask), (clockAt 0, .lease 1 1000), (clockAt 0, .reschedule 0 5),
    (clockAt 2, .lease 1 1000), (clockAt 6, .lease 1 1000)]

theorem postponed_allowed {σ : Type} {w : WorkQueue σ} {view : σ → Timetable} {s : σ}
    (h : ∀ a, view (w.after (postponedCalls.take 2) s) 0 ≠ some (a, none)) :
    w.AllAllowed (WorkQueue.Unqueued view) s postponedCalls := by
  refine .of_cons (WorkQueue.unqueued_of_other (by simp))
    (.of_cons (WorkQueue.unqueued_of_other (by simp)) (.of_cons ?_
      (.of_cons (WorkQueue.unqueued_of_other (by simp))
        (.of_cons (WorkQueue.unqueued_of_other (by simp)) ?_))))
  · rintro o t a hc
    cases hc
    exact h a
  · intro pre c post he
    simp at he

theorem lease_on_time_postponed :
    Disk.Left {} ∧ (∃ n, Opened.init plainConfig (clockAt 0) {} = .ok n ∧
      (Opened.workQueue plainConfig.float).Punctual Opened.timetable n postponedCalls) ∧
    (InMemoryWorkQueue.workQueue plainConfig.float).Punctual InMemoryWorkQueue.timetable {}
      postponedCalls := by
  have hfile := (lease_on_time plainConfig (clockAt 0) postponedCalls).1 {} (Or.inl rfl)
  have hmemory := (lease_on_time plainConfig (clockAt 0) postponedCalls).2
  refine ⟨Or.inl rfl, ?_, hmemory (postponed_allowed fun a hw => ?_)⟩
  · obtain ⟨n, hn, hcalls⟩ := hfile
    refine ⟨n, hn, hcalls (postponed_allowed fun a hw => ?_)⟩
    rw [Opened.init_empty] at hn
    cases hn
    have hheld : ((Opened.timetable ((Opened.workQueue plainConfig.float).after
        (postponedCalls.take 2) (Opened.rotateSegment ⟨Opened.emptyQueue plainConfig, {}⟩)))
        0).map Prod.snd ≠ some none := by
      decide +kernel
    exact hheld (congrArg (Option.map Prod.snd) hw)
  · have hheld : ((InMemoryWorkQueue.timetable ((InMemoryWorkQueue.workQueue
        plainConfig.float).after (postponedCalls.take 2) {})) 0).map Prod.snd ≠ some none := by
      decide +kernel
    exact hheld (congrArg (Option.map Prod.snd) hw)

def overtakenCalls : List (Clock × Call) :=
  [(clockAt 0, .put plainTask), (clockAt 0, .reschedule 0 5), (clockAt 0, .lease 1 1000)]

theorem lease_before_available :
    ¬(InMemoryWorkQueue.workQueue plainConfig.float).Punctual InMemoryWorkQueue.timetable {}
      overtakenCalls ∧
    ∃ n, Opened.init plainConfig (clockAt 0) {} = .ok n ∧
      ¬(Opened.workQueue plainConfig.float).Punctual Opened.timetable n overtakenCalls := by
  refine ⟨fun h => ?_, _, Opened.init_empty plainConfig (clockAt 0), fun h => ?_⟩
  · have hlease := h (overtakenCalls.take 2) (clockAt 0) 1 1000 [] rfl
    obtain ⟨a, hv, ha⟩ := hlease.due (o := 0) (by decide +kernel)
    have hview : ((InMemoryWorkQueue.timetable ((InMemoryWorkQueue.workQueue
        plainConfig.float).after (overtakenCalls.take 2) {})) 0).map Prod.fst = some 5 := by
      decide +kernel
    rw [hview, Option.some.injEq] at hv
    subst hv
    revert ha
    decide +kernel
  · have hlease := h (overtakenCalls.take 2) (clockAt 0) 1 1000 [] rfl
    obtain ⟨a, hv, ha⟩ := hlease.due (o := 0) (by decide +kernel)
    have hview : ((Opened.timetable ((Opened.workQueue plainConfig.float).after
        (overtakenCalls.take 2) (Opened.rotateSegment ⟨Opened.emptyQueue plainConfig, {}⟩)))
        0).map Prod.fst = some 5 := by
      decide +kernel
    rw [hview, Option.some.injEq] at hv
    subst hv
    revert ha
    decide +kernel

end TraceMind.Queue
