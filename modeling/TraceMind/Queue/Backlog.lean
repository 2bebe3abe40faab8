import TraceMind.Queue.FileSpec
import TraceMind.Queue.Memory

namespace TraceMind.Queue

structure Backlog {σ : Type} (w : WorkQueue σ) where
  Valid : σ → Prop
  task : σ → ℤ → Option Task
  holder : σ → ℤ → Option Str
  next : σ → ℤ
  below : ∀ {s o}, Valid s → next s ≤ o → task s o = none
  held : ∀ {s o k}, Valid s → holder s o = some k → ∃ t, task s o = some t
  put : ∀ {s} (clock doc), Valid s → ∃ o s', w.put clock (.json doc) s = (.ok o, s') ∧ Valid s' ∧
    next s ≤ o ∧ o < next s' ∧ task s' = Function.update (task s) o (some (.json doc))
  lease : ∀ {s} (now count ms), Valid s → Valid (w.lease now count ms s).2 ∧
    next (w.lease now count ms s).2 = next s ∧ task (w.lease now count ms s).2 = task s ∧
    ∀ x ∈ (w.lease now count ms s).1, task s x.offset = some x.task
  ack : ∀ {s} (o k), Valid s → Valid (w.ack o k s) ∧ next (w.ack o k s) = next s ∧
    task (w.ack o k s) = if holder s o = some k then Function.update (task s) o none else task s
  nack : ∀ {s} (now o k requeue), Valid s → Valid (w.nack now o k requeue s) ∧
    next (w.nack now o k requeue s) = next s ∧ task (w.nack now o k requeue s) =
      if requeue = false ∧ holder s o = some k then Function.update (task s) o none else task s

namespace InMemoryWorkQueue

variable {q : InMemoryWorkQueue} {o : ℤ} {e : InMemoryEntry} {k : Str}

def contents (q : InMemoryWorkQueue) : ℤ → Option Task :=
  fun o => (q.entries.get? o).map InMemoryEntry.task

def holder (q : InMemoryWorkQueue) : ℤ → Option Str :=
  fun o => (q.entries.get? o).bind InMemoryEntry.token

theorem contents_setEntry (q : InMemoryWorkQueue) (o : ℤ) (e : InMemoryEntry) :
    (q.setEntry o e).contents = Function.update q.contents o (some e.task) := by
  funext o'
  simp only [contents, setEntry, SortedMap.get?_insert, Function.update_apply]
  split_ifs <;> rfl

theorem contents_relabel (e' : InMemoryEntry) (he : q.entries.get? o = some e)
    (ht : e'.task = e.task) : (q.setEntry o e').contents = q.contents := by
  rw [contents_setEntry, ht]
  have hc : q.contents o = some e.task := by simp [contents, he]
  rw [← hc, Function.update_eq_self]

theorem releaseOne_contents (now : ℚ) (q : InMemoryWorkQueue) (o : ℤ) :
    (releaseOne now q o).contents = q.contents := by
  unfold releaseOne
  split
  · rfl
  · rename_i e he
    split_ifs
    · rfl
    · exact contents_relabel { e with token := none, leaseDeadline := 0 } he rfl
    · rfl

theorem releaseExpired_contents (now : ℚ) (q : InMemoryWorkQueue) :
    (q.releaseExpired now).contents = q.contents := by
  unfold releaseExpired
  generalize q.entries.keys = keys
  induction keys generalizing q with
  | nil => rfl
  | cons o keys ih =>
    rw [List.foldl_cons, ih, releaseOne_contents]

theorem leaseLoop_contents (now d : ℚ) (count fuel : ℕ) (leased : List LeasedTask)
    (h : ∀ x ∈ leased, q.contents x.offset = some x.task) :
    let r := leaseLoop now d count fuel leased q
    r.2.contents = q.contents ∧ ∀ x ∈ r.1, q.contents x.offset = some x.task := by
  induction fuel generalizing q leased with
  | zero => exact ⟨rfl, h⟩
  | succ fuel ih =>
    simp only [leaseLoop]
    split_ifs
    · rcases q.ready.pop? with _ | ⟨item, rest⟩
      · exact ⟨rfl, h⟩
      · simp only
        split_ifs
        · exact ⟨rfl, h⟩
        · rcases he : q.entries.get? item.offset with _ | e
          · exact ih (q := { q with ready := rest }) leased h
          · simp only
            split_ifs
            · exact ih (q := { q with ready := rest }) leased h
            · have hc : (grant item.offset e d { q with ready := rest }).2.contents =
                  q.contents :=
                contents_relabel (q := { q with ready := rest, leaseSeq := q.leaseSeq + 1 })
                  { e with token := some (leaseToken (q.leaseSeq + 1)), leaseDeadline := d } he rfl
              have hx : ∀ x ∈ leased ++ [(grant item.offset e d { q with ready := rest }).1],
                  (grant item.offset e d { q with ready := rest }).2.contents x.offset =
                    some x.task := by
                intro x hx
                rw [hc]
                rcases List.mem_append.mp hx with hx | hx
                · exact h x hx
                · obtain rfl := List.mem_singleton.mp hx
                  simp [contents, grant, he]
              obtain ⟨h1, h2⟩ := ih _ hx
              rw [hc] at h1 h2
              exact ⟨h1, h2⟩
    · exact ⟨rfl, h⟩

theorem lease_contents (now : ℚ) (count ms : ℤ) (q : InMemoryWorkQueue) :
    (q.lease now count ms).2.contents = q.contents ∧
      ∀ x ∈ (q.lease now count ms).1, q.contents x.offset = some x.task := by
  unfold lease
  split_ifs
  · exact ⟨rfl, nofun⟩
  · have h := leaseLoop_contents now (now + leaseDelta ms) count.toNat
      (q.releaseExpired now).ready.size (q := q.releaseExpired now) [] nofun
    rw [releaseExpired_contents] at h
    exact h

theorem contents_erase (q : InMemoryWorkQueue) (o : ℤ) :
    contents { q with entries := q.entries.erase o } = Function.update q.contents o none := by
  funext o'
  simp only [contents, SortedMap.get?_erase, Function.update_apply]
  split_ifs <;> rfl

theorem ack_contents (h : Inv q) (o : ℤ) (k : Str) :
    (q.ack o k).contents =
      if q.holder o = some k then Function.update q.contents o none else q.contents := by
  unfold ack
  rcases he : q.entries.get? o with _ | e
  · simp [holder, he]
  · simp only [holder, he, h.notAcked o e he, Option.bind_some]
    by_cases hk : e.token = some k
    · simp [hk, contents_erase]
    · simp [hk]

theorem nack_contents (now : ℚ) (h : Inv q) (o : ℤ) (k : Str) (requeue : Bool) :
    (q.nack now o k requeue).contents =
      if requeue = false ∧ q.holder o = some k then Function.update q.contents o none
      else q.contents := by
  unfold nack
  rcases he : q.entries.get? o with _ | e
  · simp [holder, he]
  · simp only [holder, he, h.notAcked o e he, Option.bind_some]
    by_cases hk : e.token = some k
    · cases requeue with
      | false => simp [hk, contents_erase]
      | true =>
        let e' : InMemoryEntry := { task := e.task, availableAt := max e.availableAt now }
        simp only [hk, ne_eq, not_true_eq_false, if_false, Bool.false_eq_true, if_true,
          Bool.true_eq_false, false_and]
        exact contents_relabel e' he rfl
    · simp [hk]

theorem lease_inv (now : ℚ) (count ms : ℤ) (h : Inv q) :
    Inv (q.lease now count ms).2 ∧ (q.lease now count ms).2.nextOffset = q.nextOffset := by
  unfold lease
  split_ifs
  · exact ⟨h, rfl⟩
  · obtain ⟨h1, ht, hn⟩ := releaseExpired_spec now h
    have hg : LeaseTable.Grants (q.releaseExpired now).table
        (([] : List LeasedTask).map LeasedTask.grant) (q.releaseExpired now).table := .nil
    obtain ⟨h2, -, hn2⟩ := leaseLoop_spec now (now + leaseDelta ms) count.toNat
      (q.releaseExpired now).ready.size h1 hg
    exact ⟨h2, hn2.trans hn⟩

theorem put_inv (float : PyFloat) (clock : Clock) (task : Task) (h : Inv q) :
    Inv (q.put float clock task).2 := by
  obtain ⟨a', -, ha⟩ := put_step (a := abstractState q h) float clock task ⟨h, rfl, rfl⟩
  exact ha.inv

def backlog (float : PyFloat) : Backlog (workQueue float) where
  Valid := Inv
  task := contents
  holder := holder
  next := nextOffset
  below {q o} h ho := by
    rcases he : q.entries.get? o with _ | e
    · simp [contents, he]
    · exact absurd (h.below o e he) (not_lt.mpr ho)
  held {q o k} h hk := by
    obtain ⟨e, he, -⟩ := Option.bind_eq_some_iff.mp hk
    exact ⟨e.task, by simp [contents, he]⟩
  put {q} clock doc h :=
    ⟨q.nextOffset, _, rfl, put_inv float clock (.json doc) h, le_rfl,
      Int.lt_add_one_of_le le_rfl, contents_setEntry _ _ _⟩
  lease now count ms h :=
    ⟨(lease_inv now count ms h).1, (lease_inv now count ms h).2,
      (lease_contents now count ms _).1, (lease_contents now count ms _).2⟩
  ack o k h := ⟨(ack_spec h o k).1, ack_nextOffset _ o k, ack_contents h o k⟩
  nack now o k requeue h :=
    ⟨(nack_spec now h o k requeue).1, (nack_spec now h o k requeue).2.2,
      nack_contents now h o k requeue⟩

end InMemoryWorkQueue

namespace FileWorkQueue

variable {q : FileWorkQueue} {o : ℤ}

def contents (q : FileWorkQueue) : ℤ → Option Task :=
  fun o => (q.tasks.get? o).map Prod.fst

def holder (q : FileWorkQueue) : ℤ → Option Str :=
  fun o => (q.entries.get? o).bind FileEntry.token

theorem contents_get? (q : FileWorkQueue) (o : ℤ) :
    q.contents o = (q.entries.get? o).map FileEntry.task := by
  rw [contents, tasks_get?, Option.map_map]
  rfl

theorem SameTasks.contents {q' : FileWorkQueue} (h : SameTasks q q') :
    q'.contents = q.contents := by
  unfold FileWorkQueue.contents
  rw [h.tasks]

theorem leaseLoop_contents (now d : ℚ) (count fuel : ℕ) (leased : List LeasedTask)
    (hq : Leases q) (h : ∀ x ∈ leased, q.contents x.offset = some x.task) :
    ∀ x ∈ (leaseLoop now d count fuel leased q).1, q.contents x.offset = some x.task := by
  induction fuel generalizing q leased with
  | zero => exact h
  | succ fuel ih =>
    simp only [leaseLoop]
    split_ifs
    · rcases popReady_spec now hq with hpop | ⟨item, rest, e, hp, -, he, -, hpop⟩
      · rw [hpop]
        exact h
      · rw [hpop]
        have he' : (q.take item rest).entries.get? item.offset = some e := he
        simp only [he']
        obtain ⟨⟨hq', hs⟩, -⟩ := grant_spec hq hp he d
        rw [← hs.contents]
        apply ih _ hq'
        rw [hs.contents]
        intro x hx
        rcases List.mem_append.mp hx with hx | hx
        · exact h x hx
        · obtain rfl := List.mem_singleton.mp hx
          simp [contents_get?, grant, he]
    · exact h

theorem lease_contents (now : ℚ) (count ms : ℤ) (hq : Leases q) :
    ∀ x ∈ (q.lease now count ms).1, q.contents x.offset = some x.task := by
  unfold lease
  split_ifs
  · exact nofun
  · obtain ⟨⟨h1, hs⟩, -⟩ := releaseExpired_spec now hq
    rw [← hs.contents]
    exact leaseLoop_contents now _ _ _ [] h1 nofun

end FileWorkQueue

namespace Opened

variable {n : Opened} {o : ℤ} {k : Str} {e : FileEntry}

theorem contents_insert (q q' : FileWorkQueue) (o : ℤ) (t : Task) (seq : ℕ)
    (h : q'.tasks = q.tasks.insert o (t, seq)) :
    q'.contents = Function.update q.contents o (some t) := by
  funext o'
  simp only [FileWorkQueue.contents, h, SortedMap.get?_insert, Function.update_apply]
  split_ifs <;> rfl

theorem contents_settle (n : Opened) (o : ℤ) (s : FileSegment) :
    (n.settle o s).queue.contents = Function.update n.queue.contents o none := by
  funext o'
  simp only [FileWorkQueue.contents, settle_tasks, SortedMap.get?_erase, Function.update_apply]
  split_ifs <;> rfl

theorem Consistent.put_contents (h : n.Consistent) (float : PyFloat) (clock : Clock)
    (doc : Document) :
    (n.put float clock (.json doc)).2.queue.contents =
      Function.update n.queue.contents n.disk.offset (some (.json doc)) := by
  obtain ⟨s, hc⟩ := h.active.current?
  rw [put_json float clock doc hc]
  have hrot : (n.written float clock doc s).maybeRotate.queue.tasks =
      (n.written float clock doc s).queue.tasks := by
    rcases maybeRotate_eq (n.written float clock doc s) with hr | hr <;> rw [hr]
    exact rotateSegment_tasks _
  apply contents_insert _ _ _ _
    (n.placedSegment s (recordText n.disk.offset doc clock.stamp)).seq
  refine hrot.trans ((added_tasks ..).trans ?_)
  congr 1
  simp only [FileWorkQueue.tasks, (placed_frame n s _).1]

theorem Consistent.close_contents (h : n.Consistent) (he : n.queue.entries.get? o = some e)
    {s : FileSegment} (hs : n.queue.segmentsBySeq.get? e.segmentSeq = some s) :
    (maybeCompactHead (n.settle o s)).queue.contents =
      Function.update n.queue.contents o none := by
  obtain ⟨-, -, h3⟩ := compactLoop_spec (h.stored.settle he hs) (h.active.settle o s) rfl
  rw [← contents_settle]
  funext o'
  rw [FileWorkQueue.contents_get?, FileWorkQueue.contents_get?]
  exact congrArg (fun m => (SortedMap.get? m o').map FileEntry.task) h3.entries

theorem Consistent.ack_contents (h : n.Consistent) (o : ℤ) (k : Str) :
    (n.ack o k).queue.contents =
      if n.queue.holder o = some k then Function.update n.queue.contents o none
      else n.queue.contents := by
  rcases he : n.queue.entries.get? o with _ | e
  · simp [Opened.ack, FileWorkQueue.holder, he]
  · by_cases hk : e.token = some k
    · obtain ⟨s, hs, -, -⟩ := h.stored.owned_entry he
      simp only [Opened.ack, FileWorkQueue.holder, he, hk, hs, Option.bind_some, if_true,
        ne_eq, not_true_eq_false, if_false]
      exact h.close_contents he hs
    · simp [Opened.ack, FileWorkQueue.holder, he, hk]

theorem Consistent.nack_contents (h : n.Consistent) (now : ℚ) (o : ℤ) (k : Str)
    (requeue : Bool) :
    (n.nack now o k requeue).queue.contents =
      if requeue = false ∧ n.queue.holder o = some k then
        Function.update n.queue.contents o none
      else n.queue.contents := by
  rcases he : n.queue.entries.get? o with _ | e
  · simp [Opened.nack, FileWorkQueue.holder, he]
  · by_cases hk : e.token = some k
    · cases requeue with
      | true =>
        have hsame := (FileWorkQueue.setEntry_same (requeued now e) he rfl rfl).trans
          (FileWorkQueue.pushReady_same _ o (max e.availableAt now))
        simpa [Opened.nack, he, hk, requeued] using hsame.contents
      | false =>
        obtain ⟨s, hs, -, -⟩ := h.stored.owned_entry he
        simp only [Opened.nack, FileWorkQueue.holder, he, hk, hs, Option.bind_some, if_true,
          ne_eq, not_true_eq_false, if_false, Bool.false_eq_true, and_self]
        exact h.close_contents he hs
    · simp [Opened.nack, FileWorkQueue.holder, he, hk]

theorem Consistent.lease_contents (h : n.Consistent) (now : ℚ) (count ms : ℤ) :
    (n.lease now count ms).2.queue.contents = n.queue.contents := by
  by_cases hc : count ≤ 0
  · simp [Opened.lease, FileWorkQueue.lease, hc]
  · obtain ⟨⟨-, hs⟩, -⟩ := FileWorkQueue.lease_spec now ms hc h.leases
    exact hs.contents

def backlog (float : PyFloat) : Backlog (workQueue float) where
  Valid := Consistent
  task n := n.queue.contents
  holder n := n.queue.holder
  next n := n.disk.offset
  below {n o} h ho := by
    rcases ht : n.queue.tasks.get? o with _ | v
    · simp [FileWorkQueue.contents, ht]
    · exact absurd (h.stored.below o v ht) (not_lt.mpr ho)
  held {n o k} h hk := by
    obtain ⟨e, he, -⟩ := Option.bind_eq_some_iff.mp hk
    exact ⟨e.task, by simp [FileWorkQueue.contents_get?, he]⟩
  put {n} clock doc h := by
    obtain ⟨s, hc⟩ := h.active.current?
    obtain ⟨h1, ho, -⟩ := h.put float clock (.json doc)
    refine ⟨n.disk.offset, (n.put float clock (.json doc)).2, ?_, h1, le_rfl, ?_,
      h.put_contents float clock doc⟩
    · change n.put float clock (.json doc) = _
      rw [put_json float clock doc hc]
    · rw [ho]
      push_cast
      exact Int.lt_add_one_of_le le_rfl
  lease {n} now count ms h :=
    ⟨(h.lease now count ms).1, congrArg _ (h.lease now count ms).2,
      h.lease_contents now count ms, FileWorkQueue.lease_contents now count ms h.leases⟩
  ack o k h := ⟨(h.ack o k).1, congrArg _ (h.ack o k).2.2, h.ack_contents o k⟩
  nack now o k requeue h :=
    ⟨(h.nack now o k requeue).1, congrArg _ (h.nack now o k requeue).2.2,
      h.nack_contents now o k requeue⟩

end Opened

end TraceMind.Queue
