import TraceMind.Queue.FileInvariant
import TraceMind.Queue.Recovery

namespace TraceMind.Queue

open LeaseTable

namespace Opened

structure Consistent (n : Opened) : Prop where
  leases : n.queue.Leases
  stored : n.Stored
  active : n.Active

variable {n : Opened} {o : ℤ} {k : Str} {e : FileEntry}

theorem Consistent.rotate (h : n.Consistent) : n.rotateSegment.Consistent :=
  ⟨(h.leases.congr n.rotateSegment.queue rfl rfl rfl).1, h.stored.rotate, rotateSegment_active n⟩

theorem Consistent.maybeRotate (h : n.Consistent) :
    n.maybeRotate.Consistent ∧ n.maybeRotate.queue.table = n.queue.table ∧
      n.maybeRotate.disk.offset = n.disk.offset := by
  rcases maybeRotate_eq n with hr | hr
  · rw [hr]
    exact ⟨h, rfl, rfl⟩
  · rw [hr]
    exact ⟨h.rotate, rfl, rfl⟩

theorem Consistent.sameTasks (h : n.Consistent) {q' : FileWorkQueue} (hl : q'.Leases)
    (hs : n.queue.SameTasks q') : Consistent { n with queue := q' } :=
  ⟨hl, h.stored.sameTasks hs, h.active.sameTasks hs⟩

theorem Stored.placedSegment_get? (h : n.Stored) {s : FileSegment}
    (hc : n.queue.current? = some s) (record : Str) :
    (n.placed s record).queue.segmentsBySeq.get? (n.placedSegment s record).seq =
      some (n.placedSegment s record) :=
  ((h.placed record).of_current (placed_current hc record)).2

theorem placed_active {s : FileSegment} (h : n.Active) (record : Str) :
    (n.placed s record).Active := by
  unfold placed
  split_ifs
  · exact rotateSegment_active _
  · exact h

theorem Stored.placedSegment_acked (h : n.Stored) {s : FileSegment}
    (hc : n.queue.current? = some s) (record : Str) :
    (n.placedSegment s record).acked.contains (n.disk.offset : ℤ) = false := by
  unfold placedSegment
  split_ifs
  · rfl
  · by_contra ha
    rw [Bool.not_eq_false] at ha
    have := h.ackedBelow _ s _ (h.of_current hc).2 ha
    omega

theorem Stored.offset_fresh (h : n.Stored) : n.queue.tasks.get? (n.disk.offset : ℤ) = none := by
  by_contra hne
  obtain ⟨v, hv⟩ := Option.ne_none_iff_exists'.mp hne
  have := h.below _ v hv
  omega

theorem Consistent.written (h : n.Consistent) (float : PyFloat) (clock : Clock) (doc : Document)
    {s : FileSegment} (hc : n.queue.current? = some s) :
    (n.written float clock doc s).Consistent ∧
      (n.written float clock doc s).queue.table =
        Function.update n.queue.table n.disk.offset (some none) ∧
      (n.written float clock doc s).disk.offset = n.disk.offset + 1 := by
  obtain ⟨he, hh, hset, ho⟩ := placed_frame n s (recordText n.disk.offset doc clock.stamp)
  have hs := h.stored.placedSegment_get? hc (recordText n.disk.offset doc clock.stamp)
  have hst := (h.stored.placed (s := s) (recordText n.disk.offset doc clock.stamp)).appendLog
    (n.placedSegment s (recordText n.disk.offset doc clock.stamp)).seq
    (recordText n.disk.offset doc clock.stamp)
  have hfresh : (n.placed s (recordText n.disk.offset doc clock.stamp)).queue.tasks.get?
      (n.disk.offset : ℤ) = none := by
    rw [FileWorkQueue.tasks, he]
    exact h.stored.offset_fresh
  have hadd := hst.added float clock (.json doc)
    (recordText n.disk.offset doc clock.stamp).length hs hfresh
    (by simp only [Opened.appendLog]; rw [ho]; push_cast; omega)
    (h.stored.placedSegment_acked hc _)
  obtain ⟨hl, ht⟩ := h.leases.congr _ he hh hset
  have hl' : ((n.placed s (recordText n.disk.offset doc clock.stamp)).queue.setSegment
      ((n.placedSegment s (recordText n.disk.offset doc clock.stamp)).addRecord n.disk.offset
        (recordText n.disk.offset doc clock.stamp).length)).Leases := by
    refine (hl.congr _ ?_ ?_ ?_).1 <;> rfl
  obtain ⟨hl2, ht2⟩ := hl'.free
    (e := { task := .json doc
            segmentSeq := (n.placedSegment s (recordText n.disk.offset doc clock.stamp)).seq
            availableAt := extractAvailableAt float (.json doc) clock }) rfl rfl n.disk.offset
    (extractAvailableAt float (.json doc) clock)
  refine ⟨⟨hl2, hadd, ?_⟩, ?_, ho⟩
  · obtain ⟨k', s', hk', hg'⟩ := placed_active (s := s) h.active
      (recordText n.disk.offset doc clock.stamp)
    by_cases hseq : k' = (n.placedSegment s (recordText n.disk.offset doc clock.stamp)).seq
    · exact ⟨k', _, (added_current ..).trans hk', by
        rw [Opened.written, added_bySeq, hseq]
        exact SortedMap.get?_insert_self ..⟩
    · exact ⟨k', s', (added_current ..).trans hk', by
        rw [Opened.written, added_bySeq, SortedMap.get?_insert, if_neg hseq]
        exact hg'⟩
  · rw [← ht]
    exact ht2

theorem Consistent.put (h : n.Consistent) (float : PyFloat) (clock : Clock) (task : Task) :
    (n.put float clock task).2.Consistent ∧
      (n.put float clock task).2.disk.offset = n.disk.offset + 1 ∧
      (((n.put float clock task).1 = .ok (n.disk.offset : ℤ) ∧
          (n.put float clock task).2.queue.table =
            Function.update n.queue.table n.disk.offset (some none)) ∨
        ((∃ err, (n.put float clock task).1 = .error err) ∧
          (n.put float clock task).2.queue.table = n.queue.table)) := by
  obtain ⟨s, hc⟩ := h.active.current?
  cases task with
  | json doc =>
    rw [put_json float clock doc hc]
    obtain ⟨h1, ht1, ho1⟩ := h.written float clock doc hc
    obtain ⟨h2, ht2, ho2⟩ := h1.maybeRotate
    exact ⟨h2, ho2.trans ho1, Or.inl ⟨rfl, ht2.trans ht1⟩⟩
  | other t =>
    rw [put_other float clock t hc]
    refine ⟨⟨(h.leases.congr n.allocateOffset.2.queue rfl rfl rfl).1, h.stored.allocateOffset, h.active⟩, rfl,
      Or.inr ⟨⟨_, rfl⟩, rfl⟩⟩

theorem Consistent.close (h : n.Consistent) (he : n.queue.entries.get? o = some e)
    (hk : e.token ≠ none) {s : FileSegment}
    (hs : n.queue.segmentsBySeq.get? e.segmentSeq = some s) :
    (maybeCompactHead (n.settle o s)).Consistent ∧
      (maybeCompactHead (n.settle o s)).queue.table = Function.update n.queue.table o none ∧
      (maybeCompactHead (n.settle o s)).disk.offset = n.disk.offset := by
  obtain ⟨hl, ht⟩ := h.leases.erase he hk
  have hl' : (n.settle o s).queue.Leases ∧
      (n.settle o s).queue.table =
        FileWorkQueue.table { n.queue with entries := n.queue.entries.erase o } :=
    hl.congr _ rfl rfl rfl
  obtain ⟨h1, h2, h3⟩ := compactLoop_spec (h.stored.settle he hs) (h.active.settle o s) rfl
  obtain ⟨hl2, ht2⟩ := hl'.1.congr _ h3.entries h3.readyHeap h3.readySet
  exact ⟨⟨hl2, h1, h2⟩, ht2.trans (hl'.2.trans ht), h3.offset⟩

theorem Consistent.ack (h : n.Consistent) (o : ℤ) (k : Str) :
    (n.ack o k).Consistent ∧ (n.ack o k).queue.table = n.queue.table.settle o k ∧
      (n.ack o k).disk.offset = n.disk.offset := by
  rcases he : n.queue.entries.get? o with _ | e
  · have hr : n.ack o k = n := by simp [Opened.ack, he]
    rw [hr, LeaseTable.settle, closeWith_gone (FileWorkQueue.table_gone he)]
    exact ⟨h, rfl, rfl⟩
  · have htable := FileWorkQueue.table_of_get? he
    by_cases hk : e.token = some k
    · obtain ⟨s, hs, -, -⟩ := h.stored.owned_entry he
      have hr : n.ack o k = maybeCompactHead (n.settle o s) := by
        simp [Opened.ack, he, hk, hs]
      rw [hr, LeaseTable.settle, closeWith_update htable hk]
      exact h.close he (by simp [hk]) hs
    · have hr : n.ack o k = n := by simp [Opened.ack, he, hk]
      rw [hr, LeaseTable.settle, closeWith_kept htable hk]
      exact ⟨h, rfl, rfl⟩

def requeued (now : ℚ) (e : FileEntry) : FileEntry :=
  { e with token := none, leaseDeadline := 0, acked := false,
           availableAt := max e.availableAt now }

theorem Consistent.nack (h : n.Consistent) (now : ℚ) (o : ℤ) (k : Str) (requeue : Bool) :
    (n.nack now o k requeue).Consistent ∧ (n.nack now o k requeue).queue.table =
      (if requeue then n.queue.table.release o k else n.queue.table.settle o k) ∧
      (n.nack now o k requeue).disk.offset = n.disk.offset := by
  rcases he : n.queue.entries.get? o with _ | e
  · have hr : n.nack now o k requeue = n := by simp [Opened.nack, he]
    rw [hr, LeaseTable.settle, LeaseTable.release, closeWith_gone (FileWorkQueue.table_gone he),
      closeWith_gone (FileWorkQueue.table_gone he)]
    exact ⟨h, by simp, rfl⟩
  · have htable := FileWorkQueue.table_of_get? he
    by_cases hk : e.token = some k
    · cases requeue with
      | true =>
        have hr : n.nack now o k true = { n with queue :=
            (n.queue.setEntry o (requeued now e)).pushReady o (max e.availableAt now) } := by
          simp [Opened.nack, he, hk, requeued]
        obtain ⟨hl, ht⟩ := h.leases.free (e := requeued now e) rfl rfl o (max e.availableAt now)
        have hsame := (FileWorkQueue.setEntry_same (requeued now e) he rfl rfl).trans
          (FileWorkQueue.pushReady_same _ o (max e.availableAt now))
        rw [hr, if_pos rfl, LeaseTable.release, closeWith_update htable hk]
        exact ⟨h.sameTasks hl hsame, ht, rfl⟩
      | false =>
        obtain ⟨s, hs, -, -⟩ := h.stored.owned_entry he
        have hr : n.nack now o k false = maybeCompactHead (n.settle o s) := by
          simp [Opened.nack, he, hk, hs]
        rw [hr, if_neg Bool.false_ne_true, LeaseTable.settle, closeWith_update htable hk]
        exact h.close he (by simp [hk]) hs
    · have hr : n.nack now o k requeue = n := by simp [Opened.nack, he, hk]
      rw [hr, LeaseTable.settle, LeaseTable.release, closeWith_kept htable hk,
        closeWith_kept htable hk]
      exact ⟨h, by simp, rfl⟩

theorem Consistent.lease (h : n.Consistent) (now : ℚ) (count ms : ℤ) :
    (n.lease now count ms).2.Consistent ∧
      (n.lease now count ms).2.disk.offset = n.disk.offset := by
  refine ⟨?_, rfl⟩
  by_cases hc : count ≤ 0
  · have hr : n.lease now count ms = ([], n) := by
      simp [Opened.lease, FileWorkQueue.lease, hc]
    rw [hr]
    exact h
  · obtain ⟨⟨hl, hs⟩, -⟩ := FileWorkQueue.lease_spec now ms hc h.leases
    exact h.sameTasks hl hs

theorem Consistent.reschedule (h : n.Consistent) (o : ℤ) (t : ℚ) :
    (n.reschedule o t).Consistent ∧ (n.reschedule o t).queue.table = n.queue.table := by
  obtain ⟨⟨hl, hs⟩, ht⟩ := FileWorkQueue.reschedule_spec h.leases o t
  exact ⟨h.sameTasks hl hs, ht⟩

theorem Consistent.call (h : n.Consistent) (float : PyFloat) (c : Clock × Call) :
    ((workQueue float).call c.1 c.2 n).2.Consistent := by
  obtain ⟨clock, call⟩ := c
  cases call with
  | put task =>
    have hp := (h.put float clock task).1
    simp only [WorkQueue.call, workQueue]
    rcases hr : n.put float clock task with ⟨_ | _, n'⟩
    · rw [hr] at hp
      exact hp
    · rw [hr] at hp
      exact hp
  | lease count ms => exact (h.lease clock.monotonic count ms).1
  | ack o k => exact (h.ack o k).1
  | nack o k requeue => exact (h.nack clock.monotonic o k requeue).1
  | reschedule o t => exact (h.reschedule o t).1

theorem Consistent.after (h : n.Consistent) (float : PyFloat) (calls : List (Clock × Call)) :
    ((workQueue float).after calls n).Consistent := by
  induction calls generalizing n with
  | nil => exact h
  | cons c calls ih => exact ih (h.call float c)

def emptyQueue (cfg : Config) : FileWorkQueue :=
  { segmentMaxBytes := (max cfg.segmentMaxBytes 1024).toNat, v2Enabled := cfg.v2Enabled }

theorem init_empty (cfg : Config) (clock : Clock) :
    init cfg clock {} = .ok (rotateSegment ⟨emptyQueue cfg, {}⟩) := rfl

theorem emptyQueue_leases (cfg : Config) : (emptyQueue cfg).Leases := by
  refine ⟨⟨List.nodup_nil, fun o => ?_⟩, fun o => ?_, fun o e he => ?_⟩
  · simp [emptyQueue, ReadyHeap.offsets, PriorityQueue.empty, FileWorkQueue.table]
  · simp [emptyQueue, ReadyHeap.offsets, PriorityQueue.empty, SortedMap.contains]
  · cases he

theorem consistent_empty (cfg : Config) : (rotateSegment ⟨emptyQueue cfg, {}⟩).Consistent := by
  have hl := emptyQueue_leases cfg
  have hs : Stored ⟨emptyQueue cfg, {}⟩ := by
    refine ⟨nofun, List.nodup_nil, fun k => ?_, nofun, nofun, nofun, nofun, nofun⟩
    simp [emptyQueue, SortedMap.contains]
  exact ⟨(hl.congr (rotateSegment ⟨emptyQueue cfg, {}⟩).queue rfl rfl rfl).1, hs.rotate,
    rotateSegment_active _⟩

section refinement

variable {a : State ℤ Str ℚ}

structure Abstracts (n : Opened) (a : State ℤ Str ℚ) : Prop where
  consistent : n.Consistent
  table : a.table = n.queue.table
  issued : a.issued = { o | o < (n.disk.offset : ℤ) }

def abstractState (n : Opened) (h : n.Consistent) : State ℤ Str ℚ where
  issued := { o | o < (n.disk.offset : ℤ) }
  table := n.queue.table
  live_issued o ho := by
    rcases he : n.queue.entries.get? o with _ | e
    · exact absurd (FileWorkQueue.table_gone he) ho
    · exact h.stored.below o (e.task, e.segmentSeq) (by simp [FileWorkQueue.tasks_get?, he])

theorem Abstracts.step {n' : Opened} {ev : Event ℤ Str ℚ} (h : Abstracts n a)
    (h' : n'.Consistent) (hn : n.disk.offset ≤ n'.disk.offset)
    (hm : Moves a ev n'.queue.table) : ∃ a', Step a ev a' ∧ Abstracts n' a' := by
  refine ⟨abstractState n' h', ⟨?_, hm⟩, ⟨h', rfl, rfl⟩⟩
  rw [h.issued]
  exact fun o ho => lt_of_lt_of_le ho (Int.ofNat_le.mpr hn)

theorem put_step (float : PyFloat) (clock : Clock) (task : Task) (h : Abstracts n a) :
    ∃ a', Step a (eventOf (clock, .put task)
        ((workQueue float).call clock (.put task) n).1) a' ∧
      Abstracts ((workQueue float).call clock (.put task) n).2 a' := by
  obtain ⟨h1, ho, hr⟩ := h.consistent.put float clock task
  simp only [WorkQueue.call, workQueue]
  rcases hput : n.put float clock task with ⟨r, n'⟩
  rw [hput] at h1 ho hr
  rcases hr with ⟨rfl, ht⟩ | ⟨⟨err, rfl⟩, ht⟩
  · apply h.step h1 (by simp only at ho ⊢; omega)
    refine ⟨?_, ?_⟩
    · rw [h.issued]
      exact lt_irrefl (n.disk.offset : ℤ)
    · rw [h.table]
      exact ht
  · apply h.step h1 (by simp only at ho ⊢; omega)
    rw [← h.table] at ht
    exact ht

theorem call_step (float : PyFloat) (c : Clock × Call) (h : Abstracts n a) :
    ∃ a', Step a (eventOf c ((workQueue float).call c.1 c.2 n).1) a' ∧
      Abstracts ((workQueue float).call c.1 c.2 n).2 a' := by
  obtain ⟨clock, call⟩ := c
  cases call with
  | put task => exact put_step float clock task h
  | lease count ms =>
    by_cases hcount : count ≤ 0
    · simp only [WorkQueue.call, workQueue, eventOf, Opened.lease, FileWorkQueue.lease, hcount,
        if_true]
      exact h.step h.consistent le_rfl h.table.symm
    · simp only [WorkQueue.call, workQueue, eventOf, hcount, if_false]
      obtain ⟨-, hg⟩ := FileWorkQueue.lease_spec clock.monotonic ms hcount h.consistent.leases
      rw [← h.table] at hg
      exact h.step (h.consistent.lease clock.monotonic count ms).1 le_rfl hg
  | ack o k =>
    obtain ⟨h1, ht, hn⟩ := h.consistent.ack o k
    apply h.step h1 hn.ge
    rw [h.table.symm] at ht
    exact ht
  | nack o k requeue =>
    obtain ⟨h1, ht, hn⟩ := h.consistent.nack clock.monotonic o k requeue
    apply h.step h1 hn.ge
    rw [h.table.symm] at ht
    cases requeue with
    | true => exact ht
    | false => exact ht
  | reschedule o t =>
    obtain ⟨h1, ht⟩ := h.consistent.reschedule o t
    exact h.step h1 le_rfl (ht.trans h.table.symm)

theorem pendingCount_ack (h : Abstracts n a) {d : ℚ} (hl : a.table o = some (some (k, d))) :
    (n.ack o k).queue.pendingCount + 1 = n.queue.pendingCount := by
  rw [h.table] at hl
  obtain ⟨e, he, hk⟩ := FileWorkQueue.token_of_table hl
  obtain ⟨s, hs, -, -⟩ := h.consistent.stored.owned_entry he
  have hr : n.ack o k = maybeCompactHead (n.settle o s) := by
    simp [Opened.ack, he, hk, hs]
  obtain ⟨-, -, h3⟩ := compactLoop_spec (h.consistent.stored.settle he hs)
    (h.consistent.active.settle o s) rfl
  rw [hr, FileWorkQueue.pendingCount, maybeCompactHead, h3.entries]
  exact (SortedMap.erase_perm he).length_eq.symm

theorem refines (float : PyFloat) :
    (workQueue float).Refines (fun _ _ => True) Abstracts where
  step h _ := call_step float _ h
  ack h hl := pendingCount_ack h hl
  none hc := by simp [workQueue, Opened.lease, FileWorkQueue.lease, hc]

end refinement

structure Coherent (q : FileWorkQueue) : Prop where
  entries : ∀ o e, q.entries.get? o = some e →
    (e.token ≠ none ∧ o ∉ q.readyHeap.offsets) ∨
      (e.token = none ∧ q.readyHeap.offsets.count o = 1)
  readySet : ∀ o, q.readySet.contains o = true ↔
    o ∈ q.readyHeap.offsets ∧ q.entries.contains o = true
  pending : ∀ k s, q.segmentsBySeq.get? k = some s →
    s.pending = q.entries.entries.countP (fun e => decide (e.2.segmentSeq = k))
  segment : ∀ o e, q.entries.get? o = some e → q.segmentsBySeq.get? e.segmentSeq ≠ none

theorem Consistent.coherent (h : n.Consistent) : Coherent n.queue := by
  refine ⟨fun o e he => ?_, fun o => ?_, fun k s hs => ?_, fun o e he => ?_⟩
  · have hfree := h.leases.ready.free o
    rw [FileWorkQueue.table_free he] at hfree
    by_cases hk : e.token = none
    · exact Or.inr ⟨hk, List.count_eq_one_of_mem h.leases.ready.nodup (hfree.mpr hk)⟩
    · exact Or.inl ⟨hk, mt hfree.mp hk⟩
  · rw [h.leases.readySet]
    refine ⟨fun hm => ⟨hm, ?_⟩, fun hm => hm.1⟩
    have hfree := (h.leases.ready.free o).mp hm
    rcases he : n.queue.entries.get? o with _ | e
    · rw [FileWorkQueue.table_gone he] at hfree
      cases hfree
    · simp [SortedMap.contains, he]
  · rw [h.stored.pending k s hs, FileWorkQueue.queuedIn, FileWorkQueue.tasks, SortedMap.map,
      List.countP_map]
    rfl
  · obtain ⟨s, hs, -, -⟩ := h.stored.owned_entry he
    rw [hs]
    exact Option.some_ne_none s

theorem file_queue_coherent (cfg : Config) (clock : Clock) :
    ∃ n, init cfg clock {} = .ok n ∧
      ∀ calls, Coherent ((workQueue cfg.float).after calls n).queue :=
  ⟨_, init_empty cfg clock, fun calls => ((consistent_empty cfg).after cfg.float calls).coherent⟩

end Opened

end TraceMind.Queue
