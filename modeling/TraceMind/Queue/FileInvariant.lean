import TraceMind.Queue.FileLeases

namespace TraceMind.Queue

open LeaseTable

namespace FileWorkQueue

def queuedIn (k : ℕ) (q : FileWorkQueue) : ℕ :=
  q.tasks.entries.countP (fun e => decide (e.2.2 = k))

theorem Leases.congr {q : FileWorkQueue} (q' : FileWorkQueue) (h : Leases q) (he : q'.entries = q.entries)
    (hh : q'.readyHeap = q.readyHeap) (hs : q'.readySet = q.readySet) :
    Leases q' ∧ q'.table = q.table := by
  have ht : q'.table = q.table := by
    funext o
    rw [table, table, he]
  refine ⟨⟨?_, fun o => ?_, fun o e hg => ?_⟩, ht⟩
  · rw [hh, ht]
    exact h.ready
  · rw [hs, hh]
    exact h.readySet o
  · rw [he] at hg
    exact h.notAcked o e hg

end FileWorkQueue

namespace Opened

structure Stored (n : Opened) : Prop where
  seq : ∀ k s, n.queue.segmentsBySeq.get? k = some s → s.seq = k
  nodup : n.queue.segments.Nodup
  listed : ∀ k, k ∈ n.queue.segments ↔ n.queue.segmentsBySeq.contains k = true
  owned : ∀ o t k, n.queue.tasks.get? o = some (t, k) →
    ∃ s, n.queue.segmentsBySeq.get? k = some s ∧ s.acked.contains o = false
  pending : ∀ k s, n.queue.segmentsBySeq.get? k = some s → s.pending = n.queue.queuedIn k
  numbered : ∀ k s, n.queue.segmentsBySeq.get? k = some s → k ≤ n.disk.metaSeq
  below : ∀ o v, n.queue.tasks.get? o = some v → o < n.disk.offset
  ackedBelow : ∀ k s o, n.queue.segmentsBySeq.get? k = some s → s.acked.contains o = true →
    o < n.disk.offset

def Active (n : Opened) : Prop :=
  ∃ k s, n.queue.currentSegment = some k ∧ n.queue.segmentsBySeq.get? k = some s

variable {n : Opened}

theorem Active.current? (h : n.Active) : ∃ s, n.queue.current? = some s := by
  obtain ⟨k, s, hk, hs⟩ := h
  exact ⟨s, by simp [FileWorkQueue.current?, hk, hs]⟩

theorem Stored.of_current (h : n.Stored) {s : FileSegment} (hc : n.queue.current? = some s) :
    n.queue.currentSegment = some s.seq ∧ n.queue.segmentsBySeq.get? s.seq = some s := by
  rcases hk : n.queue.currentSegment with _ | k
  · simp [FileWorkQueue.current?, hk] at hc
  · have hs : n.queue.segmentsBySeq.get? k = some s := by
      simpa [FileWorkQueue.current?, hk] using hc
    obtain rfl := h.seq k s hs
    exact ⟨rfl, hs⟩

theorem Stored.sameTasks (h : n.Stored) {q' : FileWorkQueue} (hs : n.queue.SameTasks q') :
    Stored { n with queue := q' } := by
  refine ⟨?_, ?_, ?_, ?_, ?_, ?_, ?_, ?_⟩
  · rw [hs.segmentsBySeq]
    exact h.seq
  · rw [hs.segments]
    exact h.nodup
  · rw [hs.segments, hs.segmentsBySeq]
    exact h.listed
  · rw [hs.tasks, hs.segmentsBySeq]
    exact h.owned
  · simp only [FileWorkQueue.queuedIn, hs.tasks, hs.segmentsBySeq]
    exact h.pending
  · rw [hs.segmentsBySeq]
    exact h.numbered
  · rw [hs.tasks]
    exact h.below
  · rw [hs.segmentsBySeq]
    exact h.ackedBelow

theorem Active.sameTasks (h : n.Active) {q' : FileWorkQueue} (hs : n.queue.SameTasks q') :
    Active { n with queue := q' } := by
  obtain ⟨k, s, hk, hg⟩ := h
  exact ⟨k, s, hs.currentSegment.trans hk, by rw [hs.segmentsBySeq]; exact hg⟩

theorem rotateSegment_tasks (n : Opened) : n.rotateSegment.queue.tasks = n.queue.tasks := rfl

def freshSegment (n : Opened) : FileSegment :=
  { seq := n.disk.metaSeq + 1
    startOffset := n.queue.nextOffset
    endOffset := n.queue.nextOffset - 1
    sizeBytes := ((n.disk.logs.get? (n.disk.metaSeq + 1)).getD []).length
    recordCount := 0
    pending := 0 }

theorem rotateSegment_bySeq (n : Opened) :
    n.rotateSegment.queue.segmentsBySeq =
      n.queue.segmentsBySeq.insert (n.disk.metaSeq + 1) n.freshSegment := rfl

theorem rotateSegment_current (n : Opened) :
    n.rotateSegment.queue.current? = some n.freshSegment := by
  have hc : n.rotateSegment.queue.currentSegment = some (n.disk.metaSeq + 1) := rfl
  rw [FileWorkQueue.current?, hc, rotateSegment_bySeq]
  exact SortedMap.get?_insert_self ..

theorem rotateSegment_active (n : Opened) : n.rotateSegment.Active :=
  ⟨n.disk.metaSeq + 1, n.freshSegment, rfl, SortedMap.get?_insert_self ..⟩

theorem Stored.not_queued (h : n.Stored) {k : ℕ} (hk : n.queue.segmentsBySeq.get? k = none) :
    n.queue.queuedIn k = 0 := by
  rw [FileWorkQueue.queuedIn, List.countP_eq_zero]
  rintro ⟨o, t, k'⟩ he
  simp only [decide_eq_true_eq]
  rintro rfl
  obtain ⟨s, hs, -⟩ := h.owned o t k' (SortedMap.get?_eq_some_iff.mpr he)
  rw [hk] at hs
  cases hs

theorem Stored.rotate (h : n.Stored) : n.rotateSegment.Stored := by
  have hfresh : n.queue.segmentsBySeq.get? (n.disk.metaSeq + 1) = none := by
    by_contra hne
    obtain ⟨s, hs⟩ := Option.ne_none_iff_exists'.mp hne
    have := h.numbered _ s hs
    omega
  have hget : ∀ k s, n.rotateSegment.queue.segmentsBySeq.get? k = some s →
      (k = n.disk.metaSeq + 1 ∧ s = n.freshSegment) ∨
        n.queue.segmentsBySeq.get? k = some s := by
    intro k s hs
    rw [rotateSegment_bySeq, SortedMap.get?_insert] at hs
    split_ifs at hs with hk
    · cases hs
      exact Or.inl ⟨hk, rfl⟩
    · exact Or.inr hs
  refine ⟨?_, ?_, ?_, ?_, ?_, ?_, h.below, ?_⟩
  · intro k s hs
    rcases hget k s hs with ⟨rfl, rfl⟩ | hs
    · rfl
    · exact h.seq k s hs
  · change (n.queue.segments ++ [n.disk.metaSeq + 1]).Nodup
    have hnot : n.disk.metaSeq + 1 ∉ n.queue.segments := by
      rw [h.listed, SortedMap.contains, hfresh]
      simp
    exact List.nodup_append.mpr ⟨h.nodup, by simp, fun a ha b hb he => by
      obtain rfl := List.mem_singleton.mp hb
      exact hnot (he ▸ ha)⟩
  · intro k
    change k ∈ n.queue.segments ++ [n.disk.metaSeq + 1] ↔ _
    rw [rotateSegment_bySeq, SortedMap.contains_insert, List.mem_append, h.listed]
    simp [or_comm]
  · intro o t k ht
    obtain ⟨s, hs, ha⟩ := h.owned o t k ht
    refine ⟨s, ?_, ha⟩
    rw [rotateSegment_bySeq, SortedMap.get?_insert, if_neg]
    · exact hs
    · rintro rfl
      rw [hfresh] at hs
      cases hs
  · intro k s hs
    rcases hget k s hs with ⟨rfl, rfl⟩ | hs
    · exact (h.not_queued hfresh).symm
    · exact h.pending k s hs
  · intro k s hs
    change k ≤ n.disk.metaSeq + 1
    rcases hget k s hs with ⟨rfl, rfl⟩ | hs
    · exact le_rfl
    · exact Nat.le_succ_of_le (h.numbered k s hs)
  · intro k s o hs ha
    rcases hget k s hs with ⟨rfl, rfl⟩ | hs
    · simp [freshSegment, SortedMap.contains] at ha
    · exact h.ackedBelow k s o hs ha

theorem Stored.allocateOffset (h : n.Stored) : n.allocateOffset.2.Stored := by
  refine ⟨h.seq, h.nodup, h.listed, h.owned, h.pending, h.numbered, fun o v ho => ?_,
    fun k s o hs ha => ?_⟩
  · have := h.below o v ho
    simp only [Opened.allocateOffset]
    push_cast
    omega
  · have := h.ackedBelow k s o hs ha
    simp only [Opened.allocateOffset]
    push_cast
    omega

theorem maybeRotate_eq (n : Opened) : n.maybeRotate = n ∨ n.maybeRotate = n.rotateSegment := by
  unfold maybeRotate
  split
  · exact Or.inl rfl
  · split_ifs
    · exact Or.inr rfl
    · exact Or.inl rfl

def placed (s : FileSegment) (record : Str) (n : Opened) : Opened :=
  let m := n.allocateOffset.2
  if rotates n.queue.segmentMaxBytes s record then m.rotateSegment else m

def placedSegment (s : FileSegment) (record : Str) (n : Opened) : FileSegment :=
  if rotates n.queue.segmentMaxBytes s record then n.allocateOffset.2.freshSegment else s

theorem placed_current {s : FileSegment} (hc : n.queue.current? = some s) (record : Str) :
    (n.placed s record).queue.current? = some (n.placedSegment s record) := by
  unfold placed placedSegment
  split_ifs
  · exact rotateSegment_current _
  · exact hc

def added (float : PyFloat) (clock : Clock) (task : Task) (offset : ℤ) (size : ℕ)
    (s : FileSegment) (n : Opened) : Opened :=
  let availableAt := extractAvailableAt float task clock
  let q := n.queue.setSegment (s.addRecord offset size)
  let q := q.setEntry offset { task, segmentSeq := s.seq, availableAt }
  { n with queue := q.pushReady offset availableAt }

def written (float : PyFloat) (clock : Clock) (doc : Document) (s : FileSegment) (n : Opened) :
    Opened :=
  let record := recordText n.disk.offset doc clock.stamp
  let m := n.placed s record
  let s' := n.placedSegment s record
  added float clock (.json doc) n.disk.offset record.length s'
    { m with disk := appendLog s'.seq record m.disk }

theorem ensureActiveSegment_of_current {s : FileSegment} (hc : n.queue.current? = some s) :
    n.ensureActiveSegment = n := by
  have hk : n.queue.currentSegment ≠ none := by
    intro hk
    simp [FileWorkQueue.current?, hk] at hc
  simp [ensureActiveSegment, hk]

theorem prepare_json (clock : Clock) (doc : Document) {s : FileSegment}
    (hc : n.queue.current? = some s) :
    n.prepare clock (.json doc) =
      (.ok (n.disk.offset, recordText n.disk.offset doc clock.stamp,
        n.placedSegment s (recordText n.disk.offset doc clock.stamp)),
        n.placed s (recordText n.disk.offset doc clock.stamp)) := by
  have hpc := placed_current hc (recordText n.disk.offset doc clock.stamp)
  simp only [placed, allocateOffset] at hpc
  simp only [prepare, ensureActiveSegment_of_current hc, hc, allocateOffset, placed]
  rw [hpc]

theorem put_json (float : PyFloat) (clock : Clock) (doc : Document) {s : FileSegment}
    (hc : n.queue.current? = some s) :
    n.put float clock (.json doc) =
      (.ok n.disk.offset, (n.written float clock doc s).maybeRotate) := by
  rw [put, prepare_json clock doc hc]
  rfl

theorem put_other (float : PyFloat) (clock : Clock) (t : Option ℚ) {s : FileSegment}
    (hc : n.queue.current? = some s) :
    n.put float clock (.other t) =
      (.error (.typeError "Object is not JSON serializable"), n.allocateOffset.2) := by
  simp only [put, prepare, ensureActiveSegment_of_current hc, hc]

theorem Stored.placed (h : n.Stored) {s : FileSegment} (record : Str) :
    (n.placed s record).Stored := by
  unfold Opened.placed
  split_ifs
  · exact h.allocateOffset.rotate
  · exact h.allocateOffset

theorem placed_frame (n : Opened) (s : FileSegment) (record : Str) :
    (n.placed s record).queue.entries = n.queue.entries ∧
      (n.placed s record).queue.readyHeap = n.queue.readyHeap ∧
      (n.placed s record).queue.readySet = n.queue.readySet ∧
      (n.placed s record).disk.offset = n.disk.offset + 1 := by
  unfold Opened.placed
  split_ifs
  · exact ⟨rfl, rfl, rfl, rfl⟩
  · exact ⟨rfl, rfl, rfl, rfl⟩

theorem Stored.appendLog (h : n.Stored) (seq : ℕ) (text : Str) :
    Stored { n with disk := appendLog seq text n.disk } :=
  ⟨h.seq, h.nodup, h.listed, h.owned, h.pending, h.numbered, h.below, h.ackedBelow⟩

theorem added_tasks (float : PyFloat) (clock : Clock) (task : Task) (o : ℤ) (size : ℕ)
    (s : FileSegment) (n : Opened) :
    (n.added float clock task o size s).queue.tasks = n.queue.tasks.insert o (task, s.seq) := by
  simp only [added, (FileWorkQueue.pushReady_same _ _ _).tasks]
  simp only [FileWorkQueue.tasks, FileWorkQueue.setEntry, SortedMap.map_insert]
  rfl

theorem added_bySeq (float : PyFloat) (clock : Clock) (task : Task) (o : ℤ) (size : ℕ)
    (s : FileSegment) (n : Opened) :
    (n.added float clock task o size s).queue.segmentsBySeq =
      n.queue.segmentsBySeq.insert s.seq (s.addRecord o size) := by
  simp only [added, (FileWorkQueue.pushReady_same _ _ _).segmentsBySeq]
  rfl

theorem added_segments (float : PyFloat) (clock : Clock) (task : Task) (o : ℤ) (size : ℕ)
    (s : FileSegment) (n : Opened) :
    (n.added float clock task o size s).queue.segments = n.queue.segments := by
  simp only [added, (FileWorkQueue.pushReady_same _ _ _).segments]
  rfl

theorem added_current (float : PyFloat) (clock : Clock) (task : Task) (o : ℤ) (size : ℕ)
    (s : FileSegment) (n : Opened) :
    (n.added float clock task o size s).queue.currentSegment = n.queue.currentSegment := by
  simp only [added, (FileWorkQueue.pushReady_same _ _ _).currentSegment]
  rfl

theorem Stored.added (h : n.Stored) (float : PyFloat) (clock : Clock) (task : Task) {o : ℤ}
    (size : ℕ) {s : FileSegment} (hs : n.queue.segmentsBySeq.get? s.seq = some s)
    (ho : n.queue.tasks.get? o = none) (hb : o < n.disk.offset)
    (ha : s.acked.contains o = false) : (n.added float clock task o size s).Stored := by
  have hget : ∀ k s', (n.added float clock task o size s).queue.segmentsBySeq.get? k = some s' →
      (k = s.seq ∧ s' = s.addRecord o size) ∨
        (k ≠ s.seq ∧ n.queue.segmentsBySeq.get? k = some s') := by
    intro k s' hg
    rw [added_bySeq, SortedMap.get?_insert] at hg
    split_ifs at hg with hk
    · cases hg
      exact Or.inl ⟨hk, rfl⟩
    · exact Or.inr ⟨hk, hg⟩
  refine ⟨?_, ?_, ?_, ?_, ?_, ?_, ?_, ?_⟩
  · intro k s' hg
    rcases hget k s' hg with ⟨rfl, rfl⟩ | ⟨-, hg⟩
    · rfl
    · exact h.seq k s' hg
  · rw [added_segments]
    exact h.nodup
  · intro k
    rw [added_segments, added_bySeq, SortedMap.contains_insert, h.listed]
    constructor
    · intro hk
      simp [hk]
    · intro hk
      rcases Bool.or_eq_true_iff.mp hk with hk | hk
      · rw [of_decide_eq_true hk, SortedMap.contains, hs]
        rfl
      · exact hk
  · intro o' t k hg
    rw [added_tasks, SortedMap.get?_insert] at hg
    rw [added_bySeq]
    simp only [SortedMap.get?_insert]
    split_ifs at hg with ho'
    · cases hg
      subst ho'
      exact ⟨s.addRecord o' size, by simp, ha⟩
    · obtain ⟨s', hs', ha'⟩ := h.owned o' t k hg
      by_cases hk : k = s.seq
      · subst hk
        rw [hs] at hs'
        cases hs'
        exact ⟨s.addRecord o size, by simp, ha'⟩
      · exact ⟨s', by simp [hk, hs'], ha'⟩
  · intro k s' hg
    have hcount := (SortedMap.insert_perm (task, s.seq) ho).countP_eq
      (fun e => decide (e.2.2 = k))
    rw [List.countP_cons] at hcount
    rw [FileWorkQueue.queuedIn, added_tasks, hcount]
    rcases hget k s' hg with ⟨rfl, rfl⟩ | ⟨hk, hg⟩
    · simp only [FileSegment.addRecord, decide_true, if_true]
      rw [h.pending _ s hs]
      rfl
    · simp only [Ne.symm hk, decide_false]
      rw [h.pending k s' hg]
      rfl
  · intro k s' hg
    rcases hget k s' hg with ⟨rfl, rfl⟩ | ⟨-, hg⟩
    · exact h.numbered _ s hs
    · exact h.numbered k s' hg
  · intro o' v hg
    rw [added_tasks, SortedMap.get?_insert] at hg
    split_ifs at hg with ho'
    · rw [ho']
      exact hb
    · exact h.below o' v hg
  · intro k s' o' hg ha'
    rcases hget k s' hg with ⟨rfl, rfl⟩ | ⟨-, hg⟩
    · exact h.ackedBelow _ s o' hs ha'
    · exact h.ackedBelow k s' o' hg ha'

section settle

variable {o : ℤ} {e : FileEntry} {s : FileSegment}

theorem ack_of_not_mem (h : s.acked.contains o = false) :
    s.ack o = { s with acked := s.acked.insert o (), pending := s.pending - 1 } := by
  simp [FileSegment.ack, h]

theorem settle_tasks (n : Opened) (o : ℤ) (s : FileSegment) :
    (n.settle o s).queue.tasks = n.queue.tasks.erase o := SortedMap.map_erase _ _ _

theorem settle_bySeq (n : Opened) (o : ℤ) (s : FileSegment) :
    (n.settle o s).queue.segmentsBySeq =
      n.queue.segmentsBySeq.insert (s.ack o).seq (s.ack o) := rfl

theorem ack_seq (s : FileSegment) (o : ℤ) : (s.ack o).seq = s.seq := by
  unfold FileSegment.ack
  split_ifs <;> rfl

theorem Stored.owned_entry (h : n.Stored) (he : n.queue.entries.get? o = some e) :
    ∃ s, n.queue.segmentsBySeq.get? e.segmentSeq = some s ∧ s.seq = e.segmentSeq ∧
      s.acked.contains o = false := by
  have ht : n.queue.tasks.get? o = some (e.task, e.segmentSeq) := by
    simp [FileWorkQueue.tasks_get?, he]
  obtain ⟨s, hs, ha⟩ := h.owned o e.task e.segmentSeq ht
  exact ⟨s, hs, h.seq _ s hs, ha⟩

theorem Stored.settle (h : n.Stored) (he : n.queue.entries.get? o = some e)
    (hs : n.queue.segmentsBySeq.get? e.segmentSeq = some s) : (n.settle o s).Stored := by
  have ht : n.queue.tasks.get? o = some (e.task, e.segmentSeq) := by
    simp [FileWorkQueue.tasks_get?, he]
  obtain ⟨s', hs', hseq, ha⟩ := h.owned_entry he
  rw [hs] at hs'
  cases hs'
  have hget : ∀ k s', (n.settle o s).queue.segmentsBySeq.get? k = some s' →
      (k = e.segmentSeq ∧ s' = s.ack o) ∨
        (k ≠ e.segmentSeq ∧ n.queue.segmentsBySeq.get? k = some s') := by
    intro k s' hg
    rw [settle_bySeq, SortedMap.get?_insert, ack_seq, hseq] at hg
    split_ifs at hg with hk
    · cases hg
      exact Or.inl ⟨hk, rfl⟩
    · exact Or.inr ⟨hk, hg⟩
  have hself : (n.settle o s).queue.segmentsBySeq.get? e.segmentSeq = some (s.ack o) := by
    rw [settle_bySeq, ack_seq, hseq]
    exact SortedMap.get?_insert_self ..
  refine ⟨?_, h.nodup, ?_, ?_, ?_, ?_, ?_, ?_⟩
  · intro k s' hg
    rcases hget k s' hg with ⟨rfl, rfl⟩ | ⟨-, hg⟩
    · rw [ack_seq, hseq]
    · exact h.seq k s' hg
  · intro k
    change k ∈ n.queue.segments ↔ _
    rw [settle_bySeq, ack_seq, hseq, SortedMap.contains_insert, h.listed]
    constructor
    · intro hk
      simp [hk]
    · intro hk
      rcases Bool.or_eq_true_iff.mp hk with hk | hk
      · rw [of_decide_eq_true hk, SortedMap.contains, hs]
        rfl
      · exact hk
  · intro o' t k hg
    rw [settle_tasks, SortedMap.get?_erase] at hg
    split_ifs at hg with ho
    obtain ⟨s', hs', ha'⟩ := h.owned o' t k hg
    by_cases hk : k = e.segmentSeq
    · subst hk
      rw [hs] at hs'
      cases hs'
      refine ⟨s.ack o, hself, ?_⟩
      rw [ack_of_not_mem ha, SortedMap.contains_insert, ha']
      simp [ho]
    · refine ⟨s', ?_, ha'⟩
      rw [settle_bySeq, ack_seq, hseq, SortedMap.get?_insert, if_neg hk]
      exact hs'
  · intro k s' hg
    have hcount := (SortedMap.erase_perm ht).countP_eq (fun e => decide (e.2.2 = k))
    rw [List.countP_cons] at hcount
    rw [FileWorkQueue.queuedIn, settle_tasks]
    rcases hget k s' hg with ⟨rfl, rfl⟩ | ⟨hk, hg⟩
    · have hp := h.pending _ s hs
      rw [FileWorkQueue.queuedIn, hcount] at hp
      rw [ack_of_not_mem ha]
      simp only [decide_true, if_true] at hp
      exact Nat.sub_eq_of_eq_add hp
    · have hp := h.pending k s' hg
      rw [FileWorkQueue.queuedIn, hcount] at hp
      simpa [Ne.symm hk] using hp
  · intro k s' hg
    rcases hget k s' hg with ⟨rfl, rfl⟩ | ⟨-, hg⟩
    · exact h.numbered _ s hs
    · exact h.numbered k s' hg
  · intro o' v hg
    rw [settle_tasks, SortedMap.get?_erase] at hg
    split_ifs at hg
    exact h.below o' v hg
  · intro k s' o' hg ha'
    rcases hget k s' hg with ⟨rfl, rfl⟩ | ⟨-, hg⟩
    · rw [ack_of_not_mem ha, SortedMap.contains_insert] at ha'
      rcases Bool.or_eq_true_iff.mp ha' with ho | ho
      · rw [of_decide_eq_true ho]
        exact h.below o _ ht
      · exact h.ackedBelow _ s o' hs ho
    · exact h.ackedBelow k s' o' hg ha'

theorem Active.settle (h : n.Active) (o : ℤ) (s : FileSegment) : (n.settle o s).Active := by
  obtain ⟨k, s', hk, hg⟩ := h
  by_cases hs : k = (s.ack o).seq
  · exact ⟨k, s.ack o, hk, by rw [settle_bySeq, hs]; exact SortedMap.get?_insert_self ..⟩
  · exact ⟨k, s', hk, by rw [settle_bySeq, SortedMap.get?_insert, if_neg hs]; exact hg⟩

end settle

theorem Stored.removeSegment (h : n.Stored) {head : ℕ} {rest : List ℕ} {s : FileSegment}
    (hl : n.queue.segments = head :: rest) (hs : n.queue.segmentsBySeq.get? head = some s)
    (hp : s.pending = 0) : (n.removeSegment head rest).Stored := by
  have hn := h.nodup
  rw [hl] at hn
  have hget : ∀ k s', (n.removeSegment head rest).queue.segmentsBySeq.get? k = some s' →
      n.queue.segmentsBySeq.get? k = some s' := by
    intro k s' hg
    simp only [Opened.removeSegment, SortedMap.get?_erase] at hg
    split_ifs at hg
    exact hg
  refine ⟨fun k s' hg => h.seq k s' (hget k s' hg), (List.nodup_cons.mp hn).2, ?_, ?_,
    fun k s' hg => h.pending k s' (hget k s' hg),
    fun k s' hg => h.numbered k s' (hget k s' hg), h.below,
    fun k s' o hg => h.ackedBelow k s' o (hget k s' hg)⟩
  · intro k
    have hk := h.listed k
    rw [hl, List.mem_cons] at hk
    change k ∈ rest ↔ (n.queue.segmentsBySeq.erase head).contains k = true
    rw [SortedMap.contains_erase]
    by_cases hh : k = head
    · subst hh
      simp [(List.nodup_cons.mp hn).1]
    · simpa [hh] using hk
  · intro o t k ht
    obtain ⟨s', hs', ha⟩ := h.owned o t k ht
    refine ⟨s', ?_, ha⟩
    have hk : k ≠ head := by
      rintro rfl
      have hz := h.pending k s hs
      rw [hp, FileWorkQueue.queuedIn, eq_comm, List.countP_eq_zero] at hz
      exact hz _ (SortedMap.get?_eq_some_iff.mp ht) (by simp)
    change (n.queue.segmentsBySeq.erase head).get? k = some s'
    rw [SortedMap.get?_erase, if_neg hk]
    exact hs'

theorem Active.removeSegment (h : n.Active) {head : ℕ} (hc : n.queue.currentSegment ≠ some head)
    (rest : List ℕ) : (n.removeSegment head rest).Active := by
  obtain ⟨k, s, hk, hg⟩ := h
  refine ⟨k, s, hk, ?_⟩
  change (n.queue.segmentsBySeq.erase head).get? k = some s
  rw [SortedMap.get?_erase, if_neg]
  · exact hg
  · rintro rfl
    exact hc hk

structure Compacted (n n' : Opened) : Prop where
  entries : n'.queue.entries = n.queue.entries
  readyHeap : n'.queue.readyHeap = n.queue.readyHeap
  readySet : n'.queue.readySet = n.queue.readySet
  currentSegment : n'.queue.currentSegment = n.queue.currentSegment
  offset : n'.disk.offset = n.disk.offset
  metaSeq : n'.disk.metaSeq = n.disk.metaSeq

theorem Compacted.refl (n : Opened) : Compacted n n := ⟨rfl, rfl, rfl, rfl, rfl, rfl⟩

theorem compactLoop_spec {segs : List ℕ} (h : n.Stored) (ha : n.Active)
    (hl : n.queue.segments = segs) :
    (compactLoop segs n).Stored ∧ (compactLoop segs n).Active ∧
      Compacted n (compactLoop segs n) := by
  induction segs generalizing n with
  | nil => exact ⟨h, ha, Compacted.refl n⟩
  | cons head rest ih =>
    rcases hs : n.queue.segmentsBySeq.get? head with _ | s
    · simp only [compactLoop, hs]
      exact ⟨h, ha, Compacted.refl n⟩
    · simp only [compactLoop, hs]
      split_ifs with hp hc
      · exact ⟨h, ha, Compacted.refl n⟩
      · exact ⟨h, ha, Compacted.refl n⟩
      · have h' := h.removeSegment hl hs (by omega)
        obtain ⟨h1, h2, h3⟩ := ih h' (ha.removeSegment hc rest) rfl
        exact ⟨h1, h2, h3.entries, h3.readyHeap, h3.readySet, h3.currentSegment, h3.offset,
          h3.metaSeq⟩

end Opened

end TraceMind.Queue
