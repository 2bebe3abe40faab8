import TraceMind.Queue.RecoverySpec

namespace TraceMind.Queue

open Opened

variable {n : Opened}

theorem Disk.Sound.allocateOffset (h : n.disk.Sound) : n.allocateOffset.2.disk.Sound := by
  refine ⟨h.logs, h.indexes, h.nodup, h.apart, fun k o ho => ?_, h.numbered, fun k o ho => ?_⟩
  · have hb := h.below k o ho
    simp only [Opened.allocateOffset]
    push_cast
    omega
  · have hb := h.ackedBelow k o ho
    simp only [Opened.allocateOffset]
    push_cast
    omega

theorem Synced.allocateOffset (h : Synced n) : Synced n.allocateOffset.2 :=
  ⟨h.sound.allocateOffset, h.log, h.count, h.acked, h.ackedNonneg, h.tasks⟩

theorem Synced.placed (h : Synced n) (s : FileSegment) (record : Str) :
    Synced (n.placed s record) := by
  unfold Opened.placed
  split_ifs
  · exact h.allocateOffset.rotate
  · exact h.allocateOffset

theorem placed_acked (n : Opened) (s : FileSegment) (record : Str) (k : ℕ) :
    (n.placed s record).disk.acked k = n.disk.acked k := by
  unfold Opened.placed
  split_ifs <;> rfl

theorem placed_logAt (hd : n.disk.Sound) (s : FileSegment) (record : Str) (k : ℕ) :
    (n.placed s record).disk.logAt k = n.disk.logAt k := by
  unfold Opened.placed
  split_ifs
  · exact rotateSegment_logAt hd.allocateOffset k
  · rfl

theorem appendLog_logAt (d : Disk) (seq : ℕ) (text : Str) (k : ℕ) :
    (appendLog seq text d).logAt k = if k = seq then d.logAt k ++ text else d.logAt k := by
  simp only [Disk.logAt, appendLog, SortedMap.get?_insert]
  split_ifs with hk
  · rw [hk]
    rfl
  · rfl

theorem appendLog_records {d : Disk} {seq : ℕ} (he : Lines.Ended newline (d.logAt seq))
    (text : Str) (k : ℕ) :
    (appendLog seq text d).records k =
      if k = seq then d.records k ++ recordsOf text else d.records k := by
  rw [Disk.records, appendLog_logAt]
  split_ifs with hk
  · rw [hk, recordsOf_append he]
    rfl
  · rfl

theorem Disk.Sound.appendLog {d : Disk} (hd : d.Sound) {seq : ℕ}
    (he : Lines.Ended newline (d.logAt seq)) (hseq : seq ≤ d.metaSeq) {o : ℤ} {text : Str}
    (ht : LogReadable text) (hr : ((recordsOf text).map Prod.fst).Nodup)
    (ho : ∀ r ∈ recordsOf text, r.1 = o) (hfresh : ∀ k, o ∉ d.offsetsAt k)
    (hb : 0 ≤ o ∧ o < d.offset) : (appendLog seq text d).Sound := by
  have hrec := appendLog_records he text
  have hmem : ∀ k o', o' ∈ (Opened.appendLog seq text d).offsetsAt k →
      o' ∈ d.offsetsAt k ∨ (k = seq ∧ o' = o) := by
    intro k o' hm
    rw [Disk.offsetsAt, hrec] at hm
    split_ifs at hm with hk
    · rw [List.map_append, List.mem_append] at hm
      rcases hm with hm | hm
      · exact Or.inl hm
      · obtain ⟨r, hr, rfl⟩ := List.mem_map.mp hm
        exact Or.inr ⟨hk, ho r hr⟩
    · exact Or.inl hm
  refine ⟨fun k log hlog => ?_, hd.indexes, fun k => ?_, fun k k' o' h1 h2 => ?_,
    fun k o' ho' => ?_, fun k log hlog => ?_, hd.ackedBelow⟩
  · simp only [Opened.appendLog, SortedMap.get?_insert] at hlog
    split_ifs at hlog with hk
    · cases hlog
      apply LogReadable.append _ he ht
      rw [Disk.logAt]
      rcases hl : d.logs.get? seq with _ | log
      · exact logReadable_nil
      · exact hd.logs seq log hl
    · exact hd.logs k log hlog
  · rw [Disk.offsetsAt, hrec]
    split_ifs with hk
    · rw [List.map_append]
      refine List.nodup_append.mpr ⟨hd.nodup k, hr, fun a ha b hb he => ?_⟩
      obtain ⟨r, hr, rfl⟩ := List.mem_map.mp hb
      exact hfresh k (ho r hr ▸ he ▸ ha)
    · exact hd.nodup k
  · rcases hmem k o' h1 with m1 | ⟨rfl, rfl⟩ <;> rcases hmem k' o' h2 with m2 | ⟨rfl, m2⟩
    · exact hd.apart k k' o' m1 m2
    · exact absurd (m2 ▸ m1) (hfresh k)
    · exact absurd m2 (hfresh k')
    · rfl
  · rcases hmem k o' ho' with ho' | ⟨-, rfl⟩
    · exact hd.below k o' ho'
    · exact hb
  · simp only [Opened.appendLog, SortedMap.get?_insert] at hlog
    split_ifs at hlog with hk
    · rw [hk]
      exact hseq
    · exact hd.numbered k log hlog

section put

variable {s : FileSegment} {doc : Document} {clock : Clock} {float : PyFloat}

theorem offset_not_written (hd : n.disk.Sound) (s : FileSegment) (record : Str) (k : ℕ) :
    (n.disk.offset : ℤ) ∉ (n.placed s record).disk.offsetsAt k := by
  rw [Disk.offsetsAt, Disk.records, placed_logAt hd]
  intro hm
  have := (hd.below k _ hm).2
  omega

theorem offset_not_acked (hd : n.disk.Sound) (k : ℕ) :
    (n.disk.acked k).contains (n.disk.offset : ℤ) = false := by
  by_contra ha
  rw [Bool.not_eq_false] at ha
  have := (hd.ackedBelow k _ ha).2
  omega

theorem Synced.added (h : Synced n) {o : ℤ} (doc : Document) (clock : Clock) (float : PyFloat)
    (hs : n.queue.segmentsBySeq.get? s.seq = some s)
    (he : Lines.Ended newline (n.disk.logAt s.seq)) (hfresh : ∀ k, o ∉ n.disk.offsetsAt k)
    (hb : 0 ≤ o ∧ o < n.disk.offset) (hd : ∀ k, (n.disk.acked k).contains o = false)
    (ha : s.acked.contains o = false) :
    Synced (Opened.added float clock (.json doc) o (recordText o doc clock.stamp).length s
      { n with disk := appendLog s.seq (recordText o doc clock.stamp) n.disk }) := by
  obtain ⟨log, hlog, hsize⟩ := h.log s.seq s hs
  have hr : ∀ k, (appendLog s.seq (recordText o doc clock.stamp) n.disk).records k =
      if k = s.seq then n.disk.records k ++ [(o, doc)] else n.disk.records k := by
    intro k
    rw [appendLog_records he, recordsOf_record]
  have hget : ∀ k s', (Opened.added float clock (.json doc) o
      (recordText o doc clock.stamp).length s
      { n with disk := appendLog s.seq (recordText o doc clock.stamp) n.disk
        }).queue.segmentsBySeq.get? k = some s' →
      (k = s.seq ∧ s' = s.addRecord o (recordText o doc clock.stamp).length) ∨
        (k ≠ s.seq ∧ n.queue.segmentsBySeq.get? k = some s') := by
    intro k s' hg
    rw [added_bySeq, SortedMap.get?_insert] at hg
    split_ifs at hg with hk
    · cases hg
      exact Or.inl ⟨hk, rfl⟩
    · exact Or.inr ⟨hk, hg⟩
  refine ⟨h.sound.appendLog he (h.sound.numbered _ log hlog) (logReadable_record _ _ _)
    (by rw [recordsOf_record]; simp) (by rw [recordsOf_record]; simp) hfresh hb, fun k s' hg => ?_, fun k s' hg => ?_, fun k s' hg o' ho' => ?_, fun k s' hg => ?_,
    fun o' t k => ?_⟩
  · change ∃ log, (appendLog s.seq (recordText o doc clock.stamp) n.disk).logs.get? k =
      some log ∧ _
    simp only [appendLog, SortedMap.get?_insert]
    rcases hget k s' hg with ⟨rfl, rfl⟩ | ⟨hk, hg⟩
    · refine ⟨log ++ recordText o doc clock.stamp, by simp [hlog], ?_⟩
      simp [FileSegment.addRecord, hsize]
    · rw [if_neg hk]
      exact h.log k s' hg
  · change s'.recordCount =
      ((appendLog s.seq (recordText o doc clock.stamp) n.disk).records k).length
    rw [hr]
    rcases hget k s' hg with ⟨rfl, rfl⟩ | ⟨hk, hg⟩
    · rw [if_pos rfl, List.length_append, ← h.count _ s hs]
      rfl
    · rw [if_neg hk]
      exact h.count k s' hg
  · change o' ∈ (appendLog s.seq (recordText o doc clock.stamp) n.disk).offsetsAt k at ho'
    change s'.acked.contains o' = (n.disk.acked k).contains o'
    rw [Disk.offsetsAt, hr] at ho'
    rcases hget k s' hg with ⟨rfl, rfl⟩ | ⟨hk, hg⟩
    · rw [if_pos rfl, List.map_append, List.mem_append] at ho'
      rcases ho' with ho' | ho'
      · exact h.acked _ s hs o' ho'
      · obtain rfl : o' = o := by simpa using ho'
        rw [hd]
        exact ha
    · rw [if_neg hk] at ho'
      exact h.acked k s' hg o' ho'
  · rcases hget k s' hg with ⟨rfl, rfl⟩ | ⟨hk, hg⟩
    · exact h.ackedNonneg _ s hs
    · exact h.ackedNonneg k s' hg
  · rw [added_tasks, added_bySeq, SortedMap.get?_insert, SortedMap.contains_insert]
    change _ ↔ _ ∧ ∃ doc', t = .json doc' ∧
      ((o', doc') ∈ (appendLog s.seq (recordText o doc clock.stamp) n.disk).records k ∧
        (n.disk.acked k).contains o' = false)
    rw [hr]
    by_cases ho : o' = o
    · subst ho
      rw [if_pos rfl]
      constructor
      · intro hv
        cases hv
        refine ⟨by simp, doc, rfl, ?_, hd _⟩
        rw [if_pos rfl]
        exact List.mem_append_right _ List.mem_cons_self
      · rintro ⟨-, doc', rfl, hm, -⟩
        split_ifs at hm with hk
        · rcases List.mem_append.mp hm with hm | hm
          · exact absurd (Disk.mem_offsetsAt hm) (hfresh k)
          · obtain ⟨-, rfl⟩ : o' = o' ∧ doc' = doc := by simpa using hm
            rw [hk]
        · exact absurd (Disk.mem_offsetsAt hm) (hfresh k)
    · rw [if_neg ho, h.tasks]
      have hrec : ∀ doc', ((o', doc') ∈ if k = s.seq then n.disk.records k ++ [(o, doc)]
          else n.disk.records k) ↔ (o', doc') ∈ n.disk.records k := by
        intro doc'
        split_ifs
        · simp [ho]
        · rfl
      simp only [hrec, Bool.or_eq_true, decide_eq_true_eq]
      constructor
      · rintro ⟨hk, hrest⟩
        exact ⟨Or.inr hk, hrest⟩
      · rintro ⟨rfl | hk, hrest⟩
        · exact ⟨by rw [SortedMap.contains, hs]; rfl, hrest⟩
        · exact ⟨hk, hrest⟩

theorem Synced.written (h : Synced n) (hs : n.Stored) (hc : n.queue.current? = some s)
    (he : Lines.Ended newline (n.disk.logAt
      (n.placedSegment s (recordText n.disk.offset doc clock.stamp)).seq)) :
    Synced (n.written float clock doc s) := by
  have hoff := (placed_frame n s (recordText n.disk.offset doc clock.stamp)).2.2.2
  apply (h.placed s (recordText n.disk.offset doc clock.stamp)).added doc clock float
    (hs.placedSegment_get? hc (recordText n.disk.offset doc clock.stamp))
  · rw [placed_logAt h.sound]
    exact he
  · exact offset_not_written h.sound s _
  · rw [hoff]
    omega
  · intro k
    rw [placed_acked]
    exact offset_not_acked h.sound k
  · exact hs.placedSegment_acked hc _

end put

section settle

variable {o : ℤ} {e : FileEntry} {s : FileSegment}

theorem persist_acked (n : Opened) (s : FileSegment) (k : ℕ) :
    (n.persistSegmentState s).disk.acked k = if k = s.seq then s.acked else n.disk.acked k := by
  simp only [Disk.acked, persistSegmentState, SortedMap.get?_insert]
  split_ifs
  · exact ackedOf_index s
  · rfl

theorem Synced.settle (h : Synced n) (hs : n.Stored) (he : n.queue.entries.get? o = some e)
    (hseg : n.queue.segmentsBySeq.get? e.segmentSeq = some s) : Synced (n.settle o s) := by
  obtain ⟨s', hs', hseq, ha⟩ := hs.owned_entry he
  rw [hseg] at hs'
  cases hs'
  have ht : n.queue.tasks.get? o = some (e.task, e.segmentSeq) := by
    simp [FileWorkQueue.tasks_get?, he]
  obtain ⟨-, doc, htask, hm, -⟩ := (h.tasks o _ _).mp ht
  have hoff := Disk.mem_offsetsAt hm
  have hack : ∀ o', (s.ack o).acked.contains o' = (decide (o' = o) || s.acked.contains o') := by
    intro o'
    rw [ack_of_not_mem ha]
    exact SortedMap.contains_insert _ _ _ _
  have hdisk : ∀ k, (n.settle o s).disk.acked k =
      if k = e.segmentSeq then (s.ack o).acked else n.disk.acked k := by
    intro k
    have hp := persist_acked ⟨(n.settle o s).queue, n.disk⟩ (s.ack o) k
    rw [ack_seq, hseq] at hp
    exact hp
  have hnonneg : ∀ o', (s.ack o).acked.contains o' = true → 0 ≤ o' ∧ o' < n.disk.offset := by
    intro o' ho'
    rw [hack, Bool.or_eq_true] at ho'
    rcases ho' with ho' | ho'
    · rw [of_decide_eq_true ho']
      exact h.sound.below _ o hoff
    · exact ⟨h.ackedNonneg _ s hseg o' ho', hs.ackedBelow _ s o' hseg ho'⟩
  have hget : ∀ k s', (n.settle o s).queue.segmentsBySeq.get? k = some s' →
      (k = e.segmentSeq ∧ s' = s.ack o) ∨
        (k ≠ e.segmentSeq ∧ n.queue.segmentsBySeq.get? k = some s') := by
    intro k s' hg
    rw [settle_bySeq, SortedMap.get?_insert, ack_seq, hseq] at hg
    split_ifs at hg with hk
    · cases hg
      exact Or.inl ⟨hk, rfl⟩
    · exact Or.inr ⟨hk, hg⟩
  have hfields : (s.ack o).sizeBytes = s.sizeBytes ∧ (s.ack o).recordCount = s.recordCount := by
    rw [ack_of_not_mem ha]
    exact ⟨rfl, rfl⟩
  refine ⟨⟨h.sound.logs, fun k => ?_, h.sound.nodup, h.sound.apart, h.sound.below,
    h.sound.numbered, fun k o' ho' => ?_⟩, fun k s' hg => ?_, fun k s' hg => ?_,
    fun k s' hg o' ho' => ?_, fun k s' hg => ?_, fun o' t k => ?_⟩
  · change IndexReadable ((n.disk.indexes.insert (s.ack o).seq (indexJson (s.ack o)).dumps).get? k)
    rw [SortedMap.get?_insert]
    split_ifs
    · exact indexReadable_index (fun o' ho' => (hnonneg o' ho').1)
    · exact h.sound.indexes k
  · rw [hdisk] at ho'
    split_ifs at ho'
    · exact hnonneg o' ho'
    · exact h.sound.ackedBelow k o' ho'
  · rcases hget k s' hg with ⟨rfl, rfl⟩ | ⟨hk, hg⟩
    · rw [hfields.1]
      exact h.log _ s hseg
    · exact h.log k s' hg
  · rcases hget k s' hg with ⟨rfl, rfl⟩ | ⟨hk, hg⟩
    · rw [hfields.2]
      exact h.count _ s hseg
    · exact h.count k s' hg
  · rw [hdisk]
    rcases hget k s' hg with ⟨rfl, rfl⟩ | ⟨hk, hg⟩
    · rw [if_pos rfl]
    · rw [if_neg hk]
      exact h.acked k s' hg o' ho'
  · rcases hget k s' hg with ⟨rfl, rfl⟩ | ⟨hk, hg⟩
    · exact fun o' ho' => (hnonneg o' ho').1
    · exact h.ackedNonneg k s' hg
  · rw [settle_tasks, SortedMap.get?_erase, settle_bySeq, ack_seq, hseq,
      SortedMap.contains_insert]
    change _ ↔ _ ∧ ∃ doc', t = .json doc' ∧ ((o', doc') ∈ n.disk.records k ∧
      ((n.settle o s).disk.acked k).contains o' = false)
    rw [hdisk]
    have hkey : (decide (k = e.segmentSeq) || n.queue.segmentsBySeq.contains k) =
        n.queue.segmentsBySeq.contains k := by
      by_cases hk : k = e.segmentSeq
      · simp [hk, SortedMap.contains, hseg]
      · simp [hk]
    rw [hkey]
    by_cases ho : o' = o
    · subst ho
      rw [if_pos rfl]
      constructor
      · exact fun hv => by cases hv
      · rintro ⟨-, doc', rfl, hm', hacked⟩
        obtain rfl := h.sound.apart k e.segmentSeq o' (Disk.mem_offsetsAt hm') hoff
        rw [if_pos rfl, hack] at hacked
        simp at hacked
    · rw [if_neg ho, h.tasks]
      refine and_congr_right (fun _ => exists_congr fun doc' => and_congr_right fun _ =>
        and_congr_right fun hm' => ?_)
      by_cases hk : k = e.segmentSeq
      · subst hk
        rw [if_pos rfl, hack, h.acked _ s hseg o' (Disk.mem_offsetsAt hm')]
        simp [ho]
      · rw [if_neg hk]

end settle

section compaction

variable {head : ℕ} {rest : List ℕ} {s : FileSegment}

theorem removeSegment_logAt (n : Opened) (head : ℕ) (rest : List ℕ) (k : ℕ) :
    (n.removeSegment head rest).disk.logAt k = if k = head then [] else n.disk.logAt k := by
  simp only [Disk.logAt, removeSegment, SortedMap.get?_erase]
  split_ifs <;> rfl

theorem removeSegment_records (n : Opened) (head : ℕ) (rest : List ℕ) (k : ℕ) :
    (n.removeSegment head rest).disk.records k = if k = head then [] else n.disk.records k := by
  rw [Disk.records, removeSegment_logAt]
  split_ifs <;> rfl

theorem removeSegment_acked (n : Opened) (head : ℕ) (rest : List ℕ) (k : ℕ) :
    (n.removeSegment head rest).disk.acked k =
      if k = head then SortedMap.empty else n.disk.acked k := by
  simp only [Disk.acked, removeSegment, SortedMap.get?_erase]
  split_ifs <;> rfl

theorem Disk.Sound.removeSegment (hd : n.disk.Sound) (head : ℕ) (rest : List ℕ) :
    (n.removeSegment head rest).disk.Sound := by
  have hmem : ∀ k o, o ∈ (n.removeSegment head rest).disk.offsetsAt k → o ∈ n.disk.offsetsAt k := by
    intro k o ho
    rw [Disk.offsetsAt, removeSegment_records] at ho
    split_ifs at ho
    · cases ho
    · exact ho
  refine ⟨fun k log hlog => ?_, fun k => ?_, fun k => ?_,
    fun k k' o h1 h2 => hd.apart k k' o (hmem k o h1) (hmem k' o h2),
    fun k o ho => hd.below k o (hmem k o ho), fun k log hlog => ?_, fun k o ho => ?_⟩
  · simp only [Opened.removeSegment, SortedMap.get?_erase] at hlog
    split_ifs at hlog
    exact hd.logs k log hlog
  · simp only [Opened.removeSegment, SortedMap.get?_erase]
    split_ifs
    · exact indexReadable_none
    · exact hd.indexes k
  · rw [Disk.offsetsAt, removeSegment_records]
    split_ifs
    · exact List.nodup_nil
    · exact hd.nodup k
  · simp only [Opened.removeSegment, SortedMap.get?_erase] at hlog
    split_ifs at hlog
    exact hd.numbered k log hlog
  · rw [removeSegment_acked] at ho
    split_ifs at ho
    · cases ho
    · exact hd.ackedBelow k o ho

theorem Synced.removeSegment (h : Synced n) (hs : n.Stored)
    (hg : n.queue.segmentsBySeq.get? head = some s) (hp : s.pending = 0) (rest : List ℕ) :
    Synced (n.removeSegment head rest) := by
  have hget : ∀ k s', (n.removeSegment head rest).queue.segmentsBySeq.get? k = some s' →
      k ≠ head ∧ n.queue.segmentsBySeq.get? k = some s' := by
    intro k s' hg
    simp only [Opened.removeSegment, SortedMap.get?_erase] at hg
    split_ifs at hg with hk
    exact ⟨hk, hg⟩
  refine ⟨h.sound.removeSegment head rest, fun k s' hg => ?_, fun k s' hg => ?_,
    fun k s' hg o ho => ?_, fun k s' hg => h.ackedNonneg k s' (hget k s' hg).2,
    fun o t k => ?_⟩
  · obtain ⟨hk, hg⟩ := hget k s' hg
    change ∃ log, (n.disk.logs.erase head).get? k = some log ∧ _
    rw [SortedMap.get?_erase, if_neg hk]
    exact h.log k s' hg
  · obtain ⟨hk, hg⟩ := hget k s' hg
    rw [removeSegment_records, if_neg hk]
    exact h.count k s' hg
  · obtain ⟨hk, hg⟩ := hget k s' hg
    rw [Disk.offsetsAt, removeSegment_records, if_neg hk] at ho
    rw [removeSegment_acked, if_neg hk]
    exact h.acked k s' hg o ho
  · change n.queue.tasks.get? o = some (t, k) ↔
      (n.queue.segmentsBySeq.erase head).contains k = true ∧ _
    simp only [Disk.Holds, removeSegment_records, removeSegment_acked, SortedMap.contains_erase]
    by_cases hk : k = head
    · subst hk
      have hz := hs.pending k s hg
      rw [hp, FileWorkQueue.queuedIn, eq_comm, List.countP_eq_zero] at hz
      constructor
      · intro ht
        exact absurd (by simp) (hz _ (SortedMap.get?_eq_some_iff.mp ht))
      · rintro ⟨hc, -⟩
        simp at hc
    · simp only [hk, if_false, decide_false, Bool.not_false, Bool.true_and]
      exact h.tasks o t k

end compaction

structure Durable (n : Opened) : Prop where
  consistent : n.Consistent
  synced : Synced n
  ended : ∀ k, Lines.Ended newline (n.disk.logAt k)
  cover : ∀ k log, n.disk.logs.get? k = some log → n.queue.segmentsBySeq.contains k = true
  newest : n.queue.currentSegment = some n.disk.metaSeq

theorem Durable.rotate (h : Durable n) : Durable n.rotateSegment := by
  refine ⟨h.consistent.rotate, h.synced.rotate, fun k => ?_, fun k log hlog => ?_, rfl⟩
  · rw [rotateSegment_logAt h.synced.sound]
    exact h.ended k
  · rw [rotateSegment_logs h.synced.sound, SortedMap.get?_insert] at hlog
    rw [rotateSegment_bySeq, SortedMap.contains_insert]
    split_ifs at hlog with hk
    · simp [hk]
    · simp [h.cover k log hlog]

theorem Durable.maybeRotate (h : Durable n) : Durable n.maybeRotate := by
  rcases maybeRotate_eq n with hr | hr
  · rw [hr]
    exact h
  · rw [hr]
    exact h.rotate

theorem Durable.sameTasks (h : Durable n) {q' : FileWorkQueue} (hl : q'.Leases)
    (hs : n.queue.SameTasks q') : Durable { n with queue := q' } := by
  refine ⟨h.consistent.sameTasks hl hs, ⟨h.synced.sound, ?_, ?_, ?_, ?_, ?_⟩, h.ended, ?_,
    hs.currentSegment.trans h.newest⟩
  · rw [hs.segmentsBySeq]
    exact h.synced.log
  · rw [hs.segmentsBySeq]
    exact h.synced.count
  · rw [hs.segmentsBySeq]
    exact h.synced.acked
  · rw [hs.segmentsBySeq]
    exact h.synced.ackedNonneg
  · rw [hs.segmentsBySeq, hs.tasks]
    exact h.synced.tasks
  · rw [hs.segmentsBySeq]
    exact h.cover

theorem written_logAt (hd : n.disk.Sound) (float : PyFloat) (clock : Clock) (doc : Document)
    (s : FileSegment) (k : ℕ) :
    (n.written float clock doc s).disk.logAt k =
      if k = (n.placedSegment s (recordText n.disk.offset doc clock.stamp)).seq then
        n.disk.logAt k ++ recordText n.disk.offset doc clock.stamp
      else n.disk.logAt k := by
  have h := appendLog_logAt (n.placed s (recordText n.disk.offset doc clock.stamp)).disk
    (n.placedSegment s (recordText n.disk.offset doc clock.stamp)).seq
    (recordText n.disk.offset doc clock.stamp) k
  rw [placed_logAt hd] at h
  exact h

theorem Durable.placed (h : Durable n) (s : FileSegment) (record : Str) :
    (∀ k log, (n.placed s record).disk.logs.get? k = some log →
      (n.placed s record).queue.segmentsBySeq.contains k = true) ∧
      (n.placed s record).queue.currentSegment =
        some (n.placed s record).disk.metaSeq := by
  have ha : Durable n.allocateOffset.2 :=
    ⟨⟨(h.consistent.leases.congr n.allocateOffset.2.queue rfl rfl rfl).1,
      h.consistent.stored.allocateOffset, h.consistent.active⟩, h.synced.allocateOffset, h.ended,
      h.cover, h.newest⟩
  unfold Opened.placed
  split_ifs
  · exact ⟨ha.rotate.cover, ha.rotate.newest⟩
  · exact ⟨ha.cover, ha.newest⟩

theorem Durable.written (h : Durable n) (float : PyFloat) (clock : Clock) (doc : Document)
    {s : FileSegment} (hc : n.queue.current? = some s) : Durable (n.written float clock doc s) := by
  refine ⟨(h.consistent.written float clock doc hc).1,
    h.synced.written h.consistent.stored hc (h.ended _), fun k => ?_, fun k log hlog => ?_,
    (added_current ..).trans (h.placed s _).2⟩
  · rw [written_logAt h.synced.sound]
    split_ifs
    · exact (h.ended k).append (ended_record _ _ _)
    · exact h.ended k
  · rw [Opened.written, added_bySeq, SortedMap.contains_insert]
    simp only [Opened.written, Opened.added, appendLog, SortedMap.get?_insert] at hlog
    split_ifs at hlog with hk
    · simp [hk]
    · simp [(h.placed s _).1 k log hlog]

theorem Durable.put (h : Durable n) (float : PyFloat) (clock : Clock) (task : Task) :
    Durable (n.put float clock task).2 := by
  obtain ⟨s, hc⟩ := h.consistent.active.current?
  cases task with
  | json doc =>
    rw [put_json float clock doc hc]
    exact (h.written float clock doc hc).maybeRotate
  | other t =>
    have hcons := (h.consistent.put float clock (.other t)).1
    rw [put_other float clock t hc] at hcons ⊢
    exact ⟨hcons, h.synced.allocateOffset, h.ended, h.cover, h.newest⟩

theorem Durable.compactLoop {segs : List ℕ} (h : Durable n) (hl : n.queue.segments = segs) :
    Durable (compactLoop segs n) := by
  induction segs generalizing n with
  | nil => exact h
  | cons head rest ih =>
    rcases hs : n.queue.segmentsBySeq.get? head with _ | s
    · simp only [Opened.compactLoop, hs]
      exact h
    · simp only [Opened.compactLoop, hs]
      split_ifs with hp hc
      · exact h
      · exact h
      · apply ih _ rfl
        have hst := h.consistent.stored.removeSegment hl hs (by omega)
        have hact := h.consistent.active.removeSegment hc rest
        have hl := (h.consistent.leases.congr (n.removeSegment head rest).queue rfl rfl rfl).1
        refine ⟨⟨hl, hst, hact⟩, h.synced.removeSegment h.consistent.stored hs (by omega) rest,
          fun k => ?_, fun k log hlog => ?_, h.newest⟩
        · rw [removeSegment_logAt]
          split_ifs
          · exact Lines.Ended.nil
          · exact h.ended k
        · simp only [removeSegment, SortedMap.get?_erase] at hlog
          split_ifs at hlog with hk
          change (n.queue.segmentsBySeq.erase head).contains k = true
          rw [SortedMap.contains_erase, h.cover k log hlog]
          simp [hk]

theorem Durable.close (h : Durable n) {o : ℤ} {e : FileEntry} {s : FileSegment}
    (he : n.queue.entries.get? o = some e) (hk : e.token ≠ none)
    (hs : n.queue.segmentsBySeq.get? e.segmentSeq = some s) :
    Durable (maybeCompactHead (n.settle o s)) := by
  apply Durable.compactLoop _ rfl
  obtain ⟨hl, -⟩ := h.consistent.leases.erase he hk
  refine ⟨⟨?_, h.consistent.stored.settle he hs, h.consistent.active.settle o s⟩,
    h.synced.settle h.consistent.stored he hs, h.ended, fun k log hlog => ?_, h.newest⟩
  · refine (hl.congr _ ?_ ?_ ?_).1 <;> rfl
  · rw [settle_bySeq, SortedMap.contains_insert, h.cover k log hlog, Bool.or_true]

theorem Durable.ack (h : Durable n) (o : ℤ) (k : Str) : Durable (n.ack o k) := by
  rcases he : n.queue.entries.get? o with _ | e
  · have hr : n.ack o k = n := by simp [Opened.ack, he]
    rw [hr]
    exact h
  · by_cases hk : e.token = some k
    · obtain ⟨s, hs, -, -⟩ := h.consistent.stored.owned_entry he
      have hr : n.ack o k = maybeCompactHead (n.settle o s) := by
        simp [Opened.ack, he, hk, hs]
      rw [hr]
      exact h.close he (by simp [hk]) hs
    · have hr : n.ack o k = n := by simp [Opened.ack, he, hk]
      rw [hr]
      exact h

theorem Durable.nack (h : Durable n) (now : ℚ) (o : ℤ) (k : Str) (requeue : Bool) :
    Durable (n.nack now o k requeue) := by
  rcases he : n.queue.entries.get? o with _ | e
  · have hr : n.nack now o k requeue = n := by simp [Opened.nack, he]
    rw [hr]
    exact h
  · by_cases hk : e.token = some k
    · cases requeue with
      | true =>
        have hr : n.nack now o k true = { n with queue :=
            (n.queue.setEntry o (requeued now e)).pushReady o (max e.availableAt now) } := by
          simp [Opened.nack, he, hk, requeued]
        rw [hr]
        exact h.sameTasks (h.consistent.leases.free rfl rfl o _).1
          ((FileWorkQueue.setEntry_same (requeued now e) he rfl rfl).trans
            (FileWorkQueue.pushReady_same _ o _))
      | false =>
        obtain ⟨s, hs, -, -⟩ := h.consistent.stored.owned_entry he
        have hr : n.nack now o k false = maybeCompactHead (n.settle o s) := by
          simp [Opened.nack, he, hk, hs]
        rw [hr]
        exact h.close he (by simp [hk]) hs
    · have hr : n.nack now o k requeue = n := by simp [Opened.nack, he, hk]
      rw [hr]
      exact h

theorem Durable.lease (h : Durable n) (now : ℚ) (count ms : ℤ) :
    Durable (n.lease now count ms).2 := by
  by_cases hc : count ≤ 0
  · have hr : n.lease now count ms = ([], n) := by
      simp [Opened.lease, FileWorkQueue.lease, hc]
    rw [hr]
    exact h
  · obtain ⟨⟨hl, hs⟩, -⟩ := FileWorkQueue.lease_spec now ms hc h.consistent.leases
    exact h.sameTasks hl hs

theorem Durable.call (h : Durable n) (float : PyFloat) (c : Clock × Call) :
    Durable ((workQueue float).call c.1 c.2 n).2 := by
  obtain ⟨clock, call⟩ := c
  cases call with
  | put task =>
    have hp := h.put float clock task
    simp only [WorkQueue.call, workQueue]
    rcases hr : n.put float clock task with ⟨_ | _, n'⟩
    · rw [hr] at hp
      exact hp
    · rw [hr] at hp
      exact hp
  | lease count ms => exact h.lease clock.monotonic count ms
  | ack o k => exact h.ack o k
  | nack o k requeue => exact h.nack clock.monotonic o k requeue
  | reschedule o t =>
    obtain ⟨⟨hl, hs⟩, -⟩ := FileWorkQueue.reschedule_spec h.consistent.leases o t
    exact h.sameTasks hl hs

theorem Durable.after (h : Durable n) (float : PyFloat) (calls : List (Clock × Call)) :
    Durable ((workQueue float).after calls n) := by
  induction calls generalizing n with
  | nil => exact h
  | cons c calls ih => exact ih (h.call float c)

theorem sound_empty : Disk.Sound {} := by
  refine ⟨nofun, fun k => indexReadable_none, fun k => List.nodup_nil, ?_, ?_, nofun, ?_⟩
  · exact fun k k' o ho => nomatch ho
  · exact fun k o ho => nomatch ho
  · exact fun k o ho => nomatch ho

theorem durable_empty (cfg : Config) : Durable (rotateSegment ⟨emptyQueue cfg, {}⟩) := by
  have hsync : Synced ⟨emptyQueue cfg, {}⟩ := by
    refine ⟨sound_empty, nofun, nofun, nofun, nofun, fun o t k => ⟨nofun, ?_⟩⟩
    rintro ⟨hk, -⟩
    cases hk
  refine ⟨consistent_empty cfg, hsync.rotate, fun k => ?_, fun k log hlog => ?_, rfl⟩
  · rw [rotateSegment_logAt hsync.sound]
    exact Lines.Ended.nil
  · rw [rotateSegment_logs hsync.sound, SortedMap.get?_insert] at hlog
    rw [rotateSegment_bySeq, SortedMap.contains_insert]
    split_ifs at hlog with hk
    · simp [hk]
    · cases hlog

def returned (w : WorkQueue Opened) : Opened → List (Clock × Call) → List ℤ
  | _, [] => []
  | n, c :: calls =>
    let r := w.call c.1 c.2 n
    match r.1 with
    | .offset o => o :: returned w r.2 calls
    | _ => returned w r.2 calls

theorem call_offset_le (h : n.Consistent) (float : PyFloat) (c : Clock × Call) :
    n.disk.offset ≤ ((workQueue float).call c.1 c.2 n).2.disk.offset ∧
      ∀ o, ((workQueue float).call c.1 c.2 n).1 = .offset o →
        o < ((workQueue float).call c.1 c.2 n).2.disk.offset := by
  obtain ⟨clock, call⟩ := c
  cases call with
  | put task =>
    obtain ⟨-, ho, hr⟩ := h.put float clock task
    simp only [WorkQueue.call, workQueue]
    rcases hput : n.put float clock task with ⟨r, n'⟩
    rw [hput] at ho hr
    simp only at ho hr
    rcases hr with ⟨rfl, -⟩ | ⟨⟨err, rfl⟩, -⟩
    · refine ⟨by simp only; omega, fun o hres => ?_⟩
      cases hres
      simp only [ho]
      push_cast
      omega
    · exact ⟨by simp only; omega, fun o hres => by cases hres⟩
  | lease count ms =>
    exact ⟨(h.lease clock.monotonic count ms).2.ge, fun o hres => by cases hres⟩
  | ack o k => exact ⟨(h.ack o k).2.2.ge, fun o hres => by cases hres⟩
  | nack o k requeue =>
    exact ⟨(h.nack clock.monotonic o k requeue).2.2.ge, fun o hres => by cases hres⟩
  | reschedule o t => exact ⟨le_rfl, fun o hres => by cases hres⟩

theorem returned_lt (h : n.Consistent) (float : PyFloat) (calls : List (Clock × Call)) :
    n.disk.offset ≤ ((workQueue float).after calls n).disk.offset ∧
      ∀ o ∈ returned (workQueue float) n calls,
        o < ((workQueue float).after calls n).disk.offset := by
  induction calls generalizing n with
  | nil => exact ⟨le_rfl, fun o ho => nomatch ho⟩
  | cons c calls ih =>
    obtain ⟨hle, hnew⟩ := call_offset_le h float c
    obtain ⟨hle', hrest⟩ := ih (h.call float c)
    rw [WorkQueue.after_cons]
    refine ⟨hle.trans hle', fun o ho => ?_⟩
    have hcast : (((workQueue float).call c.1 c.2 n).2.disk.offset : ℤ) ≤
        ((workQueue float).after calls ((workQueue float).call c.1 c.2 n).2).disk.offset :=
      Int.ofNat_le.mpr hle'
    simp only [returned] at ho
    split at ho
    · rename_i o' hres
      rcases List.mem_cons.mp ho with rfl | ho
      · exact lt_of_lt_of_le (hnew o hres) hcast
      · exact hrest o ho
    · exact hrest o ho

theorem Durable.reopen (h : Durable n) (hseq : ∀ k ∈ n.disk.logs.keys, k < 10 ^ 6)
    (cfg : Config) (clock : Clock) :
    ∃ m, init cfg clock n.disk = .ok m ∧ Reopened cfg n.disk m ∧
      ∀ o, (m.queue.entries.get? o).map FileEntry.task =
        (n.queue.entries.get? o).map FileEntry.task := by
  obtain ⟨m, hinit, hm⟩ := reopened cfg clock h.synced.sound
  refine ⟨m, hinit, hm, fun o => ?_⟩
  have htasks : m.queue.tasks = n.queue.tasks := by
    apply SortedMap.ext
    intro o
    apply Option.ext
    rintro ⟨t, k⟩
    rw [hm.tasks, h.synced.tasks]
    constructor
    · rintro ⟨-, doc, rfl, hrec, ha⟩
      refine ⟨?_, doc, rfl, hrec, ha⟩
      rcases hlog : n.disk.logs.get? k with _ | log
      · rw [Disk.records_of_none hlog] at hrec
        cases hrec
      · exact h.cover k log hlog
    · rintro ⟨hk, hrest⟩
      obtain ⟨s, hs⟩ := Option.isSome_iff_exists.mp hk
      obtain ⟨log, hlog, -⟩ := h.synced.log k s hs
      refine ⟨hseq k ?_, hrest⟩
      rw [SortedMap.mem_keys_iff, SortedMap.contains, hlog]
      rfl
  have ho := congrArg (fun v => (SortedMap.get? v o).map Prod.fst) htasks
  simp only [FileWorkQueue.tasks_get?, Option.map_map] at ho
  exact ho

theorem reopen_restores_queue (cfg cfg' : Config) (clock clock' : Clock)
    (calls : List (Clock × Call)) (n : Opened) (hn : init cfg clock {} = .ok n)
    (hseq : ∀ k ∈ ((workQueue cfg.float).after calls n).disk.logs.keys, k < 10 ^ 6) :
    ∃ m, init cfg' clock' ((workQueue cfg.float).after calls n).disk = .ok m ∧
      (∀ o, (m.queue.entries.get? o).map FileEntry.task =
        (((workQueue cfg.float).after calls n).queue.entries.get? o).map FileEntry.task) ∧
      Unleased m.queue ∧
      ∀ clock'' doc, ∃ o, (m.put cfg'.float clock'' (.json doc)).1 = .ok o ∧
        ∀ o' ∈ returned (workQueue cfg.float) n calls, o' < o := by
  rw [init_empty] at hn
  cases hn
  have hd := (durable_empty cfg).after cfg.float calls
  obtain ⟨m, hinit, hm, htasks⟩ := hd.reopen hseq cfg' clock'
  refine ⟨m, hinit, htasks, hm.unleased, fun clock'' doc => ?_⟩
  obtain ⟨s, hc⟩ := hm.consistent.active.current?
  refine ⟨m.disk.offset, by rw [put_json cfg'.float clock'' doc hc], fun o' ho' => ?_⟩
  rw [hm.offset]
  exact (returned_lt (consistent_empty cfg) cfg.float calls).2 o' ho'

def ackedOnce : List (Clock × Call) :=
  [(clockAt 0, .put plainTask), (clockAt 0, .put plainTask), (clockAt 1, .lease 1 1000),
    (clockAt 1, .ack 0 (leaseToken 1))]

theorem reopen_restores_acked :
    ∃ m, init plainConfig (clockAt 2) ((workQueue plainConfig.float).after ackedOnce
        (rotateSegment ⟨emptyQueue plainConfig, {}⟩)).disk = .ok m ∧
      m.queue.entries.get? 0 = none ∧ m.queue.entries.get? 1 ≠ none := by
  obtain ⟨m, hinit, htasks, -, -⟩ := reopen_restores_queue plainConfig plainConfig (clockAt 0)
    (clockAt 2) ackedOnce _ (init_empty plainConfig (clockAt 0)) (by decide +kernel)
  have hlive : (((workQueue plainConfig.float).after ackedOnce
        (rotateSegment ⟨emptyQueue plainConfig, {}⟩)).queue.entries.get? 0).isSome = false ∧
      (((workQueue plainConfig.float).after ackedOnce
        (rotateSegment ⟨emptyQueue plainConfig, {}⟩)).queue.entries.get? 1).isSome = true := by
    decide +kernel
  have hsome : ∀ o, (m.queue.entries.get? o).isSome = (((workQueue plainConfig.float).after
      ackedOnce (rotateSegment ⟨emptyQueue plainConfig, {}⟩)).queue.entries.get? o).isSome := by
    intro o
    rw [← Option.isSome_map, htasks o, Option.isSome_map]
  refine ⟨m, hinit, ?_, ?_⟩
  · have h0 := (hsome 0).trans hlive.1
    rwa [Option.isSome_eq_false_iff, Option.isNone_iff_eq_none] at h0
  · have h1 := (hsome 1).trans hlive.2
    exact Option.isSome_iff_ne_none.mp h1

end TraceMind.Queue
