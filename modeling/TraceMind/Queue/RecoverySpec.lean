import TraceMind.Queue.Disk
import TraceMind.Queue.FileSpec

namespace TraceMind.Queue

open Opened

namespace Disk

def logAt (d : Disk) (k : ℕ) : Str := (d.logs.get? k).getD []

def records (d : Disk) (k : ℕ) : List (ℤ × Document) := recordsOf (d.logAt k)

def offsetsAt (d : Disk) (k : ℕ) : List ℤ := (d.records k).map Prod.fst

def acked (d : Disk) (k : ℕ) : OffsetSet := ackedOf (d.indexes.get? k)

def Holds (d : Disk) (k : ℕ) (o : ℤ) (doc : Document) : Prop :=
  (o, doc) ∈ d.records k ∧ (d.acked k).contains o = false

structure Sound (d : Disk) : Prop where
  logs : ∀ k log, d.logs.get? k = some log → LogReadable log
  indexes : ∀ k, IndexReadable (d.indexes.get? k)
  nodup : ∀ k, (d.offsetsAt k).Nodup
  apart : ∀ k k' o, o ∈ d.offsetsAt k → o ∈ d.offsetsAt k' → k = k'
  below : ∀ k, ∀ o ∈ d.offsetsAt k, 0 ≤ o ∧ o < d.offset
  numbered : ∀ k log, d.logs.get? k = some log → k ≤ d.metaSeq
  ackedBelow : ∀ k o, (d.acked k).contains o = true → 0 ≤ o ∧ o < d.offset

structure Alike (d d' : Disk) : Prop where
  logs : d'.logs = d.logs
  offset : d'.offset = d.offset
  metaSeq : d'.metaSeq = d.metaSeq
  acked : ∀ k, ∀ o ∈ d.offsetsAt k, (d'.acked k).contains o = (d.acked k).contains o

theorem Alike.refl (d : Disk) : Alike d d := ⟨rfl, rfl, rfl, fun _ _ _ => rfl⟩

theorem records_congr {d d' : Disk} {k : ℕ} (h : d'.logs.get? k = d.logs.get? k) :
    d'.records k = d.records k := by
  rw [records, records, logAt, logAt, h]

theorem records_of_none {d : Disk} {k : ℕ} (h : d.logs.get? k = none) : d.records k = [] := by
  rw [records, logAt, h]
  rfl

theorem Alike.records {d d' : Disk} (h : Alike d d') (k : ℕ) : d'.records k = d.records k :=
  records_congr (by rw [h.logs])

theorem mem_offsetsAt {d : Disk} {k : ℕ} {o : ℤ} {doc : Document} (h : (o, doc) ∈ d.records k) :
    o ∈ d.offsetsAt k := List.mem_map.mpr ⟨(o, doc), h, rfl⟩

theorem Alike.holds {d d' : Disk} (h : Alike d d') (k : ℕ) (o : ℤ) (doc : Document) :
    d'.Holds k o doc ↔ d.Holds k o doc := by
  rw [Holds, Holds, h.records]
  refine and_congr_right (fun hm => ?_)
  rw [h.acked k o (mem_offsetsAt hm)]

end Disk

section records

variable (float : PyFloat) (clock : Clock) (seq : ℕ) (acked : OffsetSet) {q : FileWorkQueue}

structure SameSegments (q q' : FileWorkQueue) : Prop where
  segments : q'.segments = q.segments
  segmentsBySeq : q'.segmentsBySeq = q.segmentsBySeq
  currentSegment : q'.currentSegment = q.currentSegment
  nextOffset : q'.nextOffset = q.nextOffset
  v2Enabled : q'.v2Enabled = q.v2Enabled
  segmentMaxBytes : q'.segmentMaxBytes = q.segmentMaxBytes

def Unleased (q : FileWorkQueue) : Prop := ∀ o e, q.entries.get? o = some e → e.token = none

theorem loadRecord_spec {r : ℤ × Document} (hl : q.Leases) (hu : Unleased q)
    (ha : acked.contains r.1 = false) :
    (loadRecord float clock seq acked q r).Leases ∧
      Unleased (loadRecord float clock seq acked q r) ∧
      (loadRecord float clock seq acked q r).tasks = q.tasks.insert r.1 (.json r.2, seq) ∧
      SameSegments q (loadRecord float clock seq acked q r) := by
  have hr : loadRecord float clock seq acked q r = (q.setEntry r.1
      { task := .json r.2, segmentSeq := seq,
        availableAt := extractAvailableAt float (.json r.2) clock }).pushReady r.1
        (extractAvailableAt float (.json r.2) clock) := by
    simp [loadRecord, ha]
  have hsame := FileWorkQueue.pushReady_same (q.setEntry r.1
    { task := .json r.2, segmentSeq := seq,
      availableAt := extractAvailableAt float (.json r.2) clock }) r.1
      (extractAvailableAt float (.json r.2) clock)
  rw [hr]
  refine ⟨(hl.free rfl rfl r.1 _).1, ?_, ?_, hsame.segments, hsame.segmentsBySeq,
    hsame.currentSegment, hsame.nextOffset, hsame.v2Enabled, hsame.segmentMaxBytes⟩
  · intro o e he
    rw [FileWorkQueue.pushReady_entries, FileWorkQueue.setEntry, SortedMap.get?_insert] at he
    split_ifs at he
    · cases he
      rfl
    · exact hu o e he
  · rw [hsame.tasks]
    exact SortedMap.map_insert _ _ _ _

theorem loadRecords_spec {rs : List (ℤ × Document)} (hn : (rs.map Prod.fst).Nodup)
    (hf : ∀ o ∈ rs.map Prod.fst, q.tasks.get? o = none) (hl : q.Leases) (hu : Unleased q) :
    let q' := rs.foldl (loadRecord float clock seq acked) q
    q'.Leases ∧ Unleased q' ∧ SameSegments q q' ∧
      (∀ o v, q'.tasks.get? o = some v ↔ q.tasks.get? o = some v ∨
        ∃ doc, (o, doc) ∈ rs ∧ acked.contains o = false ∧ v = (.json doc, seq)) ∧
      ∀ k, q'.queuedIn k = q.queuedIn k +
        if k = seq then rs.countP (fun r => !acked.contains r.1) else 0 := by
  induction rs generalizing q with
  | nil =>
    refine ⟨hl, hu, ⟨rfl, rfl, rfl, rfl, rfl, rfl⟩, fun o v => ?_, fun k => ?_⟩
    · simp
    · simp
  | cons r rs ih =>
    obtain ⟨hr, hn⟩ := List.nodup_cons.mp (by simpa using hn : (r.1 :: rs.map Prod.fst).Nodup)
    have hfr := hf r.1 (by simp)
    have hfrs : ∀ o ∈ rs.map Prod.fst, q.tasks.get? o = none :=
      fun o ho => hf o (by rw [List.map_cons]; exact List.mem_cons_of_mem _ ho)
    by_cases ha : acked.contains r.1 = true
    · have hskip : loadRecord float clock seq acked q r = q := by simp [loadRecord, ha]
      obtain ⟨h1, h2, h3, h4, h5⟩ := ih hn hfrs hl hu
      rw [List.foldl_cons, hskip]
      refine ⟨h1, h2, h3, fun o v => ?_, fun k => ?_⟩
      · rw [h4]
        refine or_congr_right ⟨?_, ?_⟩
        · rintro ⟨doc, hm, hrest⟩
          exact ⟨doc, List.mem_cons_of_mem _ hm, hrest⟩
        · rintro ⟨doc, hm, hrest, hv⟩
          rcases List.mem_cons.mp hm with rfl | hm
          · rw [ha] at hrest
            cases hrest
          · exact ⟨doc, hm, hrest, hv⟩
      · rw [h5, List.countP_cons]
        simp [ha]
    · rw [Bool.not_eq_true] at ha
      obtain ⟨h1, h2, h3, h4⟩ := loadRecord_spec float clock seq acked hl hu ha
      have hfrs' : ∀ o ∈ rs.map Prod.fst,
          (loadRecord float clock seq acked q r).tasks.get? o = none := by
        intro o ho
        rw [h3, SortedMap.get?_insert, if_neg]
        · exact hfrs o ho
        · rintro rfl
          exact hr ho
      obtain ⟨g1, g2, g3, g4, g5⟩ := ih hn hfrs' h1 h2
      rw [List.foldl_cons]
      refine ⟨g1, g2, ⟨g3.segments.trans h4.segments, g3.segmentsBySeq.trans h4.segmentsBySeq,
        g3.currentSegment.trans h4.currentSegment, g3.nextOffset.trans h4.nextOffset,
        g3.v2Enabled.trans h4.v2Enabled, g3.segmentMaxBytes.trans h4.segmentMaxBytes⟩,
        fun o v => ?_, fun k => ?_⟩
      · rw [g4, h3, SortedMap.get?_insert]
        by_cases ho : o = r.1
        · subst ho
          rw [if_pos rfl, hfr]
          constructor
          · rintro (hv | ⟨doc, hm, -, -⟩)
            · exact Or.inr ⟨r.2, List.mem_cons_self, ha, (Option.some.inj hv).symm⟩
            · exact absurd (List.mem_map.mpr ⟨_, hm, rfl⟩) hr
          · rintro (hv | ⟨doc, hm, -, rfl⟩)
            · cases hv
            · rcases List.mem_cons.mp hm with he | hm
              · exact Or.inl (by rw [← he])
              · exact absurd (List.mem_map.mpr ⟨_, hm, rfl⟩) hr
        · rw [if_neg ho]
          refine or_congr_right ⟨?_, ?_⟩
          · rintro ⟨doc, hm, hrest⟩
            exact ⟨doc, List.mem_cons_of_mem _ hm, hrest⟩
          · rintro ⟨doc, hm, hrest⟩
            rcases List.mem_cons.mp hm with rfl | hm
            · exact absurd rfl ho
            · exact ⟨doc, hm, hrest⟩
      · have hcount := (SortedMap.insert_perm (Task.json r.2, seq) hfr).countP_eq
          (fun e => decide (e.2.2 = k))
        rw [List.countP_cons] at hcount
        rw [g5, FileWorkQueue.queuedIn, h3, hcount, List.countP_cons]
        by_cases hk : k = seq
        · subst hk
          simp [ha, FileWorkQueue.queuedIn]
          omega
        · simp [hk, Ne.symm hk, FileWorkQueue.queuedIn]

end records

section segments

variable (float : PyFloat) (clock : Clock)

structure Loaded (q₀ : FileWorkQueue) (d : Disk) (files : List (ℕ × Str)) (n : Opened) :
    Prop where
  leases : n.queue.Leases
  unleased : Unleased n.queue
  tasks : ∀ o t k, n.queue.tasks.get? o = some (t, k) ↔
    k ∈ files.map Prod.fst ∧ ∃ doc, t = .json doc ∧ d.Holds k o doc
  pending : ∀ k s, n.queue.segmentsBySeq.get? k = some s → s.pending = n.queue.queuedIn k
  segments : n.queue.segments = files.map Prod.fst
  bySeq : ∀ k, n.queue.segmentsBySeq.contains k = true ↔ k ∈ files.map Prod.fst
  seq : ∀ k s, n.queue.segmentsBySeq.get? k = some s → s.seq = k
  size : ∀ k s, n.queue.segmentsBySeq.get? k = some s →
    s.sizeBytes = (d.logAt k).length ∧ s.recordCount = (d.records k).length
  acked : ∀ k s, n.queue.segmentsBySeq.get? k = some s → ∀ o, s.acked.contains o = true ↔
    o ∈ d.offsetsAt k ∧ (d.acked k).contains o = true
  ends : ∀ k s, n.queue.segmentsBySeq.get? k = some s →
    s.endOffset = -1 ∨ s.endOffset ∈ d.offsetsAt k
  currentSegment : n.queue.currentSegment = none
  nextOffset : n.queue.nextOffset = 0
  v2Enabled : n.queue.v2Enabled = q₀.v2Enabled
  segmentMaxBytes : n.queue.segmentMaxBytes = q₀.segmentMaxBytes
  disk : Disk.Alike d n.disk
  indexes : ∀ k, IndexReadable (n.disk.indexes.get? k)
  ackedBelow : ∀ k o, (n.disk.acked k).contains o = true → (d.acked k).contains o = true
  unread : ∀ k, k ∉ files.map Prod.fst → n.disk.indexes.get? k = d.indexes.get? k

theorem Loaded.fresh {q₀ : FileWorkQueue} {d : Disk} {files : List (ℕ × Str)} {n : Opened}
    (h : Loaded q₀ d files n) (hd : d.Sound) {k : ℕ} (hk : k ∉ files.map Prod.fst) :
    ∀ o ∈ (d.records k).map Prod.fst, n.queue.tasks.get? o = none := by
  intro o ho
  by_contra hne
  obtain ⟨⟨t, k'⟩, hv⟩ := Option.ne_none_iff_exists'.mp hne
  obtain ⟨hk', doc, -, hm, -⟩ := (h.tasks o t k').mp hv
  obtain rfl := hd.apart k k' o ho (Disk.mem_offsetsAt hm)
  exact hk hk'

theorem segmentOf_acked (q : FileWorkQueue) (seq size : ℕ) (rs : List (ℤ × Document))
    (acked : OffsetSet) (o : ℤ) :
    (segmentOf q seq size rs acked).acked.contains o = true ↔
      o ∈ rs.map Prod.fst ∧ acked.contains o = true := by
  simp only [segmentOf, SortedMap.contains, SortedMap.get?_filterKeys]
  by_cases ho : o ∈ rs.map Prod.fst
  · simp [ho]
  · simp [ho]

theorem segmentOf_end (q : FileWorkQueue) (hq : q.nextOffset = 0) (seq size : ℕ)
    (rs : List (ℤ × Document)) (acked : OffsetSet) :
    (segmentOf q seq size rs acked).endOffset = -1 ∨
      (segmentOf q seq size rs acked).endOffset ∈ rs.map Prod.fst := by
  simp only [segmentOf, hq]
  rcases h : (rs.map Prod.fst).getLast? with _ | o
  · exact Or.inl rfl
  · exact Or.inr (List.mem_of_getLast? h)

theorem build_spec {q₀ : FileWorkQueue} {d : Disk} {files : List (ℕ × Str)} {n : Opened}
    (hd : d.Sound) (h : Loaded q₀ d files n) {k : ℕ} {log : Str} (hlog : d.logs.get? k = some log)
    (hk : k ∉ files.map Prod.fst) :
    ∃ s n', n.buildSegmentFromFiles float clock k log = .ok (s, n') ∧
      n'.queue = (d.records k).foldl (loadRecord float clock k (d.acked k)) n.queue ∧
      s = segmentOf n'.queue k log.length (d.records k) (d.acked k) ∧
      (n'.disk = n.disk ∨ n'.disk = (persistSegmentState s n).disk) := by
  have hrecords : d.records k = recordsOf log := by rw [Disk.records, Disk.logAt, hlog]; rfl
  obtain ⟨rewrite, hidx⟩ := hd.indexes k float n.queue.v2Enabled
  have hread := (hd.logs k log hlog).readLog float
  rw [← hrecords] at hread
  have hrun : n.buildSegmentFromFiles float clock k log =
      let q := (d.records k).foldl (loadRecord float clock k (d.acked k)) n.queue
      let s := segmentOf q k log.length (d.records k) (d.acked k)
      let missing := (d.acked k).keys.any (fun o => !((d.records k).map Prod.fst).contains o)
      if q.v2Enabled && (rewrite || missing) then
        .ok (s, persistSegmentState s { n with queue := q })
      else .ok (s, { n with queue := q }) := by
    rw [buildSegmentFromFiles, h.unread k hk, hidx]
    change (readLog float log >>= _) = _
    rw [hread]
    rfl
  rw [hrun]
  dsimp only
  split_ifs
  · exact ⟨_, _, rfl, rfl, rfl, Or.inr rfl⟩
  · exact ⟨_, _, rfl, rfl, rfl, Or.inl rfl⟩

theorem loadSegment_spec {q₀ : FileWorkQueue} {d : Disk} {files : List (ℕ × Str)} {n : Opened}
    (hd : d.Sound) (h : Loaded q₀ d files n) {k : ℕ} {log : Str} (hlog : d.logs.get? k = some log)
    (hk : k ∉ files.map Prod.fst) :
    ∃ n', loadSegment float clock n (k, log) = .ok n' ∧ Loaded q₀ d (files ++ [(k, log)]) n' := by
  obtain ⟨s, m, hb, hq, hs, hdisk⟩ := build_spec float clock hd h hlog hk
  have hfresh := h.fresh hd hk
  obtain ⟨h1, h2, h3, h4, h5⟩ := loadRecords_spec float clock k (d.acked k) (hd.nodup k) hfresh
    h.leases h.unleased
  rw [← hq] at h1 h2 h3 h4 h5
  have hseq : s.seq = k := by rw [hs]; rfl
  have hnone : n.queue.queuedIn k = 0 := by
    rw [FileWorkQueue.queuedIn, List.countP_eq_zero]
    rintro ⟨o, t, k'⟩ he
    simp only [decide_eq_true_eq]
    rintro rfl
    exact hk ((h.tasks o t k').mp (SortedMap.get?_eq_some_iff.mpr he)).1
  have hnext : m.queue.nextOffset = 0 := h3.nextOffset.trans h.nextOffset
  have hsacked : ∀ o, s.acked.contains o = true ↔
      o ∈ d.offsetsAt k ∧ (d.acked k).contains o = true := by
    rw [hs]
    exact segmentOf_acked _ _ _ _ _
  have hlogAt : d.logAt k = log := by rw [Disk.logAt, hlog]; rfl
  have hidx : ∀ k', k' ≠ k → m.disk.indexes.get? k' = n.disk.indexes.get? k' := by
    intro k' hk'
    rcases hdisk with hdisk | hdisk
    · rw [hdisk]
    · rw [hdisk, persistSegmentState]
      simp only [SortedMap.get?_insert, hseq, hk', if_false]
  have hackedk : m.disk.acked k = d.acked k ∨ m.disk.acked k = s.acked := by
    rcases hdisk with hdisk | hdisk
    · left
      rw [Disk.acked, Disk.acked, hdisk, h.unread k hk]
    · right
      rw [Disk.acked, hdisk, persistSegmentState]
      simp only [SortedMap.get?_insert, hseq, if_true]
      exact ackedOf_index s
  have hmacked : ∀ k', k' ≠ k → m.disk.acked k' = n.disk.acked k' := by
    intro k' hk'
    rw [Disk.acked, Disk.acked, hidx k' hk']
  have hrest : m.disk.logs = n.disk.logs ∧ m.disk.offset = n.disk.offset ∧
      m.disk.metaSeq = n.disk.metaSeq := by
    rcases hdisk with hdisk | hdisk
    · rw [hdisk]
      exact ⟨rfl, rfl, rfl⟩
    · rw [hdisk]
      exact ⟨rfl, rfl, rfl⟩
  have hkeys : ∀ k', k' ∈ (files ++ [(k, log)]).map Prod.fst ↔
      k' ∈ files.map Prod.fst ∨ k' = k := by
    intro k'
    simp
  let q' : FileWorkQueue := { m.queue.setSegment s with segments := m.queue.segments ++ [k] }
  have hget : ∀ k' s', q'.segmentsBySeq.get? k' = some s' →
      (k' = k ∧ s' = s) ∨ (k' ≠ k ∧ n.queue.segmentsBySeq.get? k' = some s') := by
    intro k' s' hg
    change (m.queue.segmentsBySeq.insert s.seq s).get? k' = some s' at hg
    rw [SortedMap.get?_insert, hseq, h3.segmentsBySeq] at hg
    split_ifs at hg with hk'
    · cases hg
      exact Or.inl ⟨hk', rfl⟩
    · exact Or.inr ⟨hk', hg⟩
  refine ⟨{ m with queue := q' }, ?_, ?_⟩
  · rw [loadSegment, hb]
    rfl
  refine
    { leases := (h1.congr q' rfl rfl rfl).1
      unleased := h2
      tasks := ?_
      pending := ?_
      segments := ?_
      bySeq := ?_
      seq := ?_
      size := ?_
      acked := ?_
      ends := ?_
      currentSegment := h3.currentSegment.trans h.currentSegment
      nextOffset := hnext
      v2Enabled := h3.v2Enabled.trans h.v2Enabled
      segmentMaxBytes := h3.segmentMaxBytes.trans h.segmentMaxBytes
      disk := ?_
      indexes := ?_
      ackedBelow := ?_
      unread := ?_ }
  · intro o t k'
    change m.queue.tasks.get? o = some (t, k') ↔ _
    rw [h4, h.tasks, hkeys]
    constructor
    · rintro (⟨hf, hrest⟩ | ⟨doc, hm, ha, hv⟩)
      · exact ⟨Or.inl hf, hrest⟩
      · cases hv
        exact ⟨Or.inr rfl, doc, rfl, hm, ha⟩
    · rintro ⟨hf | rfl, doc, rfl, hm, ha⟩
      · exact Or.inl ⟨hf, doc, rfl, hm, ha⟩
      · exact Or.inr ⟨doc, hm, ha, rfl⟩
  · intro k' s' hg
    change s'.pending = m.queue.queuedIn k'
    rw [h5]
    rcases hget k' s' hg with ⟨rfl, rfl⟩ | ⟨hk', hg⟩
    · rw [hnone, if_pos rfl, hs, Nat.zero_add]
      rfl
    · rw [if_neg hk', h.pending k' s' hg, Nat.add_zero]
  · change m.queue.segments ++ [k] = _
    rw [h3.segments, h.segments, List.map_append]
    rfl
  · intro k'
    change (m.queue.segmentsBySeq.insert s.seq s).contains k' = true ↔ _
    rw [SortedMap.contains_insert, hseq, h3.segmentsBySeq, hkeys, Bool.or_eq_true, h.bySeq,
      decide_eq_true_eq, or_comm]
  · intro k' s' hg
    rcases hget k' s' hg with ⟨rfl, rfl⟩ | ⟨-, hg⟩
    · exact hseq
    · exact h.seq k' s' hg
  · intro k' s' hg
    rcases hget k' s' hg with ⟨rfl, rfl⟩ | ⟨-, hg⟩
    · rw [hs, hlogAt]
      exact ⟨rfl, rfl⟩
    · exact h.size k' s' hg
  · intro k' s' hg
    rcases hget k' s' hg with ⟨rfl, rfl⟩ | ⟨-, hg⟩
    · exact hsacked
    · exact h.acked k' s' hg
  · intro k' s' hg
    rcases hget k' s' hg with ⟨rfl, rfl⟩ | ⟨-, hg⟩
    · rw [hs]
      exact segmentOf_end _ hnext _ _ _ _
    · exact h.ends k' s' hg
  · refine ⟨hrest.1.trans h.disk.logs, hrest.2.1.trans h.disk.offset,
      hrest.2.2.trans h.disk.metaSeq, fun k' o ho => ?_⟩
    by_cases hk' : k' = k
    · subst hk'
      rcases hackedk with ha | ha
      · rw [ha]
      · rw [ha, Bool.eq_iff_iff, hsacked]
        simp [ho]
    · rw [hmacked k' hk']
      exact h.disk.acked k' o ho
  · intro k'
    by_cases hk' : k' = k
    · subst hk'
      rcases hdisk with hdisk | hdisk
      · rw [hdisk]
        exact h.indexes k'
      · rw [hdisk, persistSegmentState]
        simp only [SortedMap.get?_insert, hseq, if_true]
        exact indexReadable_index (fun o ho => (hd.ackedBelow k' o ((hsacked o).mp ho).2).1)
    · change IndexReadable (m.disk.indexes.get? k')
      rw [hidx k' hk']
      exact h.indexes k'
  · intro k' o ho
    by_cases hk' : k' = k
    · subst hk'
      rcases hackedk with ha | ha
      · rwa [← ha]
      · rw [ha] at ho
        exact ((hsacked o).mp ho).2
    · rw [hmacked k' hk'] at ho
      exact h.ackedBelow k' o ho
  · intro k' hk'
    rw [hkeys, not_or] at hk'
    exact (hidx k' hk'.2).trans (h.unread k' hk'.1)

theorem loadSegments_spec {q₀ : FileWorkQueue} {d : Disk} (hd : d.Sound)
    {files done : List (ℕ × Str)} {n : Opened} (h : Loaded q₀ d done n)
    (hf : ∀ f ∈ files, d.logs.get? f.1 = some f.2)
    (hn : ((done ++ files).map Prod.fst).Nodup) :
    ∃ n', files.foldlM (loadSegment float clock) n = .ok n' ∧
      Loaded q₀ d (done ++ files) n' := by
  induction files generalizing done n with
  | nil => exact ⟨n, rfl, by rwa [List.append_nil]⟩
  | cons f files ih =>
    obtain ⟨k, log⟩ := f
    have hk : k ∉ done.map Prod.fst := by
      rw [List.map_append, List.nodup_append] at hn
      intro hm
      exact hn.2.2 k hm k (by simp) rfl
    obtain ⟨n', hload, h'⟩ := loadSegment_spec float clock hd h
      (hf (k, log) List.mem_cons_self) hk
    have hassoc : done ++ (k, log) :: files = (done ++ [(k, log)]) ++ files := by simp
    rw [hassoc] at hn ⊢
    obtain ⟨n'', hrest, h''⟩ := ih h' (fun f hm => hf f (List.mem_cons_of_mem _ hm)) hn
    refine ⟨n'', ?_, h''⟩
    rw [List.foldlM_cons, hload]
    exact hrest

theorem loaded_nil (cfg : Config) {d : Disk} (hd : d.Sound) :
    Loaded (emptyQueue cfg) d [] ⟨emptyQueue cfg, d⟩ := by
  refine ⟨emptyQueue_leases cfg, nofun, fun o t k => ?_, nofun, rfl, fun k => ?_, nofun, nofun,
    nofun, nofun, rfl, rfl, rfl, rfl, Disk.Alike.refl d, hd.indexes, fun k o ho => ho,
    fun k _ => rfl⟩
  · constructor
    · exact fun ht => nomatch ht
    · rintro ⟨hk, -⟩
      cases hk
  · simp [emptyQueue, SortedMap.contains]

end segments

def listedFiles (d : Disk) : List (ℕ × Str) := d.logs.entries.filter isListed

theorem mem_listedFiles {d : Disk} {k : ℕ} :
    k ∈ (listedFiles d).map Prod.fst ↔ k < 10 ^ 6 ∧ ∃ log, d.logs.get? k = some log := by
  simp only [listedFiles, List.mem_map, List.mem_filter, isListed, decide_eq_true_eq]
  constructor
  · rintro ⟨⟨j, log⟩, ⟨hm, hl⟩, rfl⟩
    exact ⟨hl, log, SortedMap.get?_eq_some_iff.mpr hm⟩
  · rintro ⟨hl, log, hm⟩
    exact ⟨(k, log), ⟨SortedMap.get?_eq_some_iff.mp hm, hl⟩, rfl⟩

theorem listedFiles_get? {d : Disk} {f : ℕ × Str} (h : f ∈ listedFiles d) :
    d.logs.get? f.1 = some f.2 :=
  SortedMap.get?_eq_some_iff.mpr (List.mem_filter.mp h).1

theorem listedFiles_nodup (d : Disk) : ((listedFiles d).map Prod.fst).Nodup :=
  d.logs.keys_nodup.sublist (List.filter_sublist.map Prod.fst)

theorem raiseCounter_of_le {current floor : ℕ} (h : floor ≤ current) :
    raiseCounter current floor = current := if_neg (not_lt.mpr h)

theorem foldl_max_le {α : Type} [LinearOrder α] {xs : List α} {a b : α} (ha : a ≤ b)
    (h : ∀ x ∈ xs, x ≤ b) : xs.foldl max a ≤ b := by
  induction xs generalizing a with
  | nil => exact ha
  | cons x xs ih =>
    exact ih (max_le ha (h x List.mem_cons_self)) (fun y hy => h y (List.mem_cons_of_mem _ hy))

section finish

variable {cfg : Config} {d : Disk} {n : Opened}

theorem Loaded.maxOffset_lt {files : List (ℕ × Str)} {q₀ : FileWorkQueue} (hd : d.Sound)
    (h : Loaded q₀ d files n) : maxOffset n.queue < d.offset := by
  have hle : maxOffset n.queue ≤ (d.offset : ℤ) - 1 := by
    apply foldl_max_le (by omega)
    intro x hx
    obtain ⟨⟨k, s⟩, hs, rfl⟩ := List.mem_map.mp hx
    rcases h.ends k s (SortedMap.get?_eq_some_iff.mpr hs) with he | he
    · simp only [he]
      omega
    · have := (hd.below k _ he).2
      simp only
      omega
  omega

def activated (d : Disk) (n : Opened) : Opened :=
  let m : Opened := { n with queue := { n.queue with nextOffset := d.offset } }
  match (listedFiles d).getLast? with
  | none => m.rotateSegment
  | some f => { m with queue := { m.queue with currentSegment := some f.1 } }

theorem Loaded.initialize (hd : d.Sound) (h : Loaded (emptyQueue cfg) d (listedFiles d) n)
    {q : FileWorkQueue} (hq : q.segmentsBySeq = n.queue.segmentsBySeq)
    (hs : q.segments = n.queue.segments) :
    (initializeOffset (initializeMeta ⟨q, n.disk⟩)) =
      ⟨{ q with nextOffset := d.offset }, n.disk⟩ := by
  have hmax : maxOffset q < d.offset := by
    rw [maxOffset, hq]
    exact h.maxOffset_lt hd
  have hmeta : q.segments.foldl max 0 ≤ n.disk.metaSeq := by
    apply foldl_max_le (Nat.zero_le _)
    intro k hk
    rw [hs, h.segments] at hk
    obtain ⟨-, log, hlog⟩ := mem_listedFiles.mp hk
    rw [h.disk.metaSeq]
    exact hd.numbered k log hlog
  have hoff : (maxOffset q + 1).toNat ≤ d.offset := by omega
  simp only [initializeMeta, initializeOffset, raiseCounter_of_le hmeta, h.disk.offset,
    raiseCounter_of_le hoff]
  rw [← h.disk.offset, max_eq_left]
  rw [h.disk.offset]
  exact_mod_cast hoff

theorem openSegmentFile_eq {s : FileSegment} {log : Str}
    (hs : n.queue.segmentsBySeq.get? s.seq = some s) (hlog : n.disk.logs.get? s.seq = some log)
    (hsize : s.sizeBytes = log.length) :
    n.openSegmentFile s = { n with queue := { n.queue with currentSegment := some s.seq } } := by
  have hseg : { s with sizeBytes := log.length } = s := by rw [← hsize]
  simp only [openSegmentFile, hlog, Option.getD_some, hseg, FileWorkQueue.setSegment,
    SortedMap.insert_of_get? hs, SortedMap.insert_of_get? hlog]

theorem raiseNextOffset_eq (n : Opened) :
    ∃ o, n.raiseNextOffset = { n with queue := { n.queue with nextOffset := o } } := by
  unfold raiseNextOffset
  dsimp only
  split_ifs
  · exact ⟨_, rfl⟩
  · exact ⟨n.queue.nextOffset, rfl⟩

theorem init_of_loaded (clock : Clock) (hd : d.Sound)
    (hload : (listedFiles d).foldlM (loadSegment cfg.float clock) ⟨emptyQueue cfg, d⟩ = .ok n)
    (h : Loaded (emptyQueue cfg) d (listedFiles d) n) :
    init cfg clock d = .ok (activated d n) := by
  have hinit : init cfg clock d =
      let m := n.raiseNextOffset.openLast.initializeMeta.initializeOffset
      .ok (if m.queue.currentSegment = none then m.rotateSegment else m) := by
    rw [init, loadExistingSegments]
    change ((listedFiles d).foldlM (loadSegment cfg.float clock) ⟨emptyQueue cfg, d⟩ >>= _) >>=
      _ = _
    rw [hload]
    rfl
  obtain ⟨o, hraised⟩ := raiseNextOffset_eq n
  have hsegs : n.queue.segments.getLast? = (listedFiles d).getLast?.map Prod.fst := by
    rw [h.segments, List.getLast?_map]
  rw [hinit, hraised]
  rcases hlast : (listedFiles d).getLast? with _ | f
  · rw [hlast] at hsegs
    simp only [Option.map_none] at hsegs
    have hopen : openLast { n with queue := { n.queue with nextOffset := o } } =
        { n with queue := { n.queue with nextOffset := o } } := by
      simp only [openLast, hsegs]
    have hi := h.initialize hd (q := { n.queue with nextOffset := o }) rfl rfl
    dsimp only at hopen hi ⊢
    rw [hopen, hi, if_pos h.currentSegment, activated, hlast]
  · obtain ⟨k, log⟩ := f
    have hm := List.mem_of_getLast? hlast
    have hk : k ∈ (listedFiles d).map Prod.fst := List.mem_map.mpr ⟨(k, log), hm, rfl⟩
    obtain ⟨s, hs⟩ := Option.isSome_iff_exists.mp ((h.bySeq k).mpr hk)
    have hseq := h.seq k s hs
    have hlog : n.disk.logs.get? s.seq = some log := by
      rw [hseq, h.disk.logs]
      exact listedFiles_get? hm
    have hsize : s.sizeBytes = log.length := by
      rw [(h.size k s hs).1, Disk.logAt, listedFiles_get? hm]
      rfl
    rw [hlast] at hsegs
    simp only [Option.map_some] at hsegs
    have hopen : openLast { n with queue := { n.queue with nextOffset := o } } =
        { n with queue := { n.queue with nextOffset := o, currentSegment := some k } } := by
      simp only [openLast, hsegs, hs]
      have hget : n.queue.segmentsBySeq.get? s.seq = some s := by rw [hseq]; exact hs
      rw [openSegmentFile_eq (n := { n with queue := { n.queue with nextOffset := o } }) hget hlog
        hsize, hseq]
    have hi := h.initialize hd
      (q := { n.queue with nextOffset := o, currentSegment := some k }) rfl rfl
    dsimp only at hopen hi ⊢
    rw [hopen, hi, if_neg (Option.some_ne_none k), activated, hlast]

end finish

structure Synced (n : Opened) : Prop where
  sound : n.disk.Sound
  log : ∀ k s, n.queue.segmentsBySeq.get? k = some s →
    ∃ log, n.disk.logs.get? k = some log ∧ s.sizeBytes = log.length
  count : ∀ k s, n.queue.segmentsBySeq.get? k = some s →
    s.recordCount = (n.disk.records k).length
  acked : ∀ k s, n.queue.segmentsBySeq.get? k = some s → ∀ o ∈ n.disk.offsetsAt k,
    s.acked.contains o = (n.disk.acked k).contains o
  ackedNonneg : ∀ k s, n.queue.segmentsBySeq.get? k = some s → ∀ o, s.acked.contains o = true →
    0 ≤ o
  tasks : ∀ o t k, n.queue.tasks.get? o = some (t, k) ↔
    n.queue.segmentsBySeq.contains k = true ∧ ∃ doc, t = .json doc ∧ n.disk.Holds k o doc

section rotation

variable {n : Opened}

theorem rotateSegment_logs (hd : n.disk.Sound) :
    n.rotateSegment.disk.logs = n.disk.logs.insert (n.disk.metaSeq + 1) [] := by
  have hnone : n.disk.logs.get? (n.disk.metaSeq + 1) = none := by
    by_contra hne
    obtain ⟨log, hlog⟩ := Option.ne_none_iff_exists'.mp hne
    have := hd.numbered _ log hlog
    omega
  change n.disk.logs.insert (n.disk.metaSeq + 1)
    ((n.disk.logs.get? (n.disk.metaSeq + 1)).getD []) = _
  rw [hnone]
  rfl

theorem rotateSegment_logAt (hd : n.disk.Sound) (k : ℕ) :
    n.rotateSegment.disk.logAt k = n.disk.logAt k := by
  rw [Disk.logAt, Disk.logAt, rotateSegment_logs hd, SortedMap.get?_insert]
  split_ifs with hk
  · subst hk
    rcases hlog : n.disk.logs.get? (n.disk.metaSeq + 1) with _ | log
    · rfl
    · have := hd.numbered _ log hlog
      omega
  · rfl

theorem rotateSegment_records (hd : n.disk.Sound) (k : ℕ) :
    n.rotateSegment.disk.records k = n.disk.records k := by
  rw [Disk.records, Disk.records, rotateSegment_logAt hd]

theorem Disk.Sound.rotate (hd : n.disk.Sound) : n.rotateSegment.disk.Sound := by
  have hoffsets : ∀ k, n.rotateSegment.disk.offsetsAt k = n.disk.offsetsAt k := fun k => by
    rw [Disk.offsetsAt, Disk.offsetsAt, rotateSegment_records hd]
  refine ⟨fun k log hlog => ?_, hd.indexes, fun k => ?_, fun k k' o => ?_, fun k o => ?_,
    fun k log hlog => ?_, hd.ackedBelow⟩
  · rw [rotateSegment_logs hd, SortedMap.get?_insert] at hlog
    split_ifs at hlog
    · cases hlog
      exact logReadable_nil
    · exact hd.logs k log hlog
  · rw [hoffsets]
    exact hd.nodup k
  · rw [hoffsets, hoffsets]
    exact hd.apart k k' o
  · rw [hoffsets]
    exact hd.below k o
  · change k ≤ n.disk.metaSeq + 1
    rw [rotateSegment_logs hd, SortedMap.get?_insert] at hlog
    split_ifs at hlog with hk
    · exact hk.le
    · exact Nat.le_succ_of_le (hd.numbered k log hlog)

theorem Synced.rotate (h : Synced n) : Synced n.rotateSegment := by
  have hd := h.sound
  have hnone : n.disk.logs.get? (n.disk.metaSeq + 1) = none := by
    by_contra hne
    obtain ⟨log, hlog⟩ := Option.ne_none_iff_exists'.mp hne
    have := hd.numbered _ log hlog
    omega
  have hget : ∀ k s, n.rotateSegment.queue.segmentsBySeq.get? k = some s →
      (k = n.disk.metaSeq + 1 ∧ s = n.freshSegment) ∨
        (k ≠ n.disk.metaSeq + 1 ∧ n.queue.segmentsBySeq.get? k = some s) := by
    intro k s hg
    rw [rotateSegment_bySeq, SortedMap.get?_insert] at hg
    split_ifs at hg with hk
    · cases hg
      exact Or.inl ⟨hk, rfl⟩
    · exact Or.inr ⟨hk, hg⟩
  have hholds : ∀ k o doc, n.rotateSegment.disk.Holds k o doc ↔ n.disk.Holds k o doc := by
    intro k o doc
    rw [Disk.Holds, Disk.Holds, rotateSegment_records hd]
    rfl
  refine ⟨hd.rotate, fun k s hg => ?_, fun k s hg => ?_, fun k s hg o ho => ?_,
    fun k s hg o ho => ?_, fun o t k => ?_⟩
  · rw [rotateSegment_logs hd, SortedMap.get?_insert]
    rcases hget k s hg with ⟨rfl, rfl⟩ | ⟨hk, hg⟩
    · refine ⟨[], by simp, ?_⟩
      rw [freshSegment, hnone]
      rfl
    · rw [if_neg hk]
      exact h.log k s hg
  · rw [rotateSegment_records hd]
    rcases hget k s hg with ⟨rfl, rfl⟩ | ⟨hk, hg⟩
    · rw [Disk.records_of_none hnone]
      rfl
    · exact h.count k s hg
  · rw [Disk.offsetsAt, rotateSegment_records hd] at ho
    rcases hget k s hg with ⟨rfl, rfl⟩ | ⟨hk, hg⟩
    · rw [Disk.records_of_none hnone] at ho
      cases ho
    · exact h.acked k s hg o ho
  · rcases hget k s hg with ⟨rfl, rfl⟩ | ⟨hk, hg⟩
    · cases ho
    · exact h.ackedNonneg k s hg o ho
  · rw [rotateSegment_tasks, h.tasks, rotateSegment_bySeq, SortedMap.contains_insert]
    simp only [hholds, Bool.or_eq_true, decide_eq_true_eq]
    refine ⟨fun hp => ⟨Or.inr hp.1, hp.2⟩, ?_⟩
    rintro ⟨rfl | hk, doc, rfl, hm, ha⟩
    · rw [Disk.records_of_none hnone] at hm
      cases hm
    · exact ⟨hk, doc, rfl, hm, ha⟩

end rotation

section reopening

variable {cfg : Config} {d : Disk} {n : Opened}

theorem Loaded.sound {q₀ : FileWorkQueue} {files : List (ℕ × Str)} (hd : d.Sound)
    (h : Loaded q₀ d files n) : n.disk.Sound := by
  have hoffsets : ∀ k, n.disk.offsetsAt k = d.offsetsAt k := fun k => by
    rw [Disk.offsetsAt, Disk.offsetsAt, h.disk.records]
  refine ⟨fun k log hlog => ?_, h.indexes, fun k => ?_, fun k k' o => ?_, fun k o => ?_,
    fun k log hlog => ?_, fun k o ho => ?_⟩
  · rw [h.disk.logs] at hlog
    exact hd.logs k log hlog
  · rw [hoffsets]
    exact hd.nodup k
  · rw [hoffsets, hoffsets]
    exact hd.apart k k' o
  · rw [hoffsets, h.disk.offset]
    exact hd.below k o
  · rw [h.disk.logs] at hlog
    rw [h.disk.metaSeq]
    exact hd.numbered k log hlog
  · rw [h.disk.offset]
    exact hd.ackedBelow k o (h.ackedBelow k o ho)

theorem Loaded.stored (hd : d.Sound) (h : Loaded (emptyQueue cfg) d (listedFiles d) n)
    {q : FileWorkQueue} (ht : q.tasks = n.queue.tasks)
    (hq : q.segmentsBySeq = n.queue.segmentsBySeq) (hs : q.segments = n.queue.segments) :
    Stored ⟨q, n.disk⟩ := by
  refine ⟨?_, ?_, fun k => ?_, fun o t k hg => ?_, fun k s hg => ?_, fun k s hg => ?_,
    fun o v hg => ?_, fun k s o hg ha => ?_⟩
  · rw [hq]
    exact h.seq
  · rw [hs, h.segments]
    exact listedFiles_nodup d
  · rw [hs, hq, h.segments, h.bySeq]
  · rw [ht] at hg
    rw [hq]
    obtain ⟨hk, doc, -, -, hacked⟩ := (h.tasks o t k).mp hg
    obtain ⟨s, hs⟩ := Option.isSome_iff_exists.mp ((h.bySeq k).mpr hk)
    refine ⟨s, hs, ?_⟩
    by_contra ha
    rw [Bool.not_eq_false, h.acked k s hs, hacked] at ha
    cases ha.2
  · rw [hq] at hg
    rw [h.pending k s hg, FileWorkQueue.queuedIn, FileWorkQueue.queuedIn, ht]
  · rw [hq] at hg
    have hk := (h.bySeq k).mp (by rw [SortedMap.contains, hg]; rfl)
    obtain ⟨-, log, hlog⟩ := mem_listedFiles.mp hk
    rw [h.disk.metaSeq]
    exact hd.numbered k log hlog
  · rw [ht] at hg
    obtain ⟨t, k⟩ := v
    obtain ⟨-, doc, -, hm, -⟩ := (h.tasks o t k).mp hg
    rw [h.disk.offset]
    exact (hd.below k o (Disk.mem_offsetsAt hm)).2
  · rw [hq] at hg
    rw [h.disk.offset]
    exact (hd.ackedBelow k o ((h.acked k s hg o).mp ha).2).2

theorem Loaded.synced (hd : d.Sound) (h : Loaded (emptyQueue cfg) d (listedFiles d) n)
    {q : FileWorkQueue} (ht : q.tasks = n.queue.tasks)
    (hq : q.segmentsBySeq = n.queue.segmentsBySeq) : Synced ⟨q, n.disk⟩ := by
  have hsound : n.disk.Sound := h.sound hd
  refine ⟨hsound, fun k s hg => ?_, fun k s hg => ?_, fun k s hg o ho => ?_,
    fun k s hg o ho => ?_, fun o t k => ?_⟩
  · rw [hq] at hg
    have hk := (h.bySeq k).mp (by rw [SortedMap.contains, hg]; rfl)
    obtain ⟨-, log, hlog⟩ := mem_listedFiles.mp hk
    refine ⟨log, by rw [h.disk.logs]; exact hlog, ?_⟩
    rw [(h.size k s hg).1, Disk.logAt, hlog]
    rfl
  · rw [hq] at hg
    rw [(h.size k s hg).2, h.disk.records]
  · rw [hq] at hg
    rw [Disk.offsetsAt, h.disk.records] at ho
    rw [h.disk.acked k o ho, Bool.eq_iff_iff, h.acked k s hg]
    exact and_iff_right ho
  · rw [hq] at hg
    exact (hd.ackedBelow k o ((h.acked k s hg o).mp ho).2).1
  · rw [ht, hq, h.tasks, h.bySeq]
    simp only [h.disk.holds]

structure Reopened (cfg : Config) (d : Disk) (n : Opened) : Prop where
  consistent : n.Consistent
  unleased : Unleased n.queue
  synced : Synced n
  tasks : ∀ o t k, n.queue.tasks.get? o = some (t, k) ↔
    k < 10 ^ 6 ∧ ∃ doc, t = .json doc ∧ d.Holds k o doc
  offset : n.disk.offset = d.offset
  logAt : ∀ k, n.disk.logAt k = d.logAt k
  holds : ∀ k o doc, n.disk.Holds k o doc ↔ d.Holds k o doc
  segmentMaxBytes : n.queue.segmentMaxBytes = (max cfg.segmentMaxBytes 1024).toNat
  newest : ∀ f, (listedFiles d).getLast? = some f → n.queue.currentSegment = some f.1 ∧
    n.disk.metaSeq = d.metaSeq
  metaSeq : d.metaSeq ≤ n.disk.metaSeq

theorem reopened (cfg : Config) (clock : Clock) (hd : d.Sound) :
    ∃ n, init cfg clock d = .ok n ∧ Reopened cfg d n := by
  obtain ⟨n, hload, h⟩ := loadSegments_spec cfg.float clock hd (loaded_nil cfg hd)
    (fun f hf => listedFiles_get? hf) (listedFiles_nodup d)
  refine ⟨activated d n, init_of_loaded clock hd hload h, ?_⟩
  have htasks : ∀ o t k, n.queue.tasks.get? o = some (t, k) ↔
      k < 10 ^ 6 ∧ ∃ doc, t = .json doc ∧ d.Holds k o doc := by
    intro o t k
    rw [h.tasks, List.nil_append, mem_listedFiles]
    constructor
    · rintro ⟨⟨hk, -⟩, hrest⟩
      exact ⟨hk, hrest⟩
    · rintro ⟨hk, doc, rfl, hm, ha⟩
      refine ⟨⟨hk, ?_⟩, doc, rfl, hm, ha⟩
      rcases hlog : d.logs.get? k with _ | log
      · rw [Disk.records_of_none hlog] at hm
        cases hm
      · exact ⟨log, rfl⟩
  rcases hlast : (listedFiles d).getLast? with _ | f
  · have hact : activated d n =
        rotateSegment { n with queue := { n.queue with nextOffset := d.offset } } := by
      rw [activated, hlast]
    have hs := h.stored hd (q := { n.queue with nextOffset := d.offset }) rfl rfl rfl
    have hy := h.synced hd (q := { n.queue with nextOffset := d.offset }) rfl rfl
    rw [hact]
    refine ⟨⟨?_, hs.rotate, rotateSegment_active _⟩, h.unleased, hy.rotate, htasks,
      h.disk.offset, fun k => ?_, fun k o doc => ?_, h.segmentMaxBytes, fun f hf => ?_,
      ?_⟩
    · refine (h.leases.congr _ ?_ ?_ ?_).1 <;> rfl
    · rw [rotateSegment_logAt hy.sound, Disk.logAt, Disk.logAt, h.disk.logs]
    · rw [← h.disk.holds, Disk.Holds, Disk.Holds, rotateSegment_records hy.sound]
      rfl
    · cases hlast.symm.trans hf
    · rw [← h.disk.metaSeq]
      exact Nat.le_succ _
  · have hact : activated d n =
        { n with queue := { n.queue with nextOffset := d.offset, currentSegment := some f.1 } } := by
      rw [activated, hlast]
    have hk : f.1 ∈ (listedFiles d).map Prod.fst :=
      List.mem_map.mpr ⟨f, List.mem_of_getLast? hlast, rfl⟩
    obtain ⟨s, hs⟩ := Option.isSome_iff_exists.mp ((h.bySeq f.1).mpr hk)
    rw [hact]
    refine ⟨⟨?_, h.stored hd rfl rfl rfl, ⟨f.1, s, rfl, hs⟩⟩, h.unleased, h.synced hd rfl rfl,
      htasks, h.disk.offset, fun k => ?_, fun k o doc => h.disk.holds k o doc,
      h.segmentMaxBytes, fun f' hf => ?_, h.disk.metaSeq.ge⟩
    · refine (h.leases.congr _ ?_ ?_ ?_).1 <;> rfl
    · rw [Disk.logAt, Disk.logAt, h.disk.logs]
    · cases hlast.symm.trans hf
      exact ⟨rfl, h.disk.metaSeq⟩

end reopening

end TraceMind.Queue
