import TraceMind.Queue.Durable

namespace TraceMind.Queue

open Opened

section text

variable {log p q : Str} {o : ℤ} {doc : Document} {stamp : FloatText}

theorem newline_not_mem_part (h : recordBody o doc stamp = p ++ q) : newline ∉ p := by
  intro hm
  exact newline_not_mem o doc stamp (h ▸ List.mem_append_left q hm)

theorem part_spec (h : recordBody o doc stamp = p ++ q) (hq : q ≠ []) :
    recordsOf p = [] ∧ LogReadable p := by
  by_cases hp : p = []
  · subst hp
    exact ⟨rfl, logReadable_nil⟩
  · have hl := Lines.lines_part (newline_not_mem_part h) hp
    have hnone := Json.loads_part (recordJson_wf o doc stamp) h hp hq
    constructor
    · rw [recordsOf, hl, List.filterMap_cons, decodeLine, hnone]
      rfl
    · intro line hm
      rw [hl, List.mem_singleton] at hm
      subst hm
      exact lineReadable_of_none hnone

theorem body_spec (o : ℤ) (doc : Document) (stamp : FloatText) :
    recordsOf (recordBody o doc stamp) = [(o, doc)] ∧ LogReadable (recordBody o doc stamp) := by
  have hne : recordBody o doc stamp ≠ [] := by
    obtain ⟨ds, hds⟩ := recordBody_head o doc stamp
    rw [hds]
    exact List.cons_ne_nil _ _
  have hl := Lines.lines_part (newline_not_mem o doc stamp) hne
  constructor
  · rw [recordsOf, hl, List.filterMap_cons, decodeLine_of_loads (loads_body o doc stamp)]
    rfl
  · intro line hm
    rw [hl, List.mem_singleton] at hm
    subst hm
    have hb := body_not_blank o doc stamp []
    rw [List.append_nil] at hb
    exact lineReadable_of_loads hb (loads_body o doc stamp)

theorem glued_spec (h : recordBody o doc stamp = p ++ q) (hp : p ≠ []) (o' : ℤ)
    (doc' : Document) (stamp' : FloatText) :
    recordsOf (p ++ recordText o' doc' stamp') = [] ∧
      LogReadable (p ++ recordText o' doc' stamp') ∧
      Lines.Ended newline (p ++ recordText o' doc' stamp') := by
  obtain ⟨ds, hds⟩ := recordBody_head o' doc' stamp'
  have hn : newline ∉ p ++ recordBody o' doc' stamp' := by
    rw [List.mem_append, not_or]
    exact ⟨newline_not_mem_part h, newline_not_mem o' doc' stamp'⟩
  have hassoc : p ++ recordText o' doc' stamp' =
      (p ++ recordBody o' doc' stamp') ++ newline :: [] := by
    rw [recordText_eq, List.append_assoc]
  have hl : lines newline (p ++ recordText o' doc' stamp') =
      [p ++ recordText o' doc' stamp'] := by
    rw [hassoc, Lines.lines_line hn]
    rfl
  have hnone : Json.loads (p ++ recordText o' doc' stamp') = none :=
    Json.loads_glued (recordJson_wf o doc stamp) h hp (recordJson_wf o' doc' stamp') hds
  refine ⟨?_, fun line hm => ?_, ?_⟩
  · rw [recordsOf, hl, List.filterMap_cons, decodeLine, hnone]
    rfl
  · rw [hl, List.mem_singleton] at hm
    subst hm
    exact lineReadable_of_none hnone
  · rw [hassoc]
    exact Lines.Ended.line hn Lines.Ended.nil

inductive Cut (o : ℤ) (doc : Document) (stamp : FloatText) (k : ℕ) : Prop where
  | none : k = 0 → Cut o doc stamp k
  | part (q : Str) : k ≠ 0 → recordBody o doc stamp = (recordText o doc stamp).take k ++ q →
      (recordText o doc stamp).take k ≠ [] → k < (recordText o doc stamp).length →
      Cut o doc stamp k
  | whole : (recordText o doc stamp).take k = recordText o doc stamp →
      (recordText o doc stamp).length ≤ k → Cut o doc stamp k

theorem cut_cases (o : ℤ) (doc : Document) (stamp : FloatText) (k : ℕ) : Cut o doc stamp k := by
  have hlen : (recordText o doc stamp).length = (recordBody o doc stamp).length + 1 := by
    rw [recordText_eq]
    simp
  by_cases h0 : k = 0
  · exact .none h0
  · by_cases hw : (recordText o doc stamp).length ≤ k
    · exact .whole (List.take_of_length_le hw) hw
    · have hk : k ≤ (recordBody o doc stamp).length := by omega
      refine .part ((recordBody o doc stamp).drop k) h0 ?_ ?_ (not_le.mp hw)
      · rw [recordText_eq, List.take_append_of_le_length hk, List.take_append_drop]
      · intro hnil
        have := congrArg List.length hnil
        rw [List.length_take] at this
        simp only [List.length_nil] at this
        omega

theorem take_spec (o : ℤ) (doc : Document) (stamp : FloatText) (k : ℕ) :
    LogReadable ((recordText o doc stamp).take k) ∧
      (recordsOf ((recordText o doc stamp).take k) = [] ∨
        recordsOf ((recordText o doc stamp).take k) = [(o, doc)]) := by
  rcases cut_cases o doc stamp k with rfl | ⟨q, -, hq, -, -⟩ | ⟨hw, -⟩
  · exact ⟨logReadable_nil, Or.inl rfl⟩
  · by_cases hnil : q = []
    · rw [hnil, List.append_nil] at hq
      rw [← hq]
      exact ⟨(body_spec o doc stamp).2, Or.inr (body_spec o doc stamp).1⟩
    · obtain ⟨h1, h2⟩ := part_spec hq hnil
      exact ⟨h2, Or.inl h1⟩
  · rw [hw]
    exact ⟨logReadable_record o doc stamp, Or.inr (recordsOf_record o doc stamp)⟩

end text

section writes

variable {n : Opened} {s : FileSegment} {doc : Document} {clock : Clock} {float : PyFloat}

structure Clean (n : Opened) : Prop where
  consistent : n.Consistent
  sound : n.disk.Sound
  ended : ∀ s, n.queue.current? = some s → Lines.Ended newline (n.disk.logAt s.seq)

theorem maybeRotate_disk (hd : n.disk.Sound) :
    n.maybeRotate.disk.Sound ∧ (∀ k, n.maybeRotate.disk.logAt k = n.disk.logAt k) ∧
      (∀ k, n.maybeRotate.disk.acked k = n.disk.acked k) := by
  rcases maybeRotate_eq n with hr | hr
  · rw [hr]
    exact ⟨hd, fun _ => rfl, fun _ => rfl⟩
  · rw [hr]
    exact ⟨hd.rotate, rotateSegment_logAt hd, fun _ => rfl⟩

theorem Clean.rotate (h : n.Consistent) (hd : n.disk.Sound) : Clean n.rotateSegment := by
  refine ⟨h.rotate, hd.rotate, fun s hs => ?_⟩
  rw [rotateSegment_current] at hs
  cases hs
  rw [Disk.logAt, rotateSegment_logs hd, freshSegment, SortedMap.get?_insert_self]
  exact Lines.Ended.nil

theorem Clean.maybeRotate (h : Clean n) : Clean n.maybeRotate := by
  rcases maybeRotate_eq n with hr | hr
  · rw [hr]
    exact h
  · rw [hr]
    exact Clean.rotate h.consistent h.sound

theorem placed_sound (hd : n.disk.Sound) (s : FileSegment) (record : Str) :
    (n.placed s record).disk.Sound := by
  unfold placed
  split_ifs
  · exact hd.allocateOffset.rotate
  · exact hd.allocateOffset

theorem placedSegment_le (h : n.Stored) (hc : n.queue.current? = some s) (record : Str) :
    (n.placedSegment s record).seq ≤ (n.placed s record).disk.metaSeq :=
  (h.placed record).numbered _ _ (h.placedSegment_get? hc record)

theorem written_current (h : n.Stored) (hc : n.queue.current? = some s) :
    (n.written float clock doc s).queue.currentSegment =
      some (n.placedSegment s (recordText n.disk.offset doc clock.stamp)).seq := by
  rw [written, added_current]
  exact ((h.placed _).of_current (placed_current hc _)).1

theorem written_acked (n : Opened) (k : ℕ) :
    (n.written float clock doc s).disk.acked k = n.disk.acked k :=
  placed_acked n s _ k

theorem written_clean (float : PyFloat) (h : n.Consistent) (hd : n.disk.Sound) (hc : n.queue.current? = some s)
    (he : Lines.Ended newline (n.disk.logAt
      (n.placedSegment s (recordText n.disk.offset doc clock.stamp)).seq)) :
    Clean (n.written float clock doc s) ∧
      ∀ k, (n.written float clock doc s).disk.records k =
        if k = (n.placedSegment s (recordText n.disk.offset doc clock.stamp)).seq then
          n.disk.records k ++ [((n.disk.offset : ℤ), doc)]
        else n.disk.records k := by
  have hcons := (h.written float clock doc hc).1
  have hoff := (placed_frame n s (recordText n.disk.offset doc clock.stamp)).2.2.2
  have hrec : ∀ k, (n.written float clock doc s).disk.records k =
      if k = (n.placedSegment s (recordText n.disk.offset doc clock.stamp)).seq then
        n.disk.records k ++ [((n.disk.offset : ℤ), doc)]
      else n.disk.records k := by
    intro k
    rw [Disk.records, written_logAt hd]
    split_ifs with hk
    · rw [hk, recordsOf_append he, recordsOf_record]
      rfl
    · rfl
  refine ⟨⟨hcons, ?_, fun s' hs' => ?_⟩, hrec⟩
  · apply (placed_sound hd s (recordText n.disk.offset doc clock.stamp)).appendLog
      (by rw [placed_logAt hd]; exact he) (placedSegment_le h.stored hc _)
      (logReadable_record _ _ _) (by rw [recordsOf_record]; simp)
      (by rw [recordsOf_record]; simp) (offset_not_written hd s _)
    rw [hoff]
    omega
  · have hseq := (hcons.stored.of_current hs').1
    rw [written_current h.stored hc, Option.some.injEq] at hseq
    rw [written_logAt hd, if_pos hseq.symm, ← hseq]
    exact he.append (ended_record _ _ _)

theorem Disk.Sound.shrink {d d' : Disk} (hd : d.Sound)
    (hlogs : ∀ k log, d'.logs.get? k = some log → LogReadable log ∧ k ≤ d'.metaSeq)
    (hidx : d'.indexes = d.indexes) (hoff : d.offset ≤ d'.offset)
    (hsub : ∀ k, (d'.offsetsAt k).Sublist (d.offsetsAt k)) : d'.Sound := by
  have hacked : ∀ k, d'.acked k = d.acked k := fun k => by rw [Disk.acked, Disk.acked, hidx]
  refine ⟨fun k log hlog => (hlogs k log hlog).1, fun k => ?_, fun k => (hd.nodup k).sublist (hsub k),
    fun k k' o h1 h2 => hd.apart k k' o ((hsub k).subset h1) ((hsub k').subset h2),
    fun k o ho => ?_, fun k log hlog => (hlogs k log hlog).2, fun k o ho => ?_⟩
  · rw [hidx]
    exact hd.indexes k
  · have := hd.below k o ((hsub k).subset ho)
    omega
  · rw [hacked] at ho
    have := hd.ackedBelow k o ho
    omega

theorem written_glued (float : PyFloat) (h : n.Consistent) (hd : n.disk.Sound) (hc : n.queue.current? = some s)
    {o : ℤ} {doc' : Document} {stamp' : FloatText} {log p q : Str}
    (hp : recordBody o doc' stamp' = p ++ q) (hne : p ≠ []) (he : Lines.Ended newline log)
    (hlog : n.disk.logAt s.seq = log ++ p)
    (hr : rotates n.queue.segmentMaxBytes s (recordText n.disk.offset doc clock.stamp) = false) :
    Clean (n.written float clock doc s) ∧
      ∀ k, (n.disk.offset : ℤ) ∉ (n.written float clock doc s).disk.offsetsAt k := by
  have hcons := (h.written float clock doc hc).1
  have hseg : n.placedSegment s (recordText n.disk.offset doc clock.stamp) = s := by
    simp [placedSegment, hr]
  have hplaced : n.placed s (recordText n.disk.offset doc clock.stamp) = n.allocateOffset.2 := by
    simp [placed, hr]
  have hlogAt := written_logAt hd float clock doc s
  rw [hseg] at hlogAt
  obtain ⟨hg1, hg2, hg3⟩ := glued_spec hp hne n.disk.offset doc clock.stamp
  have htext : (n.written float clock doc s).disk.logAt s.seq =
      log ++ (p ++ recordText n.disk.offset doc clock.stamp) := by
    rw [hlogAt, if_pos rfl, hlog, List.append_assoc]
  have hrec : ∀ k, ((n.written float clock doc s).disk.records k).Sublist (n.disk.records k) := by
    intro k
    by_cases hk : k = s.seq
    · subst hk
      rw [Disk.records, Disk.records, htext, hlog, recordsOf_append he, recordsOf_append he, hg1,
        List.append_nil]
      exact List.sublist_append_left _ _
    · rw [Disk.records, Disk.records, hlogAt, if_neg hk]
  obtain ⟨log₀, hget₀, -⟩ : ∃ log₀, n.disk.logs.get? s.seq = some log₀ ∧ True := by
    rcases hl : n.disk.logs.get? s.seq with _ | log₀
    · rw [Disk.logAt, hl] at hlog
      exact absurd (List.append_eq_nil_iff.mp hlog.symm).2 hne
    · exact ⟨log₀, rfl, trivial⟩
  have hlogs : ∀ k l, (n.written float clock doc s).disk.logs.get? k = some l →
      LogReadable l ∧ k ≤ (n.written float clock doc s).disk.metaSeq := by
    intro k l hl
    have hmeta : (n.written float clock doc s).disk.metaSeq = n.disk.metaSeq := by
      rw [written, hplaced]
      rfl
    rw [hmeta]
    by_cases hk : k = s.seq
    · subst hk
      have hl' : (n.written float clock doc s).disk.logAt s.seq = l := by
        rw [Disk.logAt, hl]
        rfl
      refine ⟨?_, hd.numbered _ log₀ hget₀⟩
      rw [← hl', htext]
      have hread := hd.logs _ log₀ hget₀
      have hlog₀ : log₀ = log ++ p := by
        rw [← hlog, Disk.logAt, hget₀]
        rfl
      rw [hlog₀] at hread
      apply LogReadable.append _ he hg2
      intro line hm
      apply hread
      rw [he.lines_append]
      exact List.mem_append_left _ hm
    · have hl' : n.disk.logs.get? k = some l := by
        rw [written, hplaced, hseg] at hl
        simp only [added, appendLog, SortedMap.get?_insert, hk, if_false] at hl
        exact hl
      exact ⟨hd.logs k l hl', hd.numbered k l hl'⟩
  have hsound : (n.written float clock doc s).disk.Sound := by
    refine hd.shrink hlogs ?_ ?_ (fun k => (hrec k).map Prod.fst)
    · rw [written, hplaced]
      rfl
    · rw [(h.written float clock doc hc).2.2]
      omega
  refine ⟨⟨hcons, hsound, fun s' hs' => ?_⟩, fun k hm => ?_⟩
  · have hseq := (hcons.stored.of_current hs').1
    rw [written_current h.stored hc, hseg, Option.some.injEq] at hseq
    rw [← hseq, htext]
    exact he.append hg3
  · have := (hd.below k _ (((hrec k).map Prod.fst).subset hm)).2
    omega

structure Kept (n n' : Opened) : Prop where
  clean : Clean n'
  holds : ∀ k o doc, n.disk.Holds k o doc → n'.disk.Holds k o doc
  absent : ∀ o, o < (n.disk.offset : ℤ) → (∀ k, o ∉ n.disk.offsetsAt k) →
    ∀ k, o ∉ n'.disk.offsetsAt k
  offset : n.disk.offset ≤ n'.disk.offset
  metaSeq : n.disk.metaSeq ≤ n'.disk.metaSeq

theorem Kept.trans {n' n'' : Opened} (h : Kept n n') (h' : Kept n' n'') : Kept n n'' := by
  refine ⟨h'.clean, fun k o doc hk => h'.holds k o doc (h.holds k o doc hk), fun o ho hk => ?_,
    h.offset.trans h'.offset, h.metaSeq.trans h'.metaSeq⟩
  apply h'.absent o _ (h.absent o ho hk)
  have := h.offset
  omega

theorem metaSeq_le_placed (n : Opened) (s : FileSegment) (record : Str) :
    n.disk.metaSeq ≤ (n.placed s record).disk.metaSeq := by
  unfold placed
  split_ifs
  · exact Nat.le_succ _
  · exact le_rfl

theorem metaSeq_le_put (float : PyFloat) (clock : Clock) (doc : Document)
    (hc : n.queue.current? = some s) :
    n.disk.metaSeq ≤ (n.put float clock (.json doc)).2.disk.metaSeq := by
  rw [put_json float clock doc hc]
  have hw : n.disk.metaSeq ≤ (n.written float clock doc s).disk.metaSeq :=
    metaSeq_le_placed n s _
  rcases maybeRotate_eq (n.written float clock doc s) with hr | hr
  · rw [hr]
    exact hw
  · rw [hr]
    exact Nat.le_succ_of_le hw

theorem put_kept (float : PyFloat) (clock : Clock) (doc : Document) (h : n.Consistent) (hd : n.disk.Sound) (hc : n.queue.current? = some s)
    (he : Lines.Ended newline (n.disk.logAt
      (n.placedSegment s (recordText n.disk.offset doc clock.stamp)).seq)) :
    Kept n (n.put float clock (.json doc)).2 ∧
      ∃ k, (n.put float clock (.json doc)).2.disk.Holds k n.disk.offset doc := by
  obtain ⟨hclean, hrec⟩ := written_clean float h hd hc he
  obtain ⟨-, hlogAt, hacked⟩ := maybeRotate_disk hclean.sound
  have hmeta := metaSeq_le_put float clock doc hc
  have hput := (h.put float clock (.json doc)).2.1
  rw [put_json float clock doc hc] at hmeta hput ⊢
  have hrecords : ∀ k, (n.written float clock doc s).maybeRotate.disk.records k =
      (n.written float clock doc s).disk.records k := fun k => by
    rw [Disk.records, Disk.records, hlogAt]
  have hackedAll : ∀ k, (n.written float clock doc s).maybeRotate.disk.acked k =
      n.disk.acked k := fun k => (hacked k).trans (written_acked n k)
  refine ⟨⟨hclean.maybeRotate, fun k o doc' hk => ⟨?_, ?_⟩, fun o ho hk k hm => ?_, ?_, hmeta⟩,
    (n.placedSegment s (recordText n.disk.offset doc clock.stamp)).seq, ?_, ?_⟩
  · rw [hrecords, hrec]
    split_ifs
    · exact List.mem_append_left _ hk.1
    · exact hk.1
  · rw [hackedAll]
    exact hk.2
  · rw [Disk.offsetsAt, hrecords, hrec] at hm
    split_ifs at hm
    · rw [List.map_append, List.mem_append] at hm
      rcases hm with hm | hm
      · exact hk k hm
      · simp only [List.map_cons, List.map_nil, List.mem_singleton] at hm
        omega
    · exact hk k hm
  · omega
  · rw [hrecords, hrec, if_pos rfl]
    exact List.mem_append_right _ List.mem_cons_self
  · rw [hackedAll]
    exact offset_not_acked hd _

end writes

section restarts

def putAll (float : PyFloat) : List (Clock × Document) → Opened → List (ℤ × Document) × Opened
  | [], n => ([], n)
  | (clock, doc) :: rest, n =>
    match n.put float clock (.json doc) with
    | (.ok o, n') =>
      let r := putAll float rest n'
      ((o, doc) :: r.1, r.2)
    | (.error _, n') => putAll float rest n'

variable {n : Opened} {s : FileSegment}

theorem putAll_cons (float : PyFloat) (clock : Clock) (doc : Document)
    (rest : List (Clock × Document)) (hc : n.queue.current? = some s) :
    putAll float ((clock, doc) :: rest) n =
      (((n.disk.offset : ℤ), doc) :: (putAll float rest (n.put float clock (.json doc)).2).1,
        (putAll float rest (n.put float clock (.json doc)).2).2) := by
  rw [putAll, put_json float clock doc hc]

theorem Clean.placed_ended (h : Clean n) (hc : n.queue.current? = some s) (record : Str) :
    Lines.Ended newline (n.disk.logAt (n.placedSegment s record).seq) := by
  unfold placedSegment
  split_ifs
  · have hnone : n.disk.logs.get? (n.disk.metaSeq + 1) = none := by
      by_contra hne
      obtain ⟨log, hlog⟩ := Option.ne_none_iff_exists'.mp hne
      have := h.sound.numbered _ log hlog
      omega
    change Lines.Ended newline (n.disk.logAt (n.disk.metaSeq + 1))
    rw [Disk.logAt, hnone]
    exact Lines.Ended.nil
  · exact h.ended s hc

theorem putAll_kept (float : PyFloat) (later : List (Clock × Document)) (h : Clean n) :
    Kept n (putAll float later n).2 ∧
      ∀ r ∈ (putAll float later n).1, ∃ k, (putAll float later n).2.disk.Holds k r.1 r.2 := by
  induction later generalizing n with
  | nil =>
    exact ⟨⟨h, fun _ _ _ hk => hk, fun _ _ hk => hk, le_rfl, le_rfl⟩, fun r hr => nomatch hr⟩
  | cons p rest ih =>
    obtain ⟨clock, doc⟩ := p
    obtain ⟨s, hc⟩ := h.consistent.active.current?
    obtain ⟨hk, k, hnew⟩ := put_kept float clock doc h.consistent h.sound hc
      (h.placed_ended hc _)
    obtain ⟨hrest, hall⟩ := ih hk.clean
    rw [putAll_cons float clock doc rest hc]
    refine ⟨hk.trans hrest, fun r hr => ?_⟩
    rcases List.mem_cons.mp hr with rfl | hr
    · exact ⟨k, hrest.holds k _ _ hnew⟩
    · exact hall r hr

def torn (clock : Clock) (doc : Document) (cut : ℕ) (n : Opened) : Disk :=
  match n.prepare clock (.json doc) with
  | (.ok (_, record, s), m) => appendLog s.seq (record.take cut) m.disk
  | (.error _, m) => m.disk

def nextRecord (n : Opened) (clock : Clock) (doc : Document) : Str :=
  recordText n.disk.offset doc clock.stamp

theorem torn_eq (clock : Clock) (doc : Document) (cut : ℕ) (hc : n.queue.current? = some s) :
    torn clock doc cut n =
      appendLog (n.placedSegment s (nextRecord n clock doc)).seq
        ((nextRecord n clock doc).take cut) (n.placed s (nextRecord n clock doc)).disk := by
  rw [torn, prepare_json clock doc hc]
  rfl

structure TornDisk (n : Opened) (clock : Clock) (doc : Document) (cut : ℕ) (d : Disk) : Prop where
  sound : d.Sound
  offset : d.offset = n.disk.offset + 1
  holds : ∀ k o doc', n.disk.Holds k o doc' → d.Holds k o doc'
  whole : (nextRecord n clock doc).length ≤ cut → ∃ k, d.Holds k n.disk.offset doc
  log : ∃ log, Lines.Ended newline log ∧ d.logAt d.metaSeq =
    log ++ (nextRecord n clock doc).take cut
  last : ∃ log, d.logs.get? d.metaSeq = some log

theorem Durable.torn (h : Durable n) (clock : Clock) (doc : Document) (cut : ℕ) :
    TornDisk n clock doc cut (torn clock doc cut n) := by
  obtain ⟨s, hc⟩ := h.consistent.active.current?
  have hd := h.synced.sound
  have hoff := (placed_frame n s (nextRecord n clock doc)).2.2.2
  have hseq : (n.placedSegment s (nextRecord n clock doc)).seq =
      (n.placed s (nextRecord n clock doc)).disk.metaSeq := by
    have hcur := ((h.consistent.stored.placed (nextRecord n clock doc)).of_current
      (placed_current hc _)).1
    rw [(h.placed s _).2, Option.some.injEq] at hcur
    exact hcur.symm
  have he : Lines.Ended newline ((n.placed s (nextRecord n clock doc)).disk.logAt
      (n.placedSegment s (nextRecord n clock doc)).seq) := by
    rw [placed_logAt hd]
    exact h.ended _
  obtain ⟨hread, hrs⟩ := take_spec n.disk.offset doc clock.stamp cut
  have hrec := appendLog_records he ((nextRecord n clock doc).take cut)
  rw [torn_eq clock doc cut hc]
  refine ⟨?_, hoff, fun k o doc' hk => ⟨?_, ?_⟩, fun hw => ?_, ?_, ?_⟩
  · apply (placed_sound hd s _).appendLog he (placedSegment_le h.consistent.stored hc _) hread _ _
      (offset_not_written hd s _)
    · rw [hoff]
      omega
    · rcases hrs with hrs | hrs
      · rw [hrs]
        exact List.nodup_nil
      · rw [hrs]
        simp
    · intro r hr
      rcases hrs with hrs | hrs
      · rw [hrs] at hr
        cases hr
      · rw [hrs] at hr
        simp only [List.mem_singleton] at hr
        rw [hr]
  · rw [hrec, Disk.records, placed_logAt hd]
    split_ifs
    · exact List.mem_append_left _ hk.1
    · exact hk.1
  · change ((n.placed s (nextRecord n clock doc)).disk.acked k).contains o = false
    rw [placed_acked]
    exact hk.2
  · refine ⟨(n.placedSegment s (nextRecord n clock doc)).seq, ?_, ?_⟩
    · rw [hrec, if_pos rfl, List.take_of_length_le hw]
      apply List.mem_append_right
      rw [nextRecord, recordsOf_record]
      exact List.mem_cons_self
    · change ((n.placed s (nextRecord n clock doc)).disk.acked _).contains _ = false
      rw [placed_acked]
      exact offset_not_acked hd _
  · have hm : (appendLog (n.placedSegment s (nextRecord n clock doc)).seq
        ((nextRecord n clock doc).take cut) (n.placed s (nextRecord n clock doc)).disk).metaSeq =
        (n.placedSegment s (nextRecord n clock doc)).seq := hseq.symm
    refine ⟨_, he, ?_⟩
    rw [hm, appendLog_logAt, if_pos rfl]
  · rw [hseq]
    exact ⟨_, SortedMap.get?_insert_self ..⟩

theorem getLast?_of_max {f : ℕ × Str} {fs : List (ℕ × Str)}
    (hs : fs.Pairwise (fun a b => a.1 < b.1)) (hm : f ∈ fs) (hle : ∀ g ∈ fs, g.1 ≤ f.1) :
    fs.getLast? = some f := by
  rcases List.eq_nil_or_concat fs with rfl | ⟨gs, g, rfl⟩
  · cases hm
  · rw [List.concat_eq_append] at hs hm hle ⊢
    rw [List.getLast?_concat]
    rcases List.mem_append.mp hm with hm | hm
    · have hlt := (List.pairwise_append.mp hs).2.2 f hm g List.mem_cons_self
      have := hle g (List.mem_append_right _ List.mem_cons_self)
      omega
    · rw [List.mem_singleton.mp hm]

theorem listedFiles_last {d : Disk} (hd : d.Sound) {log : Str}
    (hlog : d.logs.get? d.metaSeq = some log) (hsix : d.metaSeq < 10 ^ 6) :
    (listedFiles d).getLast? = some (d.metaSeq, log) := by
  apply getLast?_of_max (d.logs.sorted.filter _)
  · exact List.mem_filter.mpr ⟨SortedMap.get?_eq_some_iff.mp hlog, decide_eq_true hsix⟩
  · intro g hg
    exact hd.numbered g.1 g.2 (listedFiles_get? hg)

structure AllPresent (q : FileWorkQueue) (rs : List (ℤ × Document)) (q' : FileWorkQueue) :
    Prop where
  before : ∀ o e, q.entries.get? o = some e →
    (q'.entries.get? o).map FileEntry.task = some e.task
  put : ∀ r ∈ rs, (q'.entries.get? r.1).map FileEntry.task = some (.json r.2)

theorem Reopened.task_of_holds {cfg : Config} {d : Disk} {n' : Opened} (h : Reopened cfg d n')
    (hd : d.Sound) (hsix : d.metaSeq < 10 ^ 6) {k : ℕ} {o : ℤ} {doc : Document}
    (hk : d.Holds k o doc) : (n'.queue.entries.get? o).map FileEntry.task = some (.json doc) := by
  have hlt : k < 10 ^ 6 := by
    rcases hlog : d.logs.get? k with _ | log
    · have hm := hk.1
      rw [Disk.records_of_none hlog] at hm
      cases hm
    · exact lt_of_le_of_lt (hd.numbered k log hlog) hsix
  have ht := (h.tasks o (.json doc) k).mpr ⟨hlt, doc, rfl, hk⟩
  rw [FileWorkQueue.tasks_get?, Option.map_eq_some_iff] at ht
  obtain ⟨e, he, hv⟩ := ht
  rw [he]
  simp only [Prod.mk.injEq] at hv
  simp [hv.1]

theorem Reopened.holds_of_task {cfg : Config} {d : Disk} {n' : Opened} (h : Reopened cfg d n')
    {o : ℤ} {e : FileEntry} (he : n'.queue.entries.get? o = some e) :
    ∃ k, o ∈ d.offsetsAt k := by
  have ht : n'.queue.tasks.get? o = some (e.task, e.segmentSeq) := by
    simp [FileWorkQueue.tasks_get?, he]
  obtain ⟨-, doc, -, hk⟩ := (h.tasks o e.task e.segmentSeq).mp ht
  exact ⟨e.segmentSeq, Disk.mem_offsetsAt hk.1⟩

def movesOn (cfg : Config) (d : Disk) (later : List (Clock × Document)) : Prop :=
  ∃ clock doc rest, later = (clock, doc) :: rest ∧ d.records d.metaSeq ≠ [] ∧
    (max cfg.segmentMaxBytes 1024).toNat <
      (d.logAt d.metaSeq).length + (recordText d.offset doc clock.stamp).length

theorem metaSeq_le_putAll (float : PyFloat) (later : List (Clock × Document))
    (h : n.Consistent) : n.disk.metaSeq ≤ (putAll float later n).2.disk.metaSeq := by
  induction later generalizing n with
  | nil => exact le_rfl
  | cons p rest ih =>
    obtain ⟨clock, doc⟩ := p
    obtain ⟨s, hc⟩ := h.active.current?
    rw [putAll_cons float clock doc rest hc]
    exact (metaSeq_le_put float clock doc hc).trans (ih (h.put float clock (.json doc)).1)

variable {cfg₁ : Config} {clock : Clock} {doc : Document} {cut : ℕ} {d : Disk} {n₁ : Opened}

theorem TornDisk.current (ht : TornDisk n clock doc cut d) (hr : Reopened cfg₁ d n₁)
    (hsix : d.metaSeq < 10 ^ 6) :
    ∃ s, n₁.queue.current? = some s ∧ s.seq = d.metaSeq ∧ n₁.disk.metaSeq = d.metaSeq ∧
      s.sizeBytes = (d.logAt d.metaSeq).length ∧ s.recordCount = (d.records d.metaSeq).length := by
  obtain ⟨log, hlog⟩ := ht.last
  obtain ⟨hcur, hmeta⟩ := hr.newest _ (listedFiles_last ht.sound hlog hsix)
  obtain ⟨s, hc⟩ := hr.consistent.active.current?
  obtain ⟨hseq, hget⟩ := hr.consistent.stored.of_current hc
  rw [hcur, Option.some.injEq] at hseq
  change d.metaSeq = s.seq at hseq
  obtain ⟨log₁, hlog₁, hsize⟩ := hr.synced.log s.seq s hget
  have hcount := hr.synced.count s.seq s hget
  have hat : n₁.disk.logAt s.seq = log₁ := by
    rw [Disk.logAt, hlog₁]
    rfl
  refine ⟨s, hc, hseq.symm, hmeta, ?_, ?_⟩
  · rw [hsize, ← hat, hr.logAt, hseq]
  · rw [hcount, Disk.records, hr.logAt, hseq]
    rfl

theorem TornDisk.clean (ht : TornDisk n clock doc cut d) (hr : Reopened cfg₁ d n₁)
    (hsix : d.metaSeq < 10 ^ 6) (hcut : cut = 0 ∨ (nextRecord n clock doc).length ≤ cut) :
    Clean n₁ := by
  obtain ⟨s, hc, hseq, -, -, -⟩ := ht.current hr hsix
  obtain ⟨log, he, hlog⟩ := ht.log
  refine ⟨hr.consistent, hr.synced.sound, fun s' hs' => ?_⟩
  rw [hc] at hs'
  cases hs'
  rw [hr.logAt, hseq, hlog]
  rcases hcut with rfl | hcut
  · rw [List.take_zero, List.append_nil]
    exact he
  · rw [List.take_of_length_le hcut]
    exact he.append (ended_record _ _ _)

theorem placedSegment_fresh {s : FileSegment} {record : Str}
    (h : rotates n.queue.segmentMaxBytes s record = true) :
    (n.placedSegment s record).seq = n.disk.metaSeq + 1 := by
  rw [placedSegment, if_pos h]
  rfl

theorem rotates_iff (q : FileWorkQueue) (s : FileSegment) (record : Str) :
    rotates q.segmentMaxBytes s record = true ↔
      s.recordCount ≠ 0 ∧ q.segmentMaxBytes < s.sizeBytes + record.length := by
  rw [rotates, Bool.and_eq_true, decide_eq_true_eq, decide_eq_true_eq, Nat.pos_iff_ne_zero,
    and_comm]

theorem TornDisk.keeps (ht : TornDisk n clock doc cut d) (hr : Reopened cfg₁ d n₁)
    {later : List (Clock × Document)}
    (hsix : (putAll cfg₁.float later n₁).2.disk.metaSeq < 10 ^ 6)
    (hok : cut = 0 ∨ (nextRecord n clock doc).length ≤ cut ∨ later = [] ∨ movesOn cfg₁ d later) :
    (putAll cfg₁.float later n₁).2.disk.Sound ∧
      (∀ k o doc', n₁.disk.Holds k o doc' →
        (putAll cfg₁.float later n₁).2.disk.Holds k o doc') ∧
      ∀ r ∈ (putAll cfg₁.float later n₁).1,
        ∃ k, (putAll cfg₁.float later n₁).2.disk.Holds k r.1 r.2 := by
  have hsixd : d.metaSeq < 10 ^ 6 :=
    lt_of_le_of_lt (hr.metaSeq.trans (metaSeq_le_putAll _ later hr.consistent)) hsix
  have hclean : Clean n₁ → _ := fun h => putAll_kept cfg₁.float later h
  rcases hok with hcut | hcut | rfl | ⟨clock', doc', rest, rfl, hne, hlt⟩
  · obtain ⟨hk, hall⟩ := hclean (ht.clean hr hsixd (Or.inl hcut))
    exact ⟨hk.clean.sound, hk.holds, hall⟩
  · obtain ⟨hk, hall⟩ := hclean (ht.clean hr hsixd (Or.inr hcut))
    exact ⟨hk.clean.sound, hk.holds, hall⟩
  · exact ⟨hr.synced.sound, fun _ _ _ hk => hk, fun r hm => nomatch hm⟩
  · obtain ⟨s, hc, hseq, hmeta, hsize, hcount⟩ := ht.current hr hsixd
    have hrot : rotates n₁.queue.segmentMaxBytes s
        (recordText n₁.disk.offset doc' clock'.stamp) = true := by
      rw [rotates_iff, hcount, hsize, hr.segmentMaxBytes, hr.offset]
      exact ⟨fun h0 => hne (List.length_eq_zero_iff.mp h0), hlt⟩
    have he : Lines.Ended newline (n₁.disk.logAt (n₁.placedSegment s
        (recordText n₁.disk.offset doc' clock'.stamp)).seq) := by
      rw [placedSegment_fresh hrot, Disk.logAt]
      rcases hl : n₁.disk.logs.get? (n₁.disk.metaSeq + 1) with _ | l
      · exact Lines.Ended.nil
      · have := hr.synced.sound.numbered _ l hl
        omega
    obtain ⟨hk, k, hnew⟩ := put_kept cfg₁.float clock' doc' hr.consistent hr.synced.sound hc he
    obtain ⟨hrest, hall⟩ := putAll_kept cfg₁.float rest hk.clean
    rw [putAll_cons cfg₁.float clock' doc' rest hc]
    refine ⟨hrest.clean.sound, (hk.trans hrest).holds, fun r hm => ?_⟩
    rcases List.mem_cons.mp hm with rfl | hm
    · exact ⟨k, hrest.holds k _ _ hnew⟩
    · exact hall r hm

theorem TornDisk.loses (ht : TornDisk n clock doc cut d) (hr : Reopened cfg₁ d n₁)
    {later : List (Clock × Document)}
    (hsix : (putAll cfg₁.float later n₁).2.disk.metaSeq < 10 ^ 6)
    (hbad : ¬(cut = 0 ∨ (nextRecord n clock doc).length ≤ cut ∨ later = [] ∨
      movesOn cfg₁ d later)) :
    (putAll cfg₁.float later n₁).2.disk.Sound ∧
      ∃ r ∈ (putAll cfg₁.float later n₁).1,
        ∀ k, r.1 ∉ (putAll cfg₁.float later n₁).2.disk.offsetsAt k := by
  have hsixd : d.metaSeq < 10 ^ 6 :=
    lt_of_le_of_lt (hr.metaSeq.trans (metaSeq_le_putAll _ later hr.consistent)) hsix
  obtain ⟨h0, hw, hl, hmove⟩ : cut ≠ 0 ∧ ¬(nextRecord n clock doc).length ≤ cut ∧ later ≠ [] ∧
      ¬movesOn cfg₁ d later := by
    simpa only [not_or] using hbad
  obtain ⟨⟨clock', doc'⟩, rest, rfl⟩ := List.exists_cons_of_ne_nil hl
  obtain ⟨s, hc, hseq, hmeta, hsize, hcount⟩ := ht.current hr hsixd
  have hrot : rotates n₁.queue.segmentMaxBytes s
      (recordText n₁.disk.offset doc' clock'.stamp) = false := by
    rw [Bool.eq_false_iff, Ne, rotates_iff, hcount, hsize, hr.segmentMaxBytes, hr.offset]
    rintro ⟨hne, hlt⟩
    exact hmove ⟨clock', doc', rest, rfl, fun hnil => hne (by rw [hnil]; rfl), hlt⟩
  obtain ⟨log, he, hlog⟩ := ht.log
  rcases cut_cases n.disk.offset doc clock.stamp cut with hzero | ⟨q, -, hq, hp, -⟩ | ⟨-, hle⟩
  · exact absurd hzero h0
  · have hat : n₁.disk.logAt s.seq = log ++ (recordText n.disk.offset doc clock.stamp).take cut := by
      rw [hr.logAt, hseq]
      exact hlog
    obtain ⟨hclean, habsent⟩ := written_glued cfg₁.float hr.consistent hr.synced.sound hc hq hp
      he hat hrot
    obtain ⟨-, hlogAt, -⟩ := maybeRotate_disk hclean.sound
    obtain ⟨hrest, -⟩ := putAll_kept cfg₁.float rest hclean.maybeRotate
    have hoff := (hr.consistent.put cfg₁.float clock' (.json doc')).2.1
    rw [putAll_cons cfg₁.float clock' doc' rest hc]
    rw [put_json cfg₁.float clock' doc' hc] at hoff ⊢
    refine ⟨hrest.clean.sound, (n₁.disk.offset, doc'), List.mem_cons_self, ?_⟩
    apply hrest.absent _ (by simp only at hoff ⊢; omega)
    intro k
    rw [Disk.offsetsAt, Disk.records, hlogAt]
    exact habsent k
  · exact absurd hle hw

def completed (n : Opened) (clock : Clock) (doc : Document) (cut : ℕ) : List (ℤ × Document) :=
  if (nextRecord n clock doc).length ≤ cut then [((n.disk.offset : ℤ), doc)] else []

def losesTask (cut : ℕ) (later : List (Clock × Document)) : Bool :=
  match init plainConfig (clockAt 1) (torn (clockAt 0) Document.empty cut
    (rotateSegment ⟨emptyQueue plainConfig, {}⟩)) with
  | .error _ => false
  | .ok n₁ =>
    match init plainConfig (clockAt 2) (putAll plainConfig.float later n₁).2.disk with
    | .error _ => false
    | .ok n₂ => (putAll plainConfig.float later n₁).1.any
        (fun r => (n₂.queue.entries.get? r.1).isNone)

theorem not_allPresent_of_losesTask {cut : ℕ} {later : List (Clock × Document)}
    (h : losesTask cut later = true) :
    ∃ n₁ n₂, init plainConfig (clockAt 1) (torn (clockAt 0) Document.empty cut
        (rotateSegment ⟨emptyQueue plainConfig, {}⟩)) = .ok n₁ ∧
      init plainConfig (clockAt 2) (putAll plainConfig.float later n₁).2.disk = .ok n₂ ∧
      ∀ q, ¬AllPresent q (putAll plainConfig.float later n₁).1 n₂.queue := by
  unfold losesTask at h
  split at h
  · cases h
  · rename_i n₁ hn₁
    split at h
    · cases h
    · rename_i n₂ hn₂
      refine ⟨n₁, n₂, hn₁, hn₂, fun q hall => ?_⟩
      obtain ⟨r, hr, hnone⟩ := List.any_eq_true.mp h
      have hp := hall.put r hr
      rw [Option.isNone_iff_eq_none.mp hnone] at hp
      cases hp

end restarts

end TraceMind.Queue
