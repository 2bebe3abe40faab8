import TraceMind.Queue.Contract
import TraceMind.Queue.File

namespace TraceMind.Queue

open LeaseTable

namespace FileWorkQueue

def leaseOf (e : FileEntry) : Option (Str × ℚ) := e.token.map (fun k => (k, e.leaseDeadline))

def table (q : FileWorkQueue) : Table := fun o => (q.entries.get? o).map leaseOf

def tasks (q : FileWorkQueue) : SortedMap ℤ (Task × ℕ) :=
  q.entries.map (fun e => (e.task, e.segmentSeq))

structure Leases (q : FileWorkQueue) : Prop where
  ready : Ready q.readyHeap q.table
  readySet : ∀ o, q.readySet.contains o = true ↔ o ∈ q.readyHeap.offsets
  notAcked : ∀ o e, q.entries.get? o = some e → e.acked = false

structure SameTasks (q q' : FileWorkQueue) : Prop where
  tasks : q'.tasks = q.tasks
  segments : q'.segments = q.segments
  segmentsBySeq : q'.segmentsBySeq = q.segmentsBySeq
  currentSegment : q'.currentSegment = q.currentSegment
  nextOffset : q'.nextOffset = q.nextOffset
  segmentMaxBytes : q'.segmentMaxBytes = q.segmentMaxBytes
  v2Enabled : q'.v2Enabled = q.v2Enabled

theorem SameTasks.refl (q : FileWorkQueue) : SameTasks q q := ⟨rfl, rfl, rfl, rfl, rfl, rfl, rfl⟩

theorem SameTasks.trans {q q' q'' : FileWorkQueue} (h : SameTasks q q') (h' : SameTasks q' q'') :
    SameTasks q q'' :=
  ⟨h'.tasks.trans h.tasks, h'.segments.trans h.segments,
    h'.segmentsBySeq.trans h.segmentsBySeq, h'.currentSegment.trans h.currentSegment,
    h'.nextOffset.trans h.nextOffset, h'.segmentMaxBytes.trans h.segmentMaxBytes,
    h'.v2Enabled.trans h.v2Enabled⟩

section table

variable {q : FileWorkQueue} {o : ℤ} {k : Str} {e : FileEntry}

theorem table_setEntry (q : FileWorkQueue) (o : ℤ) (e : FileEntry) :
    (q.setEntry o e).table = Function.update q.table o (some (leaseOf e)) := by
  funext o'
  simp only [table, setEntry, SortedMap.get?_insert, Function.update_apply]
  split_ifs <;> rfl

theorem pushReady_entries (q : FileWorkQueue) (o : ℤ) (a : ℚ) :
    (q.pushReady o a).entries = q.entries := by
  unfold pushReady
  split_ifs <;> rfl

theorem table_pushReady (q : FileWorkQueue) (o : ℤ) (a : ℚ) :
    (q.pushReady o a).table = q.table := by
  funext o'
  rw [table, table, pushReady_entries]

theorem table_of_get? (h : q.entries.get? o = some e) : q.table o = some (leaseOf e) := by
  simp [table, h]

theorem table_gone (h : q.entries.get? o = none) : q.table o = none := by
  simp [table, h]

theorem table_free (h : q.entries.get? o = some e) :
    q.table o = some none ↔ e.token = none := by
  simp [table, h, leaseOf]

theorem leaseOf_unleased (h : e.token = none) : leaseOf e = none := by simp [leaseOf, h]

theorem tasks_get? (q : FileWorkQueue) (o : ℤ) :
    q.tasks.get? o = (q.entries.get? o).map (fun e => (e.task, e.segmentSeq)) :=
  SortedMap.get?_map _ _ _

theorem pushReady_same (q : FileWorkQueue) (o : ℤ) (a : ℚ) : SameTasks q (q.pushReady o a) := by
  unfold pushReady
  split_ifs
  · exact SameTasks.refl q
  · exact ⟨rfl, rfl, rfl, rfl, rfl, rfl, rfl⟩

theorem setEntry_same (e' : FileEntry) (h : q.entries.get? o = some e) (ht : e'.task = e.task)
    (hs : e'.segmentSeq = e.segmentSeq) : SameTasks q (q.setEntry o e') := by
  refine ⟨?_, rfl, rfl, rfl, rfl, rfl, rfl⟩
  have hg : q.tasks.get? o = some (e.task, e.segmentSeq) := by simp [tasks_get?, h]
  rw [tasks, setEntry, SortedMap.map_insert, ht, hs]
  exact SortedMap.insert_of_get? hg

theorem token_of_table {d : ℚ} (h : q.table o = some (some (k, d))) :
    ∃ e, q.entries.get? o = some e ∧ e.token = some k := by
  rcases he : q.entries.get? o with _ | e
  · simp [table, he] at h
  · refine ⟨e, rfl, ?_⟩
    simp only [table_of_get? he, leaseOf, Option.some.injEq, Option.map_eq_some_iff,
      Prod.mk.injEq] at h
    obtain ⟨k', hk, rfl, -⟩ := h
    exact hk

end table

section leases

variable {q : FileWorkQueue} {o : ℤ} {e : FileEntry}

theorem Leases.setEntry_notAcked (h : Leases q) (ha : e.acked = false) :
    ∀ o' e', (q.setEntry o e).entries.get? o' = some e' → e'.acked = false := by
  intro o' e' hg
  rw [setEntry, SortedMap.get?_insert] at hg
  split_ifs at hg with ho
  · cases hg
    exact ha
  · exact h.notAcked o' e' hg

theorem Leases.free (h : Leases q) (he : e.token = none) (ha : e.acked = false) (o : ℤ) (a : ℚ) :
    Leases ((q.setEntry o e).pushReady o a) ∧
      ((q.setEntry o e).pushReady o a).table = Function.update q.table o (some none) := by
  have ht : ((q.setEntry o e).pushReady o a).table = Function.update q.table o (some none) := by
    rw [table_pushReady, table_setEntry, leaseOf_unleased he]
  refine ⟨?_, ht⟩
  by_cases hset : q.readySet.contains o = true
  · have hp : (q.setEntry o e).pushReady o a = q.setEntry o e := by
      simp [pushReady, setEntry, hset]
    have hsame : Function.update q.table o (some none) = q.table := by
      rw [← (h.ready.free o).mp ((h.readySet o).mp hset)]
      exact Function.update_eq_self o q.table
    rw [hp] at ht ⊢
    rw [hsame] at ht
    exact ⟨ht ▸ h.ready, h.readySet, h.setEntry_notAcked ha⟩
  · have hp : (q.setEntry o e).pushReady o a = { q.setEntry o e with
        readyHeap := q.readyHeap.push (readyItem a o), readySet := q.readySet.insert o () } := by
      simp [pushReady, setEntry, hset]
    have hfree : q.table o ≠ some none := fun hf =>
      hset ((h.readySet o).mpr ((h.ready.free o).mpr hf))
    rw [hp] at ht ⊢
    refine ⟨?_, fun o' => ?_, h.setEntry_notAcked ha⟩
    · rw [ht]
      exact h.ready.push hfree a
    · simp only [SortedMap.contains_insert, Bool.or_eq_true, decide_eq_true_eq]
      rw [(push_offsets q.readyHeap a o).mem_iff, List.mem_cons, h.readySet]

theorem Leases.relabel (e' : FileEntry) (h : Leases q) (he : q.entries.get? o = some e)
    (hl : leaseOf e' = leaseOf e) (ha : e'.acked = false) :
    Leases (q.setEntry o e') ∧ (q.setEntry o e').table = q.table := by
  have ht : (q.setEntry o e').table = q.table := by
    rw [table_setEntry, hl, ← table_of_get? he]
    exact Function.update_eq_self o q.table
  exact ⟨⟨ht ▸ h.ready, h.readySet, h.setEntry_notAcked ha⟩, ht⟩

theorem Leases.erase (h : Leases q) (he : q.entries.get? o = some e) (hl : e.token ≠ none) :
    Leases { q with entries := q.entries.erase o } ∧
      table { q with entries := q.entries.erase o } = Function.update q.table o none := by
  have ht : table { q with entries := q.entries.erase o } = Function.update q.table o none := by
    funext o'
    simp only [table, SortedMap.get?_erase, Function.update_apply]
    split_ifs <;> rfl
  refine ⟨⟨?_, h.readySet, fun o' e' hg => ?_⟩, ht⟩
  · rw [ht]
    exact h.ready.update (mt (table_free he).mp hl) (by simp)
  · rw [SortedMap.get?_erase] at hg
    split_ifs at hg
    exact h.notAcked o' e' hg

theorem releaseOne_spec (now : ℚ) (h : Leases q) (o : ℤ) :
    (Leases (releaseOne now q o) ∧ SameTasks q (releaseOne now q o)) ∧
      (releaseOne now q o).table = Function.update q.table o (q.table.expire now o) := by
  rcases he : q.entries.get? o with _ | e
  · have ht := table_gone he
    have hr : releaseOne now q o = q := by simp [releaseOne, he]
    rw [hr, expire_gone ht, ← ht, Function.update_eq_self]
    exact ⟨⟨h, SameTasks.refl q⟩, rfl⟩
  · have ht := table_of_get? he
    have ha := h.notAcked o e he
    by_cases hd : e.token ≠ none ∧ e.leaseDeadline ≤ now
    · have hr : releaseOne now q o = (q.setEntry o
          { e with token := none, leaseDeadline := 0 }).pushReady o e.availableAt := by
        simp [releaseOne, he, ha, hd]
      obtain ⟨h1, ht1⟩ := h.free (e := { e with token := none, leaseDeadline := 0 }) rfl ha o
        e.availableAt
      rw [hr, expire_freed ht hd]
      have hs := setEntry_same { e with token := none, leaseDeadline := 0 } he rfl rfl
      exact ⟨⟨h1, hs.trans (pushReady_same _ _ _)⟩, ht1⟩
    · have hr : releaseOne now q o = q := by
        rw [releaseOne, he]
        grind
      rw [hr, expire_kept ht hd, Function.update_eq_self]
      exact ⟨⟨h, SameTasks.refl q⟩, rfl⟩

theorem releaseExpired_spec (now : ℚ) (h : Leases q) :
    (Leases (q.releaseExpired now) ∧ SameTasks q (q.releaseExpired now)) ∧
      (q.releaseExpired now).table = q.table.expire now := by
  have step : ∀ (p : FileWorkQueue) (k : ℤ), Leases p ∧ SameTasks q p →
      (Leases (releaseOne now p k) ∧ SameTasks q (releaseOne now p k)) ∧
        (releaseOne now p k).table = Function.update p.table k (p.table.expire now k) := by
    intro p k hp
    obtain ⟨⟨h1, hs⟩, ht⟩ := releaseOne_spec now hp.1 k
    exact ⟨⟨h1, hp.2.trans hs⟩, ht⟩
  have hgone : ∀ o ∉ q.entries.keys, q.table o = none := by
    intro o ho
    rw [SortedMap.mem_keys_iff, SortedMap.contains] at ho
    simp only [Bool.not_eq_true, Option.isSome_eq_false_iff, Option.isNone_iff_eq_none] at ho
    exact table_gone ho
  exact foldl_expire step q.entries.keys ⟨h, SameTasks.refl q⟩ hgone

def take (item : ReadyItem) (rest : ReadyHeap) (q : FileWorkQueue) : FileWorkQueue :=
  { q with readyHeap := rest, readySet := q.readySet.erase item.offset }

theorem popReady_spec (now : ℚ) (h : Leases q) :
    q.popReady now = (none, q) ∨
      ∃ item rest e, q.readyHeap.pop? = some (item, rest) ∧ item.availableAt ≤ now ∧
        q.entries.get? item.offset = some e ∧ e.token = none ∧
        q.popReady now = (some (item.offset, item.availableAt), q.take item rest) := by
  rw [popReady]
  rcases hp : q.readyHeap.pop? with _ | ⟨item, rest⟩
  · have hs : q.readyHeap.size = 0 := by
      rw [PriorityQueue.size, PriorityQueue.pop?_eq_none hp]
      rfl
    rw [hs]
    exact Or.inl rfl
  · have hs : q.readyHeap.size = rest.size + 1 := by
      rw [PriorityQueue.size, PriorityQueue.pop?_eq_some hp]
      rfl
    have hfree := h.ready.pop_free hp
    rcases he : q.entries.get? item.offset with _ | e
    · rw [table_gone he] at hfree
      cases hfree
    · have htok := (table_free he).mp hfree
      rw [hs]
      simp only [popReadyLoop, hp]
      split_ifs with hnow
      · left
        have hset : (q.readySet.erase item.offset).insert item.offset () = q.readySet := by
          have hc := (h.readySet item.offset).mpr ((h.ready.free _).mpr hfree)
          apply SortedMap.ext
          intro j
          rw [SortedMap.get?_insert, SortedMap.get?_erase]
          split_ifs with hj
          · rw [SortedMap.contains, Option.isSome_iff_exists] at hc
            obtain ⟨u, hu⟩ := hc
            rw [hj, hu]
          · rfl
        rw [PriorityQueue.push_pop? hp, hset]
      · right
        refine ⟨item, rest, e, rfl, not_lt.mp hnow, he, htok, ?_⟩
        simp [he, htok, take]

theorem grant_spec (h : Leases q) {item : ReadyItem} {rest : ReadyHeap}
    (hp : q.readyHeap.pop? = some (item, rest)) (he : q.entries.get? item.offset = some e)
    (d : ℚ) :
    let r := grant item.offset e d (q.take item rest)
    (Leases r.2 ∧ SameTasks q r.2) ∧
      r.2.table = Function.update q.table item.offset (some (some r.1.grant.2)) := by
  intro r
  have ht : r.2.table = Function.update q.table item.offset (some (some r.1.grant.2)) :=
    table_setEntry _ _ _
  have hleft : SameTasks q { q.take item rest with leaseSeq := q.leaseSeq + 1 } :=
    ⟨rfl, rfl, rfl, rfl, rfl, rfl, rfl⟩
  have hsame : SameTasks q r.2 := hleft.trans (setEntry_same _ he rfl rfl)
  refine ⟨⟨⟨?_, fun o' => ?_, h.setEntry_notAcked (h.notAcked _ e he)⟩, hsame⟩, ht⟩
  · rw [ht]
    exact h.ready.pop hp _
  · have hn := h.ready.nodup
    have hm := h.readySet o'
    rw [pop_offsets hp] at hn hm
    change (q.readySet.erase item.offset).contains o' = true ↔ o' ∈ ReadyHeap.offsets rest
    rw [SortedMap.contains_erase]
    by_cases ho : o' = item.offset
    · subst ho
      simp [(List.nodup_cons.mp hn).1]
    · simpa [ho] using hm

theorem leaseLoop_spec (now d : ℚ) (count fuel : ℕ) {t : Table} {leased : List LeasedTask}
    (h : Leases q) (hg : Grants t (leased.map LeasedTask.grant) q.table) :
    let r := leaseLoop now d count fuel leased q
    (Leases r.2 ∧ SameTasks q r.2) ∧ Grants t (r.1.map LeasedTask.grant) r.2.table := by
  induction fuel generalizing q leased with
  | zero => exact ⟨⟨h, SameTasks.refl q⟩, hg⟩
  | succ fuel ih =>
    simp only [leaseLoop]
    split_ifs with hcount
    · rcases popReady_spec now h with hpop | ⟨item, rest, e, hp, -, he, htok, hpop⟩
      · rw [hpop]
        exact ⟨⟨h, SameTasks.refl q⟩, hg⟩
      · rw [hpop]
        have he' : (q.take item rest).entries.get? item.offset = some e := he
        simp only [he']
        obtain ⟨⟨h', hs'⟩, ht'⟩ := grant_spec h hp he d
        have hg' : Grants t ((leased ++ [(grant item.offset e d
            (q.take item rest)).1]).map LeasedTask.grant)
            (grant item.offset e d (q.take item rest)).2.table := by
          rw [List.map_append, ht']
          exact hg.grant ((table_free he).mpr htok)
        obtain ⟨⟨h2, hs2⟩, hg2⟩ := ih h' hg'
        exact ⟨⟨h2, hs'.trans hs2⟩, hg2⟩
    · exact ⟨⟨h, SameTasks.refl q⟩, hg⟩

theorem lease_spec (now : ℚ) {count : ℤ} (ms : ℤ) (hc : ¬count ≤ 0) (h : Leases q) :
    (Leases (q.lease now count ms).2 ∧ SameTasks q (q.lease now count ms).2) ∧
      Grants (q.table.expire now) ((q.lease now count ms).1.map LeasedTask.grant)
        (q.lease now count ms).2.table := by
  obtain ⟨⟨h1, hs1⟩, ht⟩ := releaseExpired_spec now h
  have hg : Grants (q.table.expire now) (([] : List LeasedTask).map LeasedTask.grant)
      (q.releaseExpired now).table := by
    rw [ht]
    exact Grants.nil
  obtain ⟨⟨h2, hs2⟩, hg2⟩ := leaseLoop_spec now (now + leaseDelta ms) count.toNat
    (q.releaseExpired now).readyHeap.size h1 hg
  rw [lease, if_neg hc]
  exact ⟨⟨h2, hs1.trans hs2⟩, hg2⟩

theorem reschedule_spec (h : Leases q) (o : ℤ) (t : ℚ) :
    (Leases (q.reschedule o t) ∧ SameTasks q (q.reschedule o t)) ∧
      (q.reschedule o t).table = q.table := by
  rcases he : q.entries.get? o with _ | e
  · have hr : q.reschedule o t = q := by simp [reschedule, he]
    rw [hr]
    exact ⟨⟨h, SameTasks.refl q⟩, rfl⟩
  · have ha := h.notAcked o e he
    have hs := setEntry_same { e with availableAt := t } he rfl rfl
    by_cases hk : e.token = none
    · have hr : q.reschedule o t =
          (q.setEntry o { e with availableAt := t }).pushReady o t := by
        simp [reschedule, he, hk]
      obtain ⟨h1, ht⟩ := h.free (e := { e with availableAt := t }) hk ha o t
      rw [hr]
      refine ⟨⟨h1, hs.trans (pushReady_same _ _ _)⟩, ?_⟩
      rw [ht, ← (table_free he).mpr hk]
      exact Function.update_eq_self o q.table
    · have hr : q.reschedule o t = q.setEntry o { e with availableAt := t } := by
        simp [reschedule, he, hk]
      obtain ⟨h1, ht⟩ := h.relabel { e with availableAt := t } he rfl ha
      rw [hr]
      exact ⟨⟨h1, hs⟩, ht⟩

end leases

end FileWorkQueue

end TraceMind.Queue
