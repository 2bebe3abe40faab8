import TraceMind.Queue.Contract

namespace TraceMind.Queue

structure InMemoryEntry where
  task : Task
  availableAt : ℚ
  leaseDeadline : ℚ := 0
  token : Option Str := none
  acked : Bool := false

structure InMemoryWorkQueue where
  nextOffset : ℤ := 0
  entries : SortedMap ℤ InMemoryEntry := SortedMap.empty
  ready : ReadyHeap := PriorityQueue.empty
  leaseSeq : ℕ := 0

namespace InMemoryWorkQueue

def push (offset : ℤ) (availableAt : ℚ) (q : InMemoryWorkQueue) : InMemoryWorkQueue :=
  { q with ready := q.ready.push (readyItem availableAt offset) }

def setEntry (offset : ℤ) (e : InMemoryEntry) (q : InMemoryWorkQueue) : InMemoryWorkQueue :=
  { q with entries := q.entries.insert offset e }

def put (float : PyFloat) (clock : Clock) (task : Task) (q : InMemoryWorkQueue) :
    ℤ × InMemoryWorkQueue :=
  let offset := q.nextOffset
  let availableAt := extractAvailableAt float task clock
  let q := { q with nextOffset := offset + 1 }
  (offset, (q.setEntry offset { task, availableAt }).push offset availableAt)

def releaseOne (now : ℚ) (q : InMemoryWorkQueue) (offset : ℤ) : InMemoryWorkQueue :=
  match q.entries.get? offset with
  | none => q
  | some e =>
    if e.acked = true ∨ e.token = none then q
    else if e.leaseDeadline ≤ now then
      (q.setEntry offset { e with token := none, leaseDeadline := 0 }).push offset e.availableAt
    else q

def releaseExpired (now : ℚ) (q : InMemoryWorkQueue) : InMemoryWorkQueue :=
  q.entries.keys.foldl (releaseOne now) q

def grant (offset : ℤ) (e : InMemoryEntry) (deadline : ℚ) (q : InMemoryWorkQueue) :
    LeasedTask × InMemoryWorkQueue :=
  let token := leaseToken (q.leaseSeq + 1)
  (⟨offset, e.task, deadline, token⟩,
    { q with leaseSeq := q.leaseSeq + 1 }.setEntry offset
      { e with token := some token, leaseDeadline := deadline })

-- Each turn pops an item for good or ends the loop, so the size of the heap bounds the turns.
def leaseLoop (now deadline : ℚ) (count : ℕ) : ℕ → List LeasedTask → InMemoryWorkQueue →
    List LeasedTask × InMemoryWorkQueue
  | 0, leased, q => (leased, q)
  | fuel + 1, leased, q =>
    if leased.length < count then
      match q.ready.pop? with
      | none => (leased, q)
      | some (item, rest) =>
        if now < item.availableAt then (leased, { q with ready := rest.push item })
        else
          let q := { q with ready := rest }
          match q.entries.get? item.offset with
          | none => leaseLoop now deadline count fuel leased q
          | some e =>
            if e.acked then leaseLoop now deadline count fuel leased q
            else
              let r := q.grant item.offset e deadline
              leaseLoop now deadline count fuel (leased ++ [r.1]) r.2
    else (leased, q)

def lease (now : ℚ) (count leaseMs : ℤ) (q : InMemoryWorkQueue) :
    List LeasedTask × InMemoryWorkQueue :=
  if count ≤ 0 then ([], q)
  else
    let q := q.releaseExpired now
    leaseLoop now (now + leaseDelta leaseMs) count.toNat q.ready.size [] q

def ack (offset : ℤ) (token : Str) (q : InMemoryWorkQueue) : InMemoryWorkQueue :=
  match q.entries.get? offset with
  | none => q
  | some e =>
    if e.acked then q
    else if e.token ≠ some token then q
    else { q with entries := q.entries.erase offset }

def nack (now : ℚ) (offset : ℤ) (token : Str) (requeue : Bool) (q : InMemoryWorkQueue) :
    InMemoryWorkQueue :=
  match q.entries.get? offset with
  | none => q
  | some e =>
    if e.acked then q
    else if e.token ≠ some token then q
    else if requeue then
      let availableAt := max e.availableAt now
      (q.setEntry offset { e with token := none, leaseDeadline := 0, availableAt }).push
        offset availableAt
    else { q with entries := q.entries.erase offset }

def reschedule (offset : ℤ) (availableAt : ℚ) (q : InMemoryWorkQueue) : InMemoryWorkQueue :=
  match q.entries.get? offset with
  | none => q
  | some e =>
    if e.acked then q
    else
      let q := q.setEntry offset { e with availableAt }
      if e.token = none then q.push offset availableAt else q

def pendingCount (q : InMemoryWorkQueue) : ℕ := q.entries.size

def workQueue (float : PyFloat) : WorkQueue InMemoryWorkQueue where
  put clock task q :=
    let r := q.put float clock task
    (.ok r.1, r.2)
  lease := lease
  ack := ack
  nack := nack
  reschedule := reschedule
  pendingCount := pendingCount

end InMemoryWorkQueue

end TraceMind.Queue

namespace TraceMind.Queue

open LeaseTable

namespace InMemoryWorkQueue

def leaseOf (e : InMemoryEntry) : Option (Str × ℚ) := e.token.map (fun k => (k, e.leaseDeadline))

def table (q : InMemoryWorkQueue) : Table := fun o => (q.entries.get? o).map leaseOf

structure Inv (q : InMemoryWorkQueue) : Prop where
  ready : Ready q.ready q.table
  notAcked : ∀ o e, q.entries.get? o = some e → e.acked = false
  below : ∀ o e, q.entries.get? o = some e → o < q.nextOffset

def Allowed (c : Clock × Call) (q : InMemoryWorkQueue) : Prop :=
  ∀ o t e, c.2 = .reschedule o t → q.entries.get? o = some e → e.token ≠ none

section table

variable {q : InMemoryWorkQueue} {o : ℤ} {e : InMemoryEntry}

@[simp] theorem table_push (q : InMemoryWorkQueue) (o : ℤ) (a : ℚ) :
    (q.push o a).table = q.table := rfl

theorem table_setEntry (q : InMemoryWorkQueue) (o : ℤ) (e : InMemoryEntry) :
    (q.setEntry o e).table = Function.update q.table o (some (leaseOf e)) := by
  funext o'
  simp only [table, setEntry, SortedMap.get?_insert, Function.update_apply]
  split_ifs <;> rfl

theorem table_of_get? (h : q.entries.get? o = some e) : q.table o = some (leaseOf e) := by
  simp [table, h]

theorem table_free (h : q.entries.get? o = some e) :
    q.table o = some none ↔ e.token = none := by
  simp [table, h, leaseOf]

theorem leaseOf_unleased (h : e.token = none) : leaseOf e = none := by simp [leaseOf, h]

end table

section invariant

variable {q : InMemoryWorkQueue} {o : ℤ} {e : InMemoryEntry}

theorem Inv.free (h : Inv q) (ho : q.table o ≠ some none) (hb : o < q.nextOffset)
    (he : e.token = none) (ha : e.acked = false) (a : ℚ) : Inv ((q.setEntry o e).push o a) := by
  have ht : ((q.setEntry o e).push o a).table = Function.update q.table o (some none) := by
    rw [table_push, table_setEntry, leaseOf_unleased he]
  refine ⟨?_, fun o' e' hg => ?_, fun o' e' hg => ?_⟩
  · rw [ht]
    exact h.ready.push ho a
  · simp only [push, setEntry, SortedMap.get?_insert] at hg
    split_ifs at hg with ho'
    · cases hg
      exact ha
    · exact h.notAcked o' e' hg
  · simp only [push, setEntry, SortedMap.get?_insert] at hg
    split_ifs at hg with ho'
    · rw [ho']
      exact hb
    · exact h.below o' e' hg

theorem Inv.erase (h : Inv q) (he : q.entries.get? o = some e) (hl : e.token ≠ none) :
    Inv { q with entries := q.entries.erase o } ∧
      table { q with entries := q.entries.erase o } = Function.update q.table o none := by
  have ht : table { q with entries := q.entries.erase o } = Function.update q.table o none := by
    funext o'
    simp only [table, SortedMap.get?_erase, Function.update_apply]
    split_ifs <;> rfl
  have hget : ∀ o' e', (q.entries.erase o).get? o' = some e' → q.entries.get? o' = some e' := by
    intro o' e' hg
    rw [SortedMap.get?_erase] at hg
    split_ifs at hg
    exact hg
  refine ⟨⟨?_, fun o' e' hg => h.notAcked o' e' (hget o' e' hg),
    fun o' e' hg => h.below o' e' (hget o' e' hg)⟩, ht⟩
  rw [ht]
  exact h.ready.update (mt (table_free he).mp hl) (by simp)

theorem releaseOne_spec (now : ℚ) (h : Inv q) (o : ℤ) :
    Inv (releaseOne now q o) ∧
      (releaseOne now q o).table = Function.update q.table o (q.table.expire now o) ∧
      (releaseOne now q o).nextOffset = q.nextOffset := by
  rcases he : q.entries.get? o with _ | e
  · have ht : q.table o = none := by simp [table, he]
    have hr : releaseOne now q o = q := by simp [releaseOne, he]
    rw [hr, expire_gone ht, ← ht, Function.update_eq_self]
    exact ⟨h, rfl, rfl⟩
  · have ht := table_of_get? he
    have ha := h.notAcked o e he
    by_cases hd : e.token ≠ none ∧ e.leaseDeadline ≤ now
    · have hr : releaseOne now q o =
          (q.setEntry o { e with token := none, leaseDeadline := 0 }).push o e.availableAt := by
        simp [releaseOne, he, ha, hd]
      have hfree : q.table o ≠ some none := mt (table_free he).mp hd.1
      have hinv := h.free (e := { e with token := none, leaseDeadline := 0 }) hfree
        (h.below o e he) rfl ha e.availableAt
      rw [hr, expire_freed ht hd]
      refine ⟨hinv, ?_, rfl⟩
      rw [table_push, table_setEntry, leaseOf_unleased rfl]
    · have hr : releaseOne now q o = q := by
        rw [releaseOne, he]
        grind
      rw [hr, expire_kept ht hd, Function.update_eq_self]
      exact ⟨h, rfl, rfl⟩

theorem releaseExpired_spec (now : ℚ) (h : Inv q) :
    Inv (q.releaseExpired now) ∧ (q.releaseExpired now).table = q.table.expire now ∧
      (q.releaseExpired now).nextOffset = q.nextOffset := by
  have step : ∀ (p : InMemoryWorkQueue) (k : ℤ), Inv p ∧ p.nextOffset = q.nextOffset →
      (Inv (releaseOne now p k) ∧ (releaseOne now p k).nextOffset = q.nextOffset) ∧
        (releaseOne now p k).table = Function.update p.table k (p.table.expire now k) := by
    intro p k hp
    obtain ⟨h1, ht, hn⟩ := releaseOne_spec now hp.1 k
    exact ⟨⟨h1, hn.trans hp.2⟩, ht⟩
  have hgone : ∀ o ∉ q.entries.keys, q.table o = none := by
    intro o ho
    rw [SortedMap.mem_keys_iff, SortedMap.contains] at ho
    simp only [Bool.not_eq_true, Option.isSome_eq_false_iff, Option.isNone_iff_eq_none] at ho
    simp [table, ho]
  obtain ⟨⟨h1, hn⟩, ht⟩ := foldl_expire step q.entries.keys ⟨h, rfl⟩ hgone
  exact ⟨h1, ht, hn⟩

theorem grant_spec (h : Inv q) {item : ReadyItem} {rest : ReadyHeap}
    (hp : q.ready.pop? = some (item, rest)) (he : q.entries.get? item.offset = some e)
    (d : ℚ) :
    let r := grant item.offset e d { q with ready := rest }
    Inv r.2 ∧ r.2.table = Function.update q.table item.offset (some (some r.1.grant.2)) ∧
      r.2.nextOffset = q.nextOffset := by
  intro r
  have ht : r.2.table = Function.update q.table item.offset (some (some r.1.grant.2)) :=
    table_setEntry _ _ _
  refine ⟨⟨?_, fun o' e' hg => ?_, fun o' e' hg => ?_⟩, ht, rfl⟩
  · rw [ht]
    exact h.ready.pop hp _
  · simp only [r, grant, setEntry, SortedMap.get?_insert] at hg
    split_ifs at hg with ho'
    · cases hg
      exact h.notAcked _ e he
    · exact h.notAcked o' e' hg
  · simp only [r, grant, setEntry, SortedMap.get?_insert] at hg
    split_ifs at hg with ho'
    · rw [ho']
      exact h.below _ e he
    · exact h.below o' e' hg

theorem leaseLoop_spec (now d : ℚ) (count fuel : ℕ) {t : Table} {leased : List LeasedTask}
    (h : Inv q) (hg : Grants t (leased.map LeasedTask.grant) q.table) :
    let r := leaseLoop now d count fuel leased q
    Inv r.2 ∧ Grants t (r.1.map LeasedTask.grant) r.2.table ∧ r.2.nextOffset = q.nextOffset := by
  induction fuel generalizing q leased with
  | zero => exact ⟨h, hg, rfl⟩
  | succ fuel ih =>
    simp only [leaseLoop]
    split_ifs with hcount
    · rcases hp : q.ready.pop? with _ | ⟨item, rest⟩
      · exact ⟨h, hg, rfl⟩
      · simp only
        split_ifs with hnow
        · rw [PriorityQueue.push_pop? hp]
          exact ⟨h, hg, rfl⟩
        · have hfree := h.ready.pop_free hp
          rcases he : q.entries.get? item.offset with _ | e
          · simp [table, he] at hfree
          · simp only [h.notAcked _ e he, Bool.false_eq_true, if_false]
            obtain ⟨h', ht', hn'⟩ := grant_spec h hp he d
            have hg' : Grants t ((leased ++ [(grant item.offset e d
                { q with ready := rest }).1]).map LeasedTask.grant)
                (grant item.offset e d { q with ready := rest }).2.table := by
              rw [List.map_append, ht']
              exact hg.grant hfree
            obtain ⟨h2, hg2, hn2⟩ := ih h' hg'
            exact ⟨h2, hg2, hn2.trans hn'⟩
    · exact ⟨h, hg, rfl⟩

end invariant

section refinement

variable {q : InMemoryWorkQueue} {a : State ℤ Str ℚ} {o : ℤ} {k : Str} {e : InMemoryEntry}

structure Abstracts (q : InMemoryWorkQueue) (a : State ℤ Str ℚ) : Prop where
  inv : Inv q
  table : a.table = q.table
  issued : a.issued = { o | o < q.nextOffset }

def abstractState (q : InMemoryWorkQueue) (h : Inv q) : State ℤ Str ℚ where
  issued := { o | o < q.nextOffset }
  table := q.table
  live_issued o ho := by
    rcases he : q.entries.get? o with _ | e
    · simp [InMemoryWorkQueue.table, he] at ho
    · exact h.below o e he

theorem Abstracts.step {q' : InMemoryWorkQueue} {ev : Event ℤ Str ℚ} (h : Abstracts q a)
    (h' : Inv q') (hn : q.nextOffset ≤ q'.nextOffset) (hm : Moves a ev q'.table) :
    ∃ a', Step a ev a' ∧ Abstracts q' a' := by
  refine ⟨abstractState q' h', ⟨?_, hm⟩, ⟨h', rfl, rfl⟩⟩
  rw [h.issued]
  exact fun o ho => lt_of_lt_of_le ho hn

theorem put_step (float : PyFloat) (clock : Clock) (task : Task) (h : Abstracts q a) :
    ∃ a', Step a (.put (q.put float clock task).1) a' ∧
      Abstracts (q.put float clock task).2 a' := by
  have hfree : q.table q.nextOffset ≠ some none := by
    intro hf
    rcases he : q.entries.get? q.nextOffset with _ | e
    · simp [InMemoryWorkQueue.table, he] at hf
    · exact lt_irrefl _ (h.inv.below _ e he)
  have hq : Inv { q with nextOffset := q.nextOffset + 1 } :=
    ⟨h.inv.ready, h.inv.notAcked, fun o e he => (h.inv.below o e he).trans (Int.lt_add_one_of_le le_rfl)⟩
  have hinv := hq.free
    (e := { task := task, availableAt := extractAvailableAt float task clock }) hfree
    (Int.lt_add_one_of_le le_rfl) rfl rfl (extractAvailableAt float task clock)
  apply h.step hinv (le_of_lt (Int.lt_add_one_of_le le_rfl))
  refine ⟨?_, ?_⟩
  · rw [h.issued]
    exact lt_irrefl q.nextOffset
  · rw [h.table, table_push, table_setEntry, leaseOf_unleased rfl]
    rfl

theorem lease_step (now : ℚ) {count : ℤ} (ms : ℤ) (hc : ¬count ≤ 0) (h : Abstracts q a) :
    ∃ a', Step a (.lease now ((q.lease now count ms).1.map LeasedTask.grant)) a' ∧
      Abstracts (q.lease now count ms).2 a' := by
  obtain ⟨h1, ht, hn⟩ := releaseExpired_spec now h.inv
  have hg : Grants (a.table.expire now) (([] : List LeasedTask).map LeasedTask.grant)
      (q.releaseExpired now).table := by
    rw [ht, h.table]
    exact Grants.nil
  obtain ⟨h2, hg2, hn2⟩ := leaseLoop_spec now (now + leaseDelta ms) count.toNat
    (q.releaseExpired now).ready.size h1 hg
  rw [lease, if_neg hc]
  exact h.step h2 (le_of_eq (hn2.trans hn).symm) hg2

theorem ack_spec (h : Inv q) (o : ℤ) (k : Str) :
    Inv (q.ack o k) ∧ (q.ack o k).table = q.table.settle o k := by
  rcases he : q.entries.get? o with _ | e
  · have hg : q.table o = none := by simp [InMemoryWorkQueue.table, he]
    simp only [ack, he, settle, closeWith_gone hg]
    exact ⟨h, trivial⟩
  · simp only [ack, he, h.notAcked o e he, Bool.false_eq_true, if_false, settle]
    split_ifs with hk
    · rw [closeWith_kept (table_of_get? he) hk]
      exact ⟨h, rfl⟩
    · rw [not_not] at hk
      rw [closeWith_update (table_of_get? he) hk]
      exact h.erase he (by simp [hk])

theorem nack_spec (now : ℚ) (h : Inv q) (o : ℤ) (k : Str) (requeue : Bool) :
    Inv (q.nack now o k requeue) ∧ (q.nack now o k requeue).table =
      (if requeue then q.table.release o k else q.table.settle o k) ∧
      (q.nack now o k requeue).nextOffset = q.nextOffset := by
  rcases he : q.entries.get? o with _ | e
  · have hg : q.table o = none := by simp [InMemoryWorkQueue.table, he]
    simp only [nack, he, settle, release, closeWith_gone hg]
    exact ⟨h, by simp, trivial⟩
  · simp only [nack, he, h.notAcked o e he, Bool.false_eq_true, if_false, settle, release]
    split_ifs with hk hreq
    · rw [closeWith_kept (table_of_get? he) hk]
      exact ⟨h, rfl, rfl⟩
    · rw [closeWith_kept (table_of_get? he) hk]
      exact ⟨h, rfl, rfl⟩
    · rw [not_not] at hk
      have hfree : q.table o ≠ some none := by simp [table_of_get? he, leaseOf, hk]
      rw [closeWith_update (table_of_get? he) hk]
      refine ⟨h.free hfree (h.below o e he) rfl rfl _, ?_, rfl⟩
      rw [table_push, table_setEntry, leaseOf_unleased rfl]
    · rw [not_not] at hk
      rw [closeWith_update (table_of_get? he) hk]
      obtain ⟨h1, h2⟩ := h.erase he (by simp [hk])
      exact ⟨h1, h2, rfl⟩

theorem reschedule_spec (h : Inv q) {o : ℤ} {t : ℚ}
    (hl : ∀ e, q.entries.get? o = some e → e.token ≠ none) :
    Inv (q.reschedule o t) ∧ (q.reschedule o t).table = q.table ∧
      (q.reschedule o t).nextOffset = q.nextOffset := by
  rcases he : q.entries.get? o with _ | e
  · simp only [reschedule, he]
    exact ⟨h, trivial, trivial⟩
  · have hk := hl e he
    have hr : q.reschedule o t = q.setEntry o { e with availableAt := t } := by
      simp [reschedule, he, h.notAcked o e he, hk]
    have ht : (q.setEntry o { e with availableAt := t }).table = q.table := by
      rw [table_setEntry]
      exact (congrArg _ (table_of_get? he).symm).trans (Function.update_eq_self o q.table)
    rw [hr]
    refine ⟨⟨?_, fun o' e' hg => ?_, fun o' e' hg => ?_⟩, ht, rfl⟩
    · rw [ht]
      exact h.ready
    · simp only [setEntry, SortedMap.get?_insert] at hg
      split_ifs at hg with ho'
      · cases hg
        exact h.notAcked o e he
      · exact h.notAcked o' e' hg
    · simp only [setEntry, SortedMap.get?_insert] at hg
      split_ifs at hg with ho'
      · rw [ho']
        exact h.below o e he
      · exact h.below o' e' hg

theorem ack_nextOffset (q : InMemoryWorkQueue) (o : ℤ) (k : Str) :
    (q.ack o k).nextOffset = q.nextOffset := by
  unfold ack
  split
  · rfl
  · split_ifs <;> rfl

theorem call_step (float : PyFloat) (c : Clock × Call) (h : Abstracts q a) (hc : Allowed c q) :
    ∃ a', Step a (eventOf c ((workQueue float).call c.1 c.2 q).1) a' ∧
      Abstracts ((workQueue float).call c.1 c.2 q).2 a' := by
  obtain ⟨clock, call⟩ := c
  cases call with
  | put task => exact put_step float clock task h
  | lease count ms =>
    by_cases hcount : count ≤ 0
    · simp only [WorkQueue.call, workQueue, eventOf, lease, hcount, if_true]
      exact h.step h.inv le_rfl h.table.symm
    · simp only [WorkQueue.call, workQueue, eventOf, hcount, if_false]
      exact lease_step clock.monotonic ms hcount h
  | ack o k =>
    obtain ⟨h1, ht⟩ := ack_spec h.inv o k
    apply h.step h1 (ack_nextOffset q o k).ge
    rw [h.table.symm] at ht
    exact ht
  | nack o k requeue =>
    obtain ⟨h1, ht, hn⟩ := nack_spec clock.monotonic h.inv o k requeue
    apply h.step h1 hn.ge
    rw [h.table.symm] at ht
    cases requeue with
    | true => exact ht
    | false => exact ht
  | reschedule o t =>
    obtain ⟨h1, ht, hn⟩ := reschedule_spec h.inv (fun e he => hc o t e rfl he)
    exact h.step h1 hn.ge (ht.trans h.table.symm)

theorem pendingCount_ack (h : Abstracts q a) {d : ℚ} (hl : a.table o = some (some (k, d))) :
    (q.ack o k).pendingCount + 1 = q.pendingCount := by
  rw [h.table] at hl
  rcases he : q.entries.get? o with _ | e
  · simp [InMemoryWorkQueue.table, he] at hl
  · have hk : e.token = some k := by
      simp only [table_of_get? he, leaseOf, Option.some.injEq, Option.map_eq_some_iff,
        Prod.mk.injEq] at hl
      obtain ⟨k', hk, rfl, -⟩ := hl
      exact hk
    have hr : q.ack o k = { q with entries := q.entries.erase o } := by
      simp [ack, he, h.inv.notAcked o e he, hk]
    rw [hr]
    exact (SortedMap.erase_perm he).length_eq.symm

theorem refines (float : PyFloat) : (workQueue float).Refines Allowed Abstracts where
  step h hc := call_step float _ h hc
  ack h hl := pendingCount_ack h hl
  none hc := by simp [workQueue, lease, hc]

theorem abstracts_init : ∃ a, Abstracts {} a := by
  have h : Inv {} := by
    refine ⟨⟨List.nodup_nil, fun o => ?_⟩, fun o e he => ?_, fun o e he => ?_⟩
    · simp [ReadyHeap.offsets, PriorityQueue.empty, InMemoryWorkQueue.table]
    · cases he
    · cases he
  exact ⟨abstractState {} h, h, rfl, rfl⟩

end refinement

end InMemoryWorkQueue

end TraceMind.Queue
