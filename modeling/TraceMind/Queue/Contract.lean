import TraceMind.Foundation.LeaseTable
import TraceMind.Queue.Base

namespace TraceMind.Queue

open LeaseTable

abbrev Table := LeaseTable ℤ Str ℚ

def LeasedTask.grant (x : LeasedTask) : ℤ × Str × ℚ := (x.offset, x.token, x.leaseDeadline)

def eventOf (c : Clock × Call) (r : Response) : Event ℤ Str ℚ :=
  match c.2, r with
  | .put _, .offset o => .put o
  | .lease count _, .leased tasks =>
    if count ≤ 0 then .other else .lease c.1.monotonic (tasks.map LeasedTask.grant)
  | .ack o k, _ => .settle o k
  | .nack o k true, _ => .release o k
  | .nack o k false, _ => .settle o k
  | _, _ => .other

def Monotone (calls : List (Clock × Call)) : Prop :=
  calls.Pairwise (fun a b => a.1.monotonic ≤ b.1.monotonic)

section ready

structure Ready (h : ReadyHeap) (t : Table) : Prop where
  nodup : h.offsets.Nodup
  free : ∀ o, o ∈ h.offsets ↔ t o = some none

variable {h rest : ReadyHeap} {t : Table} {o : ℤ} {item : ReadyItem}

theorem push_offsets (h : ReadyHeap) (a : ℚ) (o : ℤ) :
    (ReadyHeap.offsets (h.push (readyItem a o))).Perm (o :: h.offsets) :=
  (h.push_perm (readyItem a o)).map ReadyItem.offset

theorem pop_offsets (hp : h.pop? = some (item, rest)) :
    h.offsets = item.offset :: ReadyHeap.offsets rest := by
  rw [ReadyHeap.offsets, PriorityQueue.pop?_eq_some hp]
  rfl

theorem Ready.push (hr : Ready h t) (ho : t o ≠ some none) (a : ℚ) :
    Ready (h.push (readyItem a o)) (Function.update t o (some none)) := by
  have hnot : o ∉ h.offsets := fun hm => ho ((hr.free o).mp hm)
  refine ⟨(push_offsets h a o).nodup_iff.mpr (List.nodup_cons.mpr ⟨hnot, hr.nodup⟩),
    fun o' => ?_⟩
  rw [(push_offsets h a o).mem_iff, List.mem_cons, hr.free]
  by_cases he : o' = o
  · subst he
    simp
  · simp [he]

theorem Ready.pop_free (hr : Ready h t) (hp : h.pop? = some (item, rest)) :
    t item.offset = some none := by
  apply (hr.free item.offset).mp
  rw [pop_offsets hp]
  exact List.mem_cons_self

theorem Ready.pop (hr : Ready h t) (hp : h.pop? = some (item, rest)) (p : Str × ℚ) :
    Ready rest (Function.update t item.offset (some (some p))) := by
  have hn := hr.nodup
  rw [pop_offsets hp] at hn
  obtain ⟨hnot, hrest⟩ := List.nodup_cons.mp hn
  refine ⟨hrest, fun o' => ?_⟩
  by_cases he : o' = item.offset
  · subst he
    simp [hnot]
  · have hm := hr.free o'
    rw [pop_offsets hp, List.mem_cons] at hm
    simpa [he] using hm

theorem Ready.update (hr : Ready h t) (ho : t o ≠ some none) {l : Option (Option (Str × ℚ))}
    (hl : l ≠ some none) : Ready h (Function.update t o l) := by
  refine ⟨hr.nodup, fun o' => ?_⟩
  by_cases he : o' = o
  · subst he
    simp [hr.free, ho, hl]
  · simp [hr.free, he]

end ready

namespace WorkQueue

variable {σ : Type}

def Exclusive (w : WorkQueue σ) (s : σ) (calls : List (Clock × Call)) : Prop :=
  ∀ pre c mid c' post, calls = pre ++ c :: (mid ++ c' :: post) →
    ∀ x ∈ w.leasedBy c (w.after pre s), ∀ y ∈ w.leasedBy c' (w.after (pre ++ c :: mid) s),
      y.offset = x.offset → c'.1.monotonic < x.leaseDeadline →
        ∃ clock requeue, (clock, Call.nack x.offset x.token requeue) ∈ mid

def NoRepeat (w : WorkQueue σ) (s : σ) (calls : List (Clock × Call)) : Prop :=
  ∀ pre c post, calls = pre ++ c :: post →
    ((w.leasedBy c (w.after pre s)).map LeasedTask.offset).Nodup

def Acknowledges (w : WorkQueue σ) (s : σ) (calls : List (Clock × Call)) : Prop :=
  ∀ pre c mid post, calls = pre ++ c :: (mid ++ post) →
    ∀ x ∈ w.leasedBy c (w.after pre s),
      (∀ c' ∈ mid, c'.1.monotonic < x.leaseDeadline ∧ c'.2 ≠ .ack x.offset x.token ∧
        ∀ requeue, c'.2 ≠ .nack x.offset x.token requeue) →
      let s' := w.after (pre ++ c :: mid) s
      w.pendingCount (w.ack x.offset x.token s') + 1 = w.pendingCount s'

structure LeaseContract (w : WorkQueue σ) (s : σ) (calls : List (Clock × Call)) : Prop where
  exclusive : w.Exclusive s calls
  noRepeat : w.NoRepeat s calls
  acknowledges : w.Acknowledges s calls

structure Refines (w : WorkQueue σ) (Allowed : Clock × Call → σ → Prop)
    (R : σ → State ℤ Str ℚ → Prop) : Prop where
  step : ∀ {s a c}, R s a → Allowed c s →
    ∃ a', Step a (eventOf c (w.call c.1 c.2 s).1) a' ∧ R (w.call c.1 c.2 s).2 a'
  ack : ∀ {s a o k d}, R s a → a.table o = some (some (k, d)) →
    w.pendingCount (w.ack o k s) + 1 = w.pendingCount s
  none : ∀ {now count ms s}, count ≤ 0 → (w.lease now count ms s).1 = []

def AllAllowed (w : WorkQueue σ) (Allowed : Clock × Call → σ → Prop) (s : σ)
    (calls : List (Clock × Call)) : Prop :=
  ∀ pre c post, calls = pre ++ c :: post → Allowed c (w.after pre s)

def events (w : WorkQueue σ) : σ → List (Clock × Call) → List (Event ℤ Str ℚ)
  | _, [] => []
  | s, c :: calls =>
    eventOf c (w.call c.1 c.2 s).1 :: w.events (w.call c.1 c.2 s).2 calls

section contract

variable {w : WorkQueue σ} {Allowed : Clock × Call → σ → Prop} {R : σ → State ℤ Str ℚ → Prop}
  {s : σ} {a : State ℤ Str ℚ} {calls : List (Clock × Call)}

theorem AllAllowed.cons {c : Clock × Call} (h : w.AllAllowed Allowed s (c :: calls)) :
    Allowed c s ∧ w.AllAllowed Allowed (w.call c.1 c.2 s).2 calls := by
  refine ⟨h [] c calls rfl, fun pre c' post he => ?_⟩
  exact h (c :: pre) c' post (by rw [he]; rfl)

theorem AllAllowed.append {b : List (Clock × Call)} (h : w.AllAllowed Allowed s (calls ++ b)) :
    w.AllAllowed Allowed s calls ∧ w.AllAllowed Allowed (w.after calls s) b := by
  constructor
  · intro pre c post he
    exact h pre c (post ++ b) (by rw [he]; simp)
  · intro pre c post he
    rw [← after_append]
    exact h (calls ++ pre) c post (by rw [he]; simp)

theorem Refines.run (hw : w.Refines Allowed R) (hr : R s a)
    (hc : w.AllAllowed Allowed s calls) :
    ∃ a', Run a (w.events s calls) a' ∧ R (w.after calls s) a' := by
  induction calls generalizing s a with
  | nil => exact ⟨a, .nil a, hr⟩
  | cons c calls ih =>
    obtain ⟨hc, hrest⟩ := hc.cons
    obtain ⟨a', hs, hr'⟩ := hw.step hr hc
    obtain ⟨a'', hrun, hr''⟩ := ih hr' hrest
    exact ⟨a'', .cons hs hrun, hr''⟩

theorem eventOf_mem {e : Event ℤ Str ℚ} (he : e ∈ w.events s calls) :
    ∃ c ∈ calls, ∃ r, e = eventOf c r := by
  induction calls generalizing s with
  | nil => cases he
  | cons c calls ih =>
    rcases List.mem_cons.mp he with rfl | he
    · exact ⟨c, List.mem_cons_self, _, rfl⟩
    · obtain ⟨c', hc', hr⟩ := ih he
      exact ⟨c', List.mem_cons_of_mem _ hc', hr⟩

theorem release_mem {o : ℤ} {k : Str} (h : .release o k ∈ w.events s calls) :
    ∃ clock, (clock, Call.nack o k true) ∈ calls := by
  obtain ⟨⟨clock, call⟩, hc, r, he⟩ := eventOf_mem h
  refine ⟨clock, ?_⟩
  unfold eventOf at he
  split at he
  · cases he
  · split_ifs at he
  · cases he
  · rename_i hcall
    cases he
    rwa [← hcall]
  · cases he
  · cases he

theorem settle_mem {o : ℤ} {k : Str} (h : .settle o k ∈ w.events s calls) :
    ∃ clock, (clock, Call.ack o k) ∈ calls ∨ (clock, Call.nack o k false) ∈ calls := by
  obtain ⟨⟨clock, call⟩, hc, r, he⟩ := eventOf_mem h
  refine ⟨clock, ?_⟩
  unfold eventOf at he
  split at he
  · cases he
  · split_ifs at he
  · rename_i hcall
    cases he
    exact Or.inl (by rwa [← hcall])
  · cases he
  · rename_i hcall
    cases he
    exact Or.inr (by rwa [← hcall])
  · cases he

theorem leaseBefore_events {d : ℚ} (h : ∀ c ∈ calls, c.1.monotonic < d) :
    ∀ e ∈ w.events s calls, leaseBefore d e := by
  intro e he
  obtain ⟨c, hc, r, rfl⟩ := eventOf_mem he
  unfold eventOf
  split
  · trivial
  · split_ifs
    · trivial
    · exact h c hc
  · trivial
  · trivial
  · trivial
  · trivial

theorem Refines.eventOf_lease (hw : w.Refines Allowed R) {c : Clock × Call} {x : LeasedTask}
    (hx : x ∈ w.leasedBy c s) :
    eventOf c (w.call c.1 c.2 s).1 =
      .lease c.1.monotonic ((w.leasedBy c s).map LeasedTask.grant) := by
  obtain ⟨clock, call⟩ := c
  cases call with
  | lease count ms =>
    have hcount : ¬count ≤ 0 := by
      intro hle
      simp only [leasedBy, WorkQueue.call, hw.none hle] at hx
      cases hx
    simp [eventOf, leasedBy, WorkQueue.call, hcount]
  | put task =>
    exfalso
    revert hx
    simp only [leasedBy, WorkQueue.call]
    rcases w.put clock task s with ⟨_ | _, s'⟩ <;> simp
  | ack o k => simp [leasedBy, WorkQueue.call] at hx
  | nack o k b => simp [leasedBy, WorkQueue.call] at hx
  | reschedule o t => simp [leasedBy, WorkQueue.call] at hx

theorem Refines.leased (hw : w.Refines Allowed R) (hr : R s a) {c : Clock × Call}
    (hc : Allowed c s) {x : LeasedTask} (hx : x ∈ w.leasedBy c s) :
    ∃ a', Step a (.lease c.1.monotonic ((w.leasedBy c s).map LeasedTask.grant)) a' ∧
      R (w.call c.1 c.2 s).2 a' := by
  obtain ⟨a', hs, hr'⟩ := hw.step hr hc
  rw [hw.eventOf_lease hx] at hs
  exact ⟨a', hs, hr'⟩

theorem Refines.run_lease (hw : w.Refines Allowed R) (hr : R s a) {pre mid : List (Clock × Call)}
    {c : Clock × Call} (hc : w.AllAllowed Allowed s (pre ++ c :: mid)) {x : LeasedTask}
    (hx : x ∈ w.leasedBy c (w.after pre s)) :
    ∃ a₁ a₂ es, es = w.events (w.after (pre ++ [c]) s) mid ∧
      a₁.table x.offset = some (some (x.token, x.leaseDeadline)) ∧
      Run a₁ es a₂ ∧ R (w.after (pre ++ c :: mid) s) a₂ := by
  obtain ⟨hpre, hrest⟩ := hc.append
  obtain ⟨hcall, hmid⟩ := hrest.cons
  obtain ⟨a₀, -, hr₀⟩ := hw.run hr hpre
  obtain ⟨a₁, hs, hr₁⟩ := hw.leased hr₀ hcall hx
  obtain ⟨a₂, hrun, hr₂⟩ := hw.run hr₁ hmid
  have hgrant : x.grant ∈ (w.leasedBy c (w.after pre s)).map LeasedTask.grant :=
    List.mem_map_of_mem hx
  refine ⟨a₁, a₂, _, rfl, Grants.granted hs.2 x.grant hgrant, ?_, ?_⟩
  · rw [after_append]
    exact hrun
  · rw [after_append]
    exact hr₂

theorem Refines.noRepeat (hw : w.Refines Allowed R) (hr : R s a)
    (hc : w.AllAllowed Allowed s calls) : w.NoRepeat s calls := by
  rintro pre c post rfl
  obtain ⟨hpre, hrest⟩ := hc.append
  obtain ⟨a₀, -, hr₀⟩ := hw.run hr hpre
  by_cases hx : w.leasedBy c (w.after pre s) = []
  · simp [hx]
  · obtain ⟨x, hx⟩ := List.exists_mem_of_ne_nil _ hx
    obtain ⟨a₁, hs, -⟩ := hw.leased hr₀ hrest.cons.1 hx
    have hn := Grants.nodup hs.2
    rwa [List.map_map] at hn

theorem Refines.exclusive (hw : w.Refines Allowed R) (hr : R s a)
    (hc : w.AllAllowed Allowed s calls) (hm : Monotone calls) : w.Exclusive s calls := by
  rintro pre c mid c' post rfl x hx y hy hxy hd
  have hsplit : pre ++ c :: (mid ++ c' :: post) = (pre ++ c :: mid) ++ c' :: post := by simp
  rw [hsplit] at hc hm
  obtain ⟨hmid, hpost⟩ := hc.append
  obtain ⟨a₁, a₂, es, hes, hl, hrun, hr₂⟩ := hw.run_lease hr hmid hx
  obtain ⟨a₃, hs, -⟩ := hw.leased hr₂ hpost.cons.1 hy
  have hbefore : ∀ c₀ ∈ mid, c₀.1.monotonic < x.leaseDeadline := by
    intro c₀ h₀
    refine lt_of_le_of_lt ?_ hd
    exact (List.pairwise_append.mp hm).2.2 c₀ (by simp [h₀]) c' List.mem_cons_self
  have hrel : .release x.offset x.token ∈ es := by
    apply run_exclusive hrun hl (hes ▸ leaseBefore_events hbefore) hs hd
    rw [List.map_map, List.mem_map]
    exact ⟨y, hy, hxy⟩
  obtain ⟨clock, hn⟩ := release_mem (hes ▸ hrel)
  exact ⟨clock, true, hn⟩

theorem Refines.acknowledges (hw : w.Refines Allowed R) (hr : R s a)
    (hc : w.AllAllowed Allowed s calls) : w.Acknowledges s calls := by
  rintro pre c mid post rfl x hx hmid
  have hsplit : pre ++ c :: (mid ++ post) = (pre ++ c :: mid) ++ post := by simp
  rw [hsplit] at hc
  obtain ⟨a₁, a₂, es, hes, hl, hrun, hr₂⟩ := hw.run_lease hr hc.append.1 hx
  have hbefore := leaseBefore_events (w := w) (s := w.after (pre ++ [c]) s)
    (fun c' hc' => (hmid c' hc').1)
  rcases run_leased hrun hl (hes ▸ hbefore) with h | ⟨h, -⟩ | h
  · exact hw.ack hr₂ h
  · exfalso
    obtain ⟨clock, h | h⟩ := settle_mem (hes ▸ h)
    · exact (hmid _ h).2.1 rfl
    · exact (hmid _ h).2.2 false rfl
  · exfalso
    obtain ⟨clock, h⟩ := release_mem (hes ▸ h)
    exact (hmid _ h).2.2 true rfl

theorem Refines.contract (hw : w.Refines Allowed R) (hr : R s a)
    (hc : w.AllAllowed Allowed s calls) (hm : Monotone calls) : w.LeaseContract s calls :=
  ⟨hw.exclusive hr hc hm, hw.noRepeat hr hc, hw.acknowledges hr hc⟩

end contract

end WorkQueue

end TraceMind.Queue
