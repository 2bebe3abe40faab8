import TraceMind.Foundation.Fallible
import TraceMind.Queue.Backlog
import TraceMind.Queue.Dedup

namespace TraceMind.Queue

namespace Reports

inductive ManagerCall where
  | enqueue (clock : Clock) (e : TaskEnvelope)
  | lease (clock : Clock) (count leaseMs : ℤ)
  | ack (l : ManagedLease) (clear : Bool)
  | nack (now : ℚ) (l : ManagedLease) (requeue : Bool)
  | recordRetry (clock : Clock) (l : ManagedLease) (scheduledAt : FloatText)
  | recordDeadLetter (clock : DeadLetterClock) (l : ManagedLease) (error : Document)
      (reason : Str)

def ManagerCall.reports? : ManagerCall → Option ManagedLease
  | .ack l _ | .nack _ l _ | .recordRetry _ l _ | .recordDeadLetter _ l _ _ => some l
  | _ => none

structure Managed (σ ρ : Type) where
  manager : TaskQueueManager σ ρ
  issued : List ManagedLease := []
  minted : List Str := []

variable {σ ρ : Type}

section calls

variable (w : WorkQueue σ) (py : PyText) (float : PyFloat)

def perform (c : ManagerCall) (s : Managed σ ρ) : Managed σ ρ :=
  match c with
  | .enqueue clock e =>
    { s with manager := (s.manager.enqueue w clock e).2, minted := e.taskId :: s.minted }
  | .lease clock count leaseMs =>
    match s.manager.lease w py float clock count leaseMs with
    | (.ok leases, m) => { s with manager := m, issued := s.issued ++ leases }
    | (.error _, m) => { s with manager := m }
  | .ack l clear => { s with manager := s.manager.ack w l clear }
  | .nack now l requeue => { s with manager := s.manager.nack w now l requeue }
  | .recordRetry clock l scheduledAt =>
    { s with manager := (s.manager.recordRetry w clock l scheduledAt).2 }
  | .recordDeadLetter clock l error reason =>
    { s with manager := s.manager.recordDeadLetter w clock l error reason }

def Proper (c : ManagerCall) (s : Managed σ ρ) : Prop :=
  (∀ clock e, c = .enqueue clock e → e.taskId ∉ s.minted) ∧
    ∀ l, c.reports? = some l → l ∈ s.issued

end calls

section statements

variable {w : WorkQueue σ}

def HoldsKey (e : TaskEnvelope) (m : TaskQueueManager σ ρ) : Prop :=
  e.idempotencyKey ≠ none ∧ m.pendingKeys.get? e.compositeKey = some e.taskId

def Stale (b : Backlog w) (l : ManagedLease) (m : TaskQueueManager σ ρ) : Prop :=
  b.holder m.queue l.offset ≠ some l.token

def Harmless (c : ManagerCall) (m : TaskQueueManager σ ρ) : Prop :=
  match c with
  | .ack l true | .nack _ l false | .recordDeadLetter _ l _ _ => ¬HoldsKey l.envelope m
  | .recordRetry _ _ _ => False
  | _ => True

def Careful (b : Backlog w) (c : ManagerCall) (s : Managed σ ρ) : Prop :=
  ∀ l, c.reports? = some l → Stale b l s.manager → Harmless c s.manager

def taskIdOf : Task → Option Json
  | .json doc => doc.get? "task_id".toList
  | .other _ => none

def OneEach (b : Backlog w) (m : TaskQueueManager σ ρ) : Prop :=
  ∀ o o' t t', b.task m.queue o = some t → b.task m.queue o' = some t' →
    taskIdOf t = taskIdOf t' → o = o'

def Untouched (b : Backlog w) (m m' : TaskQueueManager σ ρ) : Prop :=
  b.task m'.queue = b.task m.queue ∧ m'.pendingKeys = m.pendingKeys

def Reaches (w : WorkQueue σ) (py : PyText) (float : PyFloat)
    (allowed : ManagerCall → Managed σ ρ → Prop) : Managed σ ρ → Managed σ ρ → Prop :=
  Relation.ReflTransGen (fun s s' => ∃ c, Proper c s ∧ allowed c s ∧ s' = perform w py float c s)

end statements

section effects

variable {w : WorkQueue σ} {b : Backlog w} {m : TaskQueueManager σ ρ} {e : TaskEnvelope}
  {l : ManagedLease}

theorem taskIdOf_toDict (e : TaskEnvelope) :
    taskIdOf (.json e.toDict) = some (.str e.taskId) := rfl

def Added (b : Backlog w) (q q' : σ) (t : Task) : Prop :=
  ∃ o, b.next q ≤ o ∧ o < b.next q' ∧ b.task q' = Function.update (b.task q) o (some t)

def Same (b : Backlog w) (q q' : σ) : Prop := b.next q' = b.next q ∧ b.task q' = b.task q

@[simp] theorem clearPending_queue (e : TaskEnvelope) (m : TaskQueueManager σ ρ) :
    (m.clearPending e).queue = m.queue := by
  unfold TaskQueueManager.clearPending
  split
  · rfl
  · split_ifs <;> rfl

@[simp] theorem register_queue (e : TaskEnvelope) (o : ℤ) (m : TaskQueueManager σ ρ) :
    (m.register e o).queue = m.queue := by
  unfold TaskQueueManager.register
  split
  · rfl
  · dsimp only
    split_ifs <;> rfl

@[simp] theorem keepPending_queue (e : TaskEnvelope) (m : TaskQueueManager σ ρ) :
    (m.keepPending e).queue = m.queue := by
  unfold TaskQueueManager.keepPending
  split <;> rfl

theorem ack_queue (l : ManagedLease) (clear : Bool) (m : TaskQueueManager σ ρ) :
    (m.ack w l clear).queue = w.ack l.offset l.token m.queue := by
  unfold TaskQueueManager.ack
  split_ifs
  · rw [clearPending_queue]
    rfl
  · rfl

theorem nack_queue (now : ℚ) (l : ManagedLease) (requeue : Bool) (m : TaskQueueManager σ ρ) :
    (m.nack w now l requeue).queue = w.nack now l.offset l.token requeue m.queue := by
  unfold TaskQueueManager.nack
  split_ifs
  · rfl
  · rw [clearPending_queue]
    rfl

theorem storeEnvelope_spec (clock : Clock) (e : TaskEnvelope) (h : b.Valid m.queue) :
    ∃ m', m.storeEnvelope w clock e = (.ok (), m') ∧ b.Valid m'.queue ∧
      Added b m.queue m'.queue (.json e.toDict) := by
  obtain ⟨o, q, hput, hv, hle, hlt, ht⟩ := b.put clock e.toDict h
  refine ⟨TaskQueueManager.register e o { m with queue := q }, ?_, ?_, o, hle, ?_, ?_⟩
  · simp only [TaskQueueManager.storeEnvelope, TaskQueueManager.putEnvelope, hput]
  · rw [register_queue]
    exact hv
  · rw [register_queue]
    exact hlt
  · rw [register_queue]
    exact ht

theorem storeQueued_spec (clock : Clock) (e : TaskEnvelope) (h : b.Valid m.queue) :
    b.Valid (m.storeQueued w clock e).2.queue ∧
      Added b m.queue (m.storeQueued w clock e).2.queue (.json e.toDict) := by
  obtain ⟨m', hs, hv, ha⟩ := storeEnvelope_spec clock e h
  simp only [TaskQueueManager.storeQueued, hs]
  exact ⟨hv, ha⟩

theorem reserve_queue (e : TaskEnvelope) (m : TaskQueueManager σ ρ) :
    (m.reserve e).2.queue = m.queue := by
  unfold TaskQueueManager.reserve
  split_ifs <;> rfl

theorem enqueue_spec (clock : Clock) (e : TaskEnvelope) (h : b.Valid m.queue) :
    b.Valid (m.enqueue w clock e).2.queue ∧
      (Same b m.queue (m.enqueue w clock e).2.queue ∨
        Added b m.queue (m.enqueue w clock e).2.queue (.json e.toDict)) := by
  unfold TaskQueueManager.enqueue
  split
  · obtain ⟨hv, ha⟩ := storeQueued_spec clock e h
    exact ⟨hv, Or.inr ha⟩
  · rcases hl : m.lookup clock.monotonic e with ⟨_ | found, m₁⟩
    · have hm₁ : m₁.queue = m.queue := (congrArg (fun r => r.2.queue) hl).symm
      simp only
      rcases hr : m₁.reserve e with ⟨_ | _, m₂⟩
      · have hm₂ : m₂.queue = m.queue := by
          rw [← hm₁, ← reserve_queue e m₁, hr]
        rw [hm₂]
        exact ⟨h, Or.inl ⟨rfl, rfl⟩⟩
      · have hm₂ : m₂.queue = m.queue := by
          rw [← hm₁, ← reserve_queue e m₁, hr]
        rw [← hm₂] at h ⊢
        obtain ⟨hv, ha⟩ := storeQueued_spec clock e h
        exact ⟨hv, Or.inr ha⟩
    · have hm₁ : m₁.queue = m.queue := (congrArg (fun r => r.2.queue) hl).symm
      simp only
      rw [hm₁]
      exact ⟨h, Or.inl ⟨rfl, rfl⟩⟩

theorem recordDeadLetter_queue (c : DeadLetterClock) (l : ManagedLease) (error : Document)
    (reason : Str) (m : TaskQueueManager σ ρ) :
    (m.recordDeadLetter w c l error reason).queue = w.ack l.offset l.token m.queue :=
  ack_queue l true m

theorem recordRetry_spec (clock : Clock) (l : ManagedLease) (t : FloatText)
    (h : b.Valid m.queue) :
    b.Valid (m.recordRetry w clock l t).2.queue ∧
      Added b (w.ack l.offset l.token m.queue) (m.recordRetry w clock l t).2.queue
        (.json (l.envelope.withRetry (l.envelope.attempt + 1) t).toDict) := by
  have hack := ack_queue (w := w) l false m
  have hv := (b.ack l.offset l.token h).1
  rw [← hack] at hv
  obtain ⟨m', hs, hv', ha⟩ := storeEnvelope_spec (m := m.ack w l false) clock
    (l.envelope.withRetry (l.envelope.attempt + 1) t) hv
  simp only [TaskQueueManager.recordRetry, hs, keepPending_queue]
  rw [hack] at ha
  exact ⟨hv', ha⟩

end effects

section invariant

variable {w : WorkQueue σ} {b : Backlog w} {s : Managed σ ρ} {m : TaskQueueManager σ ρ}
  {e : TaskEnvelope} {l : ManagedLease} {py : PyText} {float : PyFloat}

structure Inv (b : Backlog w) (s : Managed σ ρ) : Prop where
  valid : b.Valid s.manager.queue
  minted : ∀ o t, b.task s.manager.queue o = some t →
    ∃ e : TaskEnvelope, t = .json e.toDict ∧ e.taskId ∈ s.minted
  oneEach : OneEach b s.manager
  issued : ∀ l ∈ s.issued, l.offset < b.next s.manager.queue ∧
    ∀ t, b.task s.manager.queue l.offset = some t → t = .json l.envelope.toDict

theorem Inv.same (h : Inv b s) (hv : b.Valid m.queue) (hs : Same b s.manager.queue m.queue) :
    Inv b { s with manager := m } := by
  obtain ⟨hn, ht⟩ := hs
  refine ⟨hv, fun o t ho => ?_, fun o o' t t' ho ho' => ?_, fun l hl => ?_⟩
  · rw [ht] at ho
    exact h.minted o t ho
  · rw [ht] at ho ho'
    exact h.oneEach o o' t t' ho ho'
  · rw [hn, ht]
    exact h.issued l hl

theorem Inv.removed {o : ℤ} (h : Inv b s) (hv : b.Valid m.queue)
    (hn : b.next m.queue = b.next s.manager.queue)
    (ht : b.task m.queue = Function.update (b.task s.manager.queue) o none) :
    Inv b { s with manager := m } := by
  have hsub : ∀ o' t, b.task m.queue o' = some t → b.task s.manager.queue o' = some t := by
    intro o' t ho
    rw [ht, Function.update_apply] at ho
    split_ifs at ho
    exact ho
  exact ⟨hv, fun o' t ho => h.minted o' t (hsub o' t ho),
    fun a a' t t' ha ha' => h.oneEach a a' t t' (hsub a t ha) (hsub a' t' ha'),
    fun l hl => ⟨hn ▸ (h.issued l hl).1, fun t ho => (h.issued l hl).2 t (hsub _ t ho)⟩⟩

theorem Inv.added {minted : List Str} (h : Inv b s) (hv : b.Valid m.queue)
    (ha : Added b s.manager.queue m.queue (.json e.toDict))
    (hm : ∀ id ∈ s.minted, id ∈ minted) (he : e.taskId ∈ minted)
    (hfree : ∀ o t, b.task s.manager.queue o = some t → taskIdOf t ≠ some (.str e.taskId)) :
    Inv b { s with manager := m, minted } := by
  obtain ⟨o₀, hle, hlt, ht⟩ := ha
  have hcases : ∀ o t, b.task m.queue o = some t →
      (o = o₀ ∧ t = .json e.toDict) ∨ b.task s.manager.queue o = some t := by
    intro o t ho
    rw [ht, Function.update_apply] at ho
    split_ifs at ho with hoo
    · exact Or.inl ⟨hoo, (Option.some.inj ho).symm⟩
    · exact Or.inr ho
  refine ⟨hv, fun o t ho => ?_, fun o o' t t' ho ho' hid => ?_, fun l hl => ⟨?_, fun t ho => ?_⟩⟩
  · rcases hcases o t ho with ⟨-, rfl⟩ | ho
    · exact ⟨e, rfl, he⟩
    · obtain ⟨e', rfl, hid⟩ := h.minted o t ho
      exact ⟨e', rfl, hm _ hid⟩
  · rcases hcases o t ho with ⟨rfl, rfl⟩ | ho
    · rcases hcases o' t' ho' with ⟨rfl, -⟩ | ho'
      · rfl
      · exact absurd (hid.symm.trans (taskIdOf_toDict e)) (hfree o' t' ho')
    · rcases hcases o' t' ho' with ⟨rfl, rfl⟩ | ho'
      · exact absurd (hid.trans (taskIdOf_toDict e)) (hfree o t ho)
      · exact h.oneEach o o' t t' ho ho' hid
  · exact lt_of_lt_of_le (h.issued l hl).1 (le_of_lt (lt_of_le_of_lt hle hlt))
  · rcases hcases l.offset t ho with ⟨hoff, -⟩ | ho
    · exact absurd (hoff ▸ (h.issued l hl).1) (not_lt.mpr hle)
    · exact (h.issued l hl).2 t ho

theorem Inv.ack (h : Inv b s) (hq : m.queue = w.ack l.offset l.token s.manager.queue) :
    Inv b { s with manager := m } := by
  obtain ⟨hv, hn, ht⟩ := b.ack l.offset l.token h.valid
  rw [← hq] at hv hn ht
  split_ifs at ht
  · exact h.removed hv hn ht
  · exact h.same hv ⟨hn, ht⟩

theorem Inv.nack {now : ℚ} {requeue : Bool} (h : Inv b s)
    (hq : m.queue = w.nack now l.offset l.token requeue s.manager.queue) :
    Inv b { s with manager := m } := by
  obtain ⟨hv, hn, ht⟩ := b.nack now l.offset l.token requeue h.valid
  rw [← hq] at hv hn ht
  split_ifs at ht
  · exact h.removed hv hn ht
  · exact h.same hv ⟨hn, ht⟩

theorem Inv.lease {clock : Clock} {count ms : ℤ} (h : Inv b s) :
    Inv b (perform w py float (.lease clock count ms) s) := by
  obtain ⟨hv, hn, ht, hx⟩ := b.lease clock.monotonic count ms h.valid
  simp only [perform, TaskQueueManager.lease]
  rcases hl : (w.lease clock.monotonic count ms s.manager.queue).1.mapM
    (TaskQueueManager.manage py float clock) with err | leases
  · exact h.same hv ⟨hn, ht⟩
  · have hsame := h.same (m := { s.manager with
      queue := (w.lease clock.monotonic count ms s.manager.queue).2,
      inflight := s.manager.inflight + leases.length }) hv ⟨hn, ht⟩
    refine ⟨hsame.valid, hsame.minted, hsame.oneEach, fun l hm => ?_⟩
    rcases List.mem_append.mp hm with hm | hm
    · exact hsame.issued l hm
    · obtain ⟨x, hxm, hman⟩ := Fallible.mapM_mem hl hm
      obtain ⟨e, htask, -⟩ := h.minted x.offset x.task (hx x hxm)
      rw [TaskQueueManager.manage, htask] at hman
      obtain ⟨e', he', hl'⟩ := Fallible.bind_eq_ok.mp hman
      obtain rfl := TaskEnvelope.eq_of_fromDict_toDict he'
      obtain rfl : (⟨x.offset, x.token, x.leaseDeadline, e'⟩ : ManagedLease) = l :=
        Except.ok.inj hl'
      refine ⟨?_, fun t hto => ?_⟩
      · change x.offset < b.next (w.lease clock.monotonic count ms s.manager.queue).2
        rw [hn]
        by_contra hle
        have hnone := b.below h.valid (not_lt.mp hle)
        rw [hx x hxm] at hnone
        cases hnone
      · have hxo := hx x hxm
        rw [htask] at hxo
        change b.task (w.lease clock.monotonic count ms s.manager.queue).2 x.offset = some t at hto
        rw [ht, hxo] at hto
        exact (Option.some.inj hto).symm

theorem Inv.retry {clock : Clock} {t : FloatText} (h : Inv b s) (hl : l ∈ s.issued)
    (hcur : b.holder s.manager.queue l.offset = some l.token) :
    Inv b (perform w py float (.recordRetry clock l t) s) := by
  obtain ⟨t₀, ht₀⟩ := b.held h.valid hcur
  obtain rfl := (h.issued l hl).2 t₀ ht₀
  obtain ⟨e₀, he₀, hid₀⟩ := h.minted _ _ ht₀
  have hid : some (Json.str l.envelope.taskId) = some (Json.str e₀.taskId) :=
    congrArg taskIdOf he₀
  have hmint : l.envelope.taskId ∈ s.minted := by
    rw [Json.str.inj (Option.some.inj hid)]
    exact hid₀
  have hack := (b.ack l.offset l.token h.valid).2.2
  rw [if_pos hcur] at hack
  have h₁ : Inv b { s with manager := s.manager.ack w l false } := h.ack (ack_queue l false _)
  obtain ⟨hv, ha⟩ := recordRetry_spec clock l t h.valid
  rw [← ack_queue l false s.manager] at ha
  refine h₁.added hv ha (fun _ hid => hid) hmint (fun o t' ho hsame => ?_)
  simp only [ack_queue, hack, Function.update_apply] at ho
  split_ifs at ho with hoff
  exact hoff (h.oneEach o l.offset t' _ ho ht₀ hsame)

theorem Inv.perform {c : ManagerCall} (h : Inv b s) (hp : Proper c s) (hc : Careful b c s) :
    Inv b (perform w py float c s) := by
  cases c with
  | enqueue clock e =>
    obtain ⟨hv, hs | ha⟩ := enqueue_spec clock e h.valid
    · have hsame := h.same hv hs
      refine ⟨hsame.valid, fun o t ho => ?_, hsame.oneEach, hsame.issued⟩
      obtain ⟨e', he', hid⟩ := hsame.minted o t ho
      exact ⟨e', he', List.mem_cons_of_mem _ hid⟩
    · refine h.added hv ha (fun _ hid => List.mem_cons_of_mem _ hid) List.mem_cons_self
        (fun o t ho hid => ?_)
      obtain ⟨e', rfl, hm⟩ := h.minted o t ho
      rw [taskIdOf_toDict] at hid
      exact hp.1 clock e rfl (Json.str.inj (Option.some.inj hid) ▸ hm)
  | lease clock count ms => exact h.lease
  | ack l clear => exact h.ack (ack_queue l clear _)
  | nack now l requeue => exact h.nack (nack_queue now l requeue _)
  | recordRetry clock l t =>
    by_cases hcur : b.holder s.manager.queue l.offset = some l.token
    · exact h.retry (hp.2 l rfl) hcur
    · exact absurd (hc l rfl hcur) id
  | recordDeadLetter c l error reason =>
    exact h.ack (recordDeadLetter_queue c l error reason _)

theorem clearPending_keys_iff (e : TaskEnvelope) (m : TaskQueueManager σ ρ) :
    (m.clearPending e).pendingKeys = m.pendingKeys ↔ ¬HoldsKey e m := by
  rcases hk : e.idempotencyKey with _ | key
  · simp [TaskQueueManager.clearPending, HoldsKey, hk]
  · by_cases hg : m.pendingKeys.get? e.compositeKey = some e.taskId
    · simp only [TaskQueueManager.clearPending, HoldsKey, hk, hg, if_true]
      refine iff_of_false (fun heq => ?_) (by simp)
      have hget := congrArg (fun keys => SortedMap.get? keys e.compositeKey) heq
      simp [SortedMap.get?_erase, hg] at hget
    · simp [TaskQueueManager.clearPending, HoldsKey, hk, hg]

theorem untouched_iff_harmless {c : ManagerCall} (h : b.Valid s.manager.queue)
    (hr : c.reports? = some l) (hs : Stale b l s.manager) :
    Untouched b s.manager (Reports.perform w py float c s).manager ↔
      Harmless c s.manager := by
  have hack := (b.ack l.offset l.token h).2.2
  rw [if_neg hs] at hack
  cases c with
  | enqueue clock e => cases hr
  | lease clock count ms => cases hr
  | ack l' clear =>
    cases hr
    simp only [Untouched, Reports.perform, ack_queue, hack, true_and]
    cases clear with
    | true => exact clearPending_keys_iff l.envelope _
    | false => exact iff_of_true rfl trivial
  | nack now l' requeue =>
    cases hr
    have hnack := (b.nack now l.offset l.token requeue h).2.2
    rw [if_neg (fun hh => hs hh.2)] at hnack
    simp only [Untouched, Reports.perform, nack_queue, hnack, true_and]
    cases requeue with
    | true => exact iff_of_true rfl trivial
    | false => exact clearPending_keys_iff l.envelope _
  | recordRetry clock l' t =>
    cases hr
    refine iff_of_false ?_ id
    rintro ⟨htask, -⟩
    obtain ⟨-, o, hle, -, ht⟩ := recordRetry_spec clock l t h
    have hnone : b.task s.manager.queue o = none :=
      b.below h ((b.ack l.offset l.token h).2.1 ▸ hle)
    have hsome := congrFun ht o
    rw [Function.update_self] at hsome
    rw [← htask] at hnone
    exact Option.some_ne_none _ (hsome.symm.trans hnone)
  | recordDeadLetter c l' error reason =>
    cases hr
    simp only [Untouched, Reports.perform, recordDeadLetter_queue, hack, true_and]
    exact clearPending_keys_iff l.envelope _

theorem Inv.init (b : Backlog w) (hv : b.Valid m.queue) (he : b.task m.queue = fun _ => none) :
    Inv b (⟨m, [], []⟩ : Managed σ ρ) := by
  refine ⟨hv, fun o t ho => ?_, fun o o' t t' ho => ?_, fun l hl => nomatch hl⟩
  · rw [he] at ho
    cases ho
  · rw [he] at ho
    cases ho

theorem Inv.reaches {s' : Managed σ ρ} (h : Inv b s)
    (hr : Reaches w py float (Careful b) s s') : Inv b s' := by
  induction hr with
  | refl => exact h
  | tail _ ht ih =>
    obtain ⟨c, hp, hc, rfl⟩ := ht
    exact ih.perform hp hc

def Kept (b : Backlog w) (py : PyText) (float : PyFloat) (s : Managed σ ρ) : Prop :=
  OneEach b s.manager ∧ ∀ c l, c.reports? = some l → Stale b l s.manager →
    (Untouched b s.manager (Reports.perform w py float c s).manager ↔ Harmless c s.manager)

theorem Inv.kept (h : Inv b s) : Kept b py float s :=
  ⟨h.oneEach, fun _ _ hr hs => untouched_iff_harmless h.valid hr hs⟩

end invariant

def sampleManaged : Managed InMemoryWorkQueue Unit := ⟨Dedup.sampleManager, [], []⟩

def sampleStep (c : ManagerCall) (s : Managed InMemoryWorkQueue Unit) :
    Managed InMemoryWorkQueue Unit :=
  perform (InMemoryWorkQueue.workQueue plainConfig.float) plainPy plainConfig.float c s

def leasedTwice : Managed InMemoryWorkQueue Unit :=
  sampleStep (.lease (clockAt 1) 1 1000) (sampleStep (.lease (clockAt 0) 1 0)
    (sampleStep (.enqueue (clockAt 0) (Dedup.keyedTask 'a')) sampleManaged))

def sameId (a b : Option Task) : Bool :=
  match a, b with
  | some t, some t' =>
    match taskIdOf t, taskIdOf t' with
    | some (.str i), some (.str j) => i = j
    | _, _ => false
  | _, _ => false

theorem eq_of_sameId {a b : Option Task} (h : sameId a b = true) :
    ∃ t t', a = some t ∧ b = some t' ∧ taskIdOf t = taskIdOf t' := by
  unfold sameId at h
  split at h
  · rename_i t t'
    split at h
    · rename_i i j hi hj
      rw [decide_eq_true_eq] at h
      exact ⟨t, t', rfl, rfl, by rw [hi, hj, h]⟩
    · cases h
  · cases h

end Reports

end TraceMind.Queue
