import TraceMind.Queue.Reports

namespace TraceMind.Queue

structure RetrySettings where
  maxAttempts : ℤ := 3
  baseMs : ℚ := 200
  factor : ℚ := 2
  jitterMs : ℚ := 50
  dlqAfter : Option ℤ := none

inductive RetryDecision where
  | retry (delaySeconds : ℚ)
  | dlq (reason : Str)

-- Python's `**` on floats, whose `none` is an overflow, the draws of the jitter and the text of a
-- float; of these only the results are used.
structure FloatOps where
  power : ℚ → ℕ → Option ℚ
  uniform : ℚ → ℤ → ℚ
  text : ℚ → FloatText

namespace RetrySettings

def nextDelay (ops : FloatOps) (attempt : ℤ) (s : RetrySettings) : Except Error ℚ :=
  if attempt ≤ 0 then .ok (s.baseMs / 1000)
  else
    match ops.power s.factor (attempt - 1).toNat with
    | none => .error (.overflowError "(34, 'Numerical result out of range')")
    | some p =>
      let delayMs := s.baseMs * p
      let delayMs := if 0 < s.jitterMs then delayMs + ops.uniform s.jitterMs attempt else delayMs
      .ok (max (delayMs / 1000) 0)

def cutOff (s : RetrySettings) : ℤ :=
  match s.dlqAfter with
  | none => max 1 s.maxAttempts
  | some d => if 0 ≤ d then min (max 1 s.maxAttempts) (max 1 d) else max 1 s.maxAttempts

theorem cutOff_pos (s : RetrySettings) : 0 < s.cutOff := by
  unfold cutOff
  split
  · omega
  · split_ifs <;> omega

end RetrySettings

structure RetryPolicy where
  default : RetrySettings
  perFlow : List (Str × RetrySettings) := []

def fatalCodes : List Str := ["POLICY_FORBIDDEN".toList, "VALIDATION_FAILED".toList]

def fatalReason (error : Document) : Option Str :=
  match error.get? "retryable".toList with
  | some (.bool false) => some "non_retryable".toList
  | _ =>
    match error.get? "error_code".toList with
    | some (.str code) => if code ∈ fatalCodes then some code else none
    | _ => none

namespace RetryPolicy

def settingsFor (flowId : Str) (p : RetryPolicy) : RetrySettings :=
  (p.perFlow.lookup flowId).getD p.default

def decide (ops : FloatOps) (flowId : Str) (attempt : ℤ) (error : Document) (p : RetryPolicy) :
    Except Error RetryDecision :=
  match fatalReason error with
  | some reason => .ok (.dlq reason)
  | none =>
    let settings := p.settingsFor flowId
    if max 1 settings.maxAttempts ≤ attempt then .ok (.dlq "max_attempts".toList)
    else
      match settings.dlqAfter with
      | some d =>
        if 0 ≤ d ∧ d ≤ attempt then .ok (.dlq "dlq_after".toList)
        else (settings.nextDelay ops attempt).map .retry
      | none => (settings.nextDelay ops attempt).map .retry

variable {ops : FloatOps} {flowId : Str} {attempt : ℤ} {error : Document} {p : RetryPolicy}

theorem decide_fatal (h : (fatalReason error).isSome = true) :
    ∃ reason, p.decide ops flowId attempt error = .ok (.dlq reason) := by
  obtain ⟨reason, hr⟩ := Option.isSome_iff_exists.mp h
  rw [decide, hr]
  exact ⟨reason, rfl⟩

theorem decide_last (hpos : 1 ≤ attempt) (h : (p.settingsFor flowId).cutOff ≤ attempt) :
    ∃ reason, p.decide ops flowId attempt error = .ok (.dlq reason) := by
  rw [decide]
  cases fatalReason error with
  | some reason => exact ⟨reason, rfl⟩
  | none =>
    dsimp only
    split_ifs with hmax
    · exact ⟨_, rfl⟩
    · rw [RetrySettings.cutOff] at h
      cases hd : (p.settingsFor flowId).dlqAfter with
      | none =>
        rw [hd] at h
        exact absurd h hmax
      | some d =>
        rw [hd] at h
        dsimp only at h ⊢
        split_ifs at h with hd0
        · rw [if_pos ⟨hd0, by omega⟩]
          exact ⟨_, rfl⟩
        · exact absurd h hmax

theorem decide_early (hpos : 1 ≤ attempt) (hfatal : fatalReason error = none)
    (h : attempt < (p.settingsFor flowId).cutOff) :
    p.decide ops flowId attempt error =
      ((p.settingsFor flowId).nextDelay ops attempt).map .retry := by
  rw [decide, hfatal]
  rw [RetrySettings.cutOff] at h
  dsimp only
  cases hd : (p.settingsFor flowId).dlqAfter with
  | none =>
    rw [hd] at h
    rw [if_neg (not_le.mpr h)]
  | some d =>
    rw [hd] at h
    dsimp only at h ⊢
    split_ifs at h with hd0
    · rw [if_neg (by omega), if_neg (by omega)]
    · rw [if_neg (by omega), if_neg (fun hand => hd0 hand.1)]

end RetryPolicy

namespace TaskQueueManager

variable {σ ρ : Type} (w : WorkQueue σ)

def handleFailure (policy : Option RetryPolicy) (ops : FloatOps) (clock : Clock)
    (c : DeadLetterClock) (l : ManagedLease) (error : Document) (m : TaskQueueManager σ ρ) :
    Except Error (Option RetryDecision) × TaskQueueManager σ ρ :=
  match policy with
  | none => (.ok none, m.recordDeadLetter w c l error "no_policy".toList)
  | some policy =>
    match policy.decide ops l.envelope.flowId (l.envelope.attempt + 1) error with
    | .error e => (.error e, m)
    | .ok (.dlq reason) => (.ok (some (.dlq reason)), m.recordDeadLetter w c l error reason)
    | .ok (.retry delay) =>
      match m.recordRetry w clock l (ops.text (clock.wall + max delay 0)) with
      | (.ok _, m) => (.ok (some (.retry delay)), m)
      | (.error e, m) => (.error e, m)

end TaskQueueManager

namespace Reports

variable {σ ρ : Type}

structure Attempts (σ ρ : Type) where
  managed : Managed σ ρ
  failures : List Document := []
  letters : List ℤ := []

def letterOf (l : ManagedLease) : Except Error (Option RetryDecision) → List ℤ
  | .ok (some (.dlq _)) => [l.envelope.attempt + 1]
  | _ => []

def Attempts.fail (w : WorkQueue σ) (policy : RetryPolicy) (ops : FloatOps) (clock : Clock)
    (c : DeadLetterClock) (l : ManagedLease) (error : Document) (s : Attempts σ ρ) : Attempts σ ρ :=
  let r := s.managed.manager.handleFailure w (some policy) ops clock c l error
  { managed := { s.managed with manager := r.2 }, failures := s.failures ++ [error],
    letters := s.letters ++ letterOf l r.1 }

inductive Attempted {w : WorkQueue σ} (b : Backlog w) (py : PyText) (float : PyFloat)
    (policy : RetryPolicy) (ops : FloatOps) (id : Str) : Attempts σ ρ → Attempts σ ρ → Prop
  | other {s : Attempts σ ρ} (c : ManagerCall) (hp : Proper c s.managed)
      (hcur : ∀ l, c.reports? = some l → ¬Stale b l s.managed.manager ∧ l.envelope.taskId ≠ id) :
      Attempted b py float policy ops id s { s with managed := perform w py float c s.managed }
  | fails {s : Attempts σ ρ} (clock : Clock) (c : DeadLetterClock) (l : ManagedLease)
      (error : Document) (hl : l ∈ s.managed.issued) (hid : l.envelope.taskId = id)
      (hcur : ¬Stale b l s.managed.manager) :
      Attempted b py float policy ops id s (s.fail w policy ops clock c l error)

def attemptOf : Task → Option Json
  | .json doc => doc.get? "attempt".toList
  | .other _ => none

def flowOf : Task → Option Json
  | .json doc => doc.get? "flow_id".toList
  | .other _ => none

def Ended (n : ℤ) (failures : List Document) : Prop :=
  n ≤ failures.length ∨ ∃ error ∈ failures, (fatalReason error).isSome = true

structure Counted {w : WorkQueue σ} (b : Backlog w) (n : ℤ) (id flowId : Str) (s : Attempts σ ρ) :
    Prop where
  most : (s.failures.length : ℤ) ≤ n
  early : ∀ error ∈ s.failures.dropLast, fatalReason error = none
  queued : ¬Ended n s.failures → (∃ o t, b.task s.managed.manager.queue o = some t ∧
    taskIdOf t = some (.str id) ∧ flowOf t = some (.str flowId) ∧
    attemptOf t = some (.int s.failures.length)) ∧ s.letters = []
  ended : Ended n s.failures → (∀ o t, b.task s.managed.manager.queue o = some t →
    taskIdOf t ≠ some (.str id)) ∧ s.letters = [(s.failures.length : ℤ)]

section effects

variable {w : WorkQueue σ} {b : Backlog w} {s : Managed σ ρ} {id : Str} {l : ManagedLease}
  {py : PyText} {float : PyFloat}

def SameFor (b : Backlog w) (id : Str) (q q' : σ) : Prop :=
  ∀ o t, taskIdOf t = some (.str id) → (b.task q' o = some t ↔ b.task q o = some t)

theorem Same.sameFor {q q' : σ} (h : Same b q q') : SameFor b id q q' :=
  fun o t _ => by rw [h.2]

theorem Added.sameFor {q q' : σ} {t : Task} (hv : b.Valid q) (h : Added b q q' t)
    (ht : taskIdOf t ≠ some (.str id)) : SameFor b id q q' := by
  obtain ⟨o₀, hle, -, htask⟩ := h
  intro o t' ht'
  rw [htask, Function.update_apply]
  split_ifs with ho
  · rw [ho, b.below hv hle]
    refine iff_of_false (fun he => ht ?_) (Option.some_ne_none _).symm
    rw [Option.some.inj he, ht']
  · exact Iff.rfl

theorem removed_sameFor {q q' : σ} {o₀ : ℤ} (h : b.task q' = Function.update (b.task q) o₀ none)
    (hother : ∀ t, b.task q o₀ = some t → taskIdOf t ≠ some (.str id)) : SameFor b id q q' := by
  intro o t ht
  rw [h, Function.update_apply]
  split_ifs with ho
  · rw [ho]
    exact iff_of_false not_false (fun he => hother t he ht)
  · exact Iff.rfl

theorem SameFor.trans {q q' q'' : σ} (h : SameFor b id q q') (h' : SameFor b id q' q'') :
    SameFor b id q q'' := fun o t ht => (h' o t ht).trans (h o t ht)

theorem Inv.lease_other (h : Inv b s) (hl : l ∈ s.issued) (hid : l.envelope.taskId ≠ id) {t : Task}
    (ht : b.task s.manager.queue l.offset = some t) : taskIdOf t ≠ some (.str id) := by
  rw [(h.issued l hl).2 t ht, taskIdOf_toDict]
  exact fun he => hid (Json.str.inj (Option.some.inj he))

theorem Inv.ack_other (h : Inv b s) (hl : l ∈ s.issued) (hid : l.envelope.taskId ≠ id) :
    SameFor b id s.manager.queue (w.ack l.offset l.token s.manager.queue) := by
  have hack := (b.ack l.offset l.token h.valid).2.2
  split_ifs at hack
  · exact removed_sameFor hack (fun t ht => h.lease_other hl hid ht)
  · exact fun o t _ => by rw [hack]

theorem other_sameFor (h : Inv b s) (hmint : id ∈ s.minted) {c : ManagerCall} (hp : Proper c s)
    (hid : ∀ l, c.reports? = some l → l.envelope.taskId ≠ id) :
    SameFor b id s.manager.queue (perform w py float c s).manager.queue := by
  cases c with
  | enqueue clock e =>
    obtain ⟨-, hs | ha⟩ := enqueue_spec clock e h.valid
    · exact hs.sameFor
    · refine ha.sameFor h.valid (fun he => hp.1 clock e rfl ?_)
      rw [taskIdOf_toDict] at he
      rw [Json.str.inj (Option.some.inj he)]
      exact hmint
  | lease clock count ms =>
    obtain ⟨-, hn, ht, -⟩ := b.lease clock.monotonic count ms h.valid
    have hqueue : (perform w py float (.lease clock count ms) s).manager.queue =
        (w.lease clock.monotonic count ms s.manager.queue).2 := by
      simp only [perform, TaskQueueManager.lease]
      cases (w.lease clock.monotonic count ms s.manager.queue).1.mapM
        (TaskQueueManager.manage py float clock) <;> rfl
    rw [hqueue]
    exact Same.sameFor ⟨hn, ht⟩
  | ack l clear =>
    have hq : (perform w py float (.ack l clear) s).manager.queue = _ := ack_queue l clear s.manager
    rw [hq]
    exact h.ack_other (hp.2 l rfl) (hid l rfl)
  | nack now l requeue =>
    have hq : (perform w py float (.nack now l requeue) s).manager.queue = _ :=
      nack_queue now l requeue s.manager
    rw [hq]
    have hnack := (b.nack now l.offset l.token requeue h.valid).2.2
    split_ifs at hnack
    · exact removed_sameFor hnack (fun t ht => h.lease_other (hp.2 l rfl) (hid l rfl) ht)
    · exact fun o t _ => by rw [hnack]
  | recordRetry clock l t =>
    obtain ⟨-, ha⟩ := recordRetry_spec clock l t h.valid
    refine (h.ack_other (hp.2 l rfl) (hid l rfl)).trans
      (ha.sameFor (b.ack l.offset l.token h.valid).1 (fun he => hid l rfl ?_))
    exact Json.str.inj (Option.some.inj he)
  | recordDeadLetter c l error reason =>
    have hq : (perform w py float (.recordDeadLetter c l error reason) s).manager.queue = _ :=
      recordDeadLetter_queue c l error reason s.manager
    rw [hq]
    exact h.ack_other (hp.2 l rfl) (hid l rfl)

theorem minted_perform (hmint : id ∈ s.minted) (c : ManagerCall) :
    id ∈ (perform w py float c s).minted := by
  cases c with
  | enqueue clock e => exact List.mem_cons_of_mem _ hmint
  | lease clock count ms =>
    rw [perform]
    split <;> exact hmint
  | ack _ _ | nack _ _ _ | recordRetry _ _ _ | recordDeadLetter _ _ _ _ => exact hmint

end effects

section steps

variable {w : WorkQueue σ} {b : Backlog w} {s s' : Attempts σ ρ} {id flowId : Str}
  {py : PyText} {float : PyFloat} {policy : RetryPolicy} {ops : FloatOps} {n : ℤ}

structure Followed (b : Backlog w) (n : ℤ) (id flowId : Str) (s : Attempts σ ρ) : Prop where
  inv : Inv b s.managed
  minted : id ∈ s.managed.minted
  counted : Counted b n id flowId s

theorem Followed.other (h : Followed b n id flowId s) {c : ManagerCall} (hp : Proper c s.managed)
    (hcur : ∀ l, c.reports? = some l → ¬Stale b l s.managed.manager ∧ l.envelope.taskId ≠ id) :
    Followed b n id flowId { s with managed := Reports.perform w py float c s.managed } := by
  have hsame : SameFor b id s.managed.manager.queue
      (Reports.perform w py float c s.managed).manager.queue :=
    other_sameFor h.inv h.minted hp (fun l hl => (hcur l hl).2)
  refine ⟨h.inv.perform hp (fun l hl hs => absurd hs (hcur l hl).1), minted_perform h.minted c,
    h.counted.most, h.counted.early, fun hn => ?_, fun hn => ?_⟩
  · obtain ⟨⟨o, t, ht, hid, hrest⟩, hletters⟩ := h.counted.queued hn
    exact ⟨⟨o, t, (hsame o t hid).mpr ht, hid, hrest⟩, hletters⟩
  · obtain ⟨hnone, hletters⟩ := h.counted.ended hn
    exact ⟨fun o t ht hid => hnone o t ((hsame o t hid).mp ht) hid, hletters⟩

structure Held (b : Backlog w) (n : ℤ) (id flowId : Str) (l : ManagedLease) (s : Attempts σ ρ) :
    Prop where
  live : ¬Ended n s.failures
  task : b.task s.managed.manager.queue l.offset = some (.json l.envelope.toDict)
  only : ∀ o t, b.task s.managed.manager.queue o = some t → taskIdOf t = some (.str id) →
    o = l.offset
  flow : l.envelope.flowId = flowId
  attempt : l.envelope.attempt = s.failures.length
  letters : s.letters = []

theorem Followed.held (h : Followed b n id flowId s) {l : ManagedLease} (hl : l ∈ s.managed.issued)
    (hid : l.envelope.taskId = id) (hcur : ¬Stale b l s.managed.manager) :
    Held b n id flowId l s := by
  have hholder : b.holder s.managed.manager.queue l.offset = some l.token := not_not.mp hcur
  obtain ⟨t, ht⟩ := b.held h.inv.valid hholder
  obtain rfl := (h.inv.issued l hl).2 t ht
  have hidOf : taskIdOf (.json l.envelope.toDict) = some (.str id) := by rw [taskIdOf_toDict, hid]
  have hlive : ¬Ended n s.failures := fun he => (h.counted.ended he).1 _ _ ht hidOf
  obtain ⟨⟨o, t, hto, hido, hflow, hattempt⟩, hletters⟩ := h.counted.queued hlive
  obtain rfl := h.inv.oneEach o l.offset t _ hto ht (hido.trans hidOf.symm)
  obtain rfl := Option.some.inj (hto.symm.trans ht)
  have hf : some (Json.str l.envelope.flowId) = some (.str flowId) := hflow
  have ha : some (Json.int l.envelope.attempt) = some (.int s.failures.length) := hattempt
  exact ⟨hlive, ht, fun o' t' ht' hid' => h.inv.oneEach o' _ t' _ ht' ht (hid'.trans hidOf.symm),
    Json.str.inj (Option.some.inj hf), Json.int.inj (Option.some.inj ha), hletters⟩

theorem ended_append {failures : List Document} {error : Document} (hlive : ¬Ended n failures) :
    Ended n (failures ++ [error]) ↔ n ≤ failures.length + 1 ∨ (fatalReason error).isSome = true := by
  rw [Ended, not_or] at hlive
  rw [Ended]
  constructor
  · rintro (h | ⟨e, he, hf⟩)
    · exact Or.inl (by simpa using h)
    · rcases List.mem_append.mp he with he | he
      · exact absurd ⟨e, he, hf⟩ hlive.2
      · rw [List.mem_singleton.mp he] at hf
        exact Or.inr hf
  · rintro (h | h)
    · exact Or.inl (by simpa using h)
    · exact Or.inr ⟨error, by simp, h⟩

theorem fail_dlq (py : PyText) (float : PyFloat) {clock : Clock} {c : DeadLetterClock} {l : ManagedLease} {error : Document}
    {reason : Str} (h : policy.decide ops l.envelope.flowId (l.envelope.attempt + 1) error =
      .ok (.dlq reason)) : s.fail w policy ops clock c l error =
      { managed := Reports.perform w py float (.recordDeadLetter c l error reason) s.managed,
        failures := s.failures ++ [error], letters := s.letters ++ [l.envelope.attempt + 1] } := by
  simp only [Attempts.fail, TaskQueueManager.handleFailure, h]
  rfl

theorem fail_retry (py : PyText) (float : PyFloat) {clock : Clock} {c : DeadLetterClock} {l : ManagedLease} {error : Document}
    {delay : ℚ} (h : policy.decide ops l.envelope.flowId (l.envelope.attempt + 1) error =
      .ok (.retry delay)) : ∃ t, s.fail w policy ops clock c l error =
      { managed := Reports.perform w py float (.recordRetry clock l t) s.managed,
        failures := s.failures ++ [error], letters := s.letters } := by
  refine ⟨ops.text (clock.wall + max delay 0), ?_⟩
  simp only [Attempts.fail, TaskQueueManager.handleFailure, h, Reports.perform]
  rcases s.managed.manager.recordRetry w clock l (ops.text (clock.wall + max delay 0)) with
    ⟨err | e, m⟩
  · simp [letterOf]
  · simp [letterOf]

def NoOverflow (ops : FloatOps) (settings : RetrySettings) : Prop :=
  ∀ k : ℕ, (k : ℤ) + 1 < settings.cutOff → (ops.power settings.factor k).isSome = true

theorem nextDelay_ok {settings : RetrySettings} (h : NoOverflow ops settings) {k : ℕ}
    (hk : (k : ℤ) + 1 < settings.cutOff) :
    ∃ delay, settings.nextDelay ops (k + 1) = .ok delay := by
  obtain ⟨p, hp⟩ := Option.isSome_iff_exists.mp (h k hk)
  have hcast : ((k : ℤ) + 1 - 1).toNat = k := by omega
  rw [RetrySettings.nextDelay, if_neg (by omega), hcast, hp]
  exact ⟨_, rfl⟩

theorem Held.bounds {l : ManagedLease} (h : Held b n id flowId l s) (error : Document) :
    ((s.failures ++ [error]).length : ℤ) ≤ n ∧
      ∀ e ∈ (s.failures ++ [error]).dropLast, fatalReason e = none := by
  have hlen : (s.failures.length : ℤ) < n := not_le.mp (fun hle => h.live (Or.inl hle))
  refine ⟨?_, fun e he => ?_⟩
  · rw [List.length_append, List.length_singleton]
    push_cast
    omega
  · rw [List.dropLast_concat] at he
    by_contra hf
    exact h.live (Or.inr ⟨e, he, Option.isSome_iff_ne_none.mpr hf⟩)

theorem Followed.report (py : PyText) (float : PyFloat) (h : Followed b n id flowId s) {l : ManagedLease} (hl : l ∈ s.managed.issued)
    (hcur : ¬Stale b l s.managed.manager) {c : ManagerCall} (hc : c.reports? = some l)
    (hnew : ∀ clock e, c ≠ .enqueue clock e) :
    Inv b (Reports.perform w py float c s.managed) := by
  refine h.inv.perform ⟨fun clock e he => absurd he (hnew clock e), fun l' hl' => ?_⟩
    (fun l' hl' hs => ?_)
  · rw [Option.some.inj (hl'.symm.trans hc)]
    exact hl
  · rw [Option.some.inj (hl'.symm.trans hc)] at hs
    exact absurd hs hcur

section failing

variable {clock : Clock} {c : DeadLetterClock} {l : ManagedLease} {error : Document}
  (h : Followed b n id flowId s) (hl : l ∈ s.managed.issued) (hid : l.envelope.taskId = id)
  (hcur : ¬Stale b l s.managed.manager)

include h hl hid hcur

theorem Followed.buried {reason : Str} (hend : Ended n (s.failures ++ [error]))
    (hdecide : policy.decide ops l.envelope.flowId (l.envelope.attempt + 1) error =
      .ok (.dlq reason)) : Followed b n id flowId (s.fail w policy ops clock c l error) := by
  have hheld := h.held hl hid hcur
  obtain ⟨hmost, hearly⟩ := hheld.bounds error
  rw [fail_dlq plainPy (fun _ => none) hdecide]
  refine ⟨h.report plainPy (fun _ => none) hl hcur (c := .recordDeadLetter c l error reason) rfl (by simp), h.minted, hmost,
    hearly, fun hlive => absurd hend hlive, fun _ => ⟨fun o t ht hido => ?_, ?_⟩⟩
  · have hack := (b.ack l.offset l.token h.inv.valid).2.2
    rw [if_pos (not_not.mp hcur)] at hack
    have hq : b.task (w.ack l.offset l.token s.managed.manager.queue) o = some t := by
      rw [← recordDeadLetter_queue c l error reason]
      exact ht
    rw [hack, Function.update_apply] at hq
    split_ifs at hq with ho
    exact ho (hheld.only o t hq hido)
  · simp [hheld.letters, hheld.attempt]

theorem Followed.requeued {delay : ℚ} (hlive : ¬Ended n (s.failures ++ [error]))
    (hdecide : policy.decide ops l.envelope.flowId (l.envelope.attempt + 1) error =
      .ok (.retry delay)) : Followed b n id flowId (s.fail w policy ops clock c l error) := by
  have hheld := h.held hl hid hcur
  obtain ⟨hmost, hearly⟩ := hheld.bounds error
  obtain ⟨t, hfail⟩ := fail_retry (s := s) (w := w) (c := c) plainPy (fun _ => none) hdecide
  rw [hfail]
  refine ⟨h.report plainPy (fun _ => none) hl hcur (c := .recordRetry clock l t) rfl (by simp), h.minted, hmost, hearly,
    fun _ => ⟨?_, hheld.letters⟩, fun hend => absurd hend hlive⟩
  · obtain ⟨-, o, -, -, htask⟩ := recordRetry_spec clock l t h.inv.valid
    refine ⟨o, .json (l.envelope.withRetry (l.envelope.attempt + 1) t).toDict, ?_, ?_, ?_, ?_⟩
    · exact (congrFun htask o).trans (Function.update_self ..)
    · exact congrArg (fun x => some (Json.str x)) hid
    · exact congrArg (fun x => some (Json.str x)) hheld.flow
    · show some (Json.int (l.envelope.attempt + 1)) = _
      rw [hheld.attempt]
      simp

theorem Followed.fails (hn : (policy.settingsFor flowId).cutOff = n)
    (hpow : NoOverflow ops (policy.settingsFor flowId)) :
    Followed b n id flowId (s.fail w policy ops clock c l error) := by
  have hheld := h.held hl hid hcur
  have hpos : 1 ≤ l.envelope.attempt + 1 := by rw [hheld.attempt]; omega
  by_cases hend : Ended n (s.failures ++ [error])
  · obtain ⟨reason, hdecide⟩ : ∃ reason, policy.decide ops l.envelope.flowId
        (l.envelope.attempt + 1) error = .ok (.dlq reason) := by
      rcases (ended_append hheld.live).mp hend with hlast | hfatal
      · refine RetryPolicy.decide_last hpos ?_
        rw [hheld.flow, hn, hheld.attempt]
        exact hlast
      · exact RetryPolicy.decide_fatal hfatal
    exact h.buried hl hid hcur hend hdecide
  · have hend' := hend
    rw [ended_append hheld.live, not_or, not_le] at hend'
    obtain ⟨hearly, hfatal⟩ := hend'
    rw [← hn] at hearly
    obtain ⟨delay, hdelay⟩ := nextDelay_ok hpow hearly
    have hdecide : policy.decide ops l.envelope.flowId (l.envelope.attempt + 1) error =
        .ok (.retry delay) := by
      rw [RetryPolicy.decide_early hpos (by simpa using hfatal), hheld.flow, hheld.attempt, hdelay]
      · rfl
      · rw [hheld.flow, hheld.attempt]
        exact hearly
    exact h.requeued hl hid hcur hend hdecide

end failing

theorem Followed.run {ops : FloatOps} (hn : (policy.settingsFor flowId).cutOff = n)
    (hpow : NoOverflow ops (policy.settingsFor flowId)) (h : Followed b n id flowId s)
    (hr : Relation.ReflTransGen (Attempted b py float policy ops id) s s') :
    Followed b n id flowId s' := by
  induction hr with
  | refl => exact h
  | tail _ hstep ih =>
    cases hstep with
    | other c hp hcur => exact ih.other hp hcur
    | fails clock c l error hl hid hcur => exact ih.fails hl hid hcur hn hpow

theorem followed_start {m : Managed σ ρ} (h : Inv b m) {o : ℤ} {e : TaskEnvelope}
    (ho : b.task m.manager.queue o = some (.json e.toDict)) (he : e.attempt = 0) (hn : 0 < n) :
    Followed b n e.taskId e.flowId ⟨m, [], []⟩ := by
  obtain ⟨e', hsame, hmint⟩ := h.minted o _ ho
  have hid : some (Json.str e.taskId) = some (.str e'.taskId) := congrArg taskIdOf hsame
  refine ⟨h, ?_, hn.le, fun _ he => absurd he List.not_mem_nil, fun _ => ⟨⟨o, _, ho, rfl, rfl, ?_⟩, rfl⟩,
    fun hend => ?_⟩
  · rw [Json.str.inj (Option.some.inj hid)]
    exact hmint
  · show some (Json.int e.attempt) = _
    rw [he]
    rfl
  · rcases hend with hle | ⟨_, hmem, -⟩
    · exact absurd hle (not_le.mpr hn)
    · exact absurd hmem List.not_mem_nil

end steps

section letters

variable {w : WorkQueue σ} {m : TaskQueueManager σ ρ}

theorem deadLetters_clearPending (e : TaskEnvelope) (m : TaskQueueManager σ ρ) :
    (m.clearPending e).deadLetters = m.deadLetters := by
  unfold TaskQueueManager.clearPending
  split
  · rfl
  · split_ifs <;> rfl

theorem deadLetters_ack (l : ManagedLease) (clear : Bool) (m : TaskQueueManager σ ρ) :
    (m.ack w l clear).deadLetters = m.deadLetters := by
  unfold TaskQueueManager.ack
  split_ifs
  · rw [deadLetters_clearPending]
    rfl
  · rfl

theorem deadLetters_register (e : TaskEnvelope) (o : ℤ) (m : TaskQueueManager σ ρ) :
    (m.register e o).deadLetters = m.deadLetters := by
  unfold TaskQueueManager.register
  split
  · rfl
  · dsimp only
    split_ifs <;> rfl

theorem deadLetters_storeEnvelope (clock : Clock) (e : TaskEnvelope) (m : TaskQueueManager σ ρ) :
    (m.storeEnvelope w clock e).2.deadLetters = m.deadLetters := by
  simp only [TaskQueueManager.storeEnvelope, TaskQueueManager.putEnvelope]
  rcases (w.put clock (.json e.toDict) m.queue).1 with err | o
  · rfl
  · exact deadLetters_register e o _

theorem deadLetters_recordRetry (clock : Clock) (l : ManagedLease) (t : FloatText)
    (m : TaskQueueManager σ ρ) : (m.recordRetry w clock l t).2.deadLetters = m.deadLetters := by
  have hstore := deadLetters_storeEnvelope (w := w) clock
    (l.envelope.withRetry (l.envelope.attempt + 1) t) (m.ack w l false)
  rw [deadLetters_ack] at hstore
  rw [← hstore]
  simp only [TaskQueueManager.recordRetry]
  rcases (m.ack w l false).storeEnvelope w clock (l.envelope.withRetry (l.envelope.attempt + 1) t) with
    ⟨err | _, m'⟩
  · rfl
  · unfold TaskQueueManager.keepPending
    dsimp only
    split <;> rfl

def Filed (c : DeadLetterClock) (l : ManagedLease) (error : Document) (before : Option DeadLetterStore) :
    Except Error (Option RetryDecision) → Option DeadLetterStore
  | .ok (some (.dlq reason)) => before.map (·.append c l.envelope.flowId l.envelope.toDict
      (error.setText "reason".toList reason) (l.envelope.attempt + 1))
  | _ => before

theorem deadLetters_handleFailure (policy : RetryPolicy) (ops : FloatOps) (clock : Clock)
    (c : DeadLetterClock) (l : ManagedLease) (error : Document) (m : TaskQueueManager σ ρ) :
    (m.handleFailure w (some policy) ops clock c l error).2.deadLetters = Filed c l error
      m.deadLetters (m.handleFailure w (some policy) ops clock c l error).1 := by
  simp only [TaskQueueManager.handleFailure]
  rcases policy.decide ops l.envelope.flowId (l.envelope.attempt + 1) error with err | delay | reason
  · rfl
  · have hretry := deadLetters_recordRetry (w := w) clock l (ops.text (clock.wall + max delay 0)) m
    dsimp only
    rcases hr : m.recordRetry w clock l (ops.text (clock.wall + max delay 0)) with ⟨err | e, m'⟩
    · rw [hr] at hretry
      exact hretry
    · rw [hr] at hretry
      exact hretry
  · show (m.ack w l true).deadLetters.map _ = m.deadLetters.map _
    rw [deadLetters_ack]

end letters

def doubleOps : FloatOps where
  power x k := if x ^ k < 2 ^ 1024 then some (x ^ k) else none
  uniform _ _ := 0
  text _ := secondStamp

def quietTask : TaskEnvelope :=
  .new ['a'] "demo".toList Document.empty Document.empty Document.empty secondStamp

abbrev memoryBacklog : Backlog (InMemoryWorkQueue.workQueue plainConfig.float) :=
  InMemoryWorkQueue.backlog plainConfig.float

def quietQueued : Managed InMemoryWorkQueue Unit :=
  sampleStep (.enqueue (clockAt 0) quietTask) sampleManaged

def failOnce (policy : RetryPolicy) (s : Attempts InMemoryWorkQueue Unit) :
    Option (Attempts InMemoryWorkQueue Unit) :=
  let s := { s with managed := sampleStep (.lease (clockAt 0) 1 60000) s.managed }
  s.managed.issued.getLast?.bind fun l =>
    if l.envelope.taskId = ['a'] ∧ s.managed.manager.queue.holder l.offset = some l.token then
      some (s.fail (InMemoryWorkQueue.workQueue plainConfig.float) policy doubleOps (clockAt 0)
        ⟨0, 1, secondStamp, .whole⟩ l Document.empty)
    else none

theorem failOnce_attempted {policy : RetryPolicy} {s s' : Attempts InMemoryWorkQueue Unit}
    (h : failOnce policy s = some s') : Relation.ReflTransGen
      (Attempted memoryBacklog plainPy plainConfig.float policy doubleOps ['a']) s s' := by
  obtain ⟨l, hl, h⟩ := Option.bind_eq_some_iff.mp h
  split_ifs at h with hcond
  cases h
  refine .tail (.single (.other (.lease (clockAt 0) 1 60000)
    ⟨fun _ _ he => (by cases he), fun _ he => (by cases he)⟩ (fun _ he => by cases he))) ?_
  exact .fails _ _ l _ (List.mem_of_getLast? hl) hcond.1 (not_not.mpr hcond.2)

def steepPolicy : RetryPolicy where
  default := { maxAttempts := 5, baseMs := 0, factor := 2 ^ 512, jitterMs := 0 }

def attemptIs (n : ℤ) (t : Task) : Bool :=
  match attemptOf t with
  | some (.int k) => k = n
  | _ => false

end Reports

end TraceMind.Queue
