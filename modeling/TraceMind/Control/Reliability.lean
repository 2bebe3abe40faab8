import TraceMind.Basic
import TraceMind.Foundation.OrderedDict
import TraceMind.Foundation.Runs
import Mathlib.Data.Rat.Defs

namespace TraceMind.Control

inductive RunStatus where
  | pending
  | running
  | cancelling
  | completed
  | failed
  | cancelled
deriving DecidableEq, Repr

structure StepReliabilityPolicy where
  timeoutSeconds : Option ℚ := none
  maxAttempts : ℕ := 1

structure ReliabilityProfile where
  defaultPolicy : StepReliabilityPolicy := {}
  stepPolicies : List (Str × StepReliabilityPolicy) := []

def ReliabilityProfile.policyForStep (p : ReliabilityProfile) (step : Str) :
    StepReliabilityPolicy :=
  (OrderedDict.find step p.stepPolicies).getD p.defaultPolicy

structure RunReliabilityState where
  runId : Str
  workspaceId : Option Str := none
  bundleArtifactId : Option Str := none
  status : RunStatus := .pending
  currentStep : Option Str := none
  attempt : ℕ := 0
  retryCount : ℕ := 0
  timeoutStep : Option Str := none
  timeoutSeconds : Option ℚ := none
  timeoutReason : Option Str := none
  canceled : Bool := false
  startedAt : Str
  endedAt : Option Str := none
  errors : List Str := []
  lastError : Option Str := none
deriving DecidableEq

structure RunReliabilityController where
  state : RunReliabilityState
  cancelEvent : Bool := false
deriving DecidableEq

namespace RunReliabilityController

def markBundle (bundleId : Str) (c : RunReliabilityController) : RunReliabilityController :=
  { c with state := { c.state with bundleArtifactId := some bundleId } }

def markRunning (c : RunReliabilityController) : RunReliabilityController :=
  { c with state := { c.state with status := .running } }

def markStartedAt (now : Str) (c : RunReliabilityController) : RunReliabilityController :=
  { c with state := { c.state with startedAt := now } }

def markAttempt (step : Str) (attempt : ℕ) (c : RunReliabilityController) :
    RunReliabilityController :=
  { c with
    state := { c.state with
      currentStep := some step
      attempt := attempt
      retryCount := max c.state.retryCount (attempt - 1)
      status := .running
      lastError := none
      timeoutStep := none
      timeoutSeconds := none
      timeoutReason := none } }

def markTimeout (step : Str) (attempt : ℕ) (timeoutSeconds : Option ℚ) (reason : Str)
    (c : RunReliabilityController) : RunReliabilityController :=
  { c with
    state := { c.state with
      timeoutStep := some step
      timeoutSeconds := timeoutSeconds
      timeoutReason := some reason
      lastError := some reason
      retryCount := max c.state.retryCount attempt } }

def markCancelRequested (c : RunReliabilityController) : RunReliabilityController :=
  { c with
    state := { c.state with
      canceled := true
      status := .cancelling } }

def endStatus (success canceled : Bool) : RunStatus :=
  if !success && canceled then .cancelled else if success then .completed else .failed

def markFinished (success : Bool) (errors : List Str) (now : Str) (c : RunReliabilityController) :
    RunReliabilityController :=
  { c with
    state := { c.state with
      status := endStatus success c.state.canceled
      endedAt := some now
      errors := if errors = [] then c.state.errors else errors
      lastError := if errors = [] then c.state.lastError else errors.getLast? } }

def markFailed (message : Str) (c : RunReliabilityController) : RunReliabilityController :=
  { c with
    state := { c.state with
      status := .failed
      lastError := some message
      errors := if message ∈ c.state.errors then c.state.errors else c.state.errors ++ [message] } }

def setCancelEvent (c : RunReliabilityController) : RunReliabilityController :=
  { c with cancelEvent := true }

end RunReliabilityController

structure PlanStep where
  step : Str
  agentId : Str
deriving DecidableEq

inductive Position where
  | loading
  | starting
  | planning (steps : List PlanStep)
  | attempting (step : PlanStep) (attempt : ℕ) (rest : List PlanStep)
  | checking (step : PlanStep) (attempt : ℕ) (rest : List PlanStep)
  | invoking (step : PlanStep) (attempt : ℕ) (rest : List PlanStep)
  | running (step : PlanStep) (attempt : ℕ) (rest : List PlanStep)
  | expired (step : PlanStep) (attempt : ℕ) (reason : Str) (rest : List PlanStep)
  | givingUp (message : Str)
  | reported
  | finishing (success : Bool) (errors : List Str)
  | ended (success : Bool)
deriving DecidableEq

def Position.isEnded : Position → Bool
  | .ended _ => true
  | _ => false

def Position.isStopping : Position → Bool
  | .finishing _ _ | .ended _ => true
  | _ => false

inductive AgentEnd where
  | produced (report : Bool)
  | refused (errors : List Str)
  | raised (errors : List Str)
  | timedOut (reason : Str)
deriving DecidableEq

inductive CycleEvent where
  | start (bundleId : Str)
  | stamp (now : Str)
  | enter
  | attempt
  | check
  | invoke
  | finished (outcome : AgentEnd)
  | timeout
  | giveUp
  | fail (errors : List Str)
  | conclude
  | finish (now : Str)
  | request
  | publish
deriving DecidableEq

def CycleEvent.isCall : CycleEvent → Bool
  | .finish _ | .request | .publish => false
  | _ => true

def CycleEvent.isFinish : CycleEvent → Bool
  | .finish _ => true
  | _ => false

structure CycleRun where
  control : RunReliabilityController
  position : Position := .loading
  requests : ℕ := 0
deriving DecidableEq

namespace CycleRun

section steps

variable (plan : List PlanStep) (profile : ReliabilityProfile)

def moved (s : CycleRun) (p : Position) (f : RunReliabilityController → RunReliabilityController) :
    CycleRun :=
  { s with
    control := f s.control
    position := p }

def missingReport : Str := "controller cycle did not produce execution report".toList

def incomplete : Str := "retry failed".toList

def nextAttempt (step : PlanStep) (attempt : ℕ) (rest : List PlanStep) : Position :=
  if attempt ≤ (profile.policyForStep step.step).maxAttempts then .attempting step attempt rest
  else .finishing false [incomplete]

def enterStep : List PlanStep → Position
  | [] => .finishing false [missingReport]
  | step :: rest => nextAttempt profile step 1 rest

def afterCheck (cancelled : Bool) (step : PlanStep) (attempt : ℕ) (rest : List PlanStep) : Position :=
  if cancelled then .finishing false ["run cancelled".toList] else .invoking step attempt rest

def afterRun (step : PlanStep) (attempt : ℕ) (rest : List PlanStep) : AgentEnd → Position
  | .produced report => if report then .reported else .planning rest
  | .refused errors => .finishing false errors
  | .raised errors => .finishing false errors
  | .timedOut reason => .expired step attempt reason rest

def timeoutMessage (step : PlanStep) : Str :=
  "agent '".toList ++ step.agentId ++ "' timed out during step '".toList ++ step.step ++
    "'".toList

def afterTimeout (step : PlanStep) (attempt : ℕ) (rest : List PlanStep) : Position :=
  if (profile.policyForStep step.step).maxAttempts ≤ attempt then .givingUp (timeoutMessage step)
  else nextAttempt profile step (attempt + 1) rest

def mayFail : Position → Bool
  | .loading | .planning _ | .invoking _ _ _ | .expired _ _ _ _ | .reported => true
  | _ => false

def step (e : CycleEvent) (s : CycleRun) : Option CycleRun :=
  match e, s.position with
  | .start bundleId, .loading =>
    some (s.moved .starting (fun c => (c.markBundle bundleId).markRunning))
  | .stamp now, .starting => some (s.moved (.planning plan) (·.markStartedAt now))
  | .enter, .planning steps => some (s.moved (enterStep profile steps) id)
  | .attempt, .attempting st n rest => some (s.moved (.checking st n rest) (·.markAttempt st.step n))
  | .check, .checking st n rest => some (s.moved (afterCheck s.control.cancelEvent st n rest) id)
  | .invoke, .invoking st n rest => some (s.moved (.running st n rest) id)
  | .finished outcome, .running st n rest => some (s.moved (afterRun st n rest outcome) id)
  | .timeout, .expired st n reason rest =>
    some (s.moved (afterTimeout profile st n rest)
      (·.markTimeout st.step n (profile.policyForStep st.step).timeoutSeconds reason))
  | .giveUp, .givingUp message =>
    some (s.moved (.finishing false [message]) (·.markFailed message))
  | .fail errors, p => if mayFail p then some (s.moved (.finishing false errors) id) else none
  | .conclude, .reported => some (s.moved (.finishing true []) id)
  | .finish now, .finishing success errors =>
    some (s.moved (.ended success) (·.markFinished success errors now))
  | .request, _ =>
    some { s with
      control := s.control.setCancelEvent
      requests := s.requests + 1 }
  | .publish, _ =>
    if 0 < s.requests then
      some { s with
        control := s.control.markCancelRequested
        requests := s.requests - 1 }
    else none
  | _, _ => none

def initial (runId : Str) (workspaceId : Option Str) (startedAt : Str) : CycleRun :=
  { control := { state := { runId := runId, workspaceId := workspaceId, startedAt := startedAt } } }

end steps

section inversion

variable {plan : List PlanStep} {profile : ReliabilityProfile} {e : CycleEvent} {s t : CycleRun}

structure Continued (e : CycleEvent) (s t : CycleRun) : Prop where
  event : e.isCall = true
  before : s.position.isEnded = false
  after : t.position.isEnded = false
  cancelEvent : t.control.cancelEvent = s.control.cancelEvent
  canceled : t.control.state.canceled = s.control.state.canceled
  requests : t.requests = s.requests

theorem continued_moved {p q : Position} {f : RunReliabilityController → RunReliabilityController}
    (ht : some (s.moved p f) = some t) (hs : s.position = q) (he : e.isCall = true)
    (hq : q.isEnded = false) (hp : p.isEnded = false)
    (hf : ∀ c, (f c).cancelEvent = c.cancelEvent ∧ (f c).state.canceled = c.state.canceled) :
    Continued e s t := by
  obtain rfl := Option.some.inj ht
  exact ⟨he, hs ▸ hq, hp, (hf s.control).1, (hf s.control).2, rfl⟩

theorem nextAttempt_isEnded (st : PlanStep) (n : ℕ) (rest : List PlanStep) :
    (nextAttempt profile st n rest).isEnded = false := by
  rw [nextAttempt]
  split_ifs <;> rfl

theorem enterStep_isEnded (steps : List PlanStep) : (enterStep profile steps).isEnded = false := by
  cases steps with
  | nil => rfl
  | cons st rest => exact nextAttempt_isEnded st 1 rest

theorem afterCheck_isEnded (c : Bool) (st : PlanStep) (n : ℕ) (rest : List PlanStep) :
    (afterCheck c st n rest).isEnded = false := by
  cases c <;> rfl

theorem afterRun_isEnded (st : PlanStep) (n : ℕ) (rest : List PlanStep) (o : AgentEnd) :
    (afterRun st n rest o).isEnded = false := by
  cases o with
  | produced report => cases report <;> rfl
  | refused errors => rfl
  | raised errors => rfl
  | timedOut reason => rfl

theorem afterTimeout_isEnded (st : PlanStep) (n : ℕ) (rest : List PlanStep) :
    (afterTimeout profile st n rest).isEnded = false := by
  rw [afterTimeout]
  split_ifs
  · rfl
  · exact nextAttempt_isEnded st (n + 1) rest

theorem isEnded_of_mayFail {p : Position} (h : mayFail p = true) : p.isEnded = false := by
  cases p <;> first | rfl | cases h

theorem step_cases (h : step plan profile e s = some t) :
    (e = .request ∧
      t = { s with control := s.control.setCancelEvent, requests := s.requests + 1 }) ∨
    (e = .publish ∧ 0 < s.requests ∧
      t = { s with control := s.control.markCancelRequested, requests := s.requests - 1 }) ∨
    (∃ now success errors, e = .finish now ∧ s.position = .finishing success errors ∧
      t = s.moved (.ended success) (·.markFinished success errors now)) ∨
    Continued e s t := by
  revert h
  have kept : ∀ c : RunReliabilityController,
      (id c).cancelEvent = c.cancelEvent ∧ (id c).state.canceled = c.state.canceled :=
    fun _ => ⟨rfl, rfl⟩
  fun_cases step plan profile e s with
  | case1 bundleId hs =>
    intro h
    exact .inr (.inr (.inr (continued_moved h hs rfl rfl rfl kept)))
  | case2 now hs =>
    intro h
    exact .inr (.inr (.inr (continued_moved h hs rfl rfl rfl kept)))
  | case3 steps hs =>
    intro h
    exact .inr (.inr (.inr (continued_moved h hs rfl rfl (enterStep_isEnded steps) kept)))
  | case4 st n rest hs =>
    intro h
    exact .inr (.inr (.inr (continued_moved h hs rfl rfl rfl kept)))
  | case5 st n rest hs =>
    intro h
    exact .inr (.inr (.inr (continued_moved h hs rfl rfl (afterCheck_isEnded _ st n rest) kept)))
  | case6 st n rest hs =>
    intro h
    exact .inr (.inr (.inr (continued_moved h hs rfl rfl rfl kept)))
  | case7 outcome st n rest hs =>
    intro h
    exact .inr (.inr (.inr
      (continued_moved h hs rfl rfl (afterRun_isEnded st n rest outcome) kept)))
  | case8 st n reason rest hs =>
    intro h
    exact .inr (.inr (.inr (continued_moved h hs rfl rfl (afterTimeout_isEnded st n rest) kept)))
  | case9 message hs =>
    intro h
    exact .inr (.inr (.inr (continued_moved h hs rfl rfl rfl kept)))
  | case10 errors hmay =>
    intro h
    exact .inr (.inr (.inr (continued_moved h rfl rfl (isEnded_of_mayFail hmay) rfl kept)))
  | case11 errors hmay => simp
  | case12 hs =>
    intro h
    exact .inr (.inr (.inr (continued_moved h hs rfl rfl rfl kept)))
  | case13 now success errors hs =>
    intro h
    exact .inr (.inr (.inl ⟨now, success, errors, rfl, hs, (Option.some.inj h).symm⟩))
  | case14 =>
    intro h
    exact .inl ⟨rfl, (Option.some.inj h).symm⟩
  | case15 hpos =>
    intro h
    exact .inr (.inl ⟨rfl, hpos, (Option.some.inj h).symm⟩)
  | case16 => simp
  | case17 => simp

theorem step_stopping (h : step plan profile e s = some t) (hs : s.position.isStopping = true) :
    t.position.isStopping = true ∧ e ≠ .invoke := by
  obtain ⟨control, position, requests⟩ := s
  cases position <;> try cases hs
  all_goals
    cases e <;> simp only [step, mayFail, reduceCtorEq, Bool.false_eq_true, if_false] at h
  case finishing.refl.finish =>
    obtain rfl := Option.some.inj h
    exact ⟨rfl, by simp⟩
  case finishing.refl.request =>
    obtain rfl := Option.some.inj h
    exact ⟨rfl, by simp⟩
  case finishing.refl.publish =>
    split_ifs at h
    obtain rfl := Option.some.inj h
    exact ⟨rfl, by simp⟩
  case ended.refl.request =>
    obtain rfl := Option.some.inj h
    exact ⟨rfl, by simp⟩
  case ended.refl.publish =>
    split_ifs at h
    obtain rfl := Option.some.inj h
    exact ⟨rfl, by simp⟩

theorem step_check (h : step plan profile .check s = some t)
    (hs : s.control.cancelEvent = true) : t.position.isStopping = true := by
  obtain ⟨control, position, requests⟩ := s
  cases position <;> simp only [step, reduceCtorEq] at h
  obtain rfl := Option.some.inj h
  simp only [moved, afterCheck] at hs ⊢
  rw [hs]
  rfl

end inversion

section history

variable (plan : List PlanStep) (profile : ReliabilityProfile)

def requestedBeforeEnd (es : List CycleEvent) : Bool :=
  (es.takeWhile (fun e => !e.isFinish)).any (fun e => decide (e = .request))

def EndsWell (es : List CycleEvent) (s : CycleRun) : Prop :=
  ∀ success, s.position = .ended success →
    s.control.state.status ∈ [RunStatus.completed, .failed, .cancelled] ∧
    (s.control.state.status = .cancelled ↔ success = false ∧ requestedBeforeEnd es = true)

structure CancelCorrect (es : List CycleEvent) (s : CycleRun) : Prop where
  ends : ∀ before rest, es = before ++ rest →
    ∀ t, Runs.after (step plan profile) before s = some t → EndsWell before t
  stops : ∀ before rest, es = before ++ .check :: rest →
    ∀ t, Runs.after (step plan profile) before s = some t → t.control.cancelEvent = true →
      CycleEvent.invoke ∉ rest

def Orderly : CycleEvent → CycleRun → Prop
  | .publish, s => s.position.isEnded = false
  | .finish _, s => ∀ errors, s.position = .finishing false errors →
      s.control.cancelEvent = true → s.control.state.canceled = true
  | _, _ => True

variable {plan profile} {es : List CycleEvent} {e : CycleEvent} {s t u : CycleRun}

theorem takeWhile_append_of_mem {p : CycleEvent → Bool} {fs : List CycleEvent}
    (h : ∃ e ∈ es, p e = false) : (es ++ fs).takeWhile p = es.takeWhile p := by
  induction es with
  | nil => simp at h
  | cons f es ih =>
    rw [List.cons_append, List.takeWhile_cons, List.takeWhile_cons]
    cases hf : p f with
    | false => rfl
    | true =>
      obtain ⟨e, he, hp⟩ := h
      have hmem : e ∈ es := by
        rcases List.mem_cons.mp he with rfl | he
        · rw [hf] at hp
          cases hp
        · exact he
      rw [ih ⟨e, hmem, hp⟩]

theorem requestedBeforeEnd_snoc (h : ∃ e ∈ es, e.isFinish = true) :
    requestedBeforeEnd (es ++ [e]) = requestedBeforeEnd es := by
  obtain ⟨f, hf, hfinish⟩ := h
  rw [requestedBeforeEnd, requestedBeforeEnd, takeWhile_append_of_mem ⟨f, hf, by simp [hfinish]⟩]

theorem requestedBeforeEnd_finish {now : Str} (h : ∀ e ∈ es, e.isFinish = false) :
    requestedBeforeEnd (es ++ [.finish now]) = es.any (fun e => decide (e = .request)) := by
  rw [requestedBeforeEnd, List.takeWhile_append_of_pos (by simpa using h)]
  change (es ++ []).any _ = _
  rw [List.append_nil]

structure Tracked (es : List CycleEvent) (s : CycleRun) : Prop where
  running : s.position.isEnded = false → (∀ e ∈ es, e.isFinish = false) ∧
    s.control.cancelEvent = es.any (fun e => decide (e = .request))
  requested : s.control.state.canceled = true ∨ 0 < s.requests → s.control.cancelEvent = true
  ended : ∀ success, s.position = .ended success → (∃ e ∈ es, e.isFinish = true) ∧
    s.control.state.status =
      RunReliabilityController.endStatus success (requestedBeforeEnd es)

theorem Tracked.initial {runId startedAt : Str} {workspaceId : Option Str} :
    Tracked [] (initial runId workspaceId startedAt) where
  running := fun _ => ⟨by simp, rfl⟩
  requested := by
    rintro (h | h)
    · cases h
    · exact absurd h (Nat.lt_irrefl 0)
  ended := by
    intro success h
    cases h

theorem CycleEvent.isFinish_of_isCall (h : e.isCall = true) : e.isFinish = false := by
  cases e <;> first | rfl | cases h

theorem CycleEvent.ne_request_of_isCall (h : e.isCall = true) : e ≠ .request := by
  rintro rfl
  cases h

theorem isEnded_of_eq {success : Bool} (h : s.position = .ended success) :
    s.position.isEnded = true := by
  rw [h]
  rfl

theorem Tracked.step (hs : Tracked es s) (hok : Orderly e s) (h : step plan profile e s = some t) :
    Tracked (es ++ [e]) t := by
  rcases step_cases h with ⟨rfl, rfl⟩ | ⟨rfl, hpos, rfl⟩ | ⟨now, success, errors, rfl, hp, rfl⟩ | hc
  · refine ⟨fun hrun => ?_, fun _ => rfl, fun success hend => ?_⟩
    · obtain ⟨hfin, -⟩ := hs.running hrun
      exact ⟨by simpa [or_imp, forall_and, CycleEvent.isFinish] using hfin,
        by simp [RunReliabilityController.setCancelEvent]⟩
    · obtain ⟨hfin, hstatus⟩ := hs.ended success hend
      refine ⟨hfin.imp (fun f hf => ⟨List.mem_append_left _ hf.1, hf.2⟩), ?_⟩
      rw [requestedBeforeEnd_snoc hfin]
      exact hstatus
  · have hrun : s.position.isEnded = false := hok
    refine ⟨fun _ => ?_, fun _ => hs.requested (.inr hpos), fun success hend => ?_⟩
    · obtain ⟨hfin, hev⟩ := hs.running hrun
      refine ⟨by simpa [or_imp, forall_and, CycleEvent.isFinish] using hfin, ?_⟩
      rw [List.any_append, ← hev]
      simp [RunReliabilityController.markCancelRequested]
    · rw [isEnded_of_eq hend] at hrun
      cases hrun
  · have hrun : s.position.isEnded = false := by
      rw [hp]
      rfl
    obtain ⟨hfin, hev⟩ := hs.running hrun
    refine ⟨fun hend => ?_, hs.requested, fun ok hend => ?_⟩
    · cases hend
    · obtain rfl : success = ok := Position.ended.inj hend
      refine ⟨⟨_, List.mem_append_right _ (List.mem_singleton_self _), rfl⟩, ?_⟩
      rw [requestedBeforeEnd_finish hfin, ← hev]
      change RunReliabilityController.endStatus success s.control.state.canceled = _
      cases success with
      | true => simp [RunReliabilityController.endStatus]
      | false =>
        have hiff : s.control.state.canceled = s.control.cancelEvent :=
          Bool.eq_iff_iff.mpr ⟨fun hc => hs.requested (.inl hc), hok errors hp⟩
        rw [hiff]
  · refine ⟨fun _ => ?_, fun hreq => ?_, fun success hend => ?_⟩
    · obtain ⟨hfin, hev⟩ := hs.running hc.before
      refine ⟨?_, ?_⟩
      · intro f hf
        rcases List.mem_append.mp hf with hf | hf
        · exact hfin f hf
        · rw [List.mem_singleton.mp hf]
          exact CycleEvent.isFinish_of_isCall hc.event
      · rw [hc.cancelEvent, hev, List.any_append]
        simp [CycleEvent.ne_request_of_isCall hc.event]
    · rw [hc.cancelEvent]
      refine hs.requested ?_
      rw [← hc.canceled, ← hc.requests]
      exact hreq
    · have hrun := hc.after
      rw [isEnded_of_eq hend] at hrun
      cases hrun

theorem Tracked.endsWell (hs : Tracked es s) : EndsWell es s := by
  intro success hend
  obtain ⟨-, hstatus⟩ := hs.ended success hend
  rw [hstatus]
  cases success <;> cases requestedBeforeEnd es <;>
    simp [RunReliabilityController.endStatus]

theorem publish_not_endsWell (hend : s.position.isEnded = true)
    (h : step plan profile .publish s = some t) : ¬ EndsWell es t := by
  rcases step_cases h with ⟨h', -⟩ | ⟨-, -, rfl⟩ | ⟨_, _, _, h', -⟩ | hc
  · cases h'
  · intro hwell
    cases hp : s.position with
    | ended success =>
      have := (hwell success hp).1
      simp [RunReliabilityController.markCancelRequested] at this
    | _ =>
      rw [hp] at hend
      cases hend
  · cases h'
  · cases hc.event

theorem finish_not_endsWell {now : Str} {errors : List Str}
    (hp : s.position = .finishing false errors) (hfin : ∀ e ∈ es, e.isFinish = false)
    (hev : s.control.cancelEvent = es.any (fun e => decide (e = .request)))
    (hset : s.control.cancelEvent = true) (hcan : s.control.state.canceled = false)
    (h : step plan profile (.finish now) s = some t) : ¬ EndsWell (es ++ [.finish now]) t := by
  rcases step_cases h with ⟨h', -⟩ | ⟨h', -, -⟩ | ⟨_, success, errors', h', hp', rfl⟩ | hc
  · cases h'
  · cases h'
  · intro hwell
    rw [hp] at hp'
    cases hp'
    have hstatus := (hwell false rfl).2.mpr ⟨rfl, by rw [requestedBeforeEnd_finish hfin, ← hev, hset]⟩
    change RunReliabilityController.endStatus false s.control.state.canceled = _ at hstatus
    rw [hcan] at hstatus
    cases hstatus
  · cases hc.event

theorem stopping_forever (h : Runs.after (step plan profile) es s = some t)
    (hs : s.position.isStopping = true) : CycleEvent.invoke ∉ es := by
  have hall : t.position.isStopping = true ∧ CycleEvent.invoke ∉ es := by
    refine Runs.after_induct (I := fun es t => t.position.isStopping = true ∧ .invoke ∉ es)
      ⟨hs, by simp⟩ ?_ h
    intro es e t u _ ht he
    obtain ⟨hu, hne⟩ := step_stopping he ht.1
    exact ⟨hu, by simpa using ⟨ht.2, hne.symm⟩⟩
  exact hall.2

theorem invoke_not_mem_of_check {before rest : List CycleEvent}
    (h : Runs.after (step plan profile) (before ++ .check :: rest) s = some u)
    (ht : Runs.after (step plan profile) before s = some t)
    (hset : t.control.cancelEvent = true) : CycleEvent.invoke ∉ rest := by
  obtain ⟨t', ht', hrest⟩ := Runs.of_after_append h
  obtain rfl : t = t' := Option.some.inj (ht.symm.trans ht')
  obtain ⟨v, hv, hafter⟩ := Option.bind_eq_some_iff.mp hrest
  exact stopping_forever hafter (step_check hv hset)

section runs

variable {runId startedAt : Str} {workspaceId : Option Str}

theorem tracked_of_orderly
    (hrun : Runs.Throughout (step plan profile) Orderly es (initial runId workspaceId startedAt))
    (h : Runs.after (step plan profile) es (initial runId workspaceId startedAt) = some s) :
    Tracked es s :=
  Runs.Throughout.induct hrun Tracked.initial (fun _ _ _ _ _ hok ht he => ht.step hok he) h

theorem orderly_of_endsWell
    (h : Runs.after (step plan profile) es (initial runId workspaceId startedAt) = some s)
    (hwell : ∀ before rest, es = before ++ rest → ∀ t,
      Runs.after (step plan profile) before (initial runId workspaceId startedAt) = some t →
        EndsWell before t) :
    Runs.Throughout (step plan profile) Orderly es (initial runId workspaceId startedAt) := by
  induction es using List.reverseRecOn generalizing s with
  | nil =>
    intro before e rest hnil
    simp at hnil
  | append_singleton es e ih =>
    obtain ⟨t, ht, he⟩ := Runs.of_after_snoc h
    have hrun : Runs.Throughout (step plan profile) Orderly es _ :=
      ih ht (fun before rest hes => hwell before (rest ++ [e]) (by rw [hes, List.append_assoc]))
    have htracked := tracked_of_orderly hrun ht
    have hlast := hwell (es ++ [e]) [] (List.append_nil _).symm s h
    refine hrun.snoc (fun t' ht' => ?_)
    obtain rfl : t = t' := Option.some.inj (ht.symm.trans ht')
    cases e with
    | publish =>
      cases hend : t.position.isEnded with
      | false => exact hend
      | true => exact absurd hlast (publish_not_endsWell hend he)
    | finish now =>
      intro errors hp hset
      cases hcan : t.control.state.canceled with
      | true => rfl
      | false =>
        obtain ⟨hfin, hev⟩ := htracked.running (by rw [hp]; rfl)
        exact absurd hlast (finish_not_endsWell hp hfin hev hset hcan he)
    | _ => trivial

theorem cancel_correct_iff
    (h : Runs.after (step plan profile) es (initial runId workspaceId startedAt) = some s) :
    CancelCorrect plan profile es (initial runId workspaceId startedAt) ↔
      Runs.Throughout (step plan profile) Orderly es (initial runId workspaceId startedAt) := by
  constructor
  · intro hc
    exact orderly_of_endsWell h hc.ends
  · intro hrun
    refine ⟨fun before rest hes t ht => ?_, fun before rest hes t ht hset => ?_⟩
    · subst hes
      exact (tracked_of_orderly hrun.of_append ht).endsWell
    · subst hes
      exact invoke_not_mem_of_check h ht hset

end runs

def observePlan : List PlanStep := [⟨"observe".toList, "observer".toList⟩]

def observeRun : CycleRun := initial "run".toList none "t0".toList

def cancelledEvents : List CycleEvent :=
  [.start "bundle".toList, .stamp "t1".toList, .enter, .request, .attempt, .publish, .check,
    .finish "t2".toList]

def lateEvents : List CycleEvent :=
  [.start "bundle".toList, .stamp "t1".toList, .enter, .attempt, .check, .invoke,
    .finished (.produced true), .conclude, .finish "t2".toList, .request, .publish]

theorem cancelled_events_correct :
    CancelCorrect observePlan {} cancelledEvents observeRun := by
  have hrun : (Runs.after (step observePlan {}) cancelledEvents observeRun).isSome = true := rfl
  refine (cancel_correct_iff (Option.some_get hrun).symm).mpr ?_
  iterate 7
    refine Runs.Throughout.cons (by trivial) (fun t ht => ?_)
    obtain rfl := Option.some.inj ht
  exact Runs.Throughout.cons (fun _ _ _ => rfl) (fun _ _ => Runs.throughout_nil)

theorem late_cancel_overwrites :
    (Runs.after (step observePlan {}) lateEvents observeRun).map (·.control.state.status) =
        some .cancelling ∧
      ¬ CancelCorrect observePlan {} lateEvents observeRun := by
  refine ⟨rfl, fun h => ?_⟩
  have hend := h.ends lateEvents [] (List.append_nil _).symm _ rfl true rfl
  revert hend
  decide

end history

end CycleRun

end TraceMind.Control
