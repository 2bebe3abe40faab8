import TraceMind.Planner.Schema

namespace TraceMind.Planner

open Artifacts (sortTexts)

structure Registry where
  tools : List Str := []
  allow : AllowList := {}

inductive Raised where
  | forbidden (reason : Str)
  | other (reason : Str)

structure Behaviour (W : Type) where
  tool : Str → List (Str × Json) → W → Except Raised Json × W
  flow : Str → List (Str × Json) → W → Except Raised Json × W

structure Invocation where
  kind : StepKind
  ref : Str
deriving DecidableEq

structure Exec (W : Type) where
  world : W
  invoked : List Invocation := []

structure Outcome where
  status : Json
  result : Json := .null
  errorCode : Option Str := none
  reason : Option Str := none

namespace Outcome

def isOk (o : Outcome) : Bool :=
  match o.status with
  | .str s => decide (s = "ok".toList)
  | _ => false

def failed (code : String) (reason : Str) : Outcome :=
  { status := .str "error".toList
    errorCode := some code.toList
    reason := some reason }

def get (o : Outcome) (attr : Str) : Json :=
  if attr = "status".toList then o.status
  else if attr = "result".toList then o.result
  else .null

end Outcome

inductive RunResult where
  | badPlan (reason : Str)
  | forbidden (reason : Str)
  | stopped (errorCode reason : Str) (plan : List (Str × Json)) (steps : List (Str × Outcome))
  | ok (plan : List (Str × Json)) (steps : List (Str × Outcome))

section dispatch

variable {W : Type} (reg : Registry) (b : Behaviour W)

def forbiddenReason (kind : StepKind) (ref : Str) : Str :=
  kind.text ++ " '".toList ++ ref ++ "' is not allowed".toList

def requireAllow (kind : StepKind) (ref : Str) : Except Str Unit :=
  if ref ∈ reg.allow.of kind then .ok () else .error (forbiddenReason kind ref)

def reference (v : Json) : Option Str :=
  match v with
  | .str s => if startsWith "$\x7b".toList s ∧ s.getLast? = some '\x7d' then some (s.drop 2).dropLast
      else none
  | _ => none

def resolveRef (ref : Str) (results : List (Str × Outcome)) : Json :=
  let stepId := ref.takeWhile (· ≠ '.')
  let attr := (ref.dropWhile (· ≠ '.')).tail
  match OrderedDict.find stepId results with
  | none => .null
  | some o => o.get (if attr = [] then "result".toList else attr)

def resolveInputs (inputs : List (Str × Json)) (results : List (Str × Outcome)) :
    List (Str × Json) :=
  inputs.map (fun e =>
    match reference e.2 with
    | none => e
    | some ref => (e.1, resolveRef ref results))

def flowOutcome (output : Json) : Except Raised Outcome :=
  match output with
  | .obj fs =>
    .ok { status := (OrderedDict.find "status".toList fs).getD (.str "ok".toList), result := output }
  | _ => .error (.other "object has no attribute 'get'".toList)

def dispatchStep (kind : StepKind) (ref : Str) (inputs : List (Str × Json))
    (results : List (Str × Outcome)) (s : Exec W) : Except Raised Outcome × Exec W :=
  let resolved := resolveInputs inputs results
  match kind with
  | .tool =>
    if ref ∈ reg.tools then
      let r := b.tool ref resolved s.world
      (r.1.map (fun v => { status := .str "ok".toList, result := v }),
        ⟨r.2, s.invoked ++ [⟨.tool, ref⟩]⟩)
    else (.error (.other ("Unknown tool '".toList ++ ref ++ "'".toList)), s)
  | .flow =>
    let r := b.flow ref resolved s.world
    (r.1.bind flowOutcome, ⟨r.2, s.invoked ++ [⟨.flow, ref⟩]⟩)

def stepFailed : Str := "step failed".toList

def retryOf (step : PlanStep) : Option RetryPolicy := step.onError.bind OnErrorAction.retry

def maxAttempts (step : PlanStep) : ℕ :=
  match retryOf step with
  | none => 1
  | some r => (r.max.value + 1).toNat

def floatLimit : ℤ := 2 ^ 1024 - 2 ^ 970

def pauseOverflows (step : PlanStep) (attempt : ℕ) : Bool :=
  let backoffMs := (((retryOf step).bind RetryPolicy.backoffMs).map PyInt.value).getD 0
  if backoffMs = 0 then decide (1024 < attempt) else decide (floatLimit ≤ backoffMs)

def overflow : Raised := .other "int too large to convert to float".toList

def attemptStep (step : PlanStep) (results : List (Str × Outcome)) :
    ℕ → ℕ → Str → Exec W → Except Raised (Outcome ⊕ Str) × Exec W
  | 0, _, reason, s => (.ok (.inr reason), s)
  | n + 1, made, _, s =>
    let r := dispatchStep reg b step.kind step.ref step.inputs results s
    match r.1 with
    | .error (.forbidden reason) => (.ok (.inl (.failed "POLICY_FORBIDDEN" reason)), r.2)
    | .error (.other reason) =>
      if n ≠ 0 ∧ pauseOverflows step (made + 1) then (.error overflow, r.2)
      else attemptStep step results n (made + 1) reason r.2
    | .ok o =>
      if o.isOk then (.ok (.inl o), r.2)
      else if n ≠ 0 ∧ pauseOverflows step (made + 1) then (.error overflow, r.2)
      else attemptStep step results n (made + 1) stepFailed r.2

def fallbackOf (step : PlanStep) : Option Str := step.onError.bind OnErrorAction.fallback

def executeStep (step : PlanStep) (results : List (Str × Outcome)) (s : Exec W) :
    Except Raised Outcome × List (Str × Outcome) × Exec W :=
  let r := attemptStep reg b step results (maxAttempts step) 0 stepFailed s
  match r.1 with
  | .error e => (.error e, results, r.2)
  | .ok (.inl o) => (.ok o, if o.isOk then results ++ [(step.id, o)] else results, r.2)
  | .ok (.inr reason) =>
    match fallbackOf step with
    | none => (.ok (.failed "STEP_FAILED" reason), results, r.2)
    | some f =>
      match requireAllow reg step.kind f with
      | .error reason => (.ok (.failed "POLICY_FORBIDDEN" reason), results, r.2)
      | .ok _ =>
        let d := dispatchStep reg b step.kind f step.inputs results r.2
        (d.1, results, d.2)

def executeSteps (plan : Plan) (stopOnError : Bool) : List PlanStep → List (Str × Outcome) →
    List (Str × Outcome) → Exec W → Except Raised RunResult × Exec W
  | [], _, report, s => (.ok (.ok plan.asDict report), s)
  | step :: steps, results, report, s =>
    match requireAllow reg step.kind step.ref with
    | .error reason => (.ok (.forbidden reason), s)
    | .ok _ =>
      let r := executeStep reg b step results s
      match r.1 with
      | .error e => (.error e, r.2.2)
      | .ok o =>
        let report := report ++ [(step.id, o)]
        if !o.isOk && stopOnError then
          (.ok (.stopped (o.errorCode.getD "STEP_FAILED".toList) (o.reason.getD stepFailed)
            plan.asDict report), r.2.2)
        else executeSteps plan stopOnError steps r.2.1 report r.2.2

end dispatch

structure Texts where
  loads : Str → Except Str Json
  repr : Json → Str
  error : PlanError → Str

section runs

variable {W : Type} (fl : Floats) (tx : Texts) (reg : Registry) (b : Behaviour W)

def decodePayload (payload : Json) : Except Str Json :=
  match payload with
  | .str s => (tx.loads s).mapError ("Plan JSON invalid: ".toList ++ ·)
  | v => .ok v

def executePlan (payload : Json) (stopOnError : Bool) (w : W) :
    Except Raised RunResult × Exec W :=
  match decodePayload tx payload with
  | .error reason => (.ok (.badPlan reason), ⟨w, []⟩)
  | .ok (.obj fs) =>
    match validatePlan fl tx.repr fs with
    | .error e => (.ok (.badPlan (tx.error e)), ⟨w, []⟩)
    | .ok plan => executeSteps reg b plan stopOnError plan.steps [] [] ⟨w, []⟩
  | .ok _ => (.ok (.badPlan "plan must be a JSON object".toList), ⟨w, []⟩)

end runs

section planning

structure PlanRequest where
  allow : AllowList
  retries : ℕ := 0

inductive ModelReply where
  | output (text : Str)
  | llmError (code message : Str)
  | failed (message : Str)

inductive PlanResult where
  | ok (plan : List (Str × Json)) (retries : ℕ)
  | error (code reason : Str)

variable (fl : Floats) (tx : Texts)

def isRetryableError (code : Str) : Bool :=
  decide (code ∈ ["RATE_LIMIT".toList, "PROVIDER_ERROR".toList, "RUN_TIMEOUT".toList])

def firstForbidden (refs : List Str) (allowed : List Str) : Option Str :=
  (sortTexts (refs.filter (· ∉ allowed)).eraseDups).head?

def planForbidden (plan : Plan) (request : PlanRequest) : Option (StepKind × Str) :=
  match firstForbidden plan.allow.tools request.allow.tools with
  | some ref => some (.tool, ref)
  | none =>
    match firstForbidden plan.allow.flows request.allow.flows with
    | some ref => some (.flow, ref)
    | none =>
      (plan.steps.find? (fun s => s.ref ∉ request.allow.of s.kind)).map (fun s => (s.kind, s.ref))

inductive Reading where
  | plan (p : Plan)
  | retry (reason : Str)
  | refused (code reason : Str)
  | raised (e : Queue.Error)

def readPlan (request : PlanRequest) (text : Str) : Reading :=
  match tx.loads (strip text) with
  | .error _ => .retry "planner output was not valid JSON".toList
  | .ok (.obj fs) =>
    match validatePlan fl tx.repr fs with
    | .error (.raised e) => .raised e
    | .error e => .retry (tx.error e)
    | .ok p =>
      match planForbidden p request with
      | some r => .refused "POLICY_FORBIDDEN".toList (forbiddenReason r.1 r.2)
      | none => .plan p
  | .ok _ => .raised (.attributeError "object has no attribute 'keys'")

def planLoop (request : PlanRequest) (replies : ℕ → ModelReply) :
    ℕ → ℕ → Except Queue.Error PlanResult
  | 0, _ => .ok (.error "GUARD_BLOCKED".toList "invalid response".toList)
  | n + 1, k =>
    match replies k with
    | .llmError code message =>
      if 0 < n ∧ isRetryableError code then planLoop request replies n (k + 1)
      else .ok (.error code message)
    | .failed message => .ok (.error "PROVIDER_ERROR".toList message)
    | .output text =>
      match readPlan fl tx request text with
      | .raised e => .error e
      | .refused code reason => .ok (.error code reason)
      | .retry reason =>
        if 0 < n then planLoop request replies n (k + 1)
        else .ok (.error "GUARD_BLOCKED".toList reason)
      | .plan p => .ok (.ok p.asDict k)

def aiPlan (request : PlanRequest) (replies : ℕ → ModelReply) : Except Queue.Error PlanResult :=
  planLoop fl tx request replies (request.retries + 1) 0

end planning

end TraceMind.Planner
