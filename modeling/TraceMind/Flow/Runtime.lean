import TraceMind.Governance.Manager

namespace TraceMind.Flow

open Governance (GovernanceDecision GovernanceManager RequestDescriptor Report truthy)

inductive Status where
  | ok
  | error
  | pending
  | rejected
deriving DecidableEq

def Status.text : Status → Str
  | .ok => "ok".toList
  | .error => "error".toList
  | .pending => "pending".toList
  | .rejected => "rejected".toList

inductive Output (α : Type) where
  | empty
  | notes (entries : OrderedDict Str Str)
  | of (value : α)

structure Result (α : Type) where
  status : Status
  runId : Str
  queuedMs : ℚ
  execMs : ℚ
  output : Output α
  errorCode : Option Str
  errorMessage : Option Str
  flow : Str
  flowId : Str
  flowRev : Str
  flowName : Str

variable {α : Type}

def cloneResult (r : Result α) : Result α :=
  { status := r.status, runId := r.runId, queuedMs := r.queuedMs, execMs := r.execMs,
    output := r.output, errorCode := r.errorCode, errorMessage := r.errorMessage, flow := r.flow,
    flowId := r.flowId, flowRev := r.flowRev, flowName := r.flowName }

structure FlowSpec where
  name : Str
  flowId : Str
  flowRevision : Str

structure Call where
  name : Str
  runId : Str
  idempotencyKey : Option Str := none
  binding : Option Str := none
  selectedFlow : Option Str := none

structure Request where
  runId : Str
  flowName : Str
  flowId : Str
  flowRev : Str
  spec : FlowSpec
  idempotencyKey : Option Str
  future : ℕ
  descriptor : RequestDescriptor
  governanceDecision : GovernanceDecision

def buildRequestDescriptor (c : Call) : RequestDescriptor :=
  { flow := c.name, binding := c.binding
    policyArm := (truthy c.binding).map (fun _ => c.selectedFlow.getD c.name) }

def flowIdOf (spec : FlowSpec) : Str := (truthy (some spec.flowId)).getD spec.name

def makeRequest (c : Call) (spec : FlowSpec) (future : ℕ) : Request :=
  { runId := c.runId, flowName := c.name, flowId := flowIdOf spec, flowRev := spec.flowRevision,
    spec, idempotencyKey := c.idempotencyKey, future, descriptor := buildRequestDescriptor c,
    governanceDecision := { allowed := true } }

def setDefault (k v : Str) (d : OrderedDict Str Str) : OrderedDict Str Str :=
  match d.get? k with
  | none => d.store k v
  | some _ => d

structure GuardDecision where
  allowed : Bool
  first : Option (OrderedDict Str Str) := none

def guardNotes (g : GuardDecision) (r : Request) : OrderedDict Str Str :=
  setDefault "scope".toList r.descriptor.flow
    (g.first.getD (OrderedDict.empty.store "reason".toList "blocked".toList))

def budgetNotes : Option Governance.BudgetKind → OrderedDict Str Str
  | none => OrderedDict.empty
  | some .tokens => OrderedDict.empty.store "budget_kind".toList "tokens".toList
  | some .cost => OrderedDict.empty.store "budget_kind".toList "cost".toList

def governanceNotes (d : GovernanceDecision) : OrderedDict Str Str :=
  match truthy d.scope with
  | none => budgetNotes d.budgetKind
  | some scope => setDefault "scope".toList scope (budgetNotes d.budgetKind)

def errorText : Governance.ErrorCode → Str
  | .circuitOpen => "CIRCUIT_OPEN".toList
  | .rateLimited => "RATE_LIMITED".toList
  | .budgetExceeded => "BUDGET_EXCEEDED".toList

def refusal (r : Request) (status : Status) (output : Output α) (code : Option Str)
    (message : Str) : Result α :=
  { status, runId := r.runId, queuedMs := 0, execMs := 0, output, errorCode := code,
    errorMessage := some message, flow := r.spec.name, flowId := r.spec.flowId,
    flowRev := r.spec.flowRevision, flowName := r.spec.name }

def guardRefusal (g : GuardDecision) (r : Request) : Result α :=
  refusal r .error (.notes (guardNotes g r)) (some "GUARD_BLOCKED".toList)
    "request blocked by guard".toList

def governanceRefusal (d : GovernanceDecision) (r : Request) : Result α :=
  refusal r .rejected (.notes (governanceNotes d)) (d.errorCode.map errorText)
    "request rejected by governance".toList

def queueRefusal (code : Str) (r : Request) : Result α :=
  refusal r .rejected .empty (some code) "request rejected".toList

inductive Outcome (α : Type) where
  | returned (output : α)
  | pendingApproval (reason : Str) (payload : α)
  | guardBlocked (reason : Str) (payload : α)
  | raised (name message : Str)

namespace Outcome

def status : Outcome α → Status
  | .returned _ => .ok
  | .pendingApproval _ _ => .pending
  | .guardBlocked _ _ => .error
  | .raised _ _ => .error

def output : Outcome α → Output α
  | .returned v => .of v
  | .pendingApproval _ v => .of v
  | .guardBlocked _ v => .of v
  | .raised _ _ => .empty

def errorCode : Outcome α → Option Str
  | .returned _ => none
  | .pendingApproval _ _ => some "APPROVAL_REQUIRED".toList
  | .guardBlocked _ _ => some "GUARD_BLOCKED".toList
  | .raised name _ => some name

def errorMessage : Outcome α → Option Str
  | .returned _ => none
  | .pendingApproval reason _ => some reason
  | .guardBlocked reason _ => some reason
  | .raised _ message => some message

end Outcome

structure Finish (α : Type) where
  outcome : Outcome α
  queuedMs : ℚ := 0
  execMs : ℚ := 0
  tokens : Option ℚ := none
  cost : Option ℚ := none

def runResult (r : Request) (f : Finish α) : Result α :=
  { status := f.outcome.status, runId := r.runId, queuedMs := f.queuedMs, execMs := f.execMs,
    output := f.outcome.output, errorCode := f.outcome.errorCode,
    errorMessage := f.outcome.errorMessage, flow := r.flowName, flowId := r.flowId,
    flowRev := r.flowRev, flowName := r.flowName }

structure FlowRuntime (α : Type) where
  flows : Str → Option FlowSpec
  governance : GovernanceManager
  maxConcurrency : ℕ
  queueCapacity : ℕ
  queueWaitTimeout : ℚ
  idempotencyTtl : ℚ
  idempotencyCacheSize : ℕ
  queue : List Request := []
  inflight : Str → Option ℕ := fun _ => none
  cache : OrderedDict Str (ℚ × Result α) := OrderedDict.empty

namespace FlowRuntime

def register (name : Str) (spec : FlowSpec) (rt : FlowRuntime α) : FlowRuntime α :=
  { rt with flows := Function.update rt.flows name (some spec) }

def popKey (key : Option Str) (inflight : Str → Option ℕ) : Str → Option ℕ :=
  match key with
  | none => inflight
  | some k => Function.update inflight k none

def popInflight (key : Option Str) (rt : FlowRuntime α) : FlowRuntime α :=
  { rt with inflight := popKey key rt.inflight }

def setInflight (key : Str) (future : ℕ) (rt : FlowRuntime α) : FlowRuntime α :=
  { rt with inflight := Function.update rt.inflight key (some future) }

def maybeCacheResult (now : ℚ) (key : Str) (r : Result α) (rt : FlowRuntime α) : FlowRuntime α :=
  if rt.idempotencyTtl ≤ 0 ∨ rt.idempotencyCacheSize = 0 then rt
  else if r.status ≠ .ok then rt
  else
    { rt with
      cache := (rt.cache.store key (now + rt.idempotencyTtl, cloneResult r)).trim
        rt.idempotencyCacheSize }

def getCachedResult (now : ℚ) (key : Str) (rt : FlowRuntime α) :
    Option (Result α) × FlowRuntime α :=
  if rt.idempotencyTtl ≤ 0 ∨ rt.idempotencyCacheSize = 0 then (none, rt)
  else
    match rt.cache.get? key with
    | none => (none, rt)
    | some (expires, value) =>
      if expires < now then (none, { rt with cache := rt.cache.erase key })
      else (some (cloneResult value), { rt with cache := rt.cache.moveToEnd key })

def cacheFor (now : ℚ) (key : Option Str) (r : Result α) (rt : FlowRuntime α) : FlowRuntime α :=
  match key with
  | none => rt
  | some k => rt.maybeCacheResult now k r

def full (rt : FlowRuntime α) : Bool :=
  decide (0 < rt.queueCapacity) && decide (rt.queueCapacity ≤ rt.queue.length)

end FlowRuntime

inductive Source where
  | cached
  | joined
  | own
  | refused
deriving DecidableEq

structure Returned (α : Type) where
  name : Str
  source : Source
  result : Result α

structure Waiter where
  id : ℕ
  name : Str
  future : ℕ
  joined : Bool
deriving DecidableEq

structure Loop (α : Type) where
  runtime : FlowRuntime α
  next : ℕ := 0
  futures : ℕ → Option (Result α) := fun _ => none
  putting : List Request := []
  running : List Request := []
  waiting : List Waiter := []
  returned : List (Returned α) := []
  calls : List (Str × Str) := []

inductive Event (α : Type) where
  | register (name : Str) (spec : FlowSpec)
  | execute (call : Call) (guard : GuardDecision) (now : ℚ)
  | put (future : ℕ)
  | timeout (future : ℕ)
  | take (now : ℚ)
  | finish (future : ℕ) (finish : Finish α) (now : ℚ)
  | wake (id : ℕ)

namespace Loop

def answer (name : Str) (source : Source) (r : Result α) (s : Loop α) : Loop α :=
  { s with returned := s.returned ++ [⟨name, source, r⟩] }

def refuse (request : Request) (r : Result α) (s : Loop α) : Loop α :=
  { s with runtime := s.runtime.popInflight (truthy request.idempotencyKey) }.answer
    request.flowName .refused r

def awaitFuture (w : Waiter) (s : Loop α) : Loop α := { s with waiting := s.waiting ++ [w] }

def accept (request : Request) (s : Loop α) : Loop α :=
  { s with runtime := { s.runtime with queue := s.runtime.queue ++ [request] } }.awaitFuture
    ⟨request.future, request.flowName, request.future, false⟩

def cancelDecision (request : Request) (s : Loop α) : Loop α :=
  { s with
    runtime := { s.runtime with
      governance := s.runtime.governance.cancel request.governanceDecision } }

def refuseQueued (code : Str) (request : Request) (s : Loop α) : Loop α :=
  (s.cancelDecision request).refuse request (queueRefusal code request)

def enqueue (request : Request) (s : Loop α) : Loop α :=
  if s.runtime.queueCapacity = 0 then s.accept request
  else if s.runtime.queueWaitTimeout ≤ 0 then
    if s.runtime.full then s.refuseQueued "QUEUE_FULL".toList request else s.accept request
  else { s with putting := s.putting ++ [request] }

def govern (now : ℚ) (request : Request) (s : Loop α) : Loop α :=
  let d := s.runtime.governance.check now request.descriptor
  let s := { s with runtime := { s.runtime with governance := d.2 } }
  if d.1.allowed then s.enqueue { request with governanceDecision := d.1 }
  else s.refuse request (governanceRefusal d.1 request)

def submit (now : ℚ) (guard : GuardDecision) (request : Request) (s : Loop α) : Loop α :=
  if guard.allowed then s.govern now request
  else s.refuse request (guardRefusal guard request)

def join (id : ℕ) (name : Str) (future : ℕ) (s : Loop α) : Loop α :=
  match s.futures future with
  | some r => s.answer name .joined (cloneResult r)
  | none => s.awaitFuture ⟨id, name, future, true⟩

def executeKeyed (now : ℚ) (guard : GuardDecision) (key : Str) (request : Request) (s : Loop α) :
    Loop α :=
  let c := s.runtime.getCachedResult now key
  let s := { s with runtime := c.2 }
  match c.1 with
  | some r => s.answer request.flowName .cached (cloneResult r)
  | none =>
    match s.runtime.inflight key with
    | some future => s.join request.future request.flowName future
    | none =>
      { s with runtime := s.runtime.setInflight key request.future }.submit now guard request

def numbered (call : Call) (s : Loop α) : Loop α :=
  { s with
    next := s.next + 1
    calls := s.calls ++ (truthy call.idempotencyKey).toList.map (fun key => (key, call.name)) }

def execute (now : ℚ) (guard : GuardDecision) (call : Call) (s : Loop α) : Loop α :=
  match s.runtime.flows call.name with
  | none => s
  | some spec =>
    match truthy call.idempotencyKey with
    | none => (s.numbered call).submit now guard (makeRequest call spec s.next)
    | some key => (s.numbered call).executeKeyed now guard key (makeRequest call spec s.next)

def without (future : ℕ) (rs : List Request) : List Request :=
  rs.filter (fun r => r.future ≠ future)

def requestOf (future : ℕ) (rs : List Request) : Option Request :=
  rs.find? (fun r => r.future = future)

def put (future : ℕ) (s : Loop α) : Loop α :=
  match requestOf future s.putting with
  | none => s
  | some request =>
    if s.runtime.full then s
    else { s with putting := without future s.putting }.accept request

def timeout (future : ℕ) (s : Loop α) : Loop α :=
  match requestOf future s.putting with
  | none => s
  | some request =>
    { s with putting := without future s.putting }.refuseQueued "QUEUE_TIMEOUT".toList request

def take (now : ℚ) (s : Loop α) : Loop α :=
  match s.runtime.queue with
  | [] => s
  | request :: queue =>
    if s.running.length < s.runtime.maxConcurrency then
      { s with
        runtime := { s.runtime with
          queue, governance := s.runtime.governance.activate now request.governanceDecision }
        running := s.running ++ [request] }
    else s

def setResult (future : ℕ) (r : Result α) (futures : ℕ → Option (Result α)) :
    ℕ → Option (Result α) :=
  match futures future with
  | some _ => futures
  | none => Function.update futures future (some r)

def finished (now : ℚ) (f : Finish α) (request : Request) (s : Loop α) : Loop α :=
  let result := runResult request f
  let report : Report := ⟨result.status.text, result.errorCode, f.tokens, f.cost⟩
  let rt := { s.runtime with
    governance := s.runtime.governance.finalize now request.governanceDecision report }
  let rt := (rt.popInflight request.idempotencyKey).cacheFor now request.idempotencyKey result
  { s with
    runtime := rt, running := without request.future s.running
    futures := setResult request.future result s.futures }

def finish (now : ℚ) (future : ℕ) (f : Finish α) (s : Loop α) : Loop α :=
  match requestOf future s.running with
  | none => s
  | some request => s.finished now f request

def sourceOf (w : Waiter) : Source := if w.joined then .joined else .own

def resume (w : Waiter) (r : Result α) (s : Loop α) : Loop α :=
  { s with waiting := s.waiting.erase w }.answer w.name (sourceOf w)
    (if w.joined then cloneResult r else r)

def wake (id : ℕ) (s : Loop α) : Loop α :=
  match s.waiting.find? (fun w => w.id = id) with
  | none => s
  | some w =>
    match s.futures w.future with
    | none => s
    | some r => s.resume w r

def perform (e : Event α) (s : Loop α) : Loop α :=
  match e with
  | .register name spec => { s with runtime := s.runtime.register name spec }
  | .execute call guard now => s.execute now guard call
  | .put future => s.put future
  | .timeout future => s.timeout future
  | .take now => s.take now
  | .finish future f now => s.finish now future f
  | .wake id => s.wake id

def Reaches (allowed : Event α → Loop α → Prop) : Loop α → Loop α → Prop :=
  Relation.ReflTransGen (fun s s' => ∃ e, allowed e s ∧ s' = s.perform e)

end Loop

structure FlowRuntime.Fresh (rt : FlowRuntime α) : Prop where
  queue : rt.queue = []
  inflight : rt.inflight = fun _ => none
  cache : rt.cache = OrderedDict.empty

end TraceMind.Flow
