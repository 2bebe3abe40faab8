import TraceMind.Artifacts.Verify
import Mathlib.Algebra.Order.Ring.Rat

namespace TraceMind.Runtime

open Artifacts
open Queue (PyText)

section guard

structure PolicyGuard where
  globalAllowlist : List Str := []

structure PolicyDecision where
  effectName : Str
  target : Str
  allowed : Bool
  reason : Str

variable (py : PyText)

def policyAllowlist (data : JsonFields) : List Str :=
  match data.lookup "policy".toList with
  | some (.obj policy) =>
    match policy.lookup "allow".toList with
    | some allow => ((sequenceItems allow).getD []).map py.str
    | none => []
  | _ => []

def PolicyGuard.evaluate (guard : PolicyGuard) (data : JsonFields) (effect : EffectRef) :
    PolicyDecision :=
  let allowed := decide (effect.target ∈ guard.globalAllowlist ++ policyAllowlist py data)
  { effectName := effect.name
    target := effect.target
    allowed := allowed
    reason := if allowed then "allowed by policy".toList else "target not allowlisted".toList }

def AgentContract.resourceEffects (c : AgentContract) : List EffectRef :=
  c.effects.filter (fun effect => effect.kind = "resource".toList)

end guard

abbrev Refs (V : Type) := OrderedDict Str V

structure RuntimeAgent (V W : Type) where
  init : Str → W → W
  run : Refs V → W → Except Str (Refs V) × W
  finalize : W → W

structure ExecutionIdempotencyGuard (V : Type) where
  ttlSeconds : ℚ := 60
  history : OrderedDict Str (Refs V × ℚ) := OrderedDict.empty

namespace ExecutionIdempotencyGuard

variable {V : Type}

def lookup (now : ℚ) (key : Str) (g : ExecutionIdempotencyGuard V) :
    Option (Refs V) × ExecutionIdempotencyGuard V :=
  match g.history.get? key with
  | none => (none, g)
  | some entry =>
    if entry.2 ≤ now then (none, { g with history := g.history.erase key })
    else (some entry.1, g)

def record (now : ℚ) (key : Str) (result : Refs V) (g : ExecutionIdempotencyGuard V) :
    ExecutionIdempotencyGuard V :=
  { g with history := g.history.assign key (result, now + g.ttlSeconds) }

end ExecutionIdempotencyGuard

structure ExecutionContext (V : Type) where
  idempotencyGuard : ExecutionIdempotencyGuard V := {}
  refs : Refs V := OrderedDict.empty
  executedSteps : List Str := []
  stepOutputs : OrderedDict Str (Refs V) := OrderedDict.empty

section execute

variable {V W : Type} (empty : V) (py : PyText) (guard : PolicyGuard)
  (resolve : AgentSpec → Except Str (RuntimeAgent V W))

def loadPreconditions (body : AgentBundleBody) (ctx : ExecutionContext V) : ExecutionContext V :=
  (preconditionTexts py body.meta_).foldl (fun ctx ref =>
    if (ctx.refs.get? ref).isSome then ctx
    else { ctx with refs := ctx.refs.assign ref empty }) ctx

def assignFrom (source : Refs V) (missing : Str → Str) (names : List Str) (refs : Refs V) :
    Except Str (Refs V) :=
  names.foldlM (fun refs ref =>
    match source.get? ref with
    | some v => .ok (refs.assign ref v)
    | none => .error (missing ref)) refs

def missingInput (step : AgentBundlePlanStep) (ref : Str) : Str :=
  "missing input ref '".toList ++ ref ++ "' in step '".toList ++ step.step ++ "'".toList

def collectInputs (step : AgentBundlePlanStep) (refs : Refs V) : Except Str (Refs V) :=
  assignFrom refs (missingInput step) step.inputs OrderedDict.empty

def denied (effect : EffectRef) (d : PolicyDecision) : Str :=
  "policy guard denied effect '".toList ++ effect.name ++ "' on '".toList ++ effect.target ++
    "': ".toList ++ d.reason

def checkEffects (data : JsonFields) (effects : List EffectRef) : Except Str Unit :=
  effects.forM (fun effect =>
    if (guard.evaluate py data effect).allowed then .ok ()
    else .error (denied effect (guard.evaluate py data effect)))

def runIdempotent (times : ℚ × ℚ) (key : Str) (run : W → Except Str (Refs V) × W)
    (g : ExecutionIdempotencyGuard V) (w : W) :
    Except Str (Refs V × ExecutionIdempotencyGuard V × W) :=
  match g.lookup times.1 key with
  | (some cached, g) => .ok (cached, g, w)
  | (none, g) =>
    match run w with
    | (.error e, _) => .error e
    | (.ok result, w) => .ok (result, g.record times.2 key result, w)

def missingOutput (step : AgentBundlePlanStep) (ref : Str) : Str :=
  "agent '".toList ++ step.agentId ++ "' did not produce output '".toList ++ ref ++ "'".toList

def persistOutputs (step : AgentBundlePlanStep) (outputs refs : Refs V) :
    Except Str (Refs V) :=
  assignFrom outputs (missingOutput step) step.outputs refs

def stepOutputs (step : AgentBundlePlanStep) (outputs : Refs V) : Refs V :=
  step.outputs.foldl (fun kept ref =>
    match outputs.get? ref with
    | some v => kept.assign ref v
    | none => kept) OrderedDict.empty

def stepKey (step : AgentBundlePlanStep) : Str := step.agentId ++ ':' :: step.step

def unknownAgent (step : AgentBundlePlanStep) : Str :=
  "step '".toList ++ step.step ++ "' references unknown agent '".toList ++ step.agentId ++
    "'".toList

def executeStep (body : AgentBundleBody) (times : ℚ × ℚ) (step : AgentBundlePlanStep)
    (s : ExecutionContext V × W) : Except Str (ExecutionContext V × W) := do
  let spec ← (body.agentEntries.get? step.agentId).elim (.error (unknownAgent step)) .ok
  let agent ← resolve spec
  let inputs ← collectInputs step s.1.refs
  checkEffects py guard body.meta_ (AgentContract.resourceEffects spec.contract)
  let result ← runIdempotent times (stepKey step) (agent.run inputs) s.1.idempotencyGuard
    (agent.init step.step s.2)
  let refs ← persistOutputs step result.1 s.1.refs
  .ok ({ idempotencyGuard := result.2.1
         refs := refs
         executedSteps := s.1.executedSteps ++ [step.step]
         stepOutputs := s.1.stepOutputs.assign step.step (stepOutputs step result.1) },
    agent.finalize result.2.2)

def executeFrom (body : AgentBundleBody) (clock : ℕ → ℚ × ℚ) : ℕ → List AgentBundlePlanStep →
    ExecutionContext V × W → Except Str (ExecutionContext V × W)
  | _, [], s => .ok s
  | n, step :: rest, s =>
    (executeStep py guard resolve body (clock n) step s).bind (executeFrom body clock (n + 1) rest)

def execute (clock : ℕ → ℚ × ℚ) (artifact : Artifact) (w : W) :
    Except Str (ExecutionContext V × W) :=
  if artifact.envelope.status ≠ .accepted then .error "artifact must be accepted".toList
  else
    match artifact.body with
    | .agentBundle body =>
      executeFrom py guard resolve body clock 0 body.plan (loadPreconditions empty py body {}, w)
    | .plan _ => .error "expected agent_bundle artifact".toList

end execute

end TraceMind.Runtime
