import TraceMind.Foundation.Fallible
import TraceMind.Queue.Envelope
import TraceMind.Workflow.PolicyEngine

namespace TraceMind.Artifacts

open Queue (PyText)
open Workflow (truth)

abbrev JsonFields := List (Str × Json)

abbrev Parsed (α : Type) := Except Str α

section readers

variable (py : PyText)

def requireField (data : JsonFields) (key : Str) : Parsed Json :=
  match data.lookup key with
  | none => .error ("missing required field: '".toList ++ key ++ ['\''])
  | some .null => .error ("missing required field: '".toList ++ key ++ ['\''])
  | some v => .ok v

def ensureDict (name : Str) : Json → Parsed JsonFields
  | .obj fields => .ok fields
  | _ => .error (name ++ " must be a mapping".toList)

def ensureStr (name : Str) : Json → Parsed Str
  | .str s => .ok s
  | _ => .error (name ++ " must be a string".toList)

def ensureSequence (name : Str) : Json → Parsed (List Json)
  | .arr items => .ok items
  | _ => .error (name ++ " must be a sequence".toList)

def ensureBool (name : Str) : Json → Parsed Bool
  | .bool b => .ok b
  | _ => .error (name ++ " must be a boolean".toList)

def ensureSchema (name : Str) : Json → Parsed Json
  | .str s => .ok (.str s)
  | .obj fields => .ok (.obj fields)
  | _ => .error (name ++ " must be a string or mapping".toList)

def forceList (name : Str) : Option Json → Parsed (List Str)
  | none => .ok []
  | some .null => .ok []
  | some (.arr items) => .ok (items.map py.str)
  | some _ => .error (name ++ " must be a list of strings".toList)

def optionalStr (name : Str) : Option Json → Parsed (Option Str)
  | none => .ok none
  | some .null => .ok none
  | some v => (ensureStr name v).map some

def requireStr (data : JsonFields) (key name : Str) : Parsed Str :=
  (requireField data key).bind (ensureStr name)

def requireDict (data : JsonFields) (key name : Str) : Parsed JsonFields :=
  (requireField data key).bind (ensureDict name)

def requireSequence (data : JsonFields) (key name : Str) : Parsed (List Json) :=
  (requireField data key).bind (ensureSequence name)

end readers

section contract

variable (py : PyText)

structure IORef where
  ref : Str
  kind : Str
  schema : Json
  required : Bool
  mode : Str

structure EffectIdempotency where
  type : Str
  keyFields : List Str

structure EffectRef where
  name : Str
  kind : Str
  target : Str
  idempotency : EffectIdempotency
  rollback : Option Str
  evidence : JsonFields

structure AgentContract where
  inputs : List IORef
  outputs : List IORef
  effects : List EffectRef

def IORef.fromMapping (data : JsonFields) : Parsed IORef := do
  let ref ← requireStr data "ref".toList "ref".toList
  let kind ← requireStr data "kind".toList "kind".toList
  let schema ← (requireField data "schema".toList).bind (ensureSchema "schema".toList)
  let required ← (requireField data "required".toList).bind (ensureBool "required".toList)
  let mode ← requireStr data "mode".toList "mode".toList
  .ok ⟨ref, kind, schema, required, mode⟩

def EffectIdempotency.fromMapping (data : JsonFields) : Parsed EffectIdempotency := do
  let keyFields ← forceList py "idempotency.key_fields".toList (data.lookup "key_fields".toList)
  let type ← requireStr data "type".toList "idempotency.type".toList
  .ok ⟨type, keyFields⟩

def EffectRef.fromMapping (data : JsonFields) : Parsed EffectRef := do
  let evidence ← requireDict data "evidence".toList "evidence".toList
  let name ← requireStr data "name".toList "name".toList
  let kind ← requireStr data "kind".toList "kind".toList
  let target ← requireStr data "target".toList "target".toList
  let idempotency ← (requireDict data "idempotency".toList "idempotency".toList).bind
    (EffectIdempotency.fromMapping py)
  let rollback ← optionalStr "rollback".toList (data.lookup "rollback".toList)
  .ok ⟨name, kind, target, idempotency, rollback, evidence⟩

def AgentContract.fromMapping (data : JsonFields) : Parsed AgentContract := do
  let inputsRaw ← requireSequence data "inputs".toList "contract.inputs".toList
  let outputsRaw ← requireSequence data "outputs".toList "contract.outputs".toList
  let effectsRaw ← requireSequence data "effects".toList "contract.effects".toList
  let inputs ← inputsRaw.mapM (fun item =>
    (ensureDict "contract.input".toList item).bind IORef.fromMapping)
  let outputs ← outputsRaw.mapM (fun item =>
    (ensureDict "contract.output".toList item).bind IORef.fromMapping)
  let effects ← effectsRaw.mapM (fun item =>
    (ensureDict "contract.effect".toList item).bind (EffectRef.fromMapping py))
  .ok ⟨inputs, outputs, effects⟩

end contract

section bundle

variable (py : PyText)

structure AgentSpec where
  agentId : Str
  contract : AgentContract

structure AgentBundleAgent where
  spec : AgentSpec
  role : Option Str := none

structure AgentBundlePlanStep where
  step : Str
  agentId : Str
  phase : Option Str := none
  inputs : List Str := []
  outputs : List Str := []
  description : Option Str := none

structure AgentBundleBody where
  bundleId : Str
  agents : List AgentBundleAgent
  plan : List AgentBundlePlanStep
  meta_ : JsonFields := []

def AgentBundleBody.agentEntries (body : AgentBundleBody) : OrderedDict Str AgentSpec :=
  body.agents.foldl (fun known agent => known.assign agent.spec.agentId agent.spec)
    OrderedDict.empty

def AgentSpec.fromMapping (data : JsonFields) : Parsed AgentSpec := do
  let contract ← (requireDict data "contract".toList "contract".toList).bind
    (AgentContract.fromMapping py)
  let agentId ← requireStr data "agent_id".toList "agent_id".toList
  .ok ⟨agentId, contract⟩

def AgentBundleAgent.fromMapping (data : JsonFields) : Parsed AgentBundleAgent := do
  let spec ← AgentSpec.fromMapping py (data.filter (fun f => f.1 ≠ "role".toList))
  let role ← optionalStr "agent.role".toList (data.lookup "role".toList)
  .ok ⟨spec, role⟩

def AgentBundlePlanStep.fromMapping (data : JsonFields) : Parsed AgentBundlePlanStep := do
  let inputs ← forceList py "plan.inputs".toList (data.lookup "inputs".toList)
  let outputs ← forceList py "plan.outputs".toList (data.lookup "outputs".toList)
  let step ← requireStr data "step".toList "plan.step".toList
  let agentId ← requireStr data "agent_id".toList "plan.agent_id".toList
  let phase ← optionalStr "plan.phase".toList (data.lookup "phase".toList)
  let description ← optionalStr "plan.description".toList (data.lookup "description".toList)
  .ok ⟨step, agentId, phase, inputs, outputs, description⟩

def orEmpty (v : Option Json) : Json :=
  match v with
  | none => .obj []
  | some v => if truth v then v else .obj []

def AgentBundleBody.fromMapping (data : JsonFields) : Parsed AgentBundleBody := do
  let agentsRaw ← requireSequence data "agents".toList "agents".toList
  let planRaw ← requireSequence data "plan".toList "plan".toList
  let bundleId ← requireStr data "bundle_id".toList "bundle_id".toList
  let agents ← agentsRaw.mapM (fun agent =>
    (ensureDict "agent".toList agent).bind (AgentBundleAgent.fromMapping py))
  let plan ← planRaw.mapM (fun step =>
    (ensureDict "plan step".toList step).bind (AgentBundlePlanStep.fromMapping py))
  let meta_ ← ensureDict "meta".toList (orEmpty (data.lookup "meta".toList))
  .ok ⟨bundleId, agents, plan, meta_⟩

end bundle

structure PlanStep where
  name : Str
  reads : List Str
  writes : List Str
  description : Option Str := none

structure PlanRule where
  name : Str
  triggers : List Str
  steps : List Str

structure PlanBody where
  planId : Str
  owner : Str
  summary : Str
  steps : List PlanStep
  rules : List PlanRule

end TraceMind.Artifacts
