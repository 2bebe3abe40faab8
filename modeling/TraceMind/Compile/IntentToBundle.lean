import TraceMind.Artifacts.Verify
import TraceMind.Foundation.Naming
import TraceMind.Patterns.Instantiate

namespace TraceMind.Compile

open Artifacts
open Patterns (IntentBody PatternInstance)
open Queue (PyText)

inductive Phase where
  | observe
  | analyze
  | decide
  | act
deriving DecidableEq

def Phase.name : Phase → Str
  | .observe => "observe".toList
  | .analyze => "analyze".toList
  | .decide => "decide".toList
  | .act => "act".toList

def Phase.capitalize : Phase → Str
  | .observe => "Observe".toList
  | .analyze => "Analyze".toList
  | .decide => "Decide".toList
  | .act => "Act".toList

def mapePhases : List Phase := [.observe, .analyze, .decide, .act]

def prevPhase : Phase → Str
  | .observe => "init".toList
  | .analyze => "observe".toList
  | .decide => "analyze".toList
  | .act => "decide".toList

def categoryToStage (category : Str) : Option Phase :=
  if category = "safety".toList then some .analyze
  else if category = "liveness".toList then some .decide
  else if category = "fairness".toList then some .act
  else none

def mapeToBundlePhase : Phase → Str
  | .observe => "init".toList
  | .analyze => "run".toList
  | .decide => "run".toList
  | .act => "emit".toList

def intentRef (intentId : Str) : Str := "intent.".toList ++ intentId

def outputRef (phase : Str) : Str := "phase.".toList ++ phase ++ ".output".toList

def inputRef (intentId : Str) (phase : Phase) : Str :=
  if phase = .observe then intentRef intentId else outputRef (prevPhase phase)

def sanitized (patternId : Str) : Str := patternId.map (fun c => if c = '.' then '_' else c)

def skeletonStep (intentId : Str) (phase : Phase) : PlanStep where
  name := phase.name
  reads := [inputRef intentId phase]
  writes := [outputRef phase.name]
  description := some ("MAPE-K ".toList ++ phase.name ++ " stage for ".toList ++ intentId)

def stepName (instance_ : PatternInstance) : Str :=
  "check_".toList ++ sanitized instance_.patternId

def checkStep (instance_ : PatternInstance) (stage : Phase) : PlanStep where
  name := stepName instance_
  reads := [outputRef stage.name]
  writes := ["property.".toList ++ sanitized instance_.patternId ++ ".verdict".toList]
  description := some ("Verify property pattern '".toList ++ instance_.patternId ++
    "' against stage '".toList ++ stage.name ++ "' output".toList)

def checkRule (instance_ : PatternInstance) (stage : Phase) : PlanRule where
  name := "on_".toList ++ stage.name ++ "_check_".toList ++ sanitized instance_.patternId
  triggers := [outputRef stage.name]
  steps := [stepName instance_]

def mapeRule (intentId : Str) : PlanRule where
  name := "run_mape_cycle".toList
  triggers := [intentRef intentId]
  steps := mapePhases.map Phase.name

def staged (instances : List PatternInstance) : List (PatternInstance × Phase) :=
  instances.filterMap (fun i => (categoryToStage i.category).map (i, ·))

def buildPlan (intent : IntentBody) (instances : List PatternInstance)
    (planId owner summary : Str) : PlanBody where
  planId := planId
  owner := owner
  summary := summary
  steps := mapePhases.map (skeletonStep intent.intentId) ++
    (staged instances).map (fun i => checkStep i.1 i.2)
  rules := (staged instances).map (fun i => checkRule i.1 i.2) ++ [mapeRule intent.intentId]

def text (s : String) : Json := .str s.toList

def texts (xs : List Str) : Json := .arr (xs.map .str)

def optionalText : Option Str → Json
  | none => .null
  | some s => .str s

def planStepToDict (step : PlanStep) : Json :=
  .obj [("name".toList, .str step.name), ("reads".toList, texts step.reads),
    ("writes".toList, texts step.writes), ("description".toList, optionalText step.description)]

def planRuleToDict (rule : PlanRule) : Json :=
  .obj [("name".toList, .str rule.name), ("triggers".toList, texts rule.triggers),
    ("steps".toList, texts rule.steps)]

def planToDict (plan : PlanBody) : JsonFields :=
  [("plan_id".toList, .str plan.planId), ("owner".toList, .str plan.owner),
    ("summary".toList, .str plan.summary), ("steps".toList, .arr (plan.steps.map planStepToDict)),
    ("rules".toList, .arr (plan.rules.map planRuleToDict))]

structure AgentEvidenceOutput where
  name : Str
  description : Str
  target : Str

structure CompiledAgent where
  spec : AgentSpec
  role : Str
  name : Str
  version : Str
  runtimeKind : Str
  runtimeConfig : OrderedDict Str Json
  configSchema : JsonFields
  evidenceOutputs : List AgentEvidenceOutput

structure CompiledBundle where
  bundleId : Str
  agents : List CompiledAgent
  plan : List AgentBundlePlanStep
  meta_ : JsonFields

def CompiledBundle.body (bundle : CompiledBundle) : AgentBundleBody where
  bundleId := bundle.bundleId
  agents := bundle.agents.map (fun agent => ⟨agent.spec, some agent.role⟩)
  plan := bundle.plan
  meta_ := bundle.meta_

def agentIdForPhase (phase : Phase) (intentId : Str) : Str :=
  "tm-agent/".toList ++ intentId ++ '.' :: (phase.name ++ ":0.1".toList)

def objectSchema : Json := .obj [("type".toList, text "object")]

def phaseContract (phase : Phase) (intentId : Str) : AgentContract where
  inputs := [{
    ref := inputRef intentId phase
    kind := if phase = .observe then "artifact".toList else "phase_output".toList
    schema := objectSchema
    required := true
    mode := "read".toList }]
  outputs := [{
    ref := outputRef phase.name
    kind := "phase_output".toList
    schema := objectSchema
    required := true
    mode := "write".toList }]
  effects := [{
    name := phase.name ++ ".effect".toList
    kind := "phase_signal".toList
    target := outputRef phase.name
    idempotency := ⟨"key".toList, ["intent_id".toList, "cycle_id".toList]⟩
    rollback := none
    evidence := [("emits".toList, text "phase_output")] }]

def makeAgentSpec (phase : Phase) (intentId runtimeKind : Str)
    (runtimeConfig : OrderedDict Str Json) : CompiledAgent where
  spec := ⟨agentIdForPhase phase intentId, phaseContract phase intentId⟩
  role := phase.name
  name := phase.capitalize
  version := "0.1".toList
  runtimeKind := runtimeKind
  runtimeConfig := runtimeConfig.entries.foldl (fun config e => config.assign e.1 e.2)
    ((OrderedDict.empty.assign "phase".toList (.str phase.name)).assign "intent_id".toList
      (.str intentId))
  configSchema := [("type".toList, text "object"),
    ("properties".toList, .obj [
      ("phase".toList, .obj [("type".toList, text "string")]),
      ("intent_id".toList, .obj [("type".toList, text "string")])]),
    ("required".toList, texts ["phase".toList, "intent_id".toList])]
  evidenceOutputs := [{
    name := phase.name ++ ".evidence".toList
    description := "Evidence emitted by the ".toList ++ phase.name ++ " stage".toList
    target := "phase:".toList ++ phase.name ++ ".output".toList }]

def bundleStep (intentId : Str) (phase : Phase) : AgentBundlePlanStep where
  step := phase.name
  agentId := agentIdForPhase phase intentId
  phase := some (mapeToBundlePhase phase)
  inputs := [inputRef intentId phase]
  outputs := [outputRef phase.name]
  description := some ("MAPE-K ".toList ++ phase.name ++ " agent for ".toList ++ intentId)

def bundleMeta (intentId planId : Str) (patternIds : List Str) : JsonFields :=
  [("compiled_from".toList, .obj [
      ("intent_id".toList, .str intentId), ("plan_id".toList, .str planId),
      ("pattern_ids".toList, texts (sortTexts patternIds.eraseDups))]),
    ("compiler".toList, text "tm.compile.intent_to_bundle@v0"),
    ("runtime_overrides".toList, .obj []),
    ("preconditions".toList, texts [intentRef intentId])]

def buildBundle (intent : IntentBody) (instances : List PatternInstance) (bundleId planId : Str)
    (runtimeKind : Str) (runtimeConfig : OrderedDict Str Json) : CompiledBundle where
  bundleId := bundleId
  agents := mapePhases.map (fun phase =>
    makeAgentSpec phase intent.intentId runtimeKind runtimeConfig)
  plan := mapePhases.map (bundleStep intent.intentId)
  meta_ := bundleMeta intent.intentId planId (instances.map PatternInstance.patternId)

def iorefToDict (r : IORef) : Json :=
  .obj [("ref".toList, .str r.ref), ("kind".toList, .str r.kind), ("schema".toList, r.schema),
    ("required".toList, .bool r.required), ("mode".toList, .str r.mode)]

def effectToDict (effect : EffectRef) : Json :=
  .obj [("name".toList, .str effect.name), ("kind".toList, .str effect.kind),
    ("target".toList, .str effect.target),
    ("idempotency".toList, .obj [("type".toList, .str effect.idempotency.type),
      ("key_fields".toList, texts effect.idempotency.keyFields)]),
    ("rollback".toList, optionalText effect.rollback), ("evidence".toList, .obj effect.evidence)]

def evidenceToDict (e : AgentEvidenceOutput) : Json :=
  .obj [("name".toList, .str e.name), ("description".toList, .str e.description),
    ("target".toList, .str e.target)]

def agentSpecToDict (agent : CompiledAgent) : Json :=
  .obj [("agent_id".toList, .str agent.spec.agentId), ("name".toList, .str agent.name),
    ("version".toList, .str agent.version),
    ("runtime".toList, .obj [("kind".toList, .str agent.runtimeKind),
      ("config".toList, .obj agent.runtimeConfig.entries)]),
    ("contract".toList, .obj [
      ("inputs".toList, .arr (agent.spec.contract.inputs.map iorefToDict)),
      ("outputs".toList, .arr (agent.spec.contract.outputs.map iorefToDict)),
      ("effects".toList, .arr (agent.spec.contract.effects.map effectToDict))]),
    ("config_schema".toList, .obj agent.configSchema),
    ("evidence_outputs".toList, .arr (agent.evidenceOutputs.map evidenceToDict))]

def bundleStepToDict (step : AgentBundlePlanStep) : Json :=
  .obj [("step".toList, .str step.step), ("agent_id".toList, .str step.agentId),
    ("phase".toList, optionalText step.phase), ("inputs".toList, texts step.inputs),
    ("outputs".toList, texts step.outputs), ("description".toList, optionalText step.description)]

def bundleToDict (bundle : CompiledBundle) : JsonFields :=
  [("bundle_id".toList, .str bundle.bundleId),
    ("agents".toList, .arr (bundle.agents.map (fun agent =>
      .obj [("spec".toList, agentSpecToDict agent), ("role".toList, .str agent.role)]))),
    ("plan".toList, .arr (bundle.plan.map bundleStepToDict)), ("meta".toList, .obj bundle.meta_)]

structure PropertySpec where
  name : Str
  formula : Str

def suffixed (name : Str) (counter : ℕ) : Str := name ++ '_' :: Nat.toDigits 10 counter

def baseName (instance_ : PatternInstance) : Str :=
  if instance_.title = [] then instance_.patternId ++ "_property".toList else instance_.title

def propertyName (seen : List Str) (instance_ : PatternInstance) : Str :=
  let name := baseName instance_
  if name ∈ seen then
    suffixed name (FreeName.firstFree (suffixed name) seen seen.length 2)
  else name

def specsFrom : List Str → List PatternInstance → List PropertySpec
  | _, [] => []
  | seen, i :: rest =>
    let name := propertyName seen i
    ⟨name, i.resolvedFormula⟩ :: specsFrom (name :: seen) rest

def buildPropertySpecs (instances : List PatternInstance) : List PropertySpec :=
  specsFrom [] instances

section compile

variable (py : PyText)

structure CompilationResult where
  intent : IntentBody
  plan : PlanBody
  bundle : CompiledBundle
  properties : List PropertySpec
  patternInstances : List PatternInstance

structure Options where
  bundleId : Option Str := none
  planId : Option Str := none
  owner : Str := "tracemind.compiler".toList
  summary : Option Str := none
  runtimeKind : Str := "tm-mape-skeleton".toList
  runtimeConfig : OrderedDict Str Json := OrderedDict.empty

-- Python's `given or default`.
def orDefault (given : Option Str) (default : Str) : Str :=
  if given.getD [] = [] then default else given.getD []

def missingRefs (intent : IntentBody) (instances : List PatternInstance) : List Str :=
  intent.propertyPatternRefs.filter (· ∉ instances.map PatternInstance.patternId)

def checkCoverage (intent : IntentBody) (instances : List PatternInstance) : Except Str Unit :=
  if missingRefs intent instances = [] then .ok ()
  else .error ("intent '".toList ++ intent.intentId ++
    "' declares pattern_refs that are not covered by pattern_instances: ".toList ++
    sortedNames py (missingRefs intent instances))

def defaultSummary (intent : IntentBody) : Str :=
  "MAPE-K plan compiled from intent '".toList ++ intent.intentId ++ "'".toList

def compileIntentToBundle (intent : IntentBody) (instances : List PatternInstance)
    (options : Options) : Except Str CompilationResult := do
  checkCoverage py intent instances
  let bundleId := orDefault options.bundleId (intent.intentId ++ ".bundle".toList)
  let planId := orDefault options.planId (intent.intentId ++ ".plan".toList)
  return {
    intent := intent
    plan := buildPlan intent instances planId options.owner
      (orDefault options.summary (defaultSummary intent))
    bundle := buildBundle intent instances bundleId planId options.runtimeKind
      options.runtimeConfig
    properties := buildPropertySpecs instances
    patternInstances := instances }

end compile

end TraceMind.Compile
