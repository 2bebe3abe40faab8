import TraceMind.Artifacts.Models
import TraceMind.Policy.Deterministic

namespace TraceMind.Artifacts

open Queue (PyText)
open Workflow (truth)

structure LintIssue where
  code : Str
  message : Str
  path : Str

def indexed (name : Str) (idx : ℕ) : Str := name ++ '[' :: (Nat.toDigits 10 idx ++ [']'])

structure IORefMeta where
  kind : Str
  schemaRepr : Str

abbrev RefRegistry := OrderedDict Str IORefMeta

def normalizeSchemaValue : Json → Str
  | .str s => s
  | schema => (⟨false, true⟩ : Json.Style).render (Policy.sortKeys schema)

def occursIn (part text : Str) : Bool := text.tails.any (part.isPrefixOf ·)

def requiresEffect (mode : Str) : Bool :=
  occursIn "write".toList mode || occursIn "mutate".toList mode

def kindIssue (label : Str) (r : IORef) (known : Str) : LintIssue where
  code := "IO_REF_KIND".toList
  message := "IORef '".toList ++ r.ref ++ "' kind '".toList ++ r.kind ++
    "' conflicts with previously declared '".toList ++ known ++ ['\'']
  path := label ++ ".contract".toList

def schemaIssue (label : Str) (r : IORef) : LintIssue where
  code := "IO_REF_SCHEMA".toList
  message := "IORef '".toList ++ r.ref ++ "' schema differs from other declarations".toList
  path := label ++ ".contract".toList

def collectRef (label : Str) (acc : RefRegistry × List LintIssue) (r : IORef) :
    RefRegistry × List LintIssue :=
  match acc.1.get? r.ref with
  | none => (acc.1.store r.ref ⟨r.kind, normalizeSchemaValue r.schema⟩, acc.2)
  | some known =>
    (acc.1, acc.2 ++
      (if known.kind ≠ r.kind then [kindIssue label r known.kind] else []) ++
      (if known.schemaRepr ≠ normalizeSchemaValue r.schema then [schemaIssue label r] else []))

def collectContract (acc : RefRegistry × List LintIssue) (entry : Str × AgentContract) :
    RefRegistry × List LintIssue :=
  (entry.2.inputs ++ entry.2.outputs).foldl (collectRef entry.1) acc

def collectRefRegistry (entries : List (Str × AgentContract)) : RefRegistry × List LintIssue :=
  entries.foldl collectContract (OrderedDict.empty, [])

def effectIssues (label : Str) (registry : RefRegistry) (effect : EffectRef) : List LintIssue :=
  (if (registry.get? effect.target).isNone then
    [{ code := "EFFECT_TARGET".toList
       message := "Effect '".toList ++ effect.name ++ "' targets undeclared IORef '".toList ++
        effect.target ++ ['\'']
       path := label ++ ".contract.effects".toList }] else []) ++
  (if effect.kind = "resource".toList ∧ effect.idempotency.keyFields = [] then
    [{ code := "RESOURCE_IDEMPOTENCY".toList
       message := "Effect '".toList ++ effect.name ++
        "' must declare idempotency key fields".toList
       path := label ++ ".contract.effects".toList }] else [])

def outputIssues (label : Str) (effects : List EffectRef) (r : IORef) : List LintIssue :=
  if requiresEffect r.mode ∧ r.ref ∉ effects.map EffectRef.target then
    [{ code := "EFFECT_REQUIRED".toList
       message := "IORef '".toList ++ r.ref ++ "' with mode '".toList ++ r.mode ++
        "' needs an effect declaration".toList
       path := label ++ ".contract.outputs".toList }]
  else []

def validateContractEffects (registry : RefRegistry) (entry : Str × AgentContract) :
    List LintIssue :=
  entry.2.effects.flatMap (effectIssues entry.1 registry) ++
    entry.2.outputs.flatMap (outputIssues entry.1 entry.2.effects)

section closure

variable (py : PyText)

def AgentBundleBody.contractEntries (body : AgentBundleBody) : List (Str × AgentContract) :=
  body.agents.map (fun agent => (agent.spec.agentId, agent.spec.contract))

def buildContractIoSets (entries : List (Str × AgentContract)) :
    OrderedDict Str (List Str × List Str) :=
  entries.foldl (fun sets entry => sets.assign entry.1
    (entry.2.inputs.map IORef.ref, entry.2.outputs.map IORef.ref)) OrderedDict.empty

def preconditionTexts (data : JsonFields) : List Str :=
  match data.lookup "preconditions".toList with
  | some (.arr items) => items.map py.str
  | _ => []

def extractPreconditions (raw : JsonFields) : List Str :=
  match raw.lookup "meta".toList with
  | some (.obj data) => preconditionTexts py data
  | _ => []

def closureIssue (path : Str) (step : AgentBundlePlanStep) (ref : Str) : LintIssue where
  code := "IO_CLOSURE".toList
  message := "Step '".toList ++ step.step ++ "' reads '".toList ++ ref ++
    "' before it is produced".toList
  path := path ++ ".inputs".toList

def bindingIssue (path side : Str) (step : AgentBundlePlanStep) (ref : Str) : LintIssue where
  code := "IO_BINDING".toList
  message := "Agent '".toList ++ step.agentId ++ "' does not declare ".toList ++ side ++
    " '".toList ++ ref ++ ['\'']
  path := path ++ '.' :: side ++ ['s']

def inputIssues (path : Str) (step : AgentBundlePlanStep) (available expected : List Str)
    (ref : Str) : List LintIssue :=
  (if ref ∉ available then [closureIssue path step ref] else []) ++
    (if ref ∉ expected then [bindingIssue path "input".toList step ref] else [])

def stepIssues (path : Str) (step : AgentBundlePlanStep) (available : List Str)
    (sets : List Str × List Str) : List LintIssue :=
  step.inputs.flatMap (inputIssues path step available sets.1) ++
    step.outputs.flatMap (fun ref =>
      if ref ∉ sets.2 then [bindingIssue path "output".toList step ref] else [])

def lintPlanFrom (sets : OrderedDict Str (List Str × List Str)) :
    ℕ → List Str → List AgentBundlePlanStep → List LintIssue
  | _, _, [] => []
  | idx, available, step :: rest =>
    match sets.get? step.agentId with
    | none => lintPlanFrom sets (idx + 1) available rest
    | some io =>
      stepIssues (indexed "plan".toList idx) step available io ++
        lintPlanFrom sets (idx + 1) (available ++ step.outputs) rest

def lintAgentBundlePlan (body : AgentBundleBody) (raw : JsonFields)
    (sets : OrderedDict Str (List Str × List Str)) : List LintIssue :=
  lintPlanFrom sets 0 (extractPreconditions py raw) body.plan

def lintAgentBundleIoContract (body : AgentBundleBody) (raw : JsonFields) : List LintIssue :=
  if body.contractEntries = [] then []
  else
    (collectRefRegistry body.contractEntries).2 ++
      body.contractEntries.flatMap
        (validateContractEffects (collectRefRegistry body.contractEntries).1) ++
      lintAgentBundlePlan py body raw (buildContractIoSets body.contractEntries)

def lintPlanIoContract (raw : JsonFields) : List LintIssue :=
  match raw.lookup "io_contract".toList with
  | some (.obj data) =>
    match AgentContract.fromMapping py data with
    | .error message => [⟨"IO_CONTRACT_PARSE".toList, message, "io_contract".toList⟩]
    | .ok contract =>
      (collectRefRegistry [("plan".toList, contract)]).2 ++
        validateContractEffects (collectRefRegistry [("plan".toList, contract)]).1
          ("plan".toList, contract)
  | _ => []

end closure

section fidelity

variable (py : PyText)

def asStrSet : Option Json → List Str
  | some (.arr items) => items.map py.str
  | _ => []

structure StepIo where
  reads : List Str
  effects : List Str

def planIo (body : AgentBundleBody) : OrderedDict Str StepIo :=
  body.plan.foldl (fun io step =>
    match io.get? step.step with
    | some known => io.assign step.step ⟨known.reads ++ step.inputs, known.effects ++ step.outputs⟩
    | none => io.assign step.step ⟨step.inputs, step.outputs⟩) OrderedDict.empty

def verifyStep (raw : JsonFields) : StepIo where
  reads := asStrSet py (raw.lookup "reads".toList)
  effects := asStrSet py (raw.lookup "writes".toList) ++ asStrSet py (raw.lookup "clears".toList)

def malformedStep (name : Str) : LintIssue where
  code := "VERIFY_META_MALFORMED".toList
  message := "meta.verify.steps['".toList ++ name ++ "'] must be a mapping".toList
  path := "meta.verify.steps.".toList ++ name

def verifySteps (metaVerify : JsonFields) : Except LintIssue (OrderedDict Str StepIo) :=
  match metaVerify.lookup "steps".toList with
  | some (.obj steps) =>
    steps.foldlM (fun known step =>
      match step.2 with
      | .obj raw => .ok (known.assign step.1 (verifyStep py raw))
      | _ => .error (malformedStep step.1)) OrderedDict.empty
  | _ => .error
      { code := "VERIFY_META_MALFORMED".toList
        message := "meta.verify.steps must be a mapping".toList
        path := "meta.verify.steps".toList }

def sameSet (a b : List Str) : Bool := a.all (· ∈ b) && b.all (· ∈ a)

def unmodeledIssue (name : Str) : LintIssue where
  code := "VERIFY_STEP_UNMODELED".toList
  message := "plan step '".toList ++ name ++ ("' has no meta.verify.steps entry — " ++
    "it is invisible to verification").toList
  path := "meta.verify.steps.".toList ++ name

def orphanIssue (name : Str) : LintIssue where
  code := "VERIFY_STEP_ORPHAN".toList
  message := "meta.verify step '".toList ++ name ++ ("' has no matching plan step — " ++
    "the model verifies behavior the plan does not contain").toList
  path := "meta.verify.steps.".toList ++ name

def sortedNames (names : List Str) : Str :=
  py.str (.arr ((sortTexts names.eraseDups).map .str))

def driftIssue (name : Str) (planned modelled : List Str) : LintIssue where
  code := "VERIFY_WRITES_DRIFT".toList
  message := "step '".toList ++ name ++
    "' writes/clears drift vs plan outputs (unmodeled outputs: ".toList ++
    sortedNames py (planned.filter (· ∉ modelled)) ++ "; phantom effects: ".toList ++
    sortedNames py (modelled.filter (· ∉ planned)) ++ [')']
  path := "meta.verify.steps.".toList ++ name ++ ".writes".toList

def reconcile (plan steps : OrderedDict Str StepIo) : List LintIssue :=
  let planned := sortTexts (plan.entries.map Prod.fst)
  let modelled := sortTexts (steps.entries.map Prod.fst)
  (planned.filter (· ∉ modelled)).map unmodeledIssue ++
    (modelled.filter (· ∉ planned)).map orphanIssue ++
    planned.filterMap (fun name =>
      match plan.get? name, steps.get? name with
      | some p, some v =>
        if sameSet v.effects p.effects then none
        else some (driftIssue py name p.effects v.effects)
      | _, _ => none)

def lintVerifyMetaFidelity (body : AgentBundleBody) : List LintIssue :=
  match body.meta_.lookup "verify".toList with
  | some (.obj metaVerify) =>
    let fidelity := match metaVerify.lookup "fidelity".toList with
      | some v => if truth v then py.str v else []
      | none => []
    if lower (strip fidelity) = "manual".toList then []
    else
      match verifySteps py metaVerify with
      | .error issue => [issue]
      | .ok steps => if body.plan = [] then [] else reconcile py (planIo body) steps
  | _ => []

end fidelity

section validators

variable (py : PyText)

def bundlePhases : List Str :=
  ["init".toList, "run".toList, "emit".toList, "finalize".toList]

def bundleStepErrors (agentIds : List Str) (idx : ℕ) (step : AgentBundlePlanStep) : List Str :=
  let path := indexed "plan".toList idx
  (if step.step = [] then [path ++ ".step must be a non-empty string".toList] else []) ++
    (if step.agentId = [] then [path ++ ".agent_id must be a non-empty string".toList]
      else if step.agentId ∉ agentIds then
        [path ++ ".agent_id '".toList ++ step.agentId ++ "' is not registered".toList]
      else []) ++
    (match step.phase with
      | none => []
      | some phase =>
        if phase ≠ [] ∧ phase ∉ bundlePhases then
          [path ++ ".phase '".toList ++ phase ++ "' is not allowed".toList]
        else [])

def bundlePlanError : Option Json → Option Str
  | none => some "agent bundle missing 'plan'".toList
  | some .null => some "agent bundle missing 'plan'".toList
  | some (.arr _) => none
  | some _ => some "agent bundle plan must be a sequence".toList

def validateAgentBundle (body : AgentBundleBody) (raw : JsonFields) : List Str :=
  (if body.agents = [] then ["agent bundle must declare at least one agent".toList] else []) ++
    (bundlePlanError (raw.lookup "plan".toList)).elim
      (body.plan.zipIdx.flatMap (fun s =>
        bundleStepErrors (body.agents.map (fun agent => agent.spec.agentId)) s.2 s.1))
      (fun e => [e])

def triggerChar (c : Char) : Bool :=
  ('A' ≤ c && c ≤ 'Z') || ('a' ≤ c && c ≤ 'z') || ('0' ≤ c && c ≤ '9') ||
    c ∈ ['_', '.', '[', ']', '*', '$']

def triggerMatches (trigger : Str) : Bool :=
  let core := if trigger.getLast? = some newline then trigger.dropLast else trigger
  !core.isEmpty && core.all triggerChar

def sequenceItems : Json → Option (List Json)
  | .arr items => some items
  | .str s => some (s.map (fun c => .str [c]))
  | _ => none

def planStepErrors (raw : List Json) (seen : List Str) (idx : ℕ) (step : PlanStep) : List Str :=
  let path := indexed "steps".toList idx
  match (raw[idx]?).getD (.obj []) with
  | .obj fields =>
    (if step.name = [] then [path ++ ".name must be a non-empty string".toList]
      else if step.name ∈ seen then
        [path ++ ".name '".toList ++ step.name ++ "' is not unique".toList]
      else []) ++
      (if (fields.lookup "reads".toList).isNone then [path ++ " missing 'reads' field".toList]
        else []) ++
      (if (fields.lookup "writes".toList).isNone then [path ++ " missing 'writes' field".toList]
        else [])
  | _ => [path ++ " must be a mapping".toList]

def seenAfter (raw : List Json) (seen : List Str) (idx : ℕ) (step : PlanStep) : List Str :=
  match (raw[idx]?).getD (.obj []) with
  | .obj _ => if step.name = [] then seen else step.name :: seen
  | _ => seen

def planStepsFrom (raw : List Json) : List Str → ℕ → List PlanStep → List Str
  | _, _, [] => []
  | seen, idx, step :: rest =>
    planStepErrors raw seen idx step ++
      planStepsFrom raw (seenAfter raw seen idx step) (idx + 1) rest

def validatePlanSteps (body : PlanBody) (rawSteps : Option Json) : List Str :=
  match rawSteps with
  | none => ["plan body missing 'steps' definition".toList]
  | some .null => ["plan body missing 'steps' definition".toList]
  | some v =>
    match sequenceItems v with
    | none => ["plan.steps must be a sequence".toList]
    | some raw => planStepsFrom raw [] 0 body.steps

def triggerErrors (rule trigger : Str) : List Str :=
  if strip trigger = [] then
    ["rule '".toList ++ rule ++ "' trigger must be a non-empty string".toList]
  else if triggerMatches trigger then []
  else ["rule '".toList ++ rule ++ "' trigger '".toList ++ trigger ++
    "' contains invalid characters".toList]

def validateRule (stepNames : List Str) (rule : PlanRule) : List Str :=
  (if rule.triggers = [] then
    ["rule '".toList ++ rule.name ++ "' must declare at least one trigger".toList] else []) ++
    rule.triggers.flatMap (triggerErrors rule.name) ++
    (if rule.steps = [] then
      ["rule '".toList ++ rule.name ++ "' must reference at least one step".toList] else []) ++
    rule.steps.flatMap (fun target =>
      if target ∉ stepNames then
        ["rule '".toList ++ rule.name ++ "' references undefined step '".toList ++ target ++
          "'".toList]
      else [])

def validatePlanRules (body : PlanBody) : List Str :=
  body.rules.flatMap (validateRule ((body.steps.map PlanStep.name).filter (· ≠ [])))

def issueText (issue : LintIssue) : Str :=
  issue.code ++ ": ".toList ++ issue.message ++
    (if issue.path = [] then [] else " (path: ".toList ++ issue.path ++ [')'])

def validatePlanBody (body : PlanBody) (raw : JsonFields) : List Str :=
  validatePlanSteps body (raw.lookup "steps".toList) ++
    (match raw.lookup "rules".toList with
      | none => []
      | some .null => []
      | some v => if (sequenceItems v).isNone then
          ["plan.rules must be a sequence if provided".toList] else []) ++
    validatePlanRules body ++
    (lintPlanIoContract py raw).map issueText

end validators

section verify

variable (py : PyText) (sha : Sha256)

inductive ArtifactStatus where
  | candidate
  | accepted
deriving DecidableEq

inductive ArtifactBody where
  | plan (body : PlanBody)
  | agentBundle (body : AgentBundleBody)

structure ArtifactEnvelope where
  artifactId : Str
  status : ArtifactStatus
  version : Str
  bodyHash : Str := []

structure Artifact where
  envelope : ArtifactEnvelope
  body : ArtifactBody
  bodyRaw : JsonFields

def isSupportedVersion (version : Str) : Bool :=
  version = "v0".toList || "v0.".toList.isPrefixOf version

def bodyErrors (raw : JsonFields) : ArtifactBody → List Str
  | .plan body => validatePlanBody py body raw
  | .agentBundle body =>
    validateAgentBundle body raw ++ (lintAgentBundleIoContract py body raw).map issueText ++
      (lintVerifyMetaFidelity py body).map issueText

def verificationErrors (candidate : Artifact) : List Str :=
  (if candidate.envelope.status ≠ .candidate then
    ["artifact status must be 'candidate' for verification".toList] else []) ++
    (if isSupportedVersion candidate.envelope.version then []
      else ["unsupported artifact version '".toList ++ candidate.envelope.version ++
        "'".toList]) ++
    bodyErrors py candidate.bodyRaw candidate.body

def verify (candidate : Artifact) : Except (List Str) Artifact :=
  if verificationErrors py candidate = [] then
    .ok { candidate with
      envelope := { candidate.envelope with
        status := .accepted
        bodyHash := bodyHash sha (.obj candidate.bodyRaw) } }
  else .error (verificationErrors py candidate)

end verify

end TraceMind.Artifacts
