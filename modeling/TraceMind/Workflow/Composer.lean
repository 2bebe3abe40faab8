import Mathlib.Algebra.Order.Field.Basic
import Mathlib.Data.Rat.Cast.Order
import TraceMind.Artifacts.Hash
import TraceMind.Workflow.Execution

namespace TraceMind.Workflow

open Dsl (setItem)
open Artifacts (textLe)

structure StepDef where
  capability : Str
  description : Str
  requiresGuard : Bool := false

structure Template where
  id : Str
  name : Str
  steps : List StepDef

def classifyStep : StepDef := ⟨"compute.process".toList, "Classify input".toList, false⟩

def templates : List Template := [
  ⟨"T1".toList, "classify-validate-external-write".toList, [
    classifyStep,
    ⟨"validate.result".toList, "Validate classification".toList, false⟩,
    ⟨"external.write".toList, "Write result to external system".toList, true⟩]⟩,
  ⟨"T2".toList, "classify-case-audit".toList, [
    classifyStep,
    ⟨"case.create".toList, "Create case record".toList, false⟩,
    ⟨"audit.record".toList, "Audit the operation".toList, false⟩]⟩,
  ⟨"T3".toList, "classify-guarded-write-case-audit".toList, [
    classifyStep,
    ⟨"external.write".toList, "Guarded external write".toList, true⟩,
    ⟨"case.create".toList, "Create case document".toList, false⟩,
    ⟨"audit.record".toList, "Audit the flow".toList, false⟩]⟩,
  ⟨"T4".toList, "classify-case-guarded-notify-audit".toList, [
    classifyStep,
    ⟨"case.create".toList, "Create case document".toList, false⟩,
    ⟨"external.notify".toList, "Notify downstream system".toList, true⟩,
    ⟨"audit.record".toList, "Audit the notification".toList, false⟩]⟩]

structure Capability where
  capabilityId : Option Str
  sideEffects : Json := .null
  rollbackSupported : Json := .null
  determinism : Json := .null
  stateExtractors : List Facts := []

structure PolicyGuard where
  spec : GuardSpec
  type : Option Str := none
  scope : Option Str := none

structure Policy where
  policyId : Option Str := none
  invariants : List Invariant := []
  guards : List PolicyGuard := []

def Policy.spec (policy : Policy) : PolicySpec :=
  ⟨policy.invariants, policy.guards.map PolicyGuard.spec⟩

structure Intent where
  intentId : Option Str := none
  version : Option Str := none
  goalTarget : Option Str := none

structure GuardRecord where
  name : Str
  type : Option Str
  requiredFor : RequiredFor
  scope : Option Str

structure StepRecord where
  stepId : Str
  capabilityId : Str
  description : Str
  guard : Option GuardRecord

inductive RejectionCode where
  | missingCapability
  | guardRequiredButMissing
  | policyInvariantViolation
  | unsatisfiableIntent
deriving DecidableEq

def RejectionCode.text : RejectionCode → Str
  | .missingCapability => "MISSING_CAPABILITY".toList
  | .guardRequiredButMissing => "GUARD_REQUIRED_BUT_MISSING".toList
  | .policyInvariantViolation => "POLICY_INVARIANT_VIOLATION".toList
  | .unsatisfiableIntent => "UNSATISFIABLE_INTENT".toList

inductive Evidence where
  | capability (capabilityId : Str)
  | violation (invariantId : Str) (step : Option StepRecord) (state : Facts)
  | missingGoal (goal : Str)

structure CandidateRejection where
  templateId : Str
  templateName : Str
  code : RejectionCode
  message : Str
  evidence : Evidence
  signature : Option Str

structure Metrics where
  nSteps : ℕ
  nSideEffectSteps : ℕ
  nIrreversible : ℕ
  nNondet : ℕ
  nGuards : ℕ
  nApprovalGuards : ℕ

structure Normalized where
  sideEffect : ℚ
  irreversible : ℚ
  nondet : ℚ
  guards : ℚ
  approval : ℚ
  complexity : ℚ

structure WorkflowDocument where
  workflowId : Str
  intentId : Option Str
  policyId : Option Str
  name : Str
  version : Option Str
  steps : List StepRecord
  transitions : List (Str × Str)
  guards : List PolicyGuard

structure Candidate where
  templateId : Str
  templateName : Str
  workflowPolicy : WorkflowDocument
  candidateId : Str
  signature : Str
  metrics : Metrics
  normalized : Normalized
  guardNames : List Str

inductive Stop where
  | rejected (r : CandidateRejection)
  | keyError (key : Str)

section building

variable (catalog : List Capability) (policy : Policy) (intent : Intent) (sha : Str → Str)

def enterSpec (lookup : List (Str × Capability)) (spec : Capability) : List (Str × Capability) :=
  match spec.capabilityId with
  | none => lookup
  | some id => setItem id spec lookup

def capabilityTable : List (Str × Capability) := catalog.foldl enterSpec []

def guardOptions (capId : Str) : List PolicyGuard :=
  policy.guards.flatMap (fun g =>
    match g.spec.requiredFor with
    | .one id => if id = capId then [g] else []
    | .many ids => (ids.filter (· = capId)).map (fun _ => g)
    | _ => [])

def sortedGuards (capId : Str) : List PolicyGuard :=
  (guardOptions policy capId).insertionSort
    (fun a b => textLe (a.spec.name.getD []) (b.spec.name.getD []) = true)

def producedValue : Json → Json
  | .obj fields => (OrderedDict.find "value".toList fields).getD (.bool true)
  | v => v

def applyExtractors (spec : Capability) (state : Facts) : Facts :=
  spec.stateExtractors.foldl (fun state produces =>
    produces.foldl (fun s e => setItem e.1 (producedValue e.2) s) state) state

def needsGuard (stepDef : StepDef) (spec : Capability) : Bool :=
  stepDef.requiresGuard || truth spec.sideEffects

def reject (template : Template) (code : RejectionCode) (message : Str) (evidence : Evidence)
    (signature : Option Str) : Stop :=
  .rejected ⟨template.id, template.name, code, message, evidence, signature⟩

def chooseGuard (template : Template) (stepDef : StepDef) (spec : Capability) :
    Except Stop (Option PolicyGuard) :=
  if needsGuard stepDef spec then
    match sortedGuards policy stepDef.capability with
    | [] => .error (reject template .guardRequiredButMissing
        ("guard required for capability '".toList ++ stepDef.capability ++ "'".toList)
        (.capability stepDef.capability) none)
    | g :: _ => .ok (some g)
  else .ok none

def guardRecord : Option PolicyGuard → Except Stop (Option GuardRecord)
  | none => .ok none
  | some g =>
    match g.spec.name with
    | none => .error (.keyError "name".toList)
    | some name => .ok (some ⟨name, g.type, g.spec.requiredFor, g.scope⟩)

structure Built where
  steps : List StepRecord
  guardEntries : List (Str × PolicyGuard)
  stateHistory : List Facts

def stepIdOf (template : Template) (idx : ℕ) : Str :=
  template.id ++ ".step".toList ++ Nat.toDigits 10 (idx + 1)

def addGuardEntry (guard : Option PolicyGuard) (entries : List (Str × PolicyGuard)) :
    List (Str × PolicyGuard) :=
  match guard with
  | none => entries
  | some g => setItem (g.spec.name.getD []) g entries

def buildStep (template : Template) (b : Built) (stepDef : StepDef) : Except Stop Built :=
  match OrderedDict.find stepDef.capability (capabilityTable catalog) with
  | none => .error (reject template .missingCapability
      ("capability '".toList ++ stepDef.capability ++ "' missing from catalog".toList)
      (.capability stepDef.capability) none)
  | some spec => do
    let guard ← chooseGuard policy template stepDef spec
    let record ← guardRecord guard
    .ok ⟨b.steps ++ [⟨stepIdOf template b.steps.length, stepDef.capability, stepDef.description,
        record⟩],
      addGuardEntry guard b.guardEntries,
      b.stateHistory ++ [applyExtractors spec (b.stateHistory.getLast?.getD [])]⟩

def buildSteps (template : Template) : Except Stop Built :=
  template.steps.foldlM (buildStep catalog policy template) ⟨[], [], []⟩

def guardName (step : StepRecord) : Str := (step.guard.map GuardRecord.name).getD []

def computeSignature (steps : List StepRecord) : Str :=
  List.intercalate "->".toList (steps.map (fun step =>
    step.stepId ++ if guardName step = [] then [] else '[' :: guardName step ++ [']']))

def isIdentifierChar (c : Char) : Bool := ('a' ≤ c && c ≤ 'z') || ('0' ≤ c && c ≤ '9')

def dashed : Str → Str
  | [] => []
  | c :: cs =>
    if isIdentifierChar c then c :: dashed cs
    else
      match dashed cs with
      | '-' :: ds => '-' :: ds
      | ds => '-' :: ds

def stripDashes (s : Str) : Str :=
  ((s.dropWhile (· = '-')).reverse.dropWhile (· = '-')).reverse

def sanitizeIdentifier (value default : Str) : Str :=
  if value = [] then default
  else
    match stripDashes (dashed (lower value)) with
    | [] => default
    | cleaned => cleaned

def transitionsOf : List StepRecord → List (Str × Str)
  | a :: b :: steps => (a.stepId, b.stepId) :: transitionsOf (b :: steps)
  | _ => []

def workflowOf (template : Template) (b : Built) : WorkflowDocument where
  workflowId := lower (firstText [policy.policyId] "policy".toList) ++
    '.' :: sanitizeIdentifier template.id (lower template.id) ++
    '.' :: (sha (computeSignature b.steps)).take 8
  intentId := intent.intentId
  policyId := policy.policyId
  name := template.name
  version := intent.version
  steps := b.steps
  transitions := transitionsOf b.steps
  guards := b.guardEntries.map Prod.snd

def specOf (capId : Str) : Option Capability := OrderedDict.find capId (capabilityTable catalog)

def countSteps (steps : List StepRecord) (p : StepRecord → Capability → Bool) : ℕ :=
  steps.countP (fun step => ((specOf catalog step.capabilityId).map (p step)).getD false)

def isFalse : Json → Bool
  | .bool false => true
  | _ => false

def metricsForSteps (steps : List StepRecord) : Metrics where
  nSteps := steps.length
  nSideEffectSteps := countSteps catalog steps (fun _ spec => truth spec.sideEffects)
  nIrreversible := countSteps catalog steps (fun _ spec => isFalse spec.rollbackSupported)
  nNondet := countSteps catalog steps (fun _ spec => isFalse spec.determinism)
  nGuards := steps.countP (fun step => step.guard.isSome)
  nApprovalGuards := steps.countP (fun step =>
    decide (step.guard.bind GuardRecord.type = some "approval".toList))

def normalizeMetrics (m : Metrics) : Normalized :=
  let n : ℚ := if m.nSteps = 0 then 1 else (m.nSteps : ℚ)
  { sideEffect := m.nSideEffectSteps / n
    irreversible := m.nIrreversible / n
    nondet := m.nNondet / n
    guards := min 1 (m.nGuards / n)
    approval := min 1 (m.nApprovalGuards / (max 1 m.nSideEffectSteps : ℕ))
    complexity := min 1 ((n - 1) / (n + 3)) }

def finalState (b : Built) : Facts := b.stateHistory.getLast?.getD []

def goalOf : Str := intent.goalTarget.getD []

def goalCovered (state : Facts) : Bool :=
  decide (goalOf intent ≠ []) && truth ((OrderedDict.find (goalOf intent) state).getD .null)

def buildCandidate (template : Template) : Except Stop Candidate := do
  let b ← buildSteps catalog policy template
  let signature := computeSignature b.steps
  match checkState policy.spec (finalState b) with
  | v :: _ => .error (reject template .policyInvariantViolation v.detail
      (.violation v.ruleId b.steps.getLast? (finalState b)) (some signature))
  | [] =>
    if goalCovered intent (finalState b) then
      .ok {
        templateId := template.id
        templateName := template.name
        workflowPolicy := workflowOf policy intent sha template b
        candidateId := (sha signature).take 8
        signature := signature
        metrics := metricsForSteps catalog b.steps
        normalized := normalizeMetrics (metricsForSteps catalog b.steps)
        guardNames := (b.steps.map guardName).filter (· ≠ []) }
    else .error (reject template .unsatisfiableIntent
      "workflow never produces intent goal".toList (.missingGoal (goalOf intent)) (some signature))

end building

section composing

inductive Mode where
  | conservative
  | aggressive
deriving DecidableEq

def modeOf (text : Str) : Option Mode :=
  if text = "conservative".toList then some .conservative
  else if text = "aggressive".toList then some .aggressive
  else none

def totalCost (n : Normalized) : Mode → ℚ
  | .conservative => n.sideEffect * 5 + n.irreversible * 4 + n.nondet * 3 + n.complexity * 2 +
      n.guards * (1 / 2) + (1 - n.approval) * 6
  | .aggressive => n.complexity * 5 + n.sideEffect * 2 + n.irreversible * 3 +
      n.nondet * (3 / 2) + n.guards * (-1 / 2) + (1 - n.approval) * 8

def scoreLe (mode : Mode) (a b : Candidate) : Bool :=
  let x := totalCost a.normalized mode
  let y := totalCost b.normalized mode
  decide (x < y) || (decide (x = y) &&
    (decide (a.metrics.nSteps < b.metrics.nSteps) ||
      (decide (a.metrics.nSteps = b.metrics.nSteps) && textLe a.signature b.signature)))

def firstItems {α : Type} (k : ℤ) (items : List α) : List α :=
  if 0 ≤ k then items.take k.toNat else items.take (items.length - k.natAbs)

structure AcceptedEntry where
  candidate : Candidate
  mode : Mode
  cost : ℚ
  guardsInserted : List Str

def rejectionLe (a b : CandidateRejection) : Bool :=
  if a.code = b.code then
    textLe (firstText [a.signature] a.templateId) (firstText [b.signature] b.templateId)
  else textLe a.code.text b.code.text

structure ComposeResult where
  accepted : List AcceptedEntry
  rejected : List CandidateRejection
  workflowPolicy : Option WorkflowDocument

variable (catalog : List Capability) (policy : Policy) (intent : Intent) (sha : Str → Str)

def buildAll : List Template → Except Str (List Candidate × List CandidateRejection)
  | [] => .ok ([], [])
  | template :: rest =>
    match buildCandidate catalog policy intent sha template with
    | .ok c => (buildAll rest).map (fun r => (c :: r.1, r.2))
    | .error (.rejected r) => (buildAll rest).map (fun rs => (rs.1, r :: rs.2))
    | .error (.keyError key) => .error key

def acceptedFor (candidates : List Candidate) (topK : ℤ) (mode : Mode) : List AcceptedEntry :=
  (firstItems topK (candidates.insertionSort (fun a b => scoreLe mode a b = true))).map
    (fun c => ⟨c, mode, totalCost c.normalized mode, c.guardNames⟩)

def compose (modes : List Str) (topK : ℤ) : Except Str ComposeResult :=
  (buildAll catalog policy intent sha templates).map (fun built =>
    let accepted := (modes.filterMap modeOf).flatMap (acceptedFor built.1 topK)
    { accepted := accepted
      rejected := built.2.insertionSort (fun a b => rejectionLe a b = true)
      workflowPolicy := accepted.head?.map (fun e => e.candidate.workflowPolicy) })

end composing

section accepted

variable {catalog : List Capability} {policy : Policy} {intent : Intent} {sha : Str → Str}
  {template : Template} {b b' : Built}

def stateAfter (catalog : List Capability) (capIds : List Str) : Facts :=
  capIds.foldl (fun state capId =>
    match specOf catalog capId with
    | some spec => applyExtractors spec state
    | none => state) []

def PolicyGuard.GivenTo (g : PolicyGuard) (record : StepRecord) : Prop :=
  ∃ name, g.spec.name = some name ∧
    record.guard = some ⟨name, g.type, g.spec.requiredFor, g.scope⟩

def Follows (catalog : List Capability) (policy : Policy) (stepDef : StepDef)
    (record : StepRecord) : Prop :=
  record.capabilityId = stepDef.capability ∧
    ∃ spec, specOf catalog stepDef.capability = some spec ∧
      (needsGuard stepDef spec = true → ∃ g ∈ policy.guards,
        guardApplies stepDef.capability g.spec.requiredFor = true ∧ g.GivenTo record)

theorem mem_guardOptions {g : PolicyGuard} {capId : Str} (h : g ∈ guardOptions policy capId) :
    g ∈ policy.guards ∧ guardApplies capId g.spec.requiredFor = true := by
  obtain ⟨g', hg', hm⟩ := List.mem_flatMap.mp h
  cases hr : g'.spec.requiredFor with
  | absent => simp [hr] at hm
  | one id =>
    rw [hr] at hm
    dsimp only at hm
    split_ifs at hm with hid
    · obtain rfl := List.mem_singleton.mp hm
      rw [hr, guardApplies]
      exact ⟨hg', decide_eq_true hid⟩
    · cases hm
  | many ids =>
    rw [hr] at hm
    obtain ⟨id, hid, rfl⟩ := List.mem_map.mp hm
    obtain ⟨hid, he⟩ := List.mem_filter.mp hid
    rw [hr, guardApplies]
    exact ⟨hg', decide_eq_true (of_decide_eq_true he ▸ hid)⟩
  | other => simp [hr] at hm

theorem chooseGuard_spec {stepDef : StepDef} {spec : Capability} {guard : Option PolicyGuard}
    (h : chooseGuard policy template stepDef spec = .ok guard)
    (hneeds : needsGuard stepDef spec = true) :
    ∃ g ∈ policy.guards, guardApplies stepDef.capability g.spec.requiredFor = true ∧
      guard = some g := by
  rw [chooseGuard, if_pos hneeds] at h
  cases hs : sortedGuards policy stepDef.capability with
  | nil =>
    rw [hs] at h
    cases h
  | cons g gs =>
    rw [hs] at h
    have hm : g ∈ sortedGuards policy stepDef.capability := hs ▸ List.mem_cons_self
    obtain ⟨hg, happlies⟩ := mem_guardOptions ((List.perm_insertionSort _ _).mem_iff.mp hm)
    exact ⟨g, hg, happlies, (Except.ok.inj h).symm⟩

theorem guardRecord_spec {g : PolicyGuard} {record : Option GuardRecord}
    (h : guardRecord (some g) = .ok record) :
    ∃ name, g.spec.name = some name ∧
      record = some ⟨name, g.type, g.spec.requiredFor, g.scope⟩ := by
  rw [guardRecord] at h
  cases hn : g.spec.name with
  | none =>
    rw [hn] at h
    cases h
  | some name =>
    rw [hn] at h
    exact ⟨name, rfl, (Except.ok.inj h).symm⟩

structure BuiltFrom (catalog : List Capability) (policy : Policy) (defs : List StepDef)
    (b : Built) : Prop where
  follows : List.Forall₂ (Follows catalog policy) defs b.steps
  state : finalState b = stateAfter catalog (b.steps.map StepRecord.capabilityId)

theorem stateAfter_snoc {capIds : List Str} {capId : Str} {spec : Capability}
    (h : specOf catalog capId = some spec) :
    stateAfter catalog (capIds ++ [capId]) = applyExtractors spec (stateAfter catalog capIds) := by
  rw [stateAfter, List.foldl_append]
  simp only [List.foldl_cons, List.foldl_nil, h]
  rfl

theorem BuiltFrom.step {defs : List StepDef} {stepDef : StepDef}
    (hb : BuiltFrom catalog policy defs b)
    (h : buildStep catalog policy template b stepDef = .ok b') :
    BuiltFrom catalog policy (defs ++ [stepDef]) b' := by
  rw [buildStep] at h
  cases hspec : OrderedDict.find stepDef.capability (capabilityTable catalog) with
  | none =>
    rw [hspec] at h
    cases h
  | some spec =>
    rw [hspec] at h
    obtain ⟨guard, hguard, h⟩ := Fallible.bind_eq_ok.mp h
    obtain ⟨record, hrecord, h⟩ := Fallible.bind_eq_ok.mp h
    obtain rfl := Except.ok.inj h
    have hfound : specOf catalog stepDef.capability = some spec := hspec
    refine ⟨List.rel_append hb.follows (List.Forall₂.cons ⟨rfl, spec, hfound, fun hneeds => ?_⟩
      List.Forall₂.nil), ?_⟩
    · obtain ⟨g, hg, happlies, rfl⟩ := chooseGuard_spec hguard hneeds
      obtain ⟨name, hname, rfl⟩ := guardRecord_spec hrecord
      exact ⟨g, hg, happlies, name, hname, rfl⟩
    · simp only [finalState, List.getLast?_append, List.getLast?_singleton, Option.some_or,
        Option.getD_some, List.map_append, List.map_cons, List.map_nil]
      rw [stateAfter_snoc hfound, ← hb.state]
      rfl

theorem BuiltFrom.foldlM {defs rest : List StepDef} (hb : BuiltFrom catalog policy defs b)
    (h : rest.foldlM (buildStep catalog policy template) b = .ok b') :
    BuiltFrom catalog policy (defs ++ rest) b' := by
  induction rest generalizing defs b with
  | nil =>
    obtain rfl := Except.ok.inj h
    rw [List.append_nil]
    exact hb
  | cons stepDef rest ih =>
    rw [List.foldlM_cons] at h
    obtain ⟨b₁, h₁, h⟩ := Fallible.bind_eq_ok.mp h
    rw [← List.singleton_append, ← List.append_assoc]
    exact ih (hb.step h₁) h

theorem buildSteps_spec (h : buildSteps catalog policy template = .ok b) :
    BuiltFrom catalog policy template.steps b := by
  have hempty : BuiltFrom catalog policy [] ⟨[], [], []⟩ := ⟨List.Forall₂.nil, rfl⟩
  exact hempty.foldlM h

theorem buildCandidate_spec {c : Candidate}
    (h : buildCandidate catalog policy intent sha template = .ok c) :
    ∃ b, BuiltFrom catalog policy template.steps b ∧ c.workflowPolicy.steps = b.steps ∧
      checkState policy.spec (finalState b) = [] ∧ goalCovered intent (finalState b) = true := by
  obtain ⟨b, hb, h⟩ := Fallible.bind_eq_ok.mp h
  cases hcheck : checkState policy.spec (finalState b) with
  | cons v vs =>
    rw [hcheck] at h
    cases h
  | nil =>
    rw [hcheck] at h
    dsimp only at h
    split_ifs at h with hgoal
    obtain rfl := Except.ok.inj h
    exact ⟨b, buildSteps_spec hb, rfl, hcheck, hgoal⟩

theorem buildAll_mem {ts : List Template} {built : List Candidate × List CandidateRejection}
    {c : Candidate} (h : buildAll catalog policy intent sha ts = .ok built) (hc : c ∈ built.1) :
    ∃ template ∈ ts, buildCandidate catalog policy intent sha template = .ok c := by
  induction ts generalizing built with
  | nil =>
    obtain rfl := Except.ok.inj h
    cases hc
  | cons template rest ih =>
    rw [buildAll] at h
    cases hbuild : buildCandidate catalog policy intent sha template with
    | ok c' =>
      rw [hbuild] at h
      obtain ⟨r, hr, rfl⟩ := Fallible.map_eq_ok.mp h
      rcases List.mem_cons.mp hc with rfl | hc
      · exact ⟨template, List.mem_cons_self, hbuild⟩
      · obtain ⟨t, ht, hbt⟩ := ih hr hc
        exact ⟨t, List.mem_cons_of_mem _ ht, hbt⟩
    | error stop =>
      rw [hbuild] at h
      cases stop with
      | keyError key => cases h
      | rejected r =>
        obtain ⟨rs, hrs, rfl⟩ := Fallible.map_eq_ok.mp h
        obtain ⟨t, ht, hbt⟩ := ih hrs hc
        exact ⟨t, List.mem_cons_of_mem _ ht, hbt⟩

theorem mem_firstItems {α : Type} {k : ℤ} {items : List α} {x : α} (h : x ∈ firstItems k items) :
    x ∈ items := by
  unfold firstItems at h
  split_ifs at h <;> exact List.mem_of_mem_take h

theorem accepted_built {modes : List Str} {topK : ℤ} {result : ComposeResult} {e : AcceptedEntry}
    (h : compose catalog policy intent sha modes topK = .ok result) (he : e ∈ result.accepted) :
    ∃ template ∈ templates, buildCandidate catalog policy intent sha template = .ok e.candidate := by
  obtain ⟨built, hbuilt, rfl⟩ := Fallible.map_eq_ok.mp h
  obtain ⟨mode, -, hm⟩ := List.mem_flatMap.mp he
  obtain ⟨c, hc, rfl⟩ := List.mem_map.mp hm
  exact buildAll_mem hbuilt ((List.perm_insertionSort _ _).mem_iff.mp (mem_firstItems hc))

theorem accepted_candidate_safe {modes : List Str} {topK : ℤ} {result : ComposeResult}
    {e : AcceptedEntry} (h : compose catalog policy intent sha modes topK = .ok result)
    (he : e ∈ result.accepted) :
    ∃ template ∈ templates,
      List.Forall₂ (Follows catalog policy) template.steps e.candidate.workflowPolicy.steps ∧
      (∀ i ∈ policy.invariants, i.broken (stateAfter catalog
        (e.candidate.workflowPolicy.steps.map StepRecord.capabilityId)) = false) ∧
      (∀ i ∈ policy.invariants, i.kind = some "never".toList → ∀ (l : Literal) (ls : List Literal),
        tokenizeCondition (strip i.conditionText) = some (conjunction l ls) →
        (∀ x ∈ l :: ls, x.fact ∉ reserved) →
        ∃ x ∈ l :: ls, x.holds (stateAfter catalog
          (e.candidate.workflowPolicy.steps.map StepRecord.capabilityId)) = false) ∧
      goalCovered intent (stateAfter catalog
        (e.candidate.workflowPolicy.steps.map StepRecord.capabilityId)) = true := by
  obtain ⟨template, ht, hbuild⟩ := accepted_built h he
  obtain ⟨b, hb, hsteps, hcheck, hgoal⟩ := buildCandidate_spec hbuild
  rw [hsteps, ← hb.state]
  have hbroken : ∀ i ∈ policy.invariants, i.broken (finalState b) = false :=
    fun i hi => broken_of_checkState hcheck hi
  refine ⟨template, ht, hb.follows, hbroken, ?_, hgoal⟩
  intro i hi hnever l ls htoks hplain
  exact not_all_of_not_broken (hbroken i hi) hnever htoks hplain

def referenceCatalog : List Capability := [
  { capabilityId := some "compute.process".toList
    stateExtractors := [[("prediction.ready".toList, .bool true)]] },
  { capabilityId := some "validate.result".toList
    stateExtractors := [[("result.validated".toList, .bool true)]] },
  { capabilityId := some "external.write".toList
    sideEffects := .arr [.str "external_io".toList]
    stateExtractors := [[("external.write.performed".toList, .bool true)]] }]

def unvalidatedNever : Invariant where
  kind := some "never".toList
  condition := some "result.unvalidated".toList

def composerPolicy : Policy where
  invariants := [unvalidatedNever]
  guards := [{
    spec := {
      name := some "external-write-approval".toList
      requiredFor := .many ["external.write".toList] }
    type := some "approval".toList }]

def referenceIntent : Intent where
  goalTarget := some "result.validated".toList

def referenceSteps : List Str :=
  ["compute.process".toList, "validate.result".toList, "external.write".toList]

theorem reference_built :
    ((buildAll referenceCatalog composerPolicy referenceIntent id templates).map
      (fun built => built.1.map (fun c => c.workflowPolicy.steps.map StepRecord.capabilityId))) =
      .ok [referenceSteps] := by
  decide +kernel

theorem reference_accepted : ∃ result e,
    compose referenceCatalog composerPolicy referenceIntent id ["conservative".toList] 1 =
      .ok result ∧ e ∈ result.accepted ∧
    e.candidate.workflowPolicy.steps.map StepRecord.capabilityId = referenceSteps := by
  obtain ⟨built, hbuilt, hsteps⟩ := Fallible.map_eq_ok.mp reference_built
  obtain ⟨c, hc, hcsteps⟩ := List.map_eq_singleton_iff.mp hsteps
  refine ⟨_, ⟨c, .conservative, totalCost c.normalized .conservative, c.guardNames⟩,
    Fallible.map_eq_ok.mpr ⟨built, hbuilt, rfl⟩, ?_, hcsteps⟩
  rw [hc]
  exact List.mem_cons_self

theorem reference_candidate_safe : ∃ result e,
    compose referenceCatalog composerPolicy referenceIntent id ["conservative".toList] 1 =
      .ok result ∧ e ∈ result.accepted ∧
    unvalidatedNever.broken (stateAfter referenceCatalog
      (e.candidate.workflowPolicy.steps.map StepRecord.capabilityId)) = false := by
  obtain ⟨result, e, hcompose, he, -⟩ := reference_accepted
  obtain ⟨-, -, -, hsafe, -⟩ := accepted_candidate_safe hcompose he
  exact ⟨result, e, hcompose, he, hsafe unvalidatedNever List.mem_cons_self⟩

theorem unvalidated_after_first_step :
    ¬ ∀ result, compose referenceCatalog composerPolicy referenceIntent id
        ["conservative".toList] 1 = .ok result →
      ∀ e ∈ result.accepted, ∀ i ∈ composerPolicy.invariants, ∀ n, 0 < n →
        i.broken (stateAfter referenceCatalog
          ((e.candidate.workflowPolicy.steps.map StepRecord.capabilityId).take n)) = false := by
  intro h
  obtain ⟨result, e, hcompose, he, hsteps⟩ := reference_accepted
  have hfirst := h result hcompose e he unvalidatedNever List.mem_cons_self 1 Nat.one_pos
  rw [hsteps] at hfirst
  revert hfirst
  decide +kernel

end accepted

end TraceMind.Workflow
