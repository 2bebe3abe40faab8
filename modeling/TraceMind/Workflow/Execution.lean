import TraceMind.Workflow.PolicyEngine
import TraceMind.Dsl.CompilerSpec

namespace TraceMind.Workflow

open Dsl (setItem)

structure StepGuard where
  name : Option Str := none

structure WorkflowStep where
  stepId : Str
  capabilityId : Str
  guard : Option StepGuard := none

structure WorkflowPolicy where
  workflowId : Str
  version : Str := "0".toList
  intentId : Str := []
  steps : List WorkflowStep

structure CapabilitySpec where
  capabilityId : Option Str
  eventTypes : List (Option Str) := []
  stateExtractors : List Facts := []

structure StepPlan where
  stepId : Str
  capabilityId : Str
  guard : Option StepGuard
  events : List Str
  produces : Facts

structure MissingCapability where
  capabilityId : Str
  stepId : Str

mutual

def resolveValue : Json → Json
  | .obj fields =>
    match OrderedDict.find "value".toList fields with
    | some v => v
    | none => .obj (resolveFields fields)
  | v => v

def resolveFields : List (Str × Json) → List (Str × Json)
  | [] => []
  | (k, v) :: fields => (k, resolveValue v) :: resolveFields fields

end

def updateFacts (new state : Facts) : Facts := new.foldl (fun s e => setItem e.1 e.2 s) state

def extractStateProduces (spec : CapabilitySpec) : Facts :=
  spec.stateExtractors.foldl (fun s payload => updateFacts (resolveFields payload) s) []

def extractEventNames (spec : CapabilitySpec) : List Str :=
  (spec.eventTypes.filterMap id).filter (· ≠ [])

def enterCapability (lookup : List (Str × CapabilitySpec)) (spec : CapabilitySpec) :
    List (Str × CapabilitySpec) :=
  match spec.capabilityId with
  | none => lookup
  | some id => setItem id spec lookup

def buildCapabilityLookup (capabilities : List CapabilitySpec) : List (Str × CapabilitySpec) :=
  capabilities.foldl enterCapability []

def planStep (lookup : List (Str × CapabilitySpec)) (step : WorkflowStep) :
    Except MissingCapability StepPlan :=
  match OrderedDict.find step.capabilityId lookup with
  | none => .error ⟨step.capabilityId, step.stepId⟩
  | some spec =>
    .ok ⟨step.stepId, step.capabilityId, step.guard, extractEventNames spec,
      extractStateProduces spec⟩

def planWorkflowSteps (workflow : WorkflowPolicy) (capabilities : List CapabilitySpec) :
    Except MissingCapability (List StepPlan) :=
  workflow.steps.mapM (planStep (buildCapabilityLookup capabilities))

structure TraceStep where
  plan : StepPlan
  state : Facts

def simulate : List StepPlan → Facts → List TraceStep × Facts
  | [], state => ([], state)
  | plan :: plans, state =>
    let next := updateFacts plan.produces state
    let r := simulate plans next
    (⟨plan, next⟩ :: r.1, r.2)

def buildStateTrace (workflow : WorkflowPolicy) (capabilities : List CapabilitySpec) :
    Except MissingCapability (List TraceStep × Facts) :=
  (planWorkflowSteps workflow capabilities).map (fun plans => simulate plans [])

inductive VerificationReport where
  | success
  | missing (m : MissingCapability)
  | violated (v : PolicyViolation) (stepIndex : ℕ) (capabilityId : Str) (state : Facts)

def enterNamed (lookup : List (Str × CapabilitySpec)) (spec : CapabilitySpec) :
    List (Str × CapabilitySpec) :=
  match spec.capabilityId with
  | none | some [] => lookup
  | some (c :: cs) => setItem (c :: cs) spec lookup

def verifierCapabilities (capabilities : List CapabilitySpec) : List CapabilitySpec :=
  (capabilities.foldl enterNamed []).map Prod.snd

def verify (policy : PolicySpec) (capabilities : List CapabilitySpec) (workflow : WorkflowPolicy) :
    VerificationReport :=
  match buildStateTrace workflow (verifierCapabilities capabilities) with
  | .error m => .missing m
  | .ok (trace, state) =>
    match trace.getLast?, checkState policy state with
    | some last, v :: _ => .violated v (trace.length - 1) last.plan.capabilityId state
    | _, _ => .success

structure Entry where
  unit : Str
  capabilityId : Str
  status : Str
  event : Str
  guardStatus : Option Str := none

structure ExecutionTrace where
  workflowId : Str
  workflowRevision : Str
  intentId : Str
  entries : List Entry
  stateSnapshot : Facts
  violations : List Str
  guardDecisions : Decisions
  events : List Str

inductive ExecutionError where
  | workflowInvalid
  | verificationFailed (report : VerificationReport)
  | missingCapability (m : MissingCapability)
  | traceInvalid

structure Progress where
  entries : List Entry := []
  violations : List Str := []
  state : Facts := []
  executed : List TraceStep := []

def doneEvent (plan : StepPlan) : Str :=
  match plan.events.getLast? with
  | some e => e
  | none => plan.capabilityId ++ ".done".toList

def guardStatusText (decisions : Decisions) (guard : StepGuard) : Str :=
  if decided decisions (guard.name.getD []) then "approved".toList else "denied".toList

def deniedEntry (decisions : Decisions) (plan : StepPlan) (guard : StepGuard) : Entry :=
  ⟨plan.stepId, plan.capabilityId, "guard-denied".toList,
    plan.capabilityId ++ ".guard_denied".toList, some (guardStatusText decisions guard)⟩

def guardDenied (policy : PolicySpec) (decisions : Decisions) (plan : StepPlan) : Bool :=
  !(evaluateGuard policy plan.capabilityId decisions).isEmpty

def runStep (decisions : Decisions) (plan : StepPlan) (p : Progress) : Progress :=
  let state := updateFacts plan.produces p.state
  { p with
    state := state
    executed := p.executed ++ [⟨plan, state⟩]
    entries := p.entries ++ [⟨plan.stepId, plan.capabilityId, "success".toList, doneEvent plan,
      plan.guard.map (guardStatusText decisions)⟩] }

def denyStep (decisions : Decisions) (plan : StepPlan) (guard : StepGuard) (p : Progress) :
    Progress :=
  { p with
    entries := p.entries ++ [deniedEntry decisions plan guard]
    violations := p.violations ++
      ["guard:".toList ++ firstText [guard.name] plan.capabilityId] }

def runPlans (policy : PolicySpec) (decisions : Decisions) : List StepPlan → Progress → Progress
  | [], p => p
  | plan :: plans, p =>
    match plan.guard with
    | some guard =>
      if guardDenied policy decisions plan then denyStep decisions plan guard p
      else runPlans policy decisions plans (runStep decisions plan p)
    | none => runPlans policy decisions plans (runStep decisions plan p)

structure Schemas where
  workflowPolicy : WorkflowPolicy → Bool
  executionTrace : ExecutionTrace → Bool

def eventEntry (event : Str) : Entry := ⟨"event".toList, "event".toList, "success".toList, event, none⟩

def buildTrace (workflow : WorkflowPolicy) (decisions : Decisions) (events : List Str) (p : Progress) :
    ExecutionTrace where
  workflowId := workflow.workflowId
  workflowRevision := workflow.version
  intentId := workflow.intentId
  entries := p.entries ++ events.map eventEntry
  stateSnapshot := p.state
  violations := p.violations
  guardDecisions := decisions
  events := events

def executeWorkflow (schemas : Schemas) (workflow : WorkflowPolicy) (policy : PolicySpec)
    (capabilities : List CapabilitySpec) (decisions : Decisions) (events : List Str) :
    Except ExecutionError (ExecutionTrace × Progress) :=
  if schemas.workflowPolicy workflow then
    match verify policy capabilities workflow with
    | .success =>
      match planWorkflowSteps workflow capabilities with
      | .error m => .error (.missingCapability m)
      | .ok plans =>
        let p := runPlans policy decisions plans {}
        let trace := buildTrace workflow decisions events p
        if schemas.executionTrace trace then .ok (trace, p) else .error .traceInvalid
    | report => .error (.verificationFailed report)
  else .error .workflowInvalid

section lookups

variable {id : Str} {capabilities : List CapabilitySpec}

structure Named (lookup : List (Str × CapabilitySpec)) : Prop where
  own : ∀ e ∈ lookup, e.2.capabilityId = some e.1 ∧ e.1 ≠ []
  nodup : (lookup.map Prod.fst).Nodup

theorem mem_setItem {α : Type} {k : Str} {x : α} {es : List (Str × α)} {e : Str × α}
    (h : e ∈ setItem k x es) : e = (k, x) ∨ e ∈ es := by
  induction es with
  | nil => exact .inl (List.mem_singleton.mp h)
  | cons f es ih =>
    rw [setItem] at h
    split_ifs at h with hk
    · rcases List.mem_cons.mp h with h | h
      · exact .inl h
      · exact .inr (List.mem_cons_of_mem _ h)
    · rcases List.mem_cons.mp h with rfl | h
      · exact .inr List.mem_cons_self
      · exact (ih h).imp_right (List.mem_cons_of_mem _)

theorem nodup_setItem {α : Type} {k : Str} {x : α} {es : List (Str × α)}
    (h : (es.map Prod.fst).Nodup) : ((setItem k x es).map Prod.fst).Nodup := by
  induction es with
  | nil => simp [setItem]
  | cons f es ih =>
    rw [List.map_cons, List.nodup_cons] at h
    rw [setItem]
    split_ifs with hk
    · rw [List.map_cons, List.nodup_cons]
      exact ⟨hk ▸ h.1, h.2⟩
    · rw [List.map_cons, List.nodup_cons]
      refine ⟨fun hmem => ?_, ih h.2⟩
      obtain ⟨e, he, hf⟩ := List.mem_map.mp hmem
      rcases mem_setItem he with rfl | he
      · exact hk hf.symm
      · exact h.1 (List.mem_map.mpr ⟨e, he, hf⟩)

theorem Named.enter {lookup : List (Str × CapabilitySpec)} (h : Named lookup)
    (spec : CapabilitySpec) : Named (enterNamed lookup spec) := by
  rw [enterNamed]
  cases hid : spec.capabilityId with
  | none => exact h
  | some id =>
    cases id with
    | nil => exact h
    | cons c cs =>
      refine ⟨fun e he => ?_, nodup_setItem h.nodup⟩
      rcases mem_setItem he with rfl | he
      · exact ⟨hid, List.cons_ne_nil _ _⟩
      · exact h.own e he

theorem named_foldl {lookup : List (Str × CapabilitySpec)} (h : Named lookup) :
    Named (capabilities.foldl enterNamed lookup) := by
  induction capabilities generalizing lookup with
  | nil => exact h
  | cons spec capabilities ih => exact ih (h.enter spec)

theorem find_enterNamed {lookup lookup' : List (Str × CapabilitySpec)} (hid : id ≠ [])
    (h : OrderedDict.find id lookup = OrderedDict.find id lookup') :
    OrderedDict.find id (capabilities.foldl enterNamed lookup) =
      OrderedDict.find id (capabilities.foldl enterCapability lookup') := by
  induction capabilities generalizing lookup lookup' with
  | nil => exact h
  | cons spec capabilities ih =>
    refine ih ?_
    rw [enterNamed, enterCapability]
    cases spec.capabilityId with
    | none => exact h
    | some k =>
      cases k with
      | nil =>
        dsimp only
        rw [Dsl.find_setItem, if_neg hid]
        exact h
      | cons c cs =>
        dsimp only
        rw [Dsl.find_setItem, Dsl.find_setItem, h]

theorem find_values {dict lookup : List (Str × CapabilitySpec)} (h : Named dict) :
    OrderedDict.find id ((dict.map Prod.snd).foldl enterCapability lookup) =
      (OrderedDict.find id dict).or (OrderedDict.find id lookup) := by
  induction dict generalizing lookup with
  | nil => rfl
  | cons e dict ih =>
    have hnodup := h.nodup
    rw [List.map_cons, List.nodup_cons] at hnodup
    have hrest : Named dict :=
      ⟨fun f hf => h.own f (List.mem_cons_of_mem _ hf), hnodup.2⟩
    have henter : enterCapability lookup e.2 = setItem e.1 e.2 lookup := by
      rw [enterCapability, (h.own e List.mem_cons_self).1]
    rw [List.map_cons, List.foldl_cons, henter, ih hrest, Dsl.find_setItem, OrderedDict.find]
    by_cases hid : id = e.1
    · subst hid
      rw [OrderedDict.find_eq_none hnodup.1, if_pos rfl, if_pos rfl]
      rfl
    · rw [if_neg hid, if_neg (Ne.symm hid)]

theorem find_verifierCapabilities {spec : CapabilitySpec}
    (h : OrderedDict.find id (buildCapabilityLookup (verifierCapabilities capabilities)) =
      some spec) :
    OrderedDict.find id (buildCapabilityLookup capabilities) = some spec := by
  have hnamed : Named (capabilities.foldl enterNamed []) :=
    named_foldl ⟨by simp, by simp⟩
  rw [buildCapabilityLookup, verifierCapabilities, find_values hnamed] at h
  have hfound : OrderedDict.find id (capabilities.foldl enterNamed []) = some spec := by
    simpa [OrderedDict.find] using h
  have hid : id ≠ [] :=
    (hnamed.own (id, spec) ((OrderedDict.find_eq_some hnamed.nodup).mp hfound)).2
  rw [buildCapabilityLookup, ← find_enterNamed hid rfl]
  exact hfound

theorem planStep_verifier {step : WorkflowStep} {plan : StepPlan}
    (h : planStep (buildCapabilityLookup (verifierCapabilities capabilities)) step = .ok plan) :
    planStep (buildCapabilityLookup capabilities) step = .ok plan := by
  rw [planStep] at h ⊢
  cases hspec : OrderedDict.find step.capabilityId
      (buildCapabilityLookup (verifierCapabilities capabilities)) with
  | none =>
    rw [hspec] at h
    cases h
  | some spec =>
    rw [hspec] at h
    rw [find_verifierCapabilities hspec]
    exact h

theorem planWorkflowSteps_verifier {workflow : WorkflowPolicy} {plans : List StepPlan}
    (h : planWorkflowSteps workflow (verifierCapabilities capabilities) = .ok plans) :
    planWorkflowSteps workflow capabilities = .ok plans := by
  rw [planWorkflowSteps, Fallible.mapM_eq_ok] at h ⊢
  exact h.imp (fun _ _ => planStep_verifier)

end lookups

section runs

variable {policy : PolicySpec} {decisions : Decisions} {plans : List StepPlan}

structure Ran (policy : PolicySpec) (decisions : Decisions) (plans : List StepPlan)
    (p q : Progress) : Prop where
  steps : ∃ ran rest, plans = ran ++ rest ∧ q.executed = p.executed ++ (simulate ran p.state).1 ∧
    q.state = (simulate ran p.state).2 ∧
    (∀ plan ∈ ran, plan.guard.isSome = true → guardDenied policy decisions plan = false) ∧
    (q.violations = p.violations ∧ rest = [] ∨ ∃ v, q.violations = p.violations ++ [v])

theorem Ran.next {plan : StepPlan} {p q : Progress}
    (hguard : plan.guard.isSome = true → guardDenied policy decisions plan = false)
    (h : Ran policy decisions plans (runStep decisions plan p) q) :
    Ran policy decisions (plan :: plans) p q := by
  obtain ⟨ran, rest, hplans, hexec, hstate, hran, hend⟩ := h.steps
  refine ⟨plan :: ran, rest, by rw [hplans, List.cons_append], ?_, hstate, ?_, hend⟩
  · rw [hexec, simulate, runStep]
    simp
  · intro x hx
    rcases List.mem_cons.mp hx with rfl | hx
    · exact hguard
    · exact hran x hx

theorem runPlans_ran (policy : PolicySpec) (decisions : Decisions) (plans : List StepPlan)
    (p : Progress) :
    Ran policy decisions plans p (runPlans policy decisions plans p) := by
  induction plans generalizing p with
  | nil => exact ⟨[], [], rfl, by simp [runPlans, simulate], rfl, by simp, .inl ⟨rfl, rfl⟩⟩
  | cons plan plans ih =>
    rw [runPlans]
    cases hguard : plan.guard with
    | none =>
      dsimp only
      refine Ran.next ?_ (ih _)
      rw [hguard]
      intro h
      cases h
    | some guard =>
      dsimp only
      split_ifs with hdenied
      · exact ⟨[], plan :: plans, rfl, by simp [denyStep, simulate], rfl, by simp, .inr ⟨_, rfl⟩⟩
      · exact Ran.next (fun _ => by simpa using hdenied) (ih _)

theorem simulate_length (plans : List StepPlan) (state : Facts) :
    (simulate plans state).1.length = plans.length := by
  induction plans generalizing state with
  | nil => rfl
  | cons plan plans ih => simp [simulate, ih]

theorem simulate_plans (plans : List StepPlan) (state : Facts) :
    (simulate plans state).1.map TraceStep.plan = plans := by
  induction plans generalizing state with
  | nil => rfl
  | cons plan plans ih => simp [simulate, ih]

theorem simulate_last {last : TraceStep} (state : Facts)
    (h : (simulate plans state).1.getLast? = some last) : last.state = (simulate plans state).2 := by
  induction plans generalizing state with
  | nil => cases h
  | cons plan plans ih =>
    cases plans with
    | nil =>
      obtain rfl := Option.some.inj h
      rfl
    | cons plan' plans => exact ih (updateFacts plan.produces state) h

theorem decided_of_not_denied {plan : StepPlan} {g : GuardSpec}
    (h : guardDenied policy decisions plan = false) (hg : g ∈ policy.guards)
    (happlies : guardApplies plan.capabilityId g.requiredFor = true) :
    decided decisions g.ruleId = true := by
  have hnil : evaluateGuard policy plan.capabilityId decisions = [] := by
    simpa [guardDenied] using h
  rw [evaluateGuard, List.map_eq_nil_iff, List.filter_eq_nil_iff] at hnil
  simpa [happlies] using hnil g hg

theorem broken_of_checkState {state : Facts} (h : checkState policy state = []) {i : Invariant}
    (hi : i ∈ policy.invariants) : i.broken state = false := by
  rw [checkState, List.map_eq_nil_iff, List.filter_eq_nil_iff] at h
  simpa using h i hi

theorem not_all_of_not_broken {state : Facts} {i : Invariant} (h : i.broken state = false)
    (hnever : i.kind = some "never".toList) {l : Literal} {ls : List Literal}
    (htoks : tokenizeCondition (strip i.conditionText) = some (conjunction l ls))
    (hplain : ∀ x ∈ l :: ls, x.fact ∉ reserved) :
    ∃ x ∈ l :: ls, x.holds state = false := by
  have hne : i.conditionText ≠ [] := by
    intro hnil
    rw [hnil] at htoks
    obtain ⟨tok, toks, hhead, -⟩ := head_tokens l (tailTokens ls)
    rw [conjunction, hhead] at htoks
    cases htoks
  have hmatch : matchesCondition i.conditionText state = false := by
    simpa [Invariant.broken, hnever, hne] using h
  rw [matchesCondition_conjunction htoks hplain, List.all_eq_false] at hmatch
  obtain ⟨x, hx, hfalse⟩ := hmatch
  exact ⟨x, hx, by simpa using hfalse⟩

theorem verify_success {capabilities : List CapabilitySpec} {workflow : WorkflowPolicy}
    (h : verify policy capabilities workflow = .success) :
    ∃ plans, planWorkflowSteps workflow (verifierCapabilities capabilities) = .ok plans ∧
      (plans ≠ [] → checkState policy (simulate plans []).2 = []) := by
  rw [verify, buildStateTrace] at h
  cases hplans : planWorkflowSteps workflow (verifierCapabilities capabilities) with
  | error m =>
    rw [hplans] at h
    cases h
  | ok plans =>
    rw [hplans] at h
    refine ⟨plans, rfl, fun hne => ?_⟩
    simp only [Except.map] at h
    cases hcheck : checkState policy (simulate plans []).2 with
    | nil => rfl
    | cons v vs =>
      rw [hcheck] at h
      cases hlast : (simulate plans []).1.getLast? with
      | none =>
        have hlen := simulate_length plans []
        rw [List.getLast?_eq_none_iff.mp hlast] at hlen
        exact absurd (List.length_eq_zero_iff.mp hlen.symm) hne
      | some last =>
        rw [hlast] at h
        cases h

theorem executeWorkflow_cases {schemas : Schemas} {workflow : WorkflowPolicy}
    {capabilities : List CapabilitySpec} {events : List Str} {trace : ExecutionTrace} {p : Progress}
    (h : executeWorkflow schemas workflow policy capabilities decisions events = .ok (trace, p)) :
    ∃ plans, planWorkflowSteps workflow capabilities = .ok plans ∧
      (plans ≠ [] → checkState policy (simulate plans []).2 = []) ∧
      p = runPlans policy decisions plans {} ∧ trace = buildTrace workflow decisions events p := by
  rw [executeWorkflow] at h
  split_ifs at h
  cases hverify : verify policy capabilities workflow with
  | success =>
    obtain ⟨plans, hplans, hcheck⟩ := verify_success hverify
    have hexec := planWorkflowSteps_verifier hplans
    rw [hverify, hexec] at h
    dsimp only at h
    split_ifs at h
    obtain ⟨rfl, rfl⟩ := Prod.mk.inj (Except.ok.inj h)
    exact ⟨plans, hexec, hcheck, rfl, rfl⟩
  | missing m =>
    rw [hverify] at h
    cases h
  | violated v index capabilityId state =>
    rw [hverify] at h
    cases h

theorem executed_workflow_safe {schemas : Schemas} {workflow : WorkflowPolicy}
    {capabilities : List CapabilitySpec} {events : List Str} {trace : ExecutionTrace} {p : Progress}
    (h : executeWorkflow schemas workflow policy capabilities decisions events = .ok (trace, p)) :
    (trace.violations = [] → ∀ last, p.executed.getLast? = some last →
      last.state = trace.stateSnapshot ∧ p.executed.length = workflow.steps.length ∧
      ∀ i ∈ policy.invariants, i.broken last.state = false ∧
        (i.kind = some "never".toList → ∀ l ls,
          tokenizeCondition (strip i.conditionText) = some (conjunction l ls) →
          (∀ x ∈ l :: ls, x.fact ∉ reserved) → ∃ x ∈ l :: ls, x.holds last.state = false)) ∧
    ∀ step ∈ p.executed, step.plan.guard.isSome = true → ∀ g ∈ policy.guards,
      guardApplies step.plan.capabilityId g.requiredFor = true →
        decided decisions g.ruleId = true := by
  obtain ⟨plans, hplans, hcheck, rfl, rfl⟩ := executeWorkflow_cases h
  obtain ⟨ran, rest, hsplit, hexec, hstate, hguards, hend⟩ :=
    (runPlans_ran policy decisions plans {}).steps
  have hexec : (runPlans policy decisions plans {}).executed = (simulate ran []).1 := by
    simpa using hexec
  constructor
  · intro hclean last hlast
    have hall : ran = plans := by
      rcases hend with ⟨-, rfl⟩ | ⟨v, hv⟩
      · rw [hsplit, List.append_nil]
      · change (runPlans policy decisions plans {}).violations = [] at hclean
        rw [hclean] at hv
        cases hv
    subst hall
    rw [hexec] at hlast
    have hlaststate : last.state = (simulate ran []).2 := simulate_last [] hlast
    have hne : ran ≠ [] := by
      rintro rfl
      cases hlast
    refine ⟨hlaststate.trans hstate.symm, ?_, fun i hi => ?_⟩
    · rw [hexec, simulate_length]
      rw [planWorkflowSteps, Fallible.mapM_eq_ok] at hplans
      exact hplans.length_eq.symm
    · have hbroken : i.broken last.state = false := by
        rw [hlaststate]
        exact broken_of_checkState (hcheck hne) hi
      exact ⟨hbroken, fun hnever l ls htoks hplain =>
        not_all_of_not_broken hbroken hnever htoks hplain⟩
  · intro step hstep hguard g hg happlies
    rw [hexec] at hstep
    have hran : step.plan ∈ ran := by
      rw [← simulate_plans ran []]
      exact List.mem_map_of_mem hstep
    exact decided_of_not_denied (hguards step.plan hran hguard) hg happlies

def computeSpec : CapabilitySpec where
  capabilityId := some "compute.process".toList
  eventTypes := [some "compute.process.done".toList]
  stateExtractors := [[("computation.completed".toList, .obj [("value".toList, .bool true)])]]

def validateSpec : CapabilitySpec where
  capabilityId := some "validate.result".toList
  eventTypes := [some "validate.result.done".toList]
  stateExtractors := [[("result.validated".toList, .obj [("value".toList, .bool true)]),
    ("result.unvalidated".toList, .obj [("value".toList, .bool false)])]]

def neverUnvalidated : Invariant where
  kind := some "never".toList
  id := some "inv.no_unvalidated_external_write".toList
  condition := some "result.unvalidated".toList

def approval : GuardSpec where
  name := some "approval".toList
  requiredFor := .many ["compute.process".toList]

def referencePolicy : PolicySpec := ⟨[neverUnvalidated], [approval]⟩

def referenceWorkflow (guard : Option StepGuard) : WorkflowPolicy where
  workflowId := "policy.reference".toList
  steps := [⟨"step_compute".toList, "compute.process".toList, guard⟩,
    ⟨"step_validate".toList, "validate.result".toList, none⟩]

def anySchema : Schemas := ⟨fun _ => true, fun _ => true⟩

def referenceRun (guard : Option StepGuard) (decisions : Decisions) :
    Except ExecutionError (ExecutionTrace × Progress) :=
  executeWorkflow anySchema (referenceWorkflow guard) referencePolicy [computeSpec, validateSpec]
    decisions []

theorem approved_run_safe :
    ∃ r, referenceRun (some ⟨some "approval".toList⟩) [("approval".toList, true)] = .ok r ∧
      r.1.violations = [] ∧ ∀ last, r.2.executed.getLast? = some last →
        neverUnvalidated.broken last.state = false := by
  have hclean : (referenceRun (some ⟨some "approval".toList⟩) [("approval".toList, true)]).toOption.map
      (fun r => r.1.violations) = some [] := by
    decide +kernel
  cases hrun : referenceRun (some ⟨some "approval".toList⟩) [("approval".toList, true)] with
  | error e =>
    rw [hrun] at hclean
    cases hclean
  | ok r =>
    rw [hrun] at hclean
    have hnone : r.1.violations = [] := Option.some.inj hclean
    refine ⟨r, rfl, hnone, fun last hlast => ?_⟩
    exact (((executed_workflow_safe hrun).1 hnone last hlast).2.2 neverUnvalidated
      (List.mem_singleton_self _)).1

theorem unvalidated_midway :
    (referenceRun none [("approval".toList, false)]).toOption.map (fun r =>
      r.2.executed.map (fun step =>
        (neverUnvalidated.broken step.state,
          guardApplies step.plan.capabilityId approval.requiredFor,
          decided [("approval".toList, false)] approval.ruleId))) =
      some [(true, true, false), (false, false, false)] := by
  decide +kernel

end runs

end TraceMind.Workflow
