import TraceMind.Artifacts.Hash
import TraceMind.Queue.Base
import TraceMind.Verify.Interface
import TraceMind.Foundation.Fallible

namespace TraceMind.Planner

open Artifacts (sortTexts strip_strip)
open Verify (joinWith)

inductive PyInt where
  | int (n : ℤ)
  | bool (b : Bool)
deriving DecidableEq

namespace PyInt

def value : PyInt → ℤ
  | .int n => n
  | .bool b => if b then 1 else 0

def toJson : PyInt → Json
  | .int n => .int n
  | .bool b => .bool b

def ofJson : Json → Option PyInt
  | .int n => some (.int n)
  | .bool b => some (.bool b)
  | _ => none

@[simp] theorem ofJson_toJson (i : PyInt) : ofJson i.toJson = some i := by
  cases i <;> rfl

end PyInt

def isFloat : Json → Bool
  | .float _ | .nan | .infinity _ => true
  | _ => false

-- Python's `float` of a number, and whether a float lies below zero.
structure Floats where
  ofNumber : Json → Except Queue.Error Json
  negative : Json → Bool
  isFloat_ofNumber : ∀ v w, ofNumber v = .ok w → isFloat w = true
  ofNumber_float : ∀ w, isFloat w = true → ofNumber w = .ok w

inductive PlanError where
  | invalid (message : Str)
  | raised (e : Queue.Error)

structure PlanConstraints where
  maxSteps : Option PyInt := none
  budgetUsd : Option Json := none

structure RetryPolicy where
  max : PyInt
  backoffMs : Option PyInt := none

structure OnErrorAction where
  retry : Option RetryPolicy := none
  fallback : Option Str := none

inductive StepKind where
  | tool
  | flow
deriving DecidableEq

def StepKind.text : StepKind → Str
  | .tool => "tool".toList
  | .flow => "flow".toList

structure PlanStep where
  id : Str
  kind : StepKind
  ref : Str
  inputs : List (Str × Json) := []
  onError : Option OnErrorAction := none

structure AllowList where
  tools : List Str := []
  flows : List Str := []

def AllowList.of (a : AllowList) : StepKind → List Str
  | .tool => a.tools
  | .flow => a.flows

structure Plan where
  goal : Str
  constraints : PlanConstraints
  allow : AllowList
  steps : List PlanStep

def optional {α : Type} (key : String) (f : α → Json) : Option α → List (Str × Json)
  | none => []
  | some v => [(key.toList, f v)]

def PlanConstraints.asDict (c : PlanConstraints) : Json :=
  .obj (optional "max_steps" PyInt.toJson c.maxSteps ++ optional "budget_usd" id c.budgetUsd)

def RetryPolicy.asDict (r : RetryPolicy) : Json :=
  .obj (("max".toList, r.max.toJson) :: optional "backoff_ms" PyInt.toJson r.backoffMs)

def OnErrorAction.asDict (o : OnErrorAction) : Json :=
  .obj (optional "retry" RetryPolicy.asDict o.retry ++ optional "fallback" Json.str o.fallback)

def PlanStep.asDict (s : PlanStep) : Json :=
  .obj ([("id".toList, .str s.id), ("kind".toList, .str s.kind.text), ("ref".toList, .str s.ref),
    ("inputs".toList, .obj s.inputs)] ++ optional "on_error" OnErrorAction.asDict s.onError)

def AllowList.asDict (a : AllowList) : Json :=
  .obj [("tools".toList, .arr (a.tools.map Json.str)), ("flows".toList, .arr (a.flows.map Json.str))]

def planVersion : Str := "plan.v1".toList

def Plan.asDict (p : Plan) : List (Str × Json) :=
  [("version".toList, .str planVersion), ("goal".toList, .str p.goal),
    ("constraints".toList, p.constraints.asDict), ("allow".toList, p.allow.asDict),
    ("steps".toList, .arr (p.steps.map PlanStep.asDict))]

abbrev Checked (α : Type) := Except PlanError α

def refuse {α : Type} (message : Str) : Checked α := .error (.invalid message)

def field (fields : List (Str × Json)) (key : String) : Json :=
  (OrderedDict.find key.toList fields).getD .null

def ensureAllowedKeys (fields : List (Str × Json)) (allowed : List String) (label : Str) :
    Checked Unit :=
  let unknown := (fields.map Prod.fst).filter (fun k => k ∉ allowed.map String.toList)
  if unknown = [] then .ok ()
  else refuse ("Unexpected fields in ".toList ++ label ++ ": ".toList ++
    joinWith ", ".toList (sortTexts unknown))

def parseText (v : Json) (message : Str) : Checked Str :=
  match v with
  | .str s => if strip s = [] then refuse message else .ok (strip s)
  | _ => refuse message

def parseBounded (v : Json) (least : ℤ) (message : Str) : Checked PyInt :=
  match PyInt.ofJson v with
  | some i => if least ≤ i.value then .ok i else refuse message
  | none => refuse message

def parseOptional {α : Type} (v : Json) (parse : Json → Checked α) : Checked (Option α) :=
  match v with
  | .null => .ok none
  | v => (parse v).map some

def isNumber (v : Json) : Bool := (PyInt.ofJson v).isSome || isFloat v

def parseBudget (fl : Floats) (v : Json) : Checked Json :=
  let message := "plan.constraints.budget_usd must be a non-negative number".toList
  if isNumber v then
    match fl.ofNumber v with
    | .error e => .error (.raised e)
    | .ok w => if fl.negative w then refuse message else .ok w
  else refuse message

def parseConstraints (fl : Floats) (v : Json) : Checked PlanConstraints :=
  match v with
  | .null => .ok {}
  | .obj fs => do
    ensureAllowedKeys fs ["max_steps", "budget_usd"] "plan.constraints".toList
    let maxSteps ← parseOptional (field fs "max_steps") (fun v =>
      parseBounded v 1 "plan.constraints.max_steps must be a positive integer".toList)
    let budgetUsd ← parseOptional (field fs "budget_usd") (parseBudget fl)
    .ok ⟨maxSteps, budgetUsd⟩
  | _ => refuse "plan.constraints must be an object if present".toList

def parseNames (vs : List Json) (message : Str) : Checked (List Str) :=
  (vs.mapM (fun v => parseText v message)).map List.eraseDups

def parseAllowList (v : Json) (label : Str) : Checked (List Str) :=
  match v with
  | .null => .ok []
  | .arr vs => parseNames vs (label ++ " entries must be non-empty strings".toList)
  | _ => refuse (label ++ " must be a list of strings".toList)

def parseAllow (v : Json) : Checked AllowList :=
  match v with
  | .null => .ok {}
  | .obj fs => do
    ensureAllowedKeys fs ["tools", "flows"] "plan.allow".toList
    let tools ← parseAllowList (field fs "tools") "plan.allow.tools".toList
    let flows ← parseAllowList (field fs "flows") "plan.allow.flows".toList
    .ok ⟨tools, flows⟩
  | _ => refuse "plan.allow must be an object".toList

def stepLabel (index : ℕ) : Str := "plan.steps[".toList ++ Nat.toDigits 10 index ++ "]".toList

def parseRetry (label : Str) (v : Json) : Checked RetryPolicy :=
  match v with
  | .obj fs => do
    ensureAllowedKeys fs ["max", "backoff_ms"] (label ++ ".on_error.retry".toList)
    let max ← parseBounded (field fs "max") 0
      (label ++ ".on_error.retry.max must be a non-negative integer".toList)
    let backoffMs ← parseOptional (field fs "backoff_ms") (fun v =>
      parseBounded v 0 (label ++ ".on_error.retry.backoff_ms must be a non-negative integer".toList))
    .ok ⟨max, backoffMs⟩
  | _ => refuse (label ++ ".on_error.retry must be an object".toList)

def parseOnError (label : Str) (v : Json) : Checked OnErrorAction :=
  match v with
  | .obj fs => do
    ensureAllowedKeys fs ["retry", "fallback"] (label ++ ".on_error".toList)
    let retry ← parseOptional (field fs "retry") (parseRetry label)
    let fallback ← parseOptional (field fs "fallback") (fun v =>
      parseText v (label ++ ".on_error.fallback must be a non-empty string when provided".toList))
    .ok ⟨retry, fallback⟩
  | _ => refuse (label ++ ".on_error must be an object if provided".toList)

def parseKind (label : Str) (v : Json) : Checked StepKind :=
  match v with
  | .arr _ => .error (.raised (.typeError "unhashable type: 'list'"))
  | .obj _ => .error (.raised (.typeError "unhashable type: 'dict'"))
  | .str s =>
    if s = "tool".toList then .ok .tool
    else if s = "flow".toList then .ok .flow
    else refuse (label ++ ".kind must be one of ['flow', 'tool']".toList)
  | _ => refuse (label ++ ".kind must be one of ['flow', 'tool']".toList)

def parseInputs (label : Str) (v : Json) : Checked (List (Str × Json)) :=
  match v with
  | .null => .ok []
  | .obj fs => .ok fs
  | _ => refuse (label ++ ".inputs must be an object if provided".toList)

def allowName : StepKind → Str
  | .tool => "allow.tools".toList
  | .flow => "allow.flows".toList

def checkRef (label : Str) (allow : AllowList) (kind : StepKind) (ref : Str) : Checked Unit :=
  if ref ∈ allow.of kind then .ok ()
  else refuse (label ++ ".ref '".toList ++ ref ++ "' not present in ".toList ++ allowName kind)

def parseStep (fs : List (Str × Json)) (allow : AllowList) (index : ℕ) : Checked PlanStep := do
  let label := stepLabel index
  ensureAllowedKeys fs ["id", "kind", "ref", "inputs", "on_error"] label
  let id ← parseText (field fs "id") (label ++ ".id must be a non-empty string".toList)
  let kind ← parseKind label (field fs "kind")
  let ref ← parseText (field fs "ref") (label ++ ".ref must be a non-empty string".toList)
  let inputs ← parseInputs label (field fs "inputs")
  let onError ← parseOptional (field fs "on_error") (parseOnError label)
  checkRef label allow kind ref
  .ok ⟨id, kind, ref, inputs, onError⟩

def parseSteps (allow : AllowList) : List Json → ℕ → List Str → Checked (List PlanStep)
  | [], _, _ => .ok []
  | .obj fs :: vs, index, seen => do
    let step ← parseStep fs allow index
    if step.id ∈ seen then refuse ("Duplicate step id: ".toList ++ step.id)
    else
      let rest ← parseSteps allow vs (index + 1) (seen ++ [step.id])
      .ok (step :: rest)
  | _ :: _, index, _ => refuse (stepLabel index ++ " must be an object".toList)

def checkVersion (repr : Json → Str) (v : Json) : Checked Unit :=
  match v with
  | .str s =>
    if s = planVersion then .ok () else refuse ("Unsupported plan version: ".toList ++ repr (.str s))
  | v => refuse ("Unsupported plan version: ".toList ++ repr v)

def stepItems (v : Json) : Checked (List Json) :=
  match v with
  | .arr [] => refuse "plan.steps must contain at least one entry".toList
  | .arr vs => .ok vs
  | _ => refuse "plan.steps must be a non-empty list".toList

def validatePlan (fl : Floats) (repr : Json → Str) (data : List (Str × Json)) : Checked Plan := do
  ensureAllowedKeys data ["version", "goal", "constraints", "allow", "steps"] "plan".toList
  checkVersion repr (field data "version")
  let goal ← parseText (field data "goal") "plan.goal must be a non-empty string".toList
  let constraints ← parseConstraints fl (field data "constraints")
  let allow ← parseAllow (field data "allow")
  let items ← stepItems (field data "steps")
  let steps ← parseSteps allow items 0 []
  .ok ⟨goal, constraints, allow, steps⟩

def Trimmed (t : Str) : Prop := strip t = t ∧ t ≠ []

theorem parseText_trimmed {v : Json} {message t : Str} (h : parseText v message = .ok t) :
    Trimmed t := by
  cases v with
  | str s =>
    rw [parseText] at h
    split_ifs at h with hs
    · cases h
    · obtain rfl := Except.ok.inj h
      exact ⟨strip_strip s, hs⟩
  | _ => cases h

theorem parseText_str {t : Str} (h : Trimmed t) (message : Str) :
    parseText (.str t) message = .ok t := by
  rw [parseText, h.1, if_neg h.2]

theorem eraseDups_of_nodup {ts : List Str} (h : ts.Nodup) : ts.eraseDups = ts := by
  induction ts with
  | nil => rfl
  | cons t ts ih =>
    rw [List.nodup_cons] at h
    rw [List.eraseDups_cons, List.filter_eq_self.mpr, ih h.2]
    intro u hu
    have hne : u ≠ t := fun hut => h.1 (hut ▸ hu)
    simp [hne]

theorem eraseDups_nodup (ts : List Str) : ts.eraseDups.Nodup := by
  induction hn : ts.length using Nat.strong_induction_on generalizing ts with
  | _ n ih =>
    cases ts with
    | nil => simp
    | cons t ts =>
      rw [List.eraseDups_cons, List.nodup_cons]
      refine ⟨by simp, ih _ ?_ _ rfl⟩
      rw [← hn, List.length_cons]
      exact Nat.lt_succ_of_le (List.length_filter_le ..)

section canonical

variable {fl : Floats} {repr : Json → Str}

structure PlanConstraints.Canonical (fl : Floats) (c : PlanConstraints) : Prop where
  maxSteps : ∀ i ∈ c.maxSteps, 1 ≤ i.value
  budgetUsd : ∀ b ∈ c.budgetUsd, isFloat b = true ∧ fl.negative b = false

structure RetryPolicy.Canonical (r : RetryPolicy) : Prop where
  max : 0 ≤ r.max.value
  backoffMs : ∀ b ∈ r.backoffMs, 0 ≤ b.value

structure OnErrorAction.Canonical (o : OnErrorAction) : Prop where
  retry : ∀ r ∈ o.retry, r.Canonical
  fallback : ∀ f ∈ o.fallback, Trimmed f

structure PlanStep.Canonical (allow : AllowList) (s : PlanStep) : Prop where
  id : Trimmed s.id
  ref : Trimmed s.ref
  onError : ∀ o ∈ s.onError, o.Canonical
  listed : s.ref ∈ allow.of s.kind

structure AllowList.Canonical (a : AllowList) : Prop where
  trimmed : ∀ kind, ∀ t ∈ a.of kind, Trimmed t
  nodup : ∀ kind, (a.of kind).Nodup

structure Plan.Canonical (fl : Floats) (p : Plan) : Prop where
  goal : Trimmed p.goal
  constraints : p.constraints.Canonical fl
  allow : p.allow.Canonical
  steps : ∀ s ∈ p.steps, s.Canonical p.allow
  nonempty : p.steps ≠ []
  ids : (p.steps.map PlanStep.id).Nodup

theorem parseBounded_spec {v : Json} {least : ℤ} {message : Str} {i : PyInt}
    (h : parseBounded v least message = .ok i) : least ≤ i.value := by
  rw [parseBounded] at h
  cases hi : PyInt.ofJson v with
  | none =>
    rw [hi] at h
    cases h
  | some j =>
    rw [hi] at h
    dsimp only at h
    split_ifs at h with hle
    · obtain rfl := Except.ok.inj h
      exact hle
    · cases h

theorem parseBounded_toJson {i : PyInt} {least : ℤ} (h : least ≤ i.value) (message : Str) :
    parseBounded i.toJson least message = .ok i := by
  simp [parseBounded, h]

theorem parseOptional_spec {α : Type} {v : Json} {parse : Json → Checked α} {o : Option α}
    (h : parseOptional v parse = .ok o) : ∀ a ∈ o, ∃ v, parse v = .ok a := by
  intro a ha
  have hmap : ∀ v, (parse v).map some = .ok o → ∃ v, parse v = .ok a := by
    intro v h
    obtain ⟨b, hb, rfl⟩ := Fallible.map_eq_ok.mp h
    obtain rfl := Option.mem_some_iff.mp ha
    exact ⟨v, hb⟩
  cases v with
  | null =>
    obtain rfl := Except.ok.inj h
    cases ha
  | _ => exact hmap _ h

theorem parseOptional_some {α : Type} {v : Json} {parse : Json → Checked α} {a : α}
    (hv : v ≠ .null) (h : parse v = .ok a) : parseOptional v parse = .ok (some a) := by
  cases v with
  | null => exact absurd rfl hv
  | _ => exact Fallible.map_eq_ok.mpr ⟨a, h, rfl⟩

theorem parseBudget_spec {v w : Json} (h : parseBudget fl v = .ok w) :
    isFloat w = true ∧ fl.negative w = false := by
  simp only [parseBudget] at h
  split_ifs at h
  · cases hv : fl.ofNumber v with
    | error e =>
      rw [hv] at h
      cases h
    | ok u =>
      rw [hv] at h
      dsimp only at h
      split_ifs at h with hneg
      · cases h
      · obtain rfl := Except.ok.inj h
        exact ⟨fl.isFloat_ofNumber v u hv, by simpa using hneg⟩
  · cases h

theorem parseBudget_float {w : Json} (hw : isFloat w = true) (hneg : fl.negative w = false) :
    parseBudget fl w = .ok w := by
  simp [parseBudget, isNumber, hw, fl.ofNumber_float w hw, hneg]

theorem parseConstraints_spec {v : Json} {c : PlanConstraints}
    (h : parseConstraints fl v = .ok c) : c.Canonical fl := by
  cases v with
  | null =>
    obtain rfl := Except.ok.inj h
    exact ⟨by simp, by simp⟩
  | obj fs =>
    obtain ⟨_, -, h⟩ := Fallible.bind_eq_ok.mp h
    obtain ⟨maxSteps, hmax, h⟩ := Fallible.bind_eq_ok.mp h
    obtain ⟨budgetUsd, hbudget, h⟩ := Fallible.bind_eq_ok.mp h
    obtain rfl := Except.ok.inj h
    refine ⟨fun i hi => ?_, fun b hb => ?_⟩
    · obtain ⟨v, hv⟩ := parseOptional_spec hmax i hi
      exact parseBounded_spec hv
    · obtain ⟨v, hv⟩ := parseOptional_spec hbudget b hb
      exact parseBudget_spec hv
  | _ => cases h

theorem parseAllowList_spec {v : Json} {label : Str} {ts : List Str}
    (h : parseAllowList v label = .ok ts) : (∀ t ∈ ts, Trimmed t) ∧ ts.Nodup := by
  cases v with
  | null =>
    obtain rfl := Except.ok.inj h
    simp
  | arr vs =>
    obtain ⟨us, hus, rfl⟩ := Fallible.map_eq_ok.mp h
    refine ⟨fun t ht => ?_, eraseDups_nodup us⟩
    rw [List.mem_eraseDups] at ht
    obtain ⟨v, -, hv⟩ := Fallible.mapM_mem hus ht
    exact parseText_trimmed hv
  | _ => cases h

theorem parseAllow_spec {v : Json} {a : AllowList} (h : parseAllow v = .ok a) : a.Canonical := by
  cases v with
  | null =>
    obtain rfl := Except.ok.inj h
    exact ⟨fun kind => by cases kind <;> simp [AllowList.of],
      fun kind => by cases kind <;> simp [AllowList.of]⟩
  | obj fs =>
    obtain ⟨_, -, h⟩ := Fallible.bind_eq_ok.mp h
    obtain ⟨tools, htools, h⟩ := Fallible.bind_eq_ok.mp h
    obtain ⟨flows, hflows, h⟩ := Fallible.bind_eq_ok.mp h
    obtain rfl := Except.ok.inj h
    have ht := parseAllowList_spec htools
    have hf := parseAllowList_spec hflows
    exact ⟨fun kind => by cases kind <;> first | exact ht.1 | exact hf.1,
      fun kind => by cases kind <;> first | exact ht.2 | exact hf.2⟩
  | _ => cases h

theorem parseRetry_spec {label : Str} {v : Json} {r : RetryPolicy}
    (h : parseRetry label v = .ok r) : r.Canonical := by
  cases v with
  | obj fs =>
    obtain ⟨_, -, h⟩ := Fallible.bind_eq_ok.mp h
    obtain ⟨max, hmax, h⟩ := Fallible.bind_eq_ok.mp h
    obtain ⟨backoff, hbackoff, h⟩ := Fallible.bind_eq_ok.mp h
    obtain rfl := Except.ok.inj h
    refine ⟨parseBounded_spec hmax, fun b hb => ?_⟩
    obtain ⟨v, hv⟩ := parseOptional_spec hbackoff b hb
    exact parseBounded_spec hv
  | _ => cases h

theorem parseOnError_spec {label : Str} {v : Json} {o : OnErrorAction}
    (h : parseOnError label v = .ok o) : o.Canonical := by
  cases v with
  | obj fs =>
    obtain ⟨_, -, h⟩ := Fallible.bind_eq_ok.mp h
    obtain ⟨retry, hretry, h⟩ := Fallible.bind_eq_ok.mp h
    obtain ⟨fallback, hfallback, h⟩ := Fallible.bind_eq_ok.mp h
    obtain rfl := Except.ok.inj h
    refine ⟨fun r hr => ?_, fun f hf => ?_⟩
    · obtain ⟨v, hv⟩ := parseOptional_spec hretry r hr
      exact parseRetry_spec hv
    · obtain ⟨v, hv⟩ := parseOptional_spec hfallback f hf
      exact parseText_trimmed hv
  | _ => cases h

theorem parseStep_spec {fs : List (Str × Json)} {allow : AllowList} {index : ℕ} {s : PlanStep}
    (h : parseStep fs allow index = .ok s) : s.Canonical allow := by
  obtain ⟨_, -, h⟩ := Fallible.bind_eq_ok.mp h
  obtain ⟨id, hid, h⟩ := Fallible.bind_eq_ok.mp h
  obtain ⟨kind, -, h⟩ := Fallible.bind_eq_ok.mp h
  obtain ⟨ref, href, h⟩ := Fallible.bind_eq_ok.mp h
  obtain ⟨inputs, -, h⟩ := Fallible.bind_eq_ok.mp h
  obtain ⟨onError, honError, h⟩ := Fallible.bind_eq_ok.mp h
  obtain ⟨_, hcheck, h⟩ := Fallible.bind_eq_ok.mp h
  obtain rfl := Except.ok.inj h
  refine ⟨parseText_trimmed hid, parseText_trimmed href, fun o ho => ?_, ?_⟩
  · obtain ⟨v, hv⟩ := parseOptional_spec honError o ho
    exact parseOnError_spec hv
  · rw [checkRef] at hcheck
    split_ifs at hcheck with hmem
    · exact hmem
    · cases hcheck

theorem parseSteps_spec {allow : AllowList} {vs : List Json} {index : ℕ} {seen : List Str}
    {steps : List PlanStep} (h : parseSteps allow vs index seen = .ok steps) :
    (∀ s ∈ steps, s.Canonical allow) ∧ steps.length = vs.length ∧
      (steps.map PlanStep.id).Nodup ∧ ∀ s ∈ steps, s.id ∉ seen := by
  induction vs generalizing index seen steps with
  | nil =>
    obtain rfl := Except.ok.inj h
    simp
  | cons v vs ih =>
    cases v with
    | obj fs =>
      obtain ⟨step, hstep, h⟩ := Fallible.bind_eq_ok.mp h
      split_ifs at h with hseen
      · cases h
      · obtain ⟨rest, hrest, h⟩ := Fallible.bind_eq_ok.mp h
        obtain rfl := Except.ok.inj h
        obtain ⟨hcan, hlen, hnodup, hfresh⟩ := ih hrest
        have hnew : ∀ s ∈ rest, s.id ≠ step.id ∧ s.id ∉ seen := by
          intro s hs
          have hnot := hfresh s hs
          rw [List.mem_append, List.mem_singleton, not_or] at hnot
          exact ⟨hnot.2, hnot.1⟩
        refine ⟨?_, by simp [hlen], ?_, ?_⟩
        · intro s hs
          rcases List.mem_cons.mp hs with rfl | hs
          · exact parseStep_spec hstep
          · exact hcan s hs
        · rw [List.map_cons, List.nodup_cons]
          refine ⟨?_, hnodup⟩
          intro hmem
          obtain ⟨s, hs, hid⟩ := List.mem_map.mp hmem
          exact (hnew s hs).1 hid
        · intro s hs
          rcases List.mem_cons.mp hs with rfl | hs
          · exact hseen
          · exact (hnew s hs).2
    | _ => cases h

theorem validatePlan_spec {data : List (Str × Json)} {p : Plan}
    (h : validatePlan fl repr data = .ok p) : p.Canonical fl := by
  obtain ⟨_, -, h⟩ := Fallible.bind_eq_ok.mp h
  obtain ⟨_, -, h⟩ := Fallible.bind_eq_ok.mp h
  obtain ⟨goal, hgoal, h⟩ := Fallible.bind_eq_ok.mp h
  obtain ⟨constraints, hconstraints, h⟩ := Fallible.bind_eq_ok.mp h
  obtain ⟨allow, hallow, h⟩ := Fallible.bind_eq_ok.mp h
  obtain ⟨items, hitems, h⟩ := Fallible.bind_eq_ok.mp h
  obtain ⟨steps, hsteps, h⟩ := Fallible.bind_eq_ok.mp h
  obtain rfl := Except.ok.inj h
  obtain ⟨hcan, hlen, hnodup, -⟩ := parseSteps_spec hsteps
  refine ⟨parseText_trimmed hgoal, parseConstraints_spec hconstraints, parseAllow_spec hallow, hcan,
    ?_, hnodup⟩
  rintro (rfl : steps = [])
  obtain rfl : items = [] := List.length_eq_zero_iff.mp hlen.symm
  cases hv : field data "steps" with
  | arr vs =>
    rw [hv] at hitems
    cases vs with
    | nil => cases hitems
    | cons v vs => cases hitems
  | _ =>
    rw [hv] at hitems
    cases hitems

end canonical

section roundTrip

variable {fl : Floats} {repr : Json → Str}

theorem parseOptional_map {α : Type} {o : Option α} {toJson : α → Json}
    {parse : Json → Checked α} (h : ∀ a ∈ o, toJson a ≠ .null ∧ parse (toJson a) = .ok a) :
    parseOptional ((o.map toJson).getD .null) parse = .ok o := by
  cases o with
  | none => rfl
  | some a =>
    obtain ⟨hne, hparse⟩ := h a rfl
    exact parseOptional_some hne hparse

theorem PyInt.toJson_ne_null (i : PyInt) : i.toJson ≠ .null := by
  cases i <;> simp [PyInt.toJson]

theorem ne_null_of_isFloat {v : Json} (h : isFloat v = true) : v ≠ .null := by
  rintro rfl
  cases h

section twoFields

variable {α β : Type} {f : α → Json} {g : β → Json} (a : Option α) (b : Option β)

theorem find_optional_first {k l : String} (hne : k.toList ≠ l.toList) :
    OrderedDict.find k.toList (optional k f a ++ optional l g b) = a.map f := by
  cases a with
  | some x => simp [optional, OrderedDict.find]
  | none => cases b <;> simp [optional, OrderedDict.find, hne.symm]

theorem find_optional_second {k l : String} (hne : k.toList ≠ l.toList) :
    OrderedDict.find l.toList (optional k f a ++ optional l g b) = b.map g := by
  cases a <;> cases b <;> simp [optional, OrderedDict.find, hne]

theorem ensureAllowedKeys_ok {fields : List (Str × Json)} {allowed : List String} {label : Str}
    (h : ∀ e ∈ fields, e.1 ∈ allowed.map String.toList) :
    ensureAllowedKeys fields allowed label = .ok () := by
  have hunknown : (fields.map Prod.fst).filter (fun k => k ∉ allowed.map String.toList) = [] := by
    rw [List.filter_eq_nil_iff]
    intro k hk
    obtain ⟨e, he, rfl⟩ := List.mem_map.mp hk
    simpa using h e he
  rw [ensureAllowedKeys, hunknown, if_pos rfl]

theorem mem_optional {k : String} {e : Str × Json} (h : e ∈ optional k f a) : e.1 = k.toList := by
  cases a with
  | none => cases h
  | some x =>
    obtain rfl := List.mem_singleton.mp h
    rfl

theorem ensureAllowedKeys_optional {k l : String} {label : Str} :
    ensureAllowedKeys (optional k f a ++ optional l g b) [k, l] label = .ok () := by
  refine ensureAllowedKeys_ok (fun e he => ?_)
  rcases List.mem_append.mp he with he | he
  · rw [mem_optional a he]
    simp
  · rw [mem_optional b he]
    simp

end twoFields

theorem PlanConstraints.Canonical.parse {c : PlanConstraints} (h : c.Canonical fl) :
    parseConstraints fl c.asDict = .ok c := by
  have hne : "max_steps".toList ≠ "budget_usd".toList := by decide
  rw [PlanConstraints.asDict, parseConstraints, ensureAllowedKeys_optional, field,
    find_optional_first _ _ hne, field, find_optional_second _ _ hne]
  refine Fallible.bind_eq_ok.mpr ⟨(), rfl, Fallible.bind_eq_ok.mpr ⟨c.maxSteps, ?_,
    Fallible.bind_eq_ok.mpr ⟨c.budgetUsd, ?_, rfl⟩⟩⟩
  · exact parseOptional_map (fun i hi =>
      ⟨i.toJson_ne_null, parseBounded_toJson (h.maxSteps i hi) _⟩)
  · refine parseOptional_map (fun b hb => ?_)
    obtain ⟨hfloat, hneg⟩ := h.budgetUsd b hb
    exact ⟨ne_null_of_isFloat hfloat, parseBudget_float hfloat hneg⟩

theorem parseAllowList_map {ts : List Str} (label : Str) (h : ∀ t ∈ ts, Trimmed t)
    (hnodup : ts.Nodup) : parseAllowList (.arr (ts.map Json.str)) label = .ok ts := by
  refine Fallible.map_eq_ok.mpr ⟨ts, ?_, eraseDups_of_nodup hnodup⟩
  rw [Fallible.mapM_eq_ok]
  induction ts with
  | nil => exact .nil
  | cons t ts ih =>
    exact .cons (parseText_str (h t List.mem_cons_self) _)
      (ih (fun u hu => h u (List.mem_cons_of_mem _ hu)) (List.nodup_cons.mp hnodup).2)

theorem AllowList.Canonical.parse {a : AllowList} (h : a.Canonical) :
    parseAllow a.asDict = .ok a :=
  Fallible.bind_eq_ok.mpr ⟨(), rfl, Fallible.bind_eq_ok.mpr ⟨a.tools,
    parseAllowList_map _ (h.trimmed .tool) (h.nodup .tool),
    Fallible.bind_eq_ok.mpr ⟨a.flows, parseAllowList_map _ (h.trimmed .flow) (h.nodup .flow), rfl⟩⟩⟩

theorem RetryPolicy.Canonical.parse {r : RetryPolicy} (h : r.Canonical) (label : Str) :
    parseRetry label r.asDict = .ok r := by
  have hback : field (("max".toList, r.max.toJson) :: optional "backoff_ms" PyInt.toJson r.backoffMs)
      "backoff_ms" = (r.backoffMs.map PyInt.toJson).getD .null := by
    cases r.backoffMs <;> rfl
  refine Fallible.bind_eq_ok.mpr ⟨(), ensureAllowedKeys_ok (fun e he => ?_),
    Fallible.bind_eq_ok.mpr ⟨r.max, parseBounded_toJson h.max _,
    Fallible.bind_eq_ok.mpr ⟨r.backoffMs, ?_, rfl⟩⟩⟩
  · rcases List.mem_cons.mp he with rfl | he
    · simp
    · rw [mem_optional r.backoffMs he]
      simp
  · rw [hback]
    exact parseOptional_map (fun b hb => ⟨b.toJson_ne_null, parseBounded_toJson (h.backoffMs b hb) _⟩)

theorem OnErrorAction.Canonical.parse {o : OnErrorAction} (h : o.Canonical) (label : Str) :
    parseOnError label o.asDict = .ok o := by
  have hne : "retry".toList ≠ "fallback".toList := by decide
  rw [OnErrorAction.asDict, parseOnError, ensureAllowedKeys_optional, field,
    find_optional_first _ _ hne, field, find_optional_second _ _ hne]
  refine Fallible.bind_eq_ok.mpr ⟨(), rfl, Fallible.bind_eq_ok.mpr ⟨o.retry, ?_,
    Fallible.bind_eq_ok.mpr ⟨o.fallback, ?_, rfl⟩⟩⟩
  · exact parseOptional_map (fun r hr =>
      ⟨by simp [RetryPolicy.asDict], (h.retry r hr).parse label⟩)
  · exact parseOptional_map (fun f hf => ⟨by simp, parseText_str (h.fallback f hf) _⟩)

theorem parseKind_text (label : Str) (kind : StepKind) :
    parseKind label (.str kind.text) = .ok kind := by
  cases kind <;> rfl

def PlanStep.fields (s : PlanStep) : List (Str × Json) :=
  [("id".toList, .str s.id), ("kind".toList, .str s.kind.text), ("ref".toList, .str s.ref),
    ("inputs".toList, .obj s.inputs)] ++ optional "on_error" OnErrorAction.asDict s.onError

theorem PlanStep.Canonical.parse {allow : AllowList} {s : PlanStep} (h : s.Canonical allow)
    (index : ℕ) : parseStep s.fields allow index = .ok s := by
  have hon : field s.fields "on_error" = (s.onError.map OnErrorAction.asDict).getD .null := by
    rw [PlanStep.fields]
    cases s.onError <;> rfl
  refine Fallible.bind_eq_ok.mpr ⟨(), ensureAllowedKeys_ok (fun e he => ?_),
    Fallible.bind_eq_ok.mpr ⟨s.id, parseText_str h.id _,
    Fallible.bind_eq_ok.mpr ⟨s.kind, parseKind_text _ _,
    Fallible.bind_eq_ok.mpr ⟨s.ref, parseText_str h.ref _,
    Fallible.bind_eq_ok.mpr ⟨s.inputs, rfl,
    Fallible.bind_eq_ok.mpr ⟨s.onError, ?_,
    Fallible.bind_eq_ok.mpr ⟨(), ?_, rfl⟩⟩⟩⟩⟩⟩⟩
  · rcases List.mem_append.mp he with he | he
    · simp only [List.mem_cons, List.not_mem_nil, or_false] at he
      rcases he with rfl | rfl | rfl | rfl <;> simp
    · rw [mem_optional s.onError he]
      simp
  · rw [hon]
    exact parseOptional_map (fun o ho =>
      ⟨by simp [OnErrorAction.asDict], (h.onError o ho).parse _⟩)
  · rw [checkRef, if_pos h.listed]

theorem parseSteps_asDict {allow : AllowList} {steps : List PlanStep} {index : ℕ} {seen : List Str}
    (h : ∀ s ∈ steps, s.Canonical allow) (hnodup : (seen ++ steps.map PlanStep.id).Nodup) :
    parseSteps allow (steps.map PlanStep.asDict) index seen = .ok steps := by
  induction steps generalizing index seen with
  | nil => rfl
  | cons s steps ih =>
    have hfresh : s.id ∉ seen := by
      intro hmem
      rw [List.nodup_append] at hnodup
      exact hnodup.2.2 s.id hmem s.id (by simp) rfl
    have hrest : parseSteps allow (steps.map PlanStep.asDict) (index + 1) (seen ++ [s.id]) =
        .ok steps := by
      refine ih (fun u hu => h u (List.mem_cons_of_mem _ hu)) ?_
      rw [List.append_assoc]
      exact hnodup
    refine Fallible.bind_eq_ok.mpr ⟨s, (h s List.mem_cons_self).parse index, ?_⟩
    rw [if_neg hfresh, hrest]
    rfl

theorem Plan.Canonical.validate {p : Plan} (h : p.Canonical fl) :
    validatePlan fl repr p.asDict = .ok p := by
  have hitems : stepItems (.arr (p.steps.map PlanStep.asDict)) =
      .ok (p.steps.map PlanStep.asDict) := by
    cases hs : p.steps with
    | nil => exact absurd hs h.nonempty
    | cons s steps => rfl
  exact Fallible.bind_eq_ok.mpr ⟨(), rfl, Fallible.bind_eq_ok.mpr ⟨(), rfl,
    Fallible.bind_eq_ok.mpr ⟨p.goal, parseText_str h.goal _,
    Fallible.bind_eq_ok.mpr ⟨p.constraints, h.constraints.parse,
    Fallible.bind_eq_ok.mpr ⟨p.allow, h.allow.parse,
    Fallible.bind_eq_ok.mpr ⟨p.steps.map PlanStep.asDict, hitems,
    Fallible.bind_eq_ok.mpr ⟨p.steps, parseSteps_asDict h.steps (by simpa using h.ids), rfl⟩⟩⟩⟩⟩⟩⟩

end roundTrip

end TraceMind.Planner
