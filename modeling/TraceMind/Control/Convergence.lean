import TraceMind.Artifacts.Hash
import TraceMind.Foundation.Fallible
import TraceMind.Queue.Envelope
import TraceMind.Workflow.PolicyEngine

namespace TraceMind.Control

open Artifacts (sortTexts)
open Queue (PyText)
open Workflow (truth)

-- Python's floats with the operations that are used of them; `ofJson` is `float(value)`.
class Floats (F : Type) where
  zero : F
  sub : F → F → F
  abs : F → F
  lt : F → F → Bool
  fixed : F → Str
  signed : F → Str
  str : F → Str
  ofJson : Json → Option F

inductive MetaError where
  | runner (message : Str)
  | typeError (message : Str)
  | indexError (message : Str)

section tracker

variable {F : Type}

structure CycleRecord (F : Type) where
  cycleId : Str
  kpis : OrderedDict Str F
  policyRuleFired : Str
  actStatus : Str
  errors : List Json

variable [Floats F] (py : PyText)

def coerceNumeric : Json → Option F
  | .int n => Floats.ofJson (.int n)
  | .float t => Floats.ofJson (.float t)
  | .nan => Floats.ofJson .nan
  | .infinity negative => Floats.ofJson (.infinity negative)
  | .str s => Floats.ofJson (.str s)
  | _ => none

def fieldsOf : Option Json → List (Str × Json)
  | some (.obj fields) => fields
  | _ => []

def captureKpi (kpis : OrderedDict Str F) (metric : Str × Json) : OrderedDict Str F :=
  match coerceNumeric metric.2 with
  | some v => kpis.assign metric.1 v
  | none => kpis

def kpisOf (metrics : List (Str × Json)) (kpiKeys : Option (List Str)) : OrderedDict Str F :=
  match kpiKeys with
  | none => metrics.foldl captureKpi OrderedDict.empty
  | some keys => (keys.map (fun key => (key, (metrics.lookup key).getD .null))).foldl captureKpi
      OrderedDict.empty

def ruleOf (action : Json) : Option Str :=
  match action with
  | .obj fields =>
    if truth ((fields.lookup "applied".toList).getD .null) then
      some (py.str ((fields.lookup "rule_id".toList).getD (.str [])))
    else none
  | _ => none

def ruleFired (policyResult : Option Json) : Str :=
  match (fieldsOf policyResult).lookup "actions".toList with
  | some (.arr actions) => (actions.findSome? (ruleOf py)).getD []
  | _ => []

def tupleOf : Json → Except MetaError (List Json)
  | .arr items => .ok items
  | .str s => .ok (s.map (fun c => .str [c]))
  | .obj fields => .ok (fields.map (fun f => .str f.1))
  | _ => .error (.typeError "object is not iterable".toList)

structure L1CycleResult where
  snapshot : List (Str × Json)
  report : List (Str × Json)
  policyResult : Option Json := none

def CycleRecord.fromCycleOutputs (cycleId : Str) (result : L1CycleResult)
    (kpiKeys : Option (List Str)) : Except MetaError (CycleRecord F) := do
  let env := fieldsOf (result.snapshot.lookup "environment".toList)
  let errors ← tupleOf ((result.report.lookup "errors".toList).getD (.arr []))
  return {
    cycleId := cycleId
    kpis := kpisOf (fieldsOf (env.lookup "metrics".toList)) kpiKeys
    policyRuleFired := ruleFired py result.policyResult
    actStatus := py.str ((result.report.lookup "status".toList).getD (.str []))
    errors := errors }

structure KpiTracker (F : Type) where
  windowSize : ℕ
  window : List (CycleRecord F) := []

namespace KpiTracker

def record (tracker : KpiTracker F) (rec : CycleRecord F) : KpiTracker F :=
  { tracker with
    window := (tracker.window ++ [rec]).drop (tracker.window.length + 1 - tracker.windowSize) }

def count (tracker : KpiTracker F) : ℕ := tracker.window.length

def kpiSeries (tracker : KpiTracker F) (kpiName : Str) : List F :=
  tracker.window.filterMap (fun rec => rec.kpis.get? kpiName)

end KpiTracker

end tracker

section detector

variable {F : Type} [Floats F]

inductive Trend where
  | improving
  | stalled
  | worsening
  | insufficientData
deriving DecidableEq

def Trend.value : Trend → Str
  | .improving => "improving".toList
  | .stalled => "stalled".toList
  | .worsening => "worsening".toList
  | .insufficientData => "insufficient_data".toList

structure ConvergenceVerdict (F : Type) where
  converged : Bool
  trend : Trend
  kpiName : Str
  values : List F
  delta : F
  reason : Str

def ConvergenceVerdict.needsEscalation (v : ConvergenceVerdict F) : Bool :=
  v.trend = .worsening || v.trend = .stalled

structure ConvergenceDetector (F : Type) where
  targetKpi : Str
  targetValue : F
  tolerance : F
  minWindow : ℤ := 3
  stallThreshold : F
  direction : Str := "down".toList

def lastItems {α : Type} (n : ℤ) (xs : List α) : List α :=
  if 0 < n then xs.drop (xs.length - n.toNat) else xs.drop (-n).toNat

def intText (n : ℤ) : Str := Json.intText n

def overCycles (n : ℕ) : Str := " over ".toList ++ intText n ++ " cycles".toList

namespace ConvergenceDetector

variable (detector : ConvergenceDetector F)

def insufficient (series : List F) : ConvergenceVerdict F where
  converged := false
  trend := .insufficientData
  kpiName := detector.targetKpi
  values := series
  delta := Floats.zero
  reason := "need ".toList ++ intText detector.minWindow ++ " data points, have ".toList ++
    intText series.length

def verdict (trend : Trend) (recent : List F) (delta : F) (reason : Str) :
    ConvergenceVerdict F where
  converged := false
  trend := trend
  kpiName := detector.targetKpi
  values := recent
  delta := delta
  reason := detector.targetKpi ++ reason

def judge (recent : List F) (oldest current : F) : ConvergenceVerdict F :=
  if Floats.lt (Floats.abs (Floats.sub current detector.targetValue)) detector.tolerance then
    { converged := true
      trend := .improving
      kpiName := detector.targetKpi
      values := recent
      delta := Floats.sub current detector.targetValue
      reason := detector.targetKpi ++ '=' :: (Floats.fixed current ++
        " within tolerance of target ".toList ++ Floats.str detector.targetValue) }
  else
    let delta := Floats.sub current oldest
    let change := "Δ=".toList ++ Floats.signed delta ++ overCycles recent.length
    if Floats.lt (Floats.abs delta) detector.stallThreshold then
      detector.verdict .stalled recent delta (" stalled: ".toList ++ change ++
        " (threshold=".toList ++ Floats.str detector.stallThreshold ++ [')'])
    else if if detector.direction = "down".toList then Floats.lt delta Floats.zero
        else Floats.lt Floats.zero delta then
      detector.verdict .improving recent delta (" improving: ".toList ++ change)
    else
      detector.verdict .worsening recent delta (" worsening: ".toList ++ change ++
        " — adversary may have adapted".toList)

def evaluate (tracker : KpiTracker F) : Except MetaError (ConvergenceVerdict F) :=
  let series := tracker.kpiSeries detector.targetKpi
  if (series.length : ℤ) < detector.minWindow then .ok (detector.insufficient series)
  else
    let recent := lastItems detector.minWindow series
    match recent.head?, recent.getLast? with
    | some oldest, some current => .ok (detector.judge recent oldest current)
    | _, _ => .error (.indexError "list index out of range".toList)

end ConvergenceDetector

end detector

section escalation

variable {F : Type} [Floats F]

inductive Severity where
  | info
  | warning
  | critical
deriving DecidableEq

inductive SuggestedAction where
  | tightenThresholds
  | addNewRule
  | updateKnowledge
  | humanReview
  | recompileBundle
deriving DecidableEq

structure Observation (F : Type) where
  cycleId : Str
  kpis : OrderedDict Str F
  ruleFired : Str

structure Counterexample (F : Type) where
  description : Str
  before : Observation F
  after : Observation F
  hypothesis : Str

structure EscalationReport (F : Type) where
  reportId : Str
  timestamp : Str
  severity : Severity
  intentRef : Str
  verdicts : List (ConvergenceVerdict F)
  kpiHistory : List (CycleRecord F)
  recentRulesFired : List Str
  recentErrors : List Str
  gapSummary : Str
  suggestedActions : List SuggestedAction
  counterexample : Option (Counterexample F)

structure Escalator where
  intentRef : Str := "intent.unspecified".toList

structure Stamp where
  seconds : Str
  utc : Str

def errorTexts : List Json → Option (List Str)
  | [] => some []
  | .str s :: rest => (errorTexts rest).map (s :: ·)
  | _ :: _ => none

namespace Escalator

def full (tracker : KpiTracker F) : Bool := tracker.windowSize ≤ tracker.count

def classifySeverity (worst : ConvergenceVerdict F) (tracker : KpiTracker F) : Severity :=
  match worst.trend with
  | .worsening => if full tracker then .critical else .warning
  | .stalled => .warning
  | _ => .info

def rulesFired (tracker : KpiTracker F) : List Str :=
  (tracker.window.map CycleRecord.policyRuleFired).filter (· ≠ [])

def recentErrors (tracker : KpiTracker F) : Except MetaError (List Str) :=
  match errorTexts (tracker.window.flatMap CycleRecord.errors) with
  | some texts => .ok texts
  | none => .error (.typeError "errors must be strings".toList)

def part (label : Str) (separator : Str) (items : List Str) : List Str :=
  if items = [] then [] else [label ++ separator.intercalate (sortTexts items.eraseDups)]

def buildGapSummary (needs : List (ConvergenceVerdict F)) (rules errors : List Str) : Str :=
  " | ".toList.intercalate
    (needs.map (fun v => '[' :: (v.trend.value ++ "] ".toList ++ v.kpiName ++ ": ".toList ++
        v.reason)) ++
      part "Rules fired without effect: ".toList ", ".toList rules ++
      part "Execution errors: ".toList "; ".toList errors)

def suggestActions (worst : ConvergenceVerdict F) (tracker : KpiTracker F) :
    List SuggestedAction :=
  match worst.trend with
  | .worsening => [.humanReview, .addNewRule, .updateKnowledge] ++
      (if full tracker then [.recompileBundle] else [])
  | .stalled => [.tightenThresholds, .addNewRule]
  | _ => []

def observe (rec : CycleRecord F) : Observation F := ⟨rec.cycleId, rec.kpis, rec.policyRuleFired⟩

def fixedOr (v : Option F) : Str := (v.map Floats.fixed).getD []

def buildCounterexample (worst : ConvergenceVerdict F) (tracker : KpiTracker F) :
    Option (Counterexample F) :=
  match tracker.window with
  | early :: next :: rest =>
    if worst.trend = .worsening then
      some {
        description := worst.kpiName ++ " worsened from ".toList ++ fixedOr worst.values.head? ++
          " to ".toList ++ fixedOr worst.values.getLast? ++ " despite L1 interventions".toList
        before := observe early
        after := observe ((next :: rest).getLast (List.cons_ne_nil _ _))
        hypothesis := ("Adversary may have adapted to current countermeasures. " ++
          "Consider new detection signals or policy rules.").toList }
    else none
  | _ => none

def evaluate (escalator : Escalator) (stamp : Stamp) (tracker : KpiTracker F)
    (verdicts : List (ConvergenceVerdict F)) : Except MetaError (Option (EscalationReport F)) :=
  match verdicts.filter ConvergenceVerdict.needsEscalation with
  | [] => .ok none
  | worst :: others => do
    let errors ← recentErrors tracker
    return some {
      reportId := "esc-".toList ++ escalator.intentRef ++ '-' :: stamp.seconds
      timestamp := stamp.utc
      severity := classifySeverity worst tracker
      intentRef := escalator.intentRef
      verdicts := worst :: others
      kpiHistory := tracker.window
      recentRulesFired := (rulesFired tracker).eraseDups
      recentErrors := errors.eraseDups
      gapSummary := buildGapSummary (worst :: others) (rulesFired tracker) errors
      suggestedActions := suggestActions worst tracker
      counterexample := buildCounterexample worst tracker }

end Escalator

end escalation

end TraceMind.Control
