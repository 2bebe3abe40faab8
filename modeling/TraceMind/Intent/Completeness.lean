import TraceMind.Intent.DesignLoop
import TraceMind.Queue.Envelope
import TraceMind.Foundation.Fallible

namespace TraceMind.Intent

open Queue (Document PyFloat PyText Error typeName)

def heuristicLexicon : Dimension → List Str
  | .who => ["user", "actor", "agent", "operator", "service", "role", "client",
      "用户", "代理", "操作员", "角色", "服务", "客户"].map String.toList
  | .why => ["because", "in order to", "objective", "purpose", "motivation", "rationale",
      "目标", "为了", "因为", "目的", "动机", "理由"].map String.toList
  | .what => ["input", "output", "produce", "generate", "compute", "transform", "result",
      "输入", "输出", "生成", "产出", "计算", "转换", "结果"].map String.toList
  | .when => ["when", "trigger", "every", "periodic", "schedule", "interval", "liveness",
      "deadline", "timeout", "after ", "before ", "on event", "eventually", "real-time",
      "周期", "触发", "每", "定时", "超时", "之后", "之前", "时序", "实时", "最终"].map String.toList
  | .where_ => ["scope", "namespace", "cluster", "region", "topology", "network", "boundary",
      "node", "tenant", "partition", "environment",
      "作用域", "命名空间", "集群", "拓扑", "节点", "区域", "租户", "边界", "环境",
      "分区"].map String.toList
  | .how => ["via", "using", "by means", "approach", "mechanism", "pattern", "strategy",
      "通过", "使用", "方式", "机制", "手段", "策略"].map String.toList

def defaultSeverities : Dimension → Severity
  | .who | .why | .what | .how => .error
  | .when | .where_ => .warn

structure Profile where
  profileId : Str
  severities : Dimension → Option Severity
  requiredSlots : List Str
  vocabularyHints : Dimension → Option Str
  heuristicKeywords : Dimension → List Str
  requiredSlotsDimension : Dimension

namespace Profile

def severity (p : Profile) (d : Dimension) : Severity := (p.severities d).getD (defaultSeverities d)

def hint (p : Profile) (d : Dimension) : Option Str := p.vocabularyHints d

def keywords (p : Profile) (d : Dimension) : List Str :=
  (heuristicLexicon d ++ p.heuristicKeywords d).foldl
    (fun merged k => if k ∈ merged then merged else merged ++ [k]) []

end Profile

section evidence

structure RawStatus where
  status : DimStatus
  evidence : List Str
  reason : Option Str

def pyLen : Json → Except Error ℕ
  | .str s => .ok s.length
  | .arr vs => .ok vs.length
  | .obj fs => .ok fs.length
  | v => .error (.typeError ("object of type '" ++ typeName v ++ "' has no len()"))

def pyIter : Json → Except Error (List Json)
  | .str s => .ok (s.map (fun c => .str [c]))
  | .arr vs => .ok vs
  | .obj fs => .ok (fs.map (fun f => .str f.1))
  | v => .error (.typeError ("'" ++ typeName v ++ "' object is not iterable"))

-- Python's `or` on what stands at a key.
def orElse (float : PyFloat) (body : Document) (key : String) (v : Json) : Json :=
  match body.get? key.toList with
  | none => v
  | some w => if Queue.TaskEnvelope.isFalse float w then v else w

def slotMapKeys : Json → List Str
  | .obj fs => fs.map Prod.fst
  | _ => []

def slotKeys : Json → Except Error (List Str)
  | .obj fs => .ok (fs.flatMap (fun f => slotMapKeys f.2))
  | v => .error (.attributeError ("'" ++ typeName v ++ "' object has no attribute 'values'"))

def nonempty : Json → Bool
  | .null => false
  | .str s => !(strip s).isEmpty
  | .arr vs => !vs.isEmpty
  | .obj fs => !fs.isEmpty
  | _ => true

def present (body : Document) (key : String) : Bool := (body.get? key.toList).any nonempty

def counted (name : String) (n : ℕ) : Str := name.toList ++ '[' :: Json.intText n ++ [']']

variable (py : PyText) (float : PyFloat)

def evalWho (body : Document) : Except Error RawStatus := do
  let actors := orElse float body "actors" (.arr [])
  if nonempty actors then
    let n ← pyLen actors
    return ⟨.satisfied, [counted "actors" n], none⟩
  else
    return ⟨.missing, [], some "no actors declared (Who)".toList⟩

def evalWhy (body : Document) : RawStatus :=
  let contextOk := present body "context"
  let goalOk := present body "goal"
  if contextOk && goalOk then ⟨.satisfied, ["context".toList, "goal".toList], none⟩
  else if contextOk || goalOk then
    ⟨.partly, [if contextOk then "context".toList else "goal".toList],
      some "Why needs both context and goal".toList⟩
  else ⟨.missing, [], some "no context/goal (Why)".toList⟩

def countedField (name : String) (v : Json) : Except Error (List Str) :=
  if nonempty v then (pyLen v).map (fun n => [counted name n]) else .ok []

def evalWhat (body : Document) : Except Error RawStatus := do
  let inputs := orElse float body "inputs" (.arr [])
  let outputs := orElse float body "outputs" (.arr [])
  if !present body "goal" then
    return ⟨.missing, [], some "no goal (What)".toList⟩
  else
    let ins ← countedField "inputs" inputs
    let outs ← countedField "outputs" outputs
    if nonempty inputs || nonempty outputs then
      return ⟨.satisfied, "goal".toList :: ins ++ outs, none⟩
    else
      return ⟨.partly, ["goal".toList],
        some "What needs at least one of inputs/outputs".toList⟩

def triggerRule (rules : List Json) : Option Json :=
  (rules.find? (fun r => (Document.ofJson? r).any (fun d => present d "triggers"))).map
    (fun r => ((Document.ofJson? r).bind (fun d => d.get? "name".toList)).getD (.str ['?']))

def planTrigger (plan : Option Document) : Except Error (Option Json) :=
  match plan with
  | none => .ok none
  | some p => (pyIter (orElse float p "rules" (.arr []))).map triggerRule

def slotsOf (body : Document) : Json := orElse float body "slot_fills" (.obj [])

def evalWhen (body : Document) (plan : Option Document) (categories : Str → Option Str) :
    Except Error RawStatus := do
  match ← planTrigger float plan with
  | some name =>
    return ⟨.satisfied, ["plan:rule.".toList ++ py.str name ++ ".triggers".toList], none⟩
  | none =>
    let refs ← pyIter (orElse float body "property_pattern_refs" (.arr []))
    match refs.find? (fun r => categories (py.str r) = some "liveness".toList) with
    | some r => return ⟨.satisfied, ["pattern:".toList ++ py.str r ++ ":liveness".toList], none⟩
    | none =>
      let keys ← slotKeys (slotsOf float body)
      match keys.find? (startsWith "when_".toList) with
      | some k => return ⟨.satisfied, ["slot_fills.".toList ++ k], none⟩
      | none =>
        return ⟨.missing, [], some ("no linked Plan with triggers, no liveness PropertyPattern, " ++
          "and no when_* slot (When)").toList⟩

def networkId (network : Option Document) : Option Json :=
  (network.bind (fun n => n.get? "network_id".toList)).filter nonempty

def isWhereKey (k : Str) : Bool := k = "domain".toList || startsWith "where_".toList k

def evalWhere (body : Document) (network : Option Document) : Except Error RawStatus := do
  match networkId network with
  | some id => return ⟨.satisfied, ["network:".toList ++ py.str id], none⟩
  | none =>
    let keys ← slotKeys (slotsOf float body)
    match keys.find? isWhereKey with
    | some k => return ⟨.satisfied, ["slot_fills.".toList ++ k], none⟩
    | none =>
      return ⟨.missing, [], some "no AgentNetwork and no domain/where_* slot (Where)".toList⟩

def evalHow (body : Document) : Except Error RawStatus := do
  let refs := orElse float body "property_pattern_refs" (.arr [])
  if nonempty refs then
    let n ← pyLen refs
    return ⟨.satisfied, [counted "property_pattern_refs" n], none⟩
  else
    return ⟨.missing, [], some "no property_pattern_refs (How)".toList⟩

end evidence

section prose

variable (py : PyText)

def textField (body : Document) (key : String) : List Str :=
  match body.get? key.toList with
  | some (.str s) => [s]
  | _ => []

def listField (body : Document) (key : String) : List Str :=
  match body.get? key.toList with
  | some (.arr vs) => vs.map py.str
  | _ => []

def proseText (body : Document) : Str :=
  lower (['\n'].intercalate (["title", "context", "goal"].flatMap (textField body) ++
    ["assumptions", "constraints", "non_goals"].flatMap (listField py body)))

def scanProse (body : Document) (d : Dimension) (profile : Profile) : Option Str :=
  (profile.keywords d).find? (fun k => (proseText py body).tails.any (startsWith k))

end prose

section judging

structure Inputs where
  body : Document
  plan : Option Document
  network : Option Document
  categories : Str → Option Str

variable (py : PyText) (float : PyFloat)

def rawStatus (i : Inputs) : Except Error (Dimension → RawStatus) := do
  let who ← evalWho float i.body
  let what ← evalWhat float i.body
  let when ← evalWhen py float i.body i.plan i.categories
  let where_ ← evalWhere py float i.body i.network
  let how ← evalHow float i.body
  return fun d =>
    match d with
    | .who => who
    | .why => evalWhy i.body
    | .what => what
    | .when => when
    | .where_ => where_
    | .how => how

-- Python's `or` on optional texts.
def orReason (hint reason : Option Str) : Option Str := if given hint then hint else reason

def proseHint (keyword : Str) (d : Dimension) : Str :=
  "prose hint '".toList ++ keyword ++ "' found; formalize into a structured ".toList ++ d.value ++
    " field before seal".toList

def verdictOf (mode : Mode) (profile : Profile) (body : Document) (d : Dimension) (raw : RawStatus) :
    DimensionVerdict :=
  let severity := profile.severity d
  if severity = .off then { status := .notApplicable, severity }
  else
    let keyword :=
      if mode = .design ∧ raw.status = .missing then scanProse py body d profile else none
    match keyword with
    | some k =>
      { status := .partly, severity, evidence := ["heuristic:".toList ++ k]
        missingReason := raw.reason, suggestion := some (proseHint k d) }
    | none =>
      if raw.status = .satisfied then
        { status := .satisfied, severity, evidence := raw.evidence }
      else
        { status := raw.status, severity, evidence := raw.evidence, missingReason := raw.reason
          suggestion := orReason (profile.hint d) raw.reason }

def missingRequiredSlots (body : Document) (profile : Profile) : Except Error (List Str) :=
  if profile.requiredSlots.isEmpty then .ok []
  else
    (slotKeys (slotsOf float body)).map (fun keys => profile.requiredSlots.filter (· ∉ keys))

def degrade (missing : List Str) (v : DimensionVerdict) : DimensionVerdict :=
  let slots := ", ".toList.intercalate missing
  let note := "missing required slot(s): ".toList ++ slots
  { v with
    status := if v.status = .satisfied then .partly else v.status
    missingReason := some (match v.missingReason with
      | some (c :: cs) => (c :: cs) ++ "; ".toList ++ note
      | _ => note)
    suggestion := orReason v.suggestion
      (some ("fill required slot(s) under slot_fills: ".toList ++ slots)) }

def degraded (profile : Profile) (missing : List Str) (d : Dimension) (v : DimensionVerdict) :
    DimensionVerdict :=
  if !missing.isEmpty ∧ d = profile.requiredSlotsDimension ∧ v.severity ≠ .off then
    degrade missing v
  else v

def judge (mode : Mode) (profile : Profile) (i : Inputs) : Except Error Judged := do
  let raw ← rawStatus py float i
  let missing ← missingRequiredSlots float i.body profile
  return {
    profile := profile.profileId
    intentId := ((i.body.get? "intent_id".toList).map py.str).getD []
    missingSlots := missing
    verdict := fun d => degraded profile missing d (verdictOf py mode profile i.body d (raw d)) }

def compute5w1hCompleteness (rs : Resolvers) (mode : Mode) (ds : Dispositions) (profile : Profile)
    (i : Inputs) : Except Error CompletenessReport :=
  (judge py float mode profile i).map (fun j => j.report rs mode ds)

end judging

section seal_mode

variable {py : PyText} {float : PyFloat} {rs : Resolvers} {profile : Profile} {missing : List Str}
  {body : Document} {d : Dimension} {raw : RawStatus} {disp : Option Disposition}

theorem verdictOf_seal (py : PyText) (profile : Profile) (body : Document) (d : Dimension)
    (raw : RawStatus) :
    (verdictOf py .seal profile body d raw).severity = profile.severity d ∧
      (verdictOf py .seal profile body d raw).status =
        if profile.severity d = .off then .notApplicable else raw.status := by
  simp only [verdictOf, reduceCtorEq, false_and, if_false]
  by_cases ho : profile.severity d = .off
  · rw [if_pos ho, if_pos ho]
    exact ⟨rfl, rfl⟩
  · rw [if_neg ho, if_neg ho]
    split_ifs with hs
    · exact ⟨rfl, hs.symm⟩
    · exact ⟨rfl, rfl⟩

def SlotsHit (profile : Profile) (missing : List Str) (d : Dimension) : Prop :=
  missing ≠ [] ∧ d = profile.requiredSlotsDimension

def Clean (raw : RawStatus) (hit : Prop) : Prop :=
  raw.status = .notApplicable ∨ raw.status = .satisfied ∧ ¬hit

theorem degraded_severity (v : DimensionVerdict) :
    (degraded profile missing d v).severity = v.severity := by
  rw [degraded]
  split_ifs <;> rfl

theorem degraded_satisfied {v : DimensionVerdict} (h : v.severity ≠ .off) :
    (degraded profile missing d v).satisfied = true ↔
      v.status = .notApplicable ∨ v.status = .satisfied ∧ ¬SlotsHit profile missing d := by
  rw [degraded, DimensionVerdict.satisfied, Bool.or_eq_true, decide_eq_true_eq, decide_eq_true_eq]
  by_cases hit : SlotsHit profile missing d
  · rw [if_pos ⟨by simpa using hit.1, hit.2, h⟩]
    cases hv : v.status <;> simp [degrade, hv, hit]
  · rw [if_neg (fun hc => hit ⟨by simpa using hc.1, hc.2.1⟩)]
    simp [hit, or_comm]

theorem isError_seal : (degraded profile missing d (verdictOf py .seal profile body d raw)).isError
    rs .seal disp = false ↔ (profile.severity d = .error →
      Clean raw (SlotsHit profile missing d) ∨ DimensionVerdict.closedBy rs disp = true) := by
  obtain ⟨hsev, hstatus⟩ := verdictOf_seal py profile body d raw
  rw [DimensionVerdict.isError, DimensionVerdict.closed, degraded_severity, hsev]
  by_cases he : profile.severity d = .error
  · rw [if_neg (by rw [he]; exact fun h => by cases h)] at hstatus
    have hsat : (degraded profile missing d (verdictOf py .seal profile body d raw)).satisfied =
        true ↔ _ := degraded_satisfied (by rw [hsev, he]; exact fun h => by cases h)
    rw [hstatus] at hsat
    rw [Clean, ← hsat, he]
    cases (degraded profile missing d (verdictOf py .seal profile body d raw)).satisfied <;>
      cases DimensionVerdict.closedBy rs disp <;> simp
  · simp [he]

end seal_mode

end TraceMind.Intent
