import TraceMind.Artifacts.Hash

namespace TraceMind.Intent

inductive DesignStep where
  | draft
  | check5w1h
  | propose
  | refine
  | verify
  | accept
  | sealed
deriving DecidableEq

namespace DesignStep

def value : DesignStep → Str
  | .draft => "draft".toList
  | .check5w1h => "check_5w1h".toList
  | .propose => "propose".toList
  | .refine => "refine".toList
  | .verify => "verify".toList
  | .accept => "accept".toList
  | .sealed => "sealed".toList

def index : DesignStep → ℕ
  | .draft => 0
  | .check5w1h => 1
  | .propose => 2
  | .refine => 3
  | .verify => 4
  | .accept => 5
  | .sealed => 6

def next : DesignStep → Option DesignStep
  | .draft => some .check5w1h
  | .check5w1h => some .propose
  | .propose => some .refine
  | .refine => some .verify
  | .verify => some .accept
  | .accept => some .sealed
  | .sealed => none

theorem index_next {a b : DesignStep} (h : a.next = some b) : b.index = a.index + 1 := by
  cases a <;> cases h <;> rfl

theorem index_inj : ∀ {a b : DesignStep}, a.index = b.index → a = b := by
  intro a b h
  cases a <;> cases b <;> first | rfl | cases h

theorem index_le (a : DesignStep) : a.index ≤ DesignStep.sealed.index := by
  cases a <;> decide

def humanOnly : DesignStep → Bool
  | .accept => true
  | .sealed => true
  | _ => false

end DesignStep

inductive TurnAction where
  | propose
  | refine
  | check5w1h
  | verify
  | accept
  | clarify
  | note
deriving DecidableEq

def TurnAction.value : TurnAction → Str
  | .propose => "propose".toList
  | .refine => "refine".toList
  | .check5w1h => "check_5w1h".toList
  | .verify => "verify".toList
  | .accept => "accept".toList
  | .clarify => "clarify".toList
  | .note => "note".toList

def stepEntryAction : DesignStep → TurnAction
  | .check5w1h => .check5w1h
  | .propose => .propose
  | .refine => .refine
  | .verify => .verify
  | .accept => .accept
  | .sealed => .note
  | .draft => .note

inductive SessionStatus where
  | working
  | sealed
deriving DecidableEq

inductive Requirement where
  | completenessNoError
  | verifyPassed
  | humanSignoffAndAllDimsClosed
deriving DecidableEq

def Requirement.token : Requirement → Str
  | .completenessNoError => "completeness_no_error".toList
  | .verifyPassed => "verify_passed".toList
  | .humanSignoffAndAllDimsClosed => "human_signoff_and_all_dims_closed".toList

structure StepGate where
  step : DesignStep
  requirement : Requirement
  rationale : Str

def entryGates : List StepGate :=
  [⟨.verify, .completenessNoError,
      "5W1H check (7-0) has no error-severity gaps before formal verification".toList⟩,
    ⟨.accept, .verifyPassed,
      "formal verification verdict (7-V) holds before human accept".toList⟩,
    ⟨.sealed, .humanSignoffAndAllDimsClosed,
      "human sign_off + every required dim resolved/waived/dynamic (5w1h §3b)".toList⟩]

def entryGateFor (step : DesignStep) : Option StepGate := entryGates.find? (fun g => g.step = step)

structure GateFacts where
  completenessNoError : Bool := false
  verifyPassed : Bool := false
  humanSignoffAndAllDimsClosed : Bool := false

namespace GateFacts

def holds (f : GateFacts) : Requirement → Bool
  | .completenessNoError => f.completenessNoError
  | .verifyPassed => f.verifyPassed
  | .humanSignoffAndAllDimsClosed => f.humanSignoffAndAllDimsClosed

def satisfies (f : GateFacts) (g : StepGate) : Bool := f.holds g.requirement

end GateFacts

inductive Dimension where
  | who
  | why
  | what
  | when
  | where_
  | how
deriving DecidableEq

def Dimension.value : Dimension → Str
  | .who => "who".toList
  | .why => "why".toList
  | .what => "what".toList
  | .when => "when".toList
  | .where_ => "where".toList
  | .how => "how".toList

def allDimensions : List Dimension := [.who, .why, .what, .when, .where_, .how]

theorem mem_allDimensions (d : Dimension) : d ∈ allDimensions := by
  cases d <;> decide

inductive DimStatus where
  | satisfied
  | partly
  | missing
  | notApplicable
deriving DecidableEq

def DimStatus.value : DimStatus → Str
  | .satisfied => "satisfied".toList
  | .partly => "partial".toList
  | .missing => "missing".toList
  | .notApplicable => "not_applicable".toList

inductive Severity where
  | error
  | warn
  | off
deriving DecidableEq

def Severity.value : Severity → Str
  | .error => "error".toList
  | .warn => "warn".toList
  | .off => "off".toList

inductive Mode where
  | design
  | seal
deriving DecidableEq

def Mode.value : Mode → Str
  | .design => "design".toList
  | .seal => "seal".toList

inductive DispositionKind where
  | resolved
  | waived
  | dynamic
deriving DecidableEq

def DispositionKind.value : DispositionKind → Str
  | .resolved => "resolved".toList
  | .waived => "waived".toList
  | .dynamic => "dynamic".toList

structure Disposition where
  kind : DispositionKind
  rationale : Option Str := none
  signer : Option Str := none
  uncertaintyRegistryRef : Option Str := none
  resolverRef : Option Str := none
  schema : Option Json := none

def optText : Option Str → Json
  | none => .null
  | some s => .str s

def optField (k : String) (v : Option Str) : List (Str × Json) :=
  v.toList.map (fun s => (k.toList, .str s))

def Disposition.toDict (d : Disposition) : Json :=
  .obj (("kind".toList, .str d.kind.value) :: optField "rationale" d.rationale ++
    optField "signer" d.signer ++ optField "uncertainty_registry_ref" d.uncertaintyRegistryRef ++
    optField "resolver_ref" d.resolverRef ++ d.schema.toList.map (fun s => ("schema".toList, s)))

def given (v : Option Str) : Bool := v.any (fun s => !s.isEmpty)

structure Resolvers where
  isRegistered : Str → Bool
  listing : Str

def validateDisposition (rs : Resolvers) (d : Disposition) : List Str :=
  match d.kind with
  | .waived =>
    (if given d.rationale then [] else ["waived disposition requires a rationale".toList]) ++
      (if given d.signer then [] else ["waived disposition requires a signer".toList])
  | .dynamic =>
    match d.resolverRef with
    | some (c :: cs) =>
      if rs.isRegistered (c :: cs) then []
      else ["resolver_ref '".toList ++ (c :: cs) ++
        "' is not a registered deterministic resolver (registered: ".toList ++ rs.listing ++ [')']]
    | _ => ["dynamic disposition requires resolver_ref".toList]
  | .resolved => []

abbrev Dispositions := List (Dimension × Disposition)

def Dispositions.get? (ds : Dispositions) (d : Dimension) : Option Disposition :=
  (ds.find? (fun e => e.1 = d)).map Prod.snd

structure DimensionVerdict where
  status : DimStatus
  severity : Severity
  evidence : List Str := []
  missingReason : Option Str := none
  suggestion : Option Str := none

namespace DimensionVerdict

def satisfied (v : DimensionVerdict) : Bool := v.status = .satisfied || v.status = .notApplicable

def fields (v : DimensionVerdict) : List (Str × Json) :=
  [("status".toList, .str v.status.value), ("severity".toList, .str v.severity.value),
    ("evidence".toList, .arr (v.evidence.map .str)),
    ("missing_reason".toList, optText v.missingReason),
    ("suggestion".toList, optText v.suggestion)]

def closedBy (rs : Resolvers) (disp : Option Disposition) : Bool :=
  disp.any (fun d => (validateDisposition rs d).isEmpty && decide (d.kind ≠ .resolved))

def closed (rs : Resolvers) (disp : Option Disposition) (v : DimensionVerdict) : Bool :=
  v.satisfied || closedBy rs disp

def closureReason (rs : Resolvers) (disp : Option Disposition) (v : DimensionVerdict) :
    Option Str :=
  match disp with
  | none => none
  | some d =>
    if v.satisfied then none
    else if !(validateDisposition rs d).isEmpty then
      some ("; ".toList.intercalate (validateDisposition rs d))
    else if d.kind = .resolved then
      some "marked resolved but dimension is not structurally satisfied".toList
    else none

def isError (rs : Resolvers) (mode : Mode) (disp : Option Disposition) (v : DimensionVerdict) :
    Bool :=
  match mode with
  | .design => !v.satisfied && decide (v.severity = .error) && decide (v.status = .missing)
  | .seal => !v.satisfied && decide (v.severity = .error) && !v.closed rs disp

def isWarning (mode : Mode) (v : DimensionVerdict) : Bool :=
  match mode with
  | .design => !v.satisfied &&
      ((decide (v.severity = .error) && decide (v.status ≠ .missing)) ||
        decide (v.severity = .warn))
  | .seal => !v.satisfied && decide (v.severity = .warn)

def extra (rs : Resolvers) (disp : Option Disposition) (v : DimensionVerdict) :
    List (Str × Json) :=
  [("disposition".toList, (disp.map Disposition.toDict).getD .null),
    ("closed".toList, .bool (v.closed rs disp)),
    ("closure_reason".toList, optText (v.closureReason rs disp))]

end DimensionVerdict

structure Judged where
  profile : Str
  intentId : Str := []
  missingSlots : List Str := []
  verdict : Dimension → DimensionVerdict

structure CompletenessReport where
  profile : Str
  errors : ℕ
  sealed : Option Bool
  toDict : Json

namespace Judged

variable (rs : Resolvers) (mode : Mode) (ds : Dispositions) (j : Judged)

def errors : ℕ := allDimensions.countP (fun d => (j.verdict d).isError rs mode (ds.get? d))

def sealed : Option Bool :=
  match mode with
  | .design => none
  | .seal => some (decide (j.errors rs mode ds = 0))

def number (n : ℕ) : Json := .int n

def ofStatus (st : DimStatus) : List Dimension :=
  allDimensions.filter (fun d => (j.verdict d).status = st)

def dimensionEntry (d : Dimension) : Str × Json :=
  (d.value, .obj ((j.verdict d).fields ++
    match mode with
    | .design => []
    | .seal => (j.verdict d).extra rs (ds.get? d)))

def summary : Json :=
  .obj ([("total".toList, number allDimensions.length),
    ("satisfied".toList, number (j.ofStatus .satisfied).length),
    ("partial".toList, number (j.ofStatus .partly).length),
    ("missing".toList, number (j.ofStatus .missing).length),
    ("not_applicable".toList, number (j.ofStatus .notApplicable).length),
    ("errors".toList, number (j.errors rs mode ds)),
    ("warnings".toList, number (allDimensions.countP (fun d => (j.verdict d).isWarning mode)))] ++
    match mode with
    | .design => []
    | .seal => [("closed_by_disposition".toList, number (allDimensions.countP (fun d =>
        !(j.verdict d).satisfied && DimensionVerdict.closedBy rs (ds.get? d))))])

def closure : Json :=
  .obj (allDimensions.filterMap (fun d =>
    (ds.get? d).map (fun disp => (d.value, Json.str disp.kind.value))))

def reportDict : Json :=
  .obj ([("profile".toList, .str j.profile), ("mode".toList, .str mode.value),
    ("intent_id".toList, .str j.intentId),
    ("dimensions".toList, .obj (allDimensions.map (j.dimensionEntry rs mode ds))),
    ("missing_dimensions".toList,
      .arr ((Artifacts.sortTexts ((j.ofStatus .missing).map Dimension.value)).map .str)),
    ("missing_required_slots".toList, .arr (j.missingSlots.map .str)),
    ("summary".toList, j.summary rs mode ds)] ++
    match mode with
    | .design => []
    | .seal => [("sealed".toList, .bool (decide (j.errors rs mode ds = 0))),
        ("closure".toList, closure ds)])

def report : CompletenessReport where
  profile := j.profile
  errors := j.errors rs mode ds
  sealed := j.sealed rs mode ds
  toDict := j.reportDict rs mode ds

end Judged

structure GateCheck where
  name : Str
  passed : Bool
  detail : Str

def GateCheck.toDict (c : GateCheck) : Json :=
  .obj [("name".toList, .str c.name), ("passed".toList, .bool c.passed),
    ("detail".toList, .str c.detail)]

structure GateReport where
  passed : Bool
  hardChecks : List GateCheck
  completenessProfile : Option Str
  blockingReasons : List Str

def GateReport.toDict (g : GateReport) : Json :=
  .obj [("passed".toList, .bool g.passed),
    ("hard_checks".toList, .arr (g.hardChecks.map GateCheck.toDict)),
    ("soft_warnings".toList, .arr []),
    ("boundary".toList, .obj [
      ("completeness_relative_to_profile".toList, optText g.completenessProfile),
      ("contradiction_relative_to".toList, .str "declared CTL properties".toList),
      ("note".toList, .str ("Completeness is relative to the named profile and contradiction " ++
        "is relative to the declared properties; this is NOT a claim of " ++
        "absolute completeness or absolute consistency.").toList)]),
    ("blocking_reasons".toList, .arr (g.blockingReasons.map .str))]

def relativeText (profile : Str) : Str :=
  if profile.isEmpty then [] else " relative to profile '".toList ++ profile ++ ['\'']

def completenessCheck (report : CompletenessReport) : GateCheck :=
  if report.errors = 0 then
    ⟨"completeness".toList, true, "5W1H complete (0 errors)".toList ++ relativeText report.profile⟩
  else
    ⟨"completeness".toList, false, "5W1H incomplete: ".toList ++ Json.intText report.errors ++
      " error dimension(s)".toList ++ relativeText report.profile⟩

def noContradictionCheck (verifyPassed : Bool) : GateCheck :=
  if verifyPassed then
    ⟨"no_contradiction".toList, true,
      "CTL verification passed (no contradiction relative to declared properties)".toList⟩
  else
    ⟨"no_contradiction".toList, false,
      "CTL verification failed: contradiction relative to declared properties".toList⟩

def noExactDuplicateCheck (hash : Option Str) (existing : List Str) : GateCheck :=
  match hash with
  | some (c :: cs) =>
    if (c :: cs) ∈ existing then
      ⟨"no_exact_duplicate".toList, false,
        "exact duplicate of an existing artifact (body_hash ".toList ++ (c :: cs).take 12 ++
          "…)".toList⟩
    else
      ⟨"no_exact_duplicate".toList, true,
        "no exact duplicate (body_hash ".toList ++ (c :: cs).take 12 ++ "…)".toList⟩
  | _ => ⟨"no_exact_duplicate".toList, true,
      "no body_hash provided; exact-duplicate check skipped".toList⟩

def evaluateConsistency (report : CompletenessReport) (verifyPassed : Bool) (hash : Option Str)
    (existing : List Str) : GateReport :=
  let hard := [completenessCheck report, noContradictionCheck verifyPassed,
    noExactDuplicateCheck hash existing]
  let blocking := (hard.filter (fun c => !c.passed)).map GateCheck.name
  { passed := blocking.isEmpty, hardChecks := hard, completenessProfile := some report.profile,
    blockingReasons := blocking }

end TraceMind.Intent
