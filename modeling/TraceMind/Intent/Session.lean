import TraceMind.Intent.DesignLoop
import TraceMind.Foundation.Fallible

namespace TraceMind.Intent

open Artifacts

structure TurnContent where
  seq : ℤ
  role : Str
  action : Str
  inputRef : Option Str := none
  outputRef : Option Str := none
  provider : Option Str := none
deriving DecidableEq

structure Turn extends TurnContent where
  turnHash : Option Str := none
deriving DecidableEq

structure SignOff where
  signer : Str
  scope : List Str := []
  completenessSnapshot : Json := .obj []
  dispositions : Json := .obj []
  gateReportHash : Option Str := none
  signedAt : Option Str := none
  signHash : Option Str := none

structure Clarification where
  clarId : Str
  turnSeq : ℤ
  warningRef : Option Str
  question : Option (List (Str × Json))
  disposition : Str
  reason : Option Str
  resolution : Option Str
  recordHash : Str

structure Session where
  sessionId : Str
  rootIntentRef : Str
  status : SessionStatus
  currentStep : DesignStep
  turns : List Turn
  completeness : Option CompletenessReport := none
  producedRefs : List Str := []
  signOff : Option SignOff := none
  clarifications : List Clarification := []

inductive Refusal where
  | transition (message : Str) (requirement : Option Str := none)
  | raised (message : Str)

abbrev Attempt := Except Refusal

structure World (Source : Type) where
  resolvers : Resolvers
  judge : Source → Mode → Attempt Judged

def human : Str := "human".toList

def agent : Str := "agent".toList

def newSession (sessionId rootIntentRef : Str) : Session :=
  { sessionId, rootIntentRef, status := .working, currentStep := .draft, turns := [] }

def nextSeq : List Turn → ℤ
  | [] => 0
  | t :: ts => ts.foldl (fun m u => max m u.seq) t.seq + 1

def genesisPrevHash : Str := []

def turnPayload (c : TurnContent) (prevHash : Str) : Json :=
  .obj [("seq".toList, .int c.seq), ("role".toList, .str c.role),
    ("action".toList, .str c.action), ("input_ref".toList, optText c.inputRef),
    ("output_ref".toList, optText c.outputRef), ("provider".toList, optText c.provider),
    ("prev_hash".toList, .str prevHash)]

def turnContentHash (sha : Sha256) (c : TurnContent) (prevHash : Str) : Str :=
  bodyHash sha (turnPayload c prevHash)

def lastHash (turns : List Turn) : Str :=
  (turns.getLast?.bind Turn.turnHash).getD genesisPrevHash

def appendTurn (sha : Sha256) (turns : List Turn) (role : Str) (action : TurnAction)
    (inputRef outputRef provider : Option Str) : List Turn :=
  let content : TurnContent :=
    { seq := nextSeq turns, role, action := action.value, inputRef, outputRef, provider }
  turns ++ [⟨content, some (turnContentHash sha content (lastHash turns))⟩]

def numbered (k : String) (idx : ℕ) (rest : Str) : Str :=
  k.toList ++ '[' :: (Json.intText idx ++ ']' :: rest)

def turnLabel (idx : ℕ) (t : Turn) : Str :=
  numbered "turns" idx (" (seq=".toList ++ Json.intText t.seq ++ [')'])

def turnIssue (idx : ℕ) (t : Turn) (expected : Str) : List Str :=
  match t.turnHash with
  | none => [turnLabel idx t ++ " missing turn_hash".toList]
  | some h =>
    if h ≠ expected then
      [turnLabel idx t ++ " hash mismatch: expected ".toList ++ expected.take 12 ++
        "…, got ".toList ++ h.take 12 ++ ['…']]
    else []

def verifyFrom (sha : Sha256) : ℕ → Str → List Turn → List Str
  | _, _, [] => []
  | idx, prevHash, t :: ts =>
    let expected := turnContentHash sha t.toTurnContent prevHash
    turnIssue idx t expected ++ verifyFrom sha (idx + 1) (t.turnHash.getD expected) ts

def verifyJournal (sha : Sha256) (turns : List Turn) : List Str :=
  verifyFrom sha 0 genesisPrevHash turns

def refuse {α : Type} (message : Str) (requirement : Option Str := none) : Attempt α :=
  .error (.transition message requirement)

def requireRole (role : Str) : Attempt Unit :=
  if role = human ∨ role = agent then .ok ()
  else refuse ("role must be one of ['agent', 'human'], got '".toList ++ role ++ ['\''])

def requireWorking (s : Session) : Attempt Unit :=
  if s.status = .working then .ok ()
  else refuse "session is sealed and read-only; transitions are not allowed".toList

def requireTarget (s : Session) : Attempt DesignStep :=
  match s.currentStep.next with
  | none => refuse ("already at terminal step '".toList ++ s.currentStep.value ++
      "'; cannot advance".toList)
  | some target => .ok target

def requireHuman (target : DesignStep) (role : Str) : Attempt Unit :=
  if target.humanOnly ∧ role ≠ human then
    refuse ("step '".toList ++ target.value ++
      "' is human-only and must be triggered by a human (invariant 5), got role='".toList ++
      role ++ ['\''])
  else .ok ()

def requireGate (target : DesignStep) (facts : GateFacts) : Attempt Unit :=
  match entryGateFor target with
  | none => .ok ()
  | some gate =>
    if facts.satisfies gate then .ok ()
    else refuse ("cannot advance to '".toList ++ target.value ++ "': entry gate '".toList ++
      gate.requirement.token ++ "' not satisfied (".toList ++ gate.rationale ++ [')'])
      (some gate.requirement.token)

def closing (s : Session) (target : DesignStep) (signOff : Option SignOff) :
    Attempt (Option SignOff × SessionStatus) :=
  if target = .sealed then
    match signOff.orElse (fun _ => s.signOff) with
    | none => refuse "sealing requires a human 'sign_off'; the tool does not seal on its own".toList
        (some Requirement.humanSignoffAndAllDimsClosed.token)
    | some so => .ok (some so, .sealed)
  else .ok (s.signOff, s.status)

def advance (sha : Sha256) (s : Session) (facts : GateFacts) (role : Str)
    (signOff : Option SignOff) (note : Option Str) : Attempt Session := do
  requireRole role
  requireWorking s
  let target ← requireTarget s
  requireHuman target role
  requireGate target facts
  let c ← closing s target signOff
  .ok { s with
    currentStep := target, status := c.2, signOff := c.1
    turns := appendTurn sha s.turns role (stepEntryAction target) none note none }

def requireReason (reason : Str) : Attempt Unit :=
  if (strip reason).isEmpty then
    refuse "revert requires a non-empty 'reason' (recorded in the journal)".toList
  else .ok ()

def revert (sha : Sha256) (s : Session) (target : DesignStep) (role reason : Str) :
    Attempt Session := do
  requireRole role
  requireWorking s
  requireReason reason
  if s.currentStep.index ≤ target.index then
    refuse ("revert target '".toList ++ target.value ++
      "' must be strictly earlier than current '".toList ++ s.currentStep.value ++ ['\''])
  else
    .ok { s with
      currentStep := target
      turns := appendTurn sha s.turns role .note none (some ("revert: ".toList ++ reason)) none }

def clarifyDispositions : List Str :=
  ["amend_constraint".toList, "confirmed_distinct".toList, "merge".toList, "supplement".toList]

def dispositionRequiresReason (disposition : Str) : Bool :=
  disposition = "confirmed_distinct".toList

def optObj : Option (List (Str × Json)) → Json
  | none => .null
  | some fs => .obj fs

def Clarification.payload (c : Clarification) : Json :=
  .obj [("clar_id".toList, .str c.clarId), ("turn_seq".toList, .int c.turnSeq),
    ("warning_ref".toList, optText c.warningRef), ("question".toList, optObj c.question),
    ("disposition".toList, .str c.disposition), ("reason".toList, optText c.reason),
    ("resolution".toList, optText c.resolution)]

structure ClarifyArgs where
  disposition : Str
  role : Str := human
  question : Option (List (Str × Json)) := none
  warningRef : Option Str := none
  reason : Str := []
  resolution : Str := []

def orNone (s : Str) : Option Str := if s.isEmpty then none else some s

def newClarification (sha : Sha256) (s : Session) (a : ClarifyArgs) : Clarification :=
  let record : Clarification :=
    { clarId := "clar.".toList ++ Json.intText s.clarifications.length
      turnSeq := nextSeq s.turns, warningRef := a.warningRef, question := a.question
      disposition := a.disposition, reason := orNone a.reason, resolution := orNone a.resolution
      recordHash := [] }
  { record with recordHash := bodyHash sha record.payload }

def requireDisposition (disposition : Str) : Attempt Unit :=
  if disposition ∈ clarifyDispositions then .ok ()
  else refuse ("unknown clarify disposition '".toList ++ disposition ++
    "'; one of ['amend_constraint', 'confirmed_distinct', 'merge', 'supplement']".toList)

def requireAccount (disposition reason : Str) : Attempt Unit :=
  if dispositionRequiresReason disposition ∧ (strip reason).isEmpty then
    refuse ("clarify disposition '".toList ++ disposition ++
      "' requires a recorded reason (accountability)".toList)
  else .ok ()

def clarify (sha : Sha256) (s : Session) (a : ClarifyArgs) : Attempt Session := do
  requireRole a.role
  requireWorking s
  requireDisposition a.disposition
  requireAccount a.disposition a.reason
  let record := newClarification sha s a
  .ok { s with
    clarifications := s.clarifications ++ [record]
    turns := appendTurn sha s.turns a.role .clarify a.warningRef (some record.clarId) none }

def clarTurnRefs (turns : List Turn) : List (Option Str) :=
  (turns.filter (fun t => t.action = TurnAction.clarify.value)).map (fun t => t.outputRef)

def clarLabel (idx : ℕ) (c : Clarification) : Str :=
  numbered "clarifications" idx (" (".toList ++ c.clarId ++ [')'])

def clarIssues (sha : Sha256) (refs : List (Option Str)) (idx : ℕ) (c : Clarification) : List Str :=
  (if c.recordHash ≠ bodyHash sha c.payload then
    [clarLabel idx c ++ " record_hash mismatch".toList] else []) ++
  (if some c.clarId ∉ refs then
    [clarLabel idx c ++ " not linked to any clarify turn".toList] else [])

def verifyClarifications (sha : Sha256) (s : Session) : List Str :=
  (s.clarifications.mapIdx (clarIssues sha (clarTurnRefs s.turns))).flatten

section completeness

variable {Source : Type}

def computeCompleteness (w : World Source) (source : Source) (mode : Mode) (ds : Dispositions) :
    Attempt CompletenessReport :=
  (w.judge source mode).map (fun j => j.report w.resolvers mode ds)

def embedCompleteness (w : World Source) (s : Session) (source : Source) : Attempt Session := do
  requireWorking s
  let report ← computeCompleteness w source .design []
  .ok { s with completeness := some report }

def completenessNoError (s : Session) : Bool :=
  s.completeness.any (fun r => r.errors = 0)

end completeness

section sealing

variable {Source : Type}

structure SealArgs (Source : Type) where
  signer : Str
  source : Source
  dispositions : Dispositions := []
  verifyPassed : Bool := false
  scope : Option (List Str) := none
  candidateHash : Option Str := none
  existingHashes : List Str := []
  signedAt : Option Str := none

def requireSigner (signer : Str) : Attempt Unit :=
  if (strip signer).isEmpty then
    refuse "seal requires a human 'signer'; the tool does not seal on its own".toList
      (some Requirement.humanSignoffAndAllDimsClosed.token)
  else .ok ()

def requireAccept (s : Session) : Attempt Unit :=
  if s.currentStep.next = some .sealed then .ok ()
  else refuse ("seal requires current step 'accept', got '".toList ++ s.currentStep.value ++
    ['\''])

def sealGate (a : SealArgs Source) (report : CompletenessReport) : GateReport :=
  evaluateConsistency report a.verifyPassed a.candidateHash a.existingHashes

def allDimsClosed (report : CompletenessReport) : Bool := report.sealed = some true

def sealReasons (report : CompletenessReport) (gate : GateReport) : List Str :=
  gate.blockingReasons ++
    (if !allDimsClosed report ∧ "completeness".toList ∉ gate.blockingReasons then
      ["uncertainty_closure".toList] else [])

def requireClosure (report : CompletenessReport) (gate : GateReport) : Attempt Unit :=
  if allDimsClosed report ∧ gate.passed then .ok ()
  else refuse ("cannot seal: closure invariant not met (".toList ++
    ", ".toList.intercalate (sealReasons report gate) ++ [')'])
    (some Requirement.humanSignoffAndAllDimsClosed.token)

def closureDispositions (ds : Dispositions) : Json :=
  .obj ((ds.filter (fun e => e.2.kind = .waived ∨ e.2.kind = .dynamic)).map
    (fun e => (e.1.value, e.2.toDict)))

def SignOff.core (so : SignOff) : Json :=
  .obj [("signer".toList, .str so.signer), ("scope".toList, .arr (so.scope.map .str)),
    ("completeness_snapshot".toList, so.completenessSnapshot),
    ("dispositions".toList, so.dispositions),
    ("gate_report_hash".toList, optText so.gateReportHash),
    ("signed_at".toList, optText so.signedAt)]

def signOffOf (sha : Sha256) (s : Session) (a : SealArgs Source) (report : CompletenessReport) :
    SignOff :=
  let unsigned : SignOff :=
    { signer := a.signer, scope := a.scope.getD s.producedRefs
      completenessSnapshot := report.toDict
      dispositions := closureDispositions a.dispositions
      gateReportHash := some (bodyHash sha (sealGate a report).toDict)
      signedAt := a.signedAt }
  { unsigned with signHash := some (bodyHash sha unsigned.core) }

def sealFacts (s : Session) (a : SealArgs Source) : GateFacts :=
  { completenessNoError := completenessNoError s, verifyPassed := a.verifyPassed
    humanSignoffAndAllDimsClosed := true }

def sealSession (sha : Sha256) (w : World Source) (s : Session) (a : SealArgs Source) :
    Attempt Session := do
  requireWorking s
  requireSigner a.signer
  requireAccept s
  let report ← computeCompleteness w a.source .seal a.dispositions
  requireClosure report (sealGate a report)
  advance sha s (sealFacts s a) human (some (signOffOf sha s a report)) none

end sealing

section runs

variable {Source : Type}

inductive Op (Source : Type) where
  | advance (facts : GateFacts) (role : Str) (signOff : Option SignOff) (note : Option Str)
  | revert (target : DesignStep) (role reason : Str)
  | clarify (args : ClarifyArgs)
  | embedCompleteness (source : Source)
  | sealSession (args : SealArgs Source)

def apply (sha : Sha256) (w : World Source) (s : Session) : Op Source → Attempt Session
  | .advance facts role signOff note => Intent.advance sha s facts role signOff note
  | .revert target role reason => Intent.revert sha s target role reason
  | .clarify args => Intent.clarify sha s args
  | .embedCompleteness source => Intent.embedCompleteness w s source
  | .sealSession args => Intent.sealSession sha w s args

structure Call (Source : Type) where
  world : World Source
  op : Op Source
  before : Session
  after : Session

def kept (s : Session) : Attempt Session → Session
  | .ok s' => s'
  | .error _ => s

def call (sha : Sha256) (s : Session) (e : World Source × Op Source) : Call Source :=
  { world := e.1, op := e.2, before := s, after := kept s (apply sha e.1 s e.2) }

def calls (sha : Sha256) (s : Session) : List (World Source × Op Source) → List (Call Source)
  | [] => []
  | e :: es => call sha s e :: calls sha (call sha s e).after es

def run (sha : Sha256) (s : Session) : List (World Source × Op Source) → Session
  | [] => s
  | e :: es => run sha (call sha s e).after es

def noFiles : World Unit := ⟨⟨fun _ => false, "[]".toList⟩, fun _ _ => .error (.raised [])⟩

end runs

end TraceMind.Intent
