import TraceMind.Control.Proof
import TraceMind.Queue.Envelope
import TraceMind.Foundation.Fallible

namespace TraceMind.Control

open Artifacts
open Queue (Document PyFloat PyText)

structure ActOutcome where
  accepted : Bool
  executionId : Str := []
  message : Str := []
  skippedReason : Str := []

inductive Dispatched where
  | returned (outcome : ActOutcome)
  | raised (message : Str)

structure ArtifactRef where
  status : Str
  executionId : Str
  message : Str

structure PolicyDecision where
  effectRef : Str
  allowed : Bool
  reason : Str
  idempotencyKey : Str

inductive ExecStatus where
  | succeeded
  | partly
  | failed
deriving DecidableEq

def ExecStatus.value : ExecStatus → Str
  | .succeeded => "succeeded".toList
  | .partly => "partial".toList
  | .failed => "failed".toList

structure Evidence where
  effectRef : Str
  accepted : Bool
  executionId : Str

structure Progress where
  artifactRefs : OrderedDict Str ArtifactRef := OrderedDict.empty
  policyDecisions : List PolicyDecision := []
  errors : List Str := []
  evidence : List Evidence := []

def textAt (py : PyText) (d : Document) (key default : Str) : Str :=
  ((d.get? key).map py.str).getD default

def effectRefOf (py : PyText) (decision : Document) : Str :=
  textAt py decision "effect_ref".toList []

namespace Progress

def raised (p : Progress) (effectRef exc : Str) : Progress :=
  { p with
    errors := p.errors ++ [effectRef ++ ": ".toList ++ exc]
    artifactRefs := p.artifactRefs.assign effectRef ⟨"error".toList, [], exc⟩ }

def refStatus (o : ActOutcome) : Str :=
  if o.accepted then "applied".toList
  else if o.skippedReason.isEmpty then "rejected".toList
  else o.skippedReason

def policyOf (py : PyText) (decision : Document) (o : ActOutcome) : PolicyDecision where
  effectRef := effectRefOf py decision
  allowed := o.accepted
  reason := if o.accepted then "executed".toList else o.message
  idempotencyKey := textAt py decision "idempotency_key".toList []

def returned (py : PyText) (p : Progress) (decision : Document) (o : ActOutcome) : Progress :=
  let effectRef := effectRefOf py decision
  { artifactRefs := p.artifactRefs.assign effectRef ⟨refStatus o, o.executionId, o.message⟩
    errors :=
      if !o.accepted && !o.skippedReason.isEmpty then
        p.errors ++ [effectRef ++ ": ".toList ++ o.skippedReason]
      else p.errors
    policyDecisions := p.policyDecisions ++ [policyOf py decision o]
    evidence := p.evidence ++ [⟨effectRef, o.accepted, o.executionId⟩] }

def record (py : PyText) (p : Progress) (decision : Document) : Dispatched → Progress
  | .raised exc => p.raised (effectRefOf py decision) exc
  | .returned o => p.returned py decision o

end Progress

structure ExecutionReport where
  reportId : Str
  artifactRefs : OrderedDict Str ArtifactRef
  status : ExecStatus
  policyDecisions : List PolicyDecision
  errors : List Str
  artifacts : Json
  executionHash : Str

structure ActBaseAgent (σ : Type) where
  name : Str
  dispatchDecision : σ → Document → Dispatched × σ

def ArtifactRef.json (r : ArtifactRef) : Json :=
  .obj [("execution_id".toList, .str r.executionId), ("message".toList, .str r.message),
    ("status".toList, .str r.status)]

def PolicyDecision.fields (d : PolicyDecision) : List (Str × Json) :=
  [("allowed".toList, .bool d.allowed), ("effect_ref".toList, .str d.effectRef),
    ("idempotency_key".toList, .str d.idempotencyKey), ("reason".toList, .str d.reason)]

def refsJson (refs : OrderedDict Str ArtifactRef) : Json :=
  .obj (sortFields (refs.entries.map (fun e => (e.1, e.2.json))))

def stableHash (sha : Sha256) (payload : Json) : Str := sha.hexdigest (ProofReport.spacedStyle.render payload)

def orNull (v : Option Json) : Json := v.getD .null

def reportArtifacts (snapshot plan : Document) (refs : OrderedDict Str ArtifactRef) : Json :=
  .obj [("ObserveAgent".toList,
      .obj [("snapshot_id".toList, orNull (snapshot.get? "snapshot_id".toList)),
        ("data_hash".toList, orNull (snapshot.get? "data_hash".toList))]),
    ("DecideAgent".toList,
      .obj [("plan_id".toList, orNull (plan.get? "plan_id".toList)),
        ("summary".toList, orNull (plan.get? "summary".toList))]),
    ("ActAgent".toList, .obj [("artifact_refs".toList, refsJson refs)])]

def Progress.status (p : Progress) : ExecStatus :=
  if p.errors.isEmpty then .succeeded
  else if p.artifactRefs.entries.isEmpty then .failed
  else .partly

def Progress.report (py : PyText) (sha : Sha256) (p : Progress) (snapshot plan : Document) :
    ExecutionReport where
  reportId := textAt py plan "plan_id".toList "unknown".toList
  artifactRefs := p.artifactRefs
  status := p.status
  policyDecisions := p.policyDecisions
  errors := p.errors
  artifacts := reportArtifacts snapshot plan p.artifactRefs
  executionHash := stableHash sha
    (.obj [("artifact_refs".toList, refsJson p.artifactRefs),
      ("policy_decisions".toList, .arr (p.policyDecisions.map (fun d => .obj d.fields))),
      ("status".toList, .str p.status.value)])

abbrev Outcome (α : Type) := Except Str α

namespace ActBaseAgent

variable {σ : Type}

def dispatchAll (agent : ActBaseAgent σ) (py : PyText) :
    List Json → σ → Progress → Outcome (Progress × σ)
  | [], s, p => .ok (p, s)
  | d :: ds, s, p =>
    match Document.ofJson? d with
    | none => .error "each decision must be a mapping".toList
    | some decision =>
      let r := agent.dispatchDecision s decision
      agent.dispatchAll py ds r.2 (p.record py decision r.1)

def requires (agent : ActBaseAgent σ) (inputs : Document) (key : Str) : Outcome Document :=
  match (inputs.get? key).bind Document.ofJson? with
  | none => .error (agent.name ++ " requires '".toList ++ key ++ "'".toList)
  | some d => .ok d

def decisionsOf (plan : Document) : Outcome (List Json) :=
  match (plan.get? "decisions".toList).getD (.arr []) with
  | .arr ds => .ok ds
  | _ => .error "plan.decisions must be a sequence".toList

structure Result (σ : Type) where
  report : ExecutionReport
  evidence : List Evidence
  plane : σ

def run (agent : ActBaseAgent σ) (py : PyText) (sha : Sha256) (inputs : Document) (s : σ) :
    Outcome (Result σ) := do
  let snapshot ← agent.requires inputs "state:env.snapshot".toList
  let plan ← agent.requires inputs "artifact:proposed.plan".toList
  let decisions ← decisionsOf plan
  let done ← agent.dispatchAll py decisions s {}
  return ⟨done.1.report py sha snapshot plan, done.1.evidence, done.2⟩

end ActBaseAgent

namespace Dispatched

def accepted : Dispatched → Bool
  | .returned o => o.accepted
  | .raised _ => false

def rejected : Dispatched → Bool
  | .returned o => !o.accepted
  | .raised _ => false

def isRaised : Dispatched → Bool
  | .returned _ => false
  | .raised _ => true

def erring : Dispatched → Bool
  | .returned o => !o.accepted && !o.skippedReason.isEmpty
  | .raised _ => true

theorem accepted_not_erring {d : Dispatched} (h : d.accepted = true) : d.erring = false := by
  cases d with
  | returned o =>
    rw [accepted] at h
    rw [erring, h]
    rfl
  | raised exc => cases h

theorem accepted_not_raised {d : Dispatched} (h : d.accepted = true) : d.isRaised = false := by
  cases d with
  | returned o => rfl
  | raised exc => cases h

end Dispatched

abbrev Calls := List (Document × Dispatched)

def Progress.recordAll (py : PyText) (p : Progress) (cs : Calls) : Progress :=
  cs.foldl (fun p c => p.record py c.1 c.2) p

namespace ActBaseAgent

variable {σ : Type}

def calls (agent : ActBaseAgent σ) : List Json → σ → Calls
  | [], _ => []
  | d :: ds, s =>
    match Document.ofJson? d with
    | none => []
    | some decision =>
      let r := agent.dispatchDecision s decision
      (decision, r.1) :: agent.calls ds r.2

theorem dispatchAll_ok {agent : ActBaseAgent σ} {py : PyText} {ds : List Json} {s t : σ}
    {p q : Progress} (h : agent.dispatchAll py ds s p = .ok (q, t)) :
    q = p.recordAll py (agent.calls ds s) ∧ (agent.calls ds s).length = ds.length := by
  induction ds generalizing s p with
  | nil =>
    cases h
    exact ⟨rfl, rfl⟩
  | cons d ds ih =>
    rw [dispatchAll] at h
    rw [calls]
    cases hd : Document.ofJson? d with
    | none =>
      rw [hd] at h
      cases h
    | some decision =>
      rw [hd] at h
      obtain ⟨hq, hlen⟩ := ih h
      exact ⟨hq, congrArg Nat.succ hlen⟩

def callsOf (agent : ActBaseAgent σ) (inputs : Document) (s : σ) : Calls :=
  match agent.requires inputs "artifact:proposed.plan".toList >>= decisionsOf with
  | .ok ds => agent.calls ds s
  | .error _ => []

theorem run_ok {agent : ActBaseAgent σ} {py : PyText} {sha : Sha256} {inputs : Document} {s : σ}
    {res : Result σ} (h : agent.run py sha inputs s = .ok res) :
    ∃ snapshot plan, res.report =
      (Progress.recordAll py {} (agent.callsOf inputs s)).report py sha snapshot plan := by
  rw [run] at h
  obtain ⟨snapshot, hs, h⟩ := Fallible.bind_eq_ok.mp h
  obtain ⟨plan, hp, h⟩ := Fallible.bind_eq_ok.mp h
  obtain ⟨ds, hd, h⟩ := Fallible.bind_eq_ok.mp h
  obtain ⟨⟨q, t⟩, hq, h⟩ := Fallible.bind_eq_ok.mp h
  cases h
  refine ⟨snapshot, plan, ?_⟩
  have hcalls : agent.callsOf inputs s = agent.calls ds s := by
    rw [callsOf, hp, Fallible.bind_eq_ok.mpr ⟨plan, rfl, hd⟩]
  rw [hcalls, ← (dispatchAll_ok hq).1]

end ActBaseAgent

namespace Progress

variable (py : PyText) (p : Progress) (cs : Calls)

theorem assign_ne_nil (d : OrderedDict Str ArtifactRef) (k : Str) (v : ArtifactRef) :
    (d.assign k v).entries ≠ [] := by
  intro h
  have hget := OrderedDict.get?_assign d k k v
  rw [if_pos rfl, OrderedDict.get?, h] at hget
  cases hget

theorem record_refs (decision : Document) (d : Dispatched) :
    (p.record py decision d).artifactRefs.entries ≠ [] := by
  cases d with
  | returned o => exact assign_ne_nil _ _ _
  | raised exc => exact assign_ne_nil _ _ _

theorem recordAll_cons (c : Document × Dispatched) :
    p.recordAll py (c :: cs) = (p.record py c.1 c.2).recordAll py cs := rfl

theorem recordAll_refs : (p.recordAll py cs).artifactRefs.entries = [] ↔
    p.artifactRefs.entries = [] ∧ cs = [] := by
  induction cs generalizing p with
  | nil => simp [recordAll]
  | cons c cs ih =>
    rw [recordAll_cons, ih]
    have hne := p.record_refs py c.1 c.2
    simp [hne]

theorem record_errors (decision : Document) (d : Dispatched) :
    (p.record py decision d).errors = [] ↔ p.errors = [] ∧ d.erring = false := by
  cases d with
  | returned o =>
    simp only [record, returned, Dispatched.erring]
    split_ifs with hc
    · simp [hc]
    · simp [hc]
  | raised exc => simp [record, raised, Dispatched.erring]

theorem recordAll_errors : (p.recordAll py cs).errors = [] ↔
    p.errors = [] ∧ ∀ c ∈ cs, c.2.erring = false := by
  induction cs generalizing p with
  | nil => simp [recordAll]
  | cons c cs ih =>
    rw [recordAll_cons, ih, record_errors, List.forall_mem_cons, and_assoc]

theorem record_policy (decision : Document) (d : Dispatched) :
    (p.record py decision d).policyDecisions = [] ↔
      p.policyDecisions = [] ∧ d.isRaised = true := by
  cases d with
  | returned o =>
    have hne : p.policyDecisions ++ [policyOf py decision o] ≠ [] := by simp
    exact iff_of_false hne (fun h => absurd h.2 Bool.false_ne_true)
  | raised exc => exact (and_iff_left rfl).symm

theorem recordAll_policy : (p.recordAll py cs).policyDecisions = [] ↔
    p.policyDecisions = [] ∧ ∀ c ∈ cs, c.2.isRaised = true := by
  induction cs generalizing p with
  | nil => simp [recordAll]
  | cons c cs ih =>
    rw [recordAll_cons, ih, record_policy, List.forall_mem_cons, and_assoc]

def refuses (p : Progress) : Bool := p.policyDecisions.any (fun d => !d.allowed)

theorem record_refuses (decision : Document) (d : Dispatched) :
    (p.record py decision d).refuses = (p.refuses || d.rejected) := by
  cases d with
  | returned o =>
    show (p.policyDecisions ++ [policyOf py decision o]).any _ = _
    rw [List.any_append, List.any_cons, List.any_nil, Bool.or_false]
    rfl
  | raised exc => exact (Bool.or_false _).symm

theorem recordAll_refuses : (p.recordAll py cs).refuses =
    (p.refuses || cs.any (fun c => c.2.rejected)) := by
  induction cs generalizing p with
  | nil => simp [recordAll]
  | cons c cs ih => rw [recordAll_cons, ih, record_refuses, List.any_cons, Bool.or_assoc]

end Progress

end TraceMind.Control
