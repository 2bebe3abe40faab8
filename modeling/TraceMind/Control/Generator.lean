import TraceMind.Control.Act

namespace TraceMind.Control

open Artifacts
open Queue (Document PyFloat PyText)

structure ReportBody where
  reportId : Str
  status : Str
  artifactRefs : Json
  errors : List Str

inductive PolicyItem where
  | mapping (fields : List (Str × Json))
  | attributes (effectRef : Str) (allowed : Bool) (reason : Str)
  | other

structure CycleResult where
  bundleArtifactId : Str
  envSnapshot : Json
  executionReport : Option (Option ReportBody)
  policyDecisions : List PolicyItem
  startTime : Str
  endTime : Str

structure ExecutionSummary where
  status : Str
  body : Option ReportBody

def ExecutionSummary.json (e : ExecutionSummary) : Json :=
  match e.body with
  | none => .obj [("status".toList, .str e.status)]
  | some b =>
    .obj [("report_id".toList, .str b.reportId), ("status".toList, .str e.status),
      ("artifact_refs".toList, b.artifactRefs), ("errors".toList, .arr (b.errors.map .str))]

def extractExecutionSummary (r : CycleResult) : ExecutionSummary :=
  match r.executionReport with
  | none => ⟨"no_report".toList, none⟩
  | some none => ⟨"no_body".toList, none⟩
  | some (some b) => ⟨b.status, some b⟩

def PolicyItem.fields : PolicyItem → Option (List (Str × Json))
  | .mapping fs => some fs
  | .attributes effectRef allowed reason =>
    some [("effect_ref".toList, .str effectRef), ("allowed".toList, .bool allowed),
      ("reason".toList, .str reason)]
  | .other => none

def extractPolicyDecisions (r : CycleResult) : List (List (Str × Json)) :=
  r.policyDecisions.filterMap PolicyItem.fields

def cycleEntry (now : Str) (r : CycleResult) : EvidenceEntry where
  source := "controller_cycle".toList
  eventType := "cycle_completed".toList
  data := [("bundle".toList, .str r.bundleArtifactId), ("start".toList, .str r.startTime),
    ("end".toList, .str r.endTime)]
  timestamp := now

def statusEntry (now status : Str) : EvidenceEntry where
  source := "execution_report".toList
  eventType := "execution_status".toList
  data := [("status".toList, .str status)]
  timestamp := now

def buildEvidenceChain (now : Str) (r : CycleResult) (extra : List EvidenceEntry) :
    List EvidenceEntry :=
  let status := (extractExecutionSummary r).status
  cycleEntry now r :: ((if status.isEmpty then [] else [statusEntry now status]) ++ extra)

def denied (float : PyFloat) (d : List (Str × Json)) : Bool :=
  match d.lookup "allowed".toList with
  | none => false
  | some v => Queue.TaskEnvelope.isFalse float v

def statusReason (status : Str) : Str :=
  if status = "succeeded".toList then "execution succeeded".toList
  else if status = "failed".toList then "execution failed".toList
  else if status = "partial".toList then "execution partially succeeded".toList
  else "execution status: ".toList ++ status

def KripkeVerdict.failing (k : KripkeVerdict) : Bool := 0 < k.propertiesChecked && !k.verified

def kripkeReason (k : KripkeVerdict) : Str :=
  if 0 < k.propertiesChecked then
    if k.verified then
      "all ".toList ++ Json.intText k.propertiesChecked ++ " properties verified".toList
    else
      let failed := ", ".toList.intercalate k.failedProperties
      "kripke failed: ".toList ++ (if failed.isEmpty then "unknown".toList else failed)
  else "no kripke properties checked".toList

def policyReasons (float : PyFloat) (ds : List (List (Str × Json))) : List Str :=
  let out := ds.filter (denied float)
  if !out.isEmpty then [Json.intText out.length ++ " policy decisions denied".toList]
  else if !ds.isEmpty then ["all policy decisions allowed".toList]
  else []

def determineVerdict (float : PyFloat) (status : Str) (k : KripkeVerdict)
    (ds : List (List (Str × Json))) : Verdict × Str :=
  let reasons := "; ".toList.intercalate
    (statusReason status :: kripkeReason k :: policyReasons float ds)
  let hasFailure := status = "failed".toList || k.failing || ds.any (denied float)
  if hasFailure then (.fail, reasons)
  else if k.propertiesChecked = 0 ∧ ds.isEmpty then (.inconclusive, reasons)
  else (.pass, reasons)

def defaultKripke : KripkeVerdict := { verified := false, propertiesChecked := 0, propertiesPassed := 0 }

def generate (sha : Sha256) (float : PyFloat) (now intentId : Str) (r : CycleResult)
    (preSnapshot : Option Json) (kripkeVerdict : Option KripkeVerdict)
    (extra : List EvidenceEntry) : ProofReport :=
  let k := kripkeVerdict.getD defaultKripke
  let ds := extractPolicyDecisions r
  let v := determineVerdict float (extractExecutionSummary r).status k ds
  ProofReport.recomputeHash sha
    { reportId := "proof-".toList ++ r.bundleArtifactId
      intentId
      cycleId := r.bundleArtifactId
      preSnapshot := preSnapshot.getD (.obj [])
      postSnapshot := r.envSnapshot
      executionSummary := (extractExecutionSummary r).json
      kripkeVerdict := k
      evidenceChain := buildEvidenceChain now r extra
      policyDecisions := ds.map .obj
      overallVerdict := v.1
      verdictReason := v.2
      createdAt := now }

def ExecutionReport.cycleResult (e : ExecutionReport) (bundleArtifactId : Str) (envSnapshot : Json)
    (startTime endTime : Str) : CycleResult where
  bundleArtifactId
  envSnapshot
  executionReport := some (some ⟨e.reportId, e.status.value, refsJson e.artifactRefs, e.errors⟩)
  policyDecisions := e.policyDecisions.map (fun d => .mapping d.fields)
  startTime
  endTime

section verdict

variable {float : PyFloat} {k : KripkeVerdict} {p : Progress} {cs : Calls}

theorem status_value_failed {e : ExecStatus} : e.value = "failed".toList ↔ e = .failed := by
  cases e <;> decide

theorem denied_fields (d : PolicyDecision) : denied float d.fields = !d.allowed := by
  have hget : d.fields.lookup "allowed".toList = some (.bool d.allowed) := rfl
  rw [denied, hget]
  cases d.allowed <;> rfl

theorem pass_iff {ds : List PolicyDecision} {e : ExecStatus} :
    (determineVerdict float e.value k (ds.map PolicyDecision.fields)).1 = .pass ↔
      e ≠ .failed ∧ k.failing = false ∧ ds.any (fun d => !d.allowed) = false ∧
        ¬(k.propertiesChecked = 0 ∧ ds = []) := by
  have hany : (ds.map PolicyDecision.fields).any (denied float) = ds.any (fun d => !d.allowed) := by
    rw [List.any_map]
    exact congrArg (List.any ds) (funext denied_fields)
  have hnil : (ds.map PolicyDecision.fields).isEmpty = true ↔ ds = [] := by
    rw [List.isEmpty_iff, List.map_eq_nil_iff]
  rw [determineVerdict]
  simp only [hany, hnil, Bool.or_eq_true, decide_eq_true_eq, status_value_failed]
  split_ifs with hf hn
  · refine iff_of_false (fun hv => by cases hv) ?_
    rintro ⟨he, hk, hd, -⟩
    rcases hf with (hf | hf) | hf
    · exact he hf
    · exact Bool.false_ne_true (hk.symm.trans hf)
    · exact Bool.false_ne_true (hd.symm.trans hf)
  · exact iff_of_false (fun hv => by cases hv) (fun h => h.2.2.2 hn)
  · rw [not_or, not_or, Bool.not_eq_true, Bool.not_eq_true] at hf
    exact iff_of_true rfl ⟨hf.1.1, hf.1.2, hf.2, hn⟩

def AllAccepted (cs : Calls) : Prop := ∀ c ∈ cs, c.2.accepted = true

instance : Decidable (AllAccepted cs) :=
  inferInstanceAs (Decidable (∀ c ∈ cs, c.2.accepted = true))

def NoneAccepted (cs : Calls) : Prop := ∀ c ∈ cs, c.2.accepted = false

def StatusRight (e : ExecStatus) (cs : Calls) : Prop :=
  (e = .succeeded ↔ AllAccepted cs) ∧ (e = .failed ↔ cs ≠ [] ∧ NoneAccepted cs) ∧
    (e = .partly ↔ ¬AllAccepted cs ∧ ¬(cs ≠ [] ∧ NoneAccepted cs))

def Noticed (k : KripkeVerdict) (cs : Calls) : Prop :=
  AllAccepted cs ∨ (∃ c ∈ cs, c.2.accepted = true) ∧ (∃ c ∈ cs, c.2.erring = true) ∧
    ((∃ c ∈ cs, c.2.rejected = true) ∨ k.failing = true)

variable (py : PyText)

theorem status_succeeded (h : ∀ c ∈ cs, c.2.erring = false) :
    (Progress.recordAll py {} cs).status = .succeeded := by
  have herr := (Progress.recordAll_errors py {} cs).mpr ⟨rfl, h⟩
  rw [Progress.status, herr]
  rfl

theorem status_partly (h : ∃ c ∈ cs, c.2.erring = true) :
    (Progress.recordAll py {} cs).status = .partly := by
  obtain ⟨c, hc, he⟩ := h
  have herr : (Progress.recordAll py {} cs).errors ≠ [] := by
    intro hnil
    have hno := ((Progress.recordAll_errors py {} cs).mp hnil).2 c hc
    rw [he] at hno
    cases hno
  have hrefs : (Progress.recordAll py {} cs).artifactRefs.entries ≠ [] := by
    intro hnil
    rw [((Progress.recordAll_refs py {} cs).mp hnil).2] at hc
    cases hc
  rw [Progress.status, if_neg (by simpa using herr), if_neg (by simpa using hrefs)]

theorem erring_cases (cs : Calls) :
    (∃ c ∈ cs, c.2.erring = true) ∨ ∀ c ∈ cs, c.2.erring = false := by
  by_cases h : ∃ c ∈ cs, c.2.erring = true
  · exact Or.inl h
  · exact Or.inr (fun c hc => Bool.eq_false_iff.mpr (fun he => h ⟨c, hc, he⟩))

theorem AllAccepted.no_error (h : AllAccepted cs) : ∀ c ∈ cs, c.2.erring = false :=
  fun c hc => Dispatched.accepted_not_erring (h c hc)

theorem noneAccepted_iff : NoneAccepted cs ↔ ¬∃ c ∈ cs, c.2.accepted = true := by
  simp [NoneAccepted]

theorem statusRight_iff : StatusRight (Progress.recordAll py {} cs).status cs ↔
    AllAccepted cs ∨ (∃ c ∈ cs, c.2.accepted = true) ∧ ∃ c ∈ cs, c.2.erring = true := by
  rw [StatusRight, noneAccepted_iff]
  rcases erring_cases cs with he | he
  · have hall : ¬AllAccepted cs := by
      obtain ⟨c, hc, hce⟩ := he
      exact fun h => Bool.false_ne_true ((h.no_error c hc).symm.trans hce)
    have hne : cs ≠ [] := by
      obtain ⟨c, hc, -⟩ := he
      exact List.ne_nil_of_mem hc
    rw [status_partly py he]
    constructor
    · rintro ⟨-, hf, -⟩
      exact Or.inr ⟨by_contra (fun hno => by cases hf.mpr ⟨hne, hno⟩), he⟩
    · rintro (h | ⟨ha, -⟩)
      · exact absurd h hall
      · refine ⟨iff_of_false (fun h => by cases h) hall,
          iff_of_false (fun h => by cases h) (fun h => h.2 ha), iff_of_true rfl ⟨hall, fun h => h.2 ha⟩⟩
  · have hno : ¬∃ c ∈ cs, c.2.erring = true := by
      rintro ⟨c, hc, hce⟩
      exact Bool.false_ne_true ((he c hc).symm.trans hce)
    rw [status_succeeded py he]
    constructor
    · rintro ⟨hs, -, -⟩
      exact Or.inl (hs.mp rfl)
    · rintro (h | ⟨-, h⟩)
      · have hsome : ¬(cs ≠ [] ∧ ¬∃ c ∈ cs, c.2.accepted = true) := by
          rintro ⟨hne, hnone⟩
          obtain ⟨c, hc⟩ := List.exists_mem_of_ne_nil cs hne
          exact hnone ⟨c, hc, h c hc⟩
        exact ⟨iff_of_true rfl h, iff_of_false (fun h => by cases h) hsome,
          iff_of_false (fun h => by cases h) (fun hp => hp.1 h)⟩
      · exact absurd h hno

theorem recordAll_pass : (determineVerdict float (Progress.recordAll py {} cs).status.value k
    ((Progress.recordAll py {} cs).policyDecisions.map PolicyDecision.fields)).1 = .pass ↔
      k.failing = false ∧ (∀ c ∈ cs, c.2.rejected = false) ∧
        ¬(k.propertiesChecked = 0 ∧ ∀ c ∈ cs, c.2.isRaised = true) := by
  have hfailed : (Progress.recordAll py {} cs).status ≠ .failed := by
    rcases erring_cases cs with he | he
    · rw [status_partly py he]
      exact fun h => by cases h
    · rw [status_succeeded py he]
      exact fun h => by cases h
  have hany := Progress.recordAll_refuses py {} cs
  rw [Progress.refuses, Progress.refuses, List.any_nil, Bool.false_or] at hany
  have hnil : (Progress.recordAll py {} cs).policyDecisions = [] ↔ ∀ c ∈ cs, c.2.isRaised = true :=
    (Progress.recordAll_policy py {} cs).trans (and_iff_right rfl)
  rw [pass_iff, hany, hnil, List.any_eq_false]
  simp only [Bool.not_eq_true]
  exact and_iff_right hfailed

theorem noticed_iff : ((k.failing = false ∧ (∀ c ∈ cs, c.2.rejected = false) ∧
      ¬(k.propertiesChecked = 0 ∧ ∀ c ∈ cs, c.2.isRaised = true)) → AllAccepted cs) ∧
    (AllAccepted cs ∨ (∃ c ∈ cs, c.2.accepted = true) ∧ ∃ c ∈ cs, c.2.erring = true) ↔
      Noticed k cs := by
  constructor
  · rintro ⟨hpass, hall | ⟨⟨c, hc, ha⟩, he⟩⟩
    · exact Or.inl hall
    by_cases hr : ∃ c ∈ cs, c.2.rejected = true
    · exact Or.inr ⟨⟨c, hc, ha⟩, he, Or.inl hr⟩
    by_cases hk : k.failing = true
    · exact Or.inr ⟨⟨c, hc, ha⟩, he, Or.inr hk⟩
    · refine Or.inl (hpass ⟨Bool.eq_false_iff.mpr hk, fun d hd => ?_, fun hn => ?_⟩)
      · exact Bool.eq_false_iff.mpr (fun hdr => hr ⟨d, hd, hdr⟩)
      · exact Bool.false_ne_true ((Dispatched.accepted_not_raised ha).symm.trans (hn.2 c hc))
  · rintro (hall | ⟨ha, he, hr⟩)
    · exact ⟨fun _ => hall, Or.inl hall⟩
    · refine ⟨fun hpass => ?_, Or.inr ⟨ha, he⟩⟩
      rcases hr with ⟨c, hc, hcr⟩ | hk
      · exact absurd ((hpass.2.1 c hc).symm.trans hcr) Bool.false_ne_true
      · exact absurd (hpass.1.symm.trans hk) Bool.false_ne_true

end verdict

section soundness

variable {σ : Type} {agent : ActBaseAgent σ} {py : PyText} {sha : Sha256} {inputs : Document}
  {s : σ} {res : ActBaseAgent.Result σ}

theorem generate_verdict {float : PyFloat} {now intentId bundle start stop : Str} {snap : Json}
    {e : ExecutionReport} {pre : Option Json} {kv : Option KripkeVerdict}
    {extra : List EvidenceEntry} :
    (generate sha float now intentId (e.cycleResult bundle snap start stop) pre kv
      extra).overallVerdict =
      (determineVerdict float e.status.value (kv.getD defaultKripke)
        (e.policyDecisions.map PolicyDecision.fields)).1 := by
  have hds : extractPolicyDecisions (e.cycleResult bundle snap start stop) =
      e.policyDecisions.map PolicyDecision.fields := by
    show (e.policyDecisions.map _).filterMap PolicyItem.fields = _
    rw [List.filterMap_map]
    exact congrFun List.filterMap_eq_map e.policyDecisions
  rw [← hds]
  rfl

theorem report_sound_iff (h : agent.run py sha inputs s = .ok res) (float : PyFloat)
    (now intentId bundle start stop : Str) (snap : Json) (pre : Option Json)
    (kv : Option KripkeVerdict) (extra : List EvidenceEntry) :
    let report := generate sha float now intentId (res.report.cycleResult bundle snap start stop)
      pre kv extra
    let cs := agent.callsOf inputs s
    (report.overallVerdict = .pass → AllAccepted cs) ∧ StatusRight res.report.status cs ↔
      Noticed (kv.getD defaultKripke) cs := by
  obtain ⟨snapshot, plan, hrep⟩ := ActBaseAgent.run_ok h
  intro report cs
  have hverdict : report.overallVerdict = (determineVerdict float
      (Progress.recordAll py {} cs).status.value (kv.getD defaultKripke)
      ((Progress.recordAll py {} cs).policyDecisions.map PolicyDecision.fields)).1 := by
    show (generate sha float now intentId _ pre kv extra).overallVerdict = _
    rw [generate_verdict, hrep]
    rfl
  have hstatus : res.report.status = (Progress.recordAll py {} cs).status := by
    rw [hrep]
    rfl
  rw [hverdict, hstatus, recordAll_pass, statusRight_iff]
  exact noticed_iff

end soundness

def demoDecision (name : Str) : Json := .obj [("effect_ref".toList, .str name)]

def flakyAgent : ActBaseAgent ℕ where
  name := "FlakyAct".toList
  dispatchDecision n _ :=
    (if n = 0 then .returned { accepted := true } else .raised "down".toList, n + 1)

def flakyInputs : Document :=
  ⟨[("state:env.snapshot".toList, .obj []),
    ("artifact:proposed.plan".toList, .obj [("plan_id".toList, .str "p".toList),
      ("decisions".toList, .arr [demoDecision "x:a".toList, demoDecision "x:b".toList])])], rfl⟩

def noFloat : PyFloat := fun _ => none

theorem flaky_run : ∃ res,
    flakyAgent.run Queue.plainPy peerSha flakyInputs 0 = .ok res := ⟨_, rfl⟩

theorem flaky_report_passes : ∃ res,
    flakyAgent.run Queue.plainPy peerSha flakyInputs 0 = .ok res ∧
      (generate peerSha noFloat [] [] (res.report.cycleResult [] .null [] []) none none
        []).overallVerdict = .pass ∧
      ¬AllAccepted (flakyAgent.callsOf flakyInputs 0) := by
  refine ⟨_, rfl, ?_, ?_⟩
  · decide +kernel
  · decide +kernel

theorem report_sound_iff_flaky : ∃ res,
    flakyAgent.run Queue.plainPy peerSha flakyInputs 0 = .ok res ∧
      (((generate peerSha noFloat [] [] (res.report.cycleResult [] .null [] []) none none
          []).overallVerdict = .pass → AllAccepted (flakyAgent.callsOf flakyInputs 0)) ∧
        StatusRight res.report.status (flakyAgent.callsOf flakyInputs 0) ↔
          Noticed defaultKripke (flakyAgent.callsOf flakyInputs 0)) := by
  obtain ⟨res, h⟩ := flaky_run
  exact ⟨res, h, report_sound_iff h noFloat [] [] [] [] [] .null none none []⟩

end TraceMind.Control
