import TraceMind.Pipeline.Simulation
import TraceMind.Artifacts.Verify
import TraceMind.Dsl.CompilerSpec

namespace TraceMind.Verify.BundleAdapter

open Artifacts (JsonFields orEmpty)
open Queue (PyText typeName)
open Workflow (truth)

instance : PyValue Json where
  truthy := truth
  pyTrue := .bool true
  truthy_pyTrue := rfl

def iterItems : Json → Except Err (List Json)
  | .arr items => .ok items
  | .str s => .ok (s.map (fun c => .str [c]))
  | .obj fields => .ok (fields.map (fun f => .str f.1))
  | v => .error (.typeError ("'" ++ typeName v ++ "' object is not iterable"))

def orElse (v : Option Json) (default : Json) : Json :=
  match v with
  | none => default
  | some v => if truth v then v else default

def pairError (idx length : ℕ) : Err :=
  .valueError ("dictionary update sequence element #" ++ toString idx ++ " has length " ++
    toString length ++ "; 2 is required")

def textKey (value : Json) : Json → Except Err (Option (Str × Json))
  | .str key => .ok (some (key, value))
  | .arr _ => .error (.typeError "unhashable type: 'list'")
  | .obj _ => .error (.typeError "unhashable type: 'dict'")
  | _ => .ok none

def pairOf (item : Json × ℕ) : Except Err (Option (Str × Json)) :=
  match iterItems item.1 with
  | .error _ => .error (.typeError
      ("cannot convert dictionary update sequence element #" ++ toString item.2 ++
        " to a sequence"))
  | .ok [key, value] => textKey value key
  | .ok parts => .error (pairError item.2 parts.length)

def toStore : Json → Except Err (Store Json)
  | .obj fields => .ok (SortedMap.ofList fields)
  | v => do
    let items ← iterItems v
    let pairs ← items.zipIdx.mapM pairOf
    .ok (SortedMap.ofList (pairs.filterMap id))

variable (py : PyText)

def textsAt (data : JsonFields) (key : Str) : Except Err (List Str) :=
  (iterItems (orElse (data.lookup key) (.arr []))).map (List.map py.str)

def stepOf (step : Str × Json) : Except Err (Str × StepSpec) :=
  match step.2 with
  | .obj raw => do
    let reads ← textsAt py raw "reads".toList
    let writes ← textsAt py raw "writes".toList
    let clears ← textsAt py raw "clears".toList
    .ok (step.1, ⟨step.1, reads, writes, clears⟩)
  | _ => .error (.valueError
      ("meta.verify.steps['" ++ String.ofList step.1 ++ "'] must be a mapping"))

def ruleOf : Json → Except Err Rule
  | .obj raw => do
    let triggers ← textsAt py raw "triggers".toList
    let steps ← textsAt py raw "steps".toList
    .ok ⟨py.str (orElse (raw.lookup "name".toList) (.str "rule".toList)), triggers, steps⟩
  | _ => .error (.valueError "each meta.verify.rules entry must be a mapping")

def stepsOf : Json → Except Err (List (Str × StepSpec))
  | .obj raw => raw.mapM (stepOf py)
  | _ => .error (.valueError "meta.verify.steps must be a mapping")

def rulesOf : Json → Except Err (List Rule)
  | .arr raw => raw.mapM (ruleOf py)
  | _ => .error (.valueError "meta.verify.rules must be a sequence")

def planFromVerifyMeta (data : JsonFields) : Except Err Plan := do
  let steps ← stepsOf py (orEmpty (data.lookup "steps".toList))
  let rules ← rulesOf py (orElse (data.lookup "rules".toList) (.arr []))
  if steps = [] then .error (.valueError "meta.verify.steps must contain at least one step")
  else .ok ⟨SortedMap.ofList steps, rules⟩

structure VerifySpec where
  initialStore : Store Json
  initialPending : List Str
  changedPaths : List Str
  invariants : List Str

def verifySpecFromBundle (data : JsonFields) : Except Err VerifySpec := do
  let initialStore ← toStore (orEmpty (data.lookup "initial_store".toList))
  let initialPending ← textsAt py data "initial_pending".toList
  let changedPaths ← textsAt py data "changed_paths".toList
  let invariants ← textsAt py data "invariants".toList
  .ok ⟨initialStore, initialPending, changedPaths, invariants⟩

def adapterFromBundle (body : Artifacts.AgentBundleBody) : Except Err (TraceMindAdapter Json) :=
  match body.meta_.lookup "verify".toList with
  | some (.obj data) => do
    let plan ← planFromVerifyMeta py data
    let spec ← verifySpecFromBundle py data
    TraceMindAdapter.fromPlan plan spec.initialStore spec.changedPaths spec.initialPending []
  | _ => .error (.valueError
      ("bundle '" ++ String.ofList body.bundleId ++ "' missing meta.verify mapping"))

section reading

variable {py : PyText} {data : JsonFields} {body : Artifacts.AgentBundleBody}
  {a : TraceMindAdapter Json}

theorem stepsOf_ok {v : Json} {steps : List (Str × StepSpec)} (h : stepsOf py v = .ok steps) :
    ∃ raw, v = .obj raw ∧ List.Forall₂ (fun s e => stepOf py s = .ok e) raw steps := by
  cases v with
  | obj raw => exact ⟨raw, rfl, Fallible.mapM_eq_ok.mp h⟩
  | null | bool | nan | infinity | int | float | str | arr => cases h

theorem rulesOf_ok {v : Json} {rules : List Rule} (h : rulesOf py v = .ok rules) :
    ∃ raw, v = .arr raw ∧ List.Forall₂ (fun r e => ruleOf py r = .ok e) raw rules := by
  cases v with
  | arr raw => exact ⟨raw, rfl, Fallible.mapM_eq_ok.mp h⟩
  | null | bool | nan | infinity | int | float | str | obj => cases h

theorem planFromVerifyMeta_ok {plan : Plan} (h : planFromVerifyMeta py data = .ok plan) :
    (∃ steps, plan.steps = SortedMap.ofList steps ∧
      stepsOf py (orEmpty (data.lookup "steps".toList)) = .ok steps) ∧
    rulesOf py (orElse (data.lookup "rules".toList) (.arr [])) = .ok plan.rules := by
  rw [planFromVerifyMeta] at h
  obtain ⟨steps, hsteps, h⟩ := Fallible.bind_eq_ok.mp h
  obtain ⟨rules, hrules, h⟩ := Fallible.bind_eq_ok.mp h
  split_ifs at h
  cases h
  exact ⟨⟨steps, rfl, hsteps⟩, hrules⟩

structure Read (py : PyText) (data : JsonFields) (a : TraceMindAdapter Json) : Prop where
  plan : planFromVerifyMeta py data = .ok a.plan
  paths : ∃ texts, textsAt py data "changed_paths".toList = .ok texts ∧
    texts.mapM selectorToPath = .ok a.changedPaths

theorem adapterFromBundle_ok (h : adapterFromBundle py body = .ok a) :
    ∃ data, body.meta_.lookup "verify".toList = some (.obj data) ∧ Read py data a := by
  rw [adapterFromBundle] at h
  cases hv : body.meta_.lookup "verify".toList with
  | none =>
    rw [hv] at h
    cases h
  | some v =>
    cases v with
    | obj data =>
      rw [hv] at h
      obtain ⟨plan, hplan, h⟩ := Fallible.bind_eq_ok.mp h
      obtain ⟨spec, hspec, h⟩ := Fallible.bind_eq_ok.mp h
      obtain ⟨paths, hpaths, h⟩ := Fallible.bind_eq_ok.mp h
      cases h
      obtain ⟨store, -, hspec⟩ := Fallible.bind_eq_ok.mp hspec
      obtain ⟨pending, -, hspec⟩ := Fallible.bind_eq_ok.mp hspec
      obtain ⟨changed, hchanged, hspec⟩ := Fallible.bind_eq_ok.mp hspec
      obtain ⟨invariants, -, hspec⟩ := Fallible.bind_eq_ok.mp hspec
      cases hspec
      exact ⟨data, rfl, hplan, changed, hchanged, hpaths⟩
    | null | bool | nan | infinity | int | float | str | arr =>
      rw [hv] at h
      cases h

end reading

end TraceMind.Verify.BundleAdapter

namespace TraceMind.Verify.Fidelity

open Artifacts (JsonFields LintIssue StepIo asStrSet driftIssue lintVerifyMetaFidelity malformedStep
  orphanIssue planIo sameSet sortTexts sortedNames unmodeledIssue verifySteps)
open BundleAdapter (orElse textsAt)
open Queue (PyText)
open Selectors
open Workflow (truth)

section lint

variable (py : PyText)

inductive Severity where
  | error
  | warning
deriving DecidableEq

structure Finding where
  severity : Severity
  issue : LintIssue

def isManual (data : JsonFields) : Bool :=
  let fidelity := match data.lookup "fidelity".toList with
    | some v => if truth v then py.str v else []
    | none => []
  lower (strip fidelity) = "manual".toList

def waivedIssue : LintIssue where
  code := "VERIFY_FIDELITY_WAIVED".toList
  message := ("meta.verify.fidelity is 'manual' — abstraction fidelity reconciliation skipped " ++
    "(accountable waiver)").toList
  path := "meta.verify.fidelity".toList

def noPlanIssue : LintIssue where
  code := "VERIFY_NO_PLAN".toList
  message := "meta.verify declared but bundle has no plan steps to reconcile against".toList
  path := "plan".toList

def readsIssue (name : Str) (planned modelled : List Str) : LintIssue where
  code := "VERIFY_READS_DRIFT".toList
  message := "step '".toList ++ name ++ "' reads differ from plan inputs (plan-only: ".toList ++
    sortedNames py (planned.filter (· ∉ modelled)) ++ "; verify-only: ".toList ++
    sortedNames py (modelled.filter (· ∉ planned)) ++ [')']
  path := "meta.verify.steps.".toList ++ name ++ ".reads".toList

def reconcileStepIo (name : Str) (p v : StepIo) : List Finding :=
  (if sameSet v.effects p.effects then []
    else [⟨.error, driftIssue py name p.effects v.effects⟩]) ++
  (if sameSet v.reads p.reads then [] else [⟨.warning, readsIssue py name p.reads v.reads⟩])

def reconcile (plan steps : OrderedDict Str StepIo) : List Finding :=
  let planned := sortTexts (plan.entries.map Prod.fst)
  let modelled := sortTexts (steps.entries.map Prod.fst)
  (planned.filter (· ∉ modelled)).map (fun name => ⟨.error, unmodeledIssue name⟩) ++
    (modelled.filter (· ∉ planned)).map (fun name => ⟨.error, orphanIssue name⟩) ++
    planned.flatMap (fun name =>
      match plan.get? name, steps.get? name with
      | some p, some v => reconcileStepIo py name p v
      | _, _ => [])

def storeKeys : Option Json → List Str
  | some (.obj fields) => fields.map Prod.fst
  | _ => []

def writesOf : Json → List Str
  | .obj raw => asStrSet py (raw.lookup "writes".toList)
  | _ => []

def stepWrites : Option Json → List Str
  | some (.obj steps) => steps.flatMap (fun step => writesOf py step.2)
  | _ => []

def producible (data : JsonFields) : List Str :=
  storeKeys (data.lookup "initial_store".toList) ++
    asStrSet py (data.lookup "changed_paths".toList) ++
    asStrSet py (data.lookup "initial_pending".toList) ++
    stepWrites py (data.lookup "steps".toList)

def triggersOf (raw : JsonFields) : List Str := asStrSet py (raw.lookup "triggers".toList)

def ruleLabel (raw : JsonFields) (idx : ℕ) : Str :=
  py.str (orElse (raw.lookup "name".toList) (.str (Artifacts.indexed "rule".toList idx)))

def unreachableIssue (label : Str) (idx : ℕ) (trigger : Str) : LintIssue where
  code := "VERIFY_TRIGGER_UNREACHABLE".toList
  message := "rule '".toList ++ label ++ ("' trigger '".toList ++ (trigger ++
    ("' is never in changed_paths/initial_store nor written by any step — " ++
      "the rule can never fire").toList))
  path := Artifacts.indexed "meta.verify.rules".toList idx ++ ".triggers".toList

def checkRule (data : JsonFields) (idx : ℕ) : Json → List Finding
  | .obj raw => ((triggersOf py raw).eraseDups.filter (· ∉ producible py data)).map
      (fun trigger => ⟨.warning, unreachableIssue (ruleLabel py raw idx) idx trigger⟩)
  | _ => []

def checkTriggerReachability (data : JsonFields) : List Finding :=
  match data.lookup "rules".toList with
  | some (.arr rules) => rules.zipIdx.flatMap (fun rule => checkRule py data rule.2 rule.1)
  | _ => []

def lintFindings (body : Artifacts.AgentBundleBody) : List Finding :=
  match body.meta_.lookup "verify".toList with
  | some (.obj data) =>
    if isManual py data then [⟨.warning, waivedIssue⟩]
    else
      match verifySteps py data with
      | .error issue => [⟨.error, issue⟩]
      | .ok steps =>
        (if body.plan = [] then [⟨.warning, noPlanIssue⟩] else reconcile py (planIo body) steps) ++
          checkTriggerReachability py data
  | _ => []

def ruleAt (data : JsonFields) (idx : ℕ) : Option JsonFields :=
  match data.lookup "rules".toList with
  | some (.arr rules) =>
    match rules[idx]? with
    | some (.obj raw) => some raw
    | _ => none
  | _ => none

def Warns (body : Artifacts.AgentBundleBody) (idx : ℕ) (trigger : Str) : Prop :=
  ∃ data raw, body.meta_.lookup "verify".toList = some (.obj data) ∧ ruleAt data idx = some raw ∧
    ⟨.warning, unreachableIssue (ruleLabel py raw idx) idx trigger⟩ ∈ lintFindings py body

end lint

section findings

variable {py : PyText} {body : Artifacts.AgentBundleBody} {data : JsonFields} {idx j : ℕ}
  {t u : Str}

theorem mem_checkRule {rule : Json} {f : Finding} :
    f ∈ checkRule py data idx rule ↔ ∃ raw t, rule = .obj raw ∧ t ∈ triggersOf py raw ∧
      t ∉ producible py data ∧ f = ⟨.warning, unreachableIssue (ruleLabel py raw idx) idx t⟩ := by
  cases rule with
  | obj raw =>
    simp only [checkRule, List.mem_map, List.mem_filter, List.mem_eraseDups, decide_eq_true_eq]
    constructor
    · rintro ⟨t, ⟨ht, hp⟩, rfl⟩
      exact ⟨raw, t, rfl, ht, hp, rfl⟩
    · rintro ⟨raw', t, he, ht, hp, rfl⟩
      cases he
      exact ⟨t, ⟨ht, hp⟩, rfl⟩
  | null | bool | nan | infinity | int | float | str | arr => simp [checkRule]

theorem ruleAt_eq_some {raw : JsonFields} : ruleAt data idx = some raw ↔
    ∃ rules, data.lookup "rules".toList = some (.arr rules) ∧ rules[idx]? = some (.obj raw) := by
  rw [ruleAt]
  constructor
  · intro h
    split at h
    · rename_i rules hr
      split at h
      · rename_i raw' hraw
        cases h
        exact ⟨rules, hr, hraw⟩
      · cases h
    · cases h
  · rintro ⟨rules, hr, hraw⟩
    simp only [hr, hraw]

theorem mem_checkTriggerReachability {f : Finding} :
    f ∈ checkTriggerReachability py data ↔ ∃ idx raw t, ruleAt data idx = some raw ∧
      t ∈ triggersOf py raw ∧ t ∉ producible py data ∧
      f = ⟨.warning, unreachableIssue (ruleLabel py raw idx) idx t⟩ := by
  rw [checkTriggerReachability]
  constructor
  · intro h
    split at h
    · rename_i rules hrules
      obtain ⟨⟨rule, idx⟩, hrule, hf⟩ := List.mem_flatMap.mp h
      obtain ⟨raw, t, rfl, ht, hp, rfl⟩ := mem_checkRule.mp hf
      have hat := List.mem_zipIdx_iff_getElem?.mp hrule
      exact ⟨idx, raw, t, ruleAt_eq_some.mpr ⟨rules, hrules, hat⟩, ht, hp, rfl⟩
    · cases h
  · rintro ⟨idx, raw, t, hat, ht, hp, rfl⟩
    obtain ⟨rules, hrules, hraw⟩ := ruleAt_eq_some.mp hat
    rw [hrules]
    refine List.mem_flatMap.mpr ⟨(.obj raw, idx), List.mem_zipIdx_iff_getElem?.mpr hraw, ?_⟩
    exact mem_checkRule.mpr ⟨raw, t, rfl, ht, hp, rfl⟩

theorem lint_manual (hv : body.meta_.lookup "verify".toList = some (.obj data))
    (hm : isManual py data = true) :
    lintFindings py body = [⟨.warning, waivedIssue⟩] ∧ lintVerifyMetaFidelity py body = [] := by
  constructor
  · simp only [lintFindings, hv, hm, if_true]
  · simp only [lintVerifyMetaFidelity, hv]
    exact if_pos (of_decide_eq_true hm)

theorem lint_malformed (hv : body.meta_.lookup "verify".toList = some (.obj data))
    (hm : isManual py data = false) {issue : LintIssue}
    (hs : verifySteps py data = .error issue) :
    lintFindings py body = [⟨.error, issue⟩] ∧ lintVerifyMetaFidelity py body = [issue] := by
  constructor
  · simp only [lintFindings, hv, hm, hs, Bool.false_eq_true, if_false]
  · simp only [lintVerifyMetaFidelity, hv, hs]
    exact if_neg (of_decide_eq_false hm)

theorem lint_modelled (hv : body.meta_.lookup "verify".toList = some (.obj data))
    (hm : isManual py data = false) {steps : OrderedDict Str StepIo}
    (hs : verifySteps py data = .ok steps) :
    lintFindings py body = (if body.plan = [] then [⟨.warning, noPlanIssue⟩]
        else reconcile py (planIo body) steps) ++ checkTriggerReachability py data ∧
      lintVerifyMetaFidelity py body =
        if body.plan = [] then [] else Artifacts.reconcile py (planIo body) steps := by
  constructor
  · simp only [lintFindings, hv, hm, hs, Bool.false_eq_true, if_false]
  · simp only [lintVerifyMetaFidelity, hv, hs]
    exact if_neg (of_decide_eq_false hm)

theorem indexed_inj {name : Str} {i j : ℕ} {rest : Str}
    (h : Artifacts.indexed name i ++ rest = Artifacts.indexed name j ++ rest) : i = j := by
  have h' := List.append_cancel_right h
  have hdigits := List.append_cancel_right (List.cons.inj (List.append_cancel_left h')).2
  exact Int.ofNat_inj.mp (Dsl.intText_injective hdigits)

theorem unreachableIssue_inj {label : Str} (h : unreachableIssue label idx t =
    unreachableIssue label idx u) : t = u := by
  have hm := congrArg LintIssue.message h
  exact List.append_cancel_right (List.append_cancel_left (List.append_cancel_left hm))

theorem reconcile_code {plan steps : OrderedDict Str StepIo} {f : Finding}
    (hf : f ∈ reconcile py plan steps) : f.issue.code ≠ "VERIFY_TRIGGER_UNREACHABLE".toList := by
  rw [reconcile, List.mem_append, List.mem_append] at hf
  rcases hf with (hf | hf) | hf
  · obtain ⟨name, -, rfl⟩ := List.mem_map.mp hf
    exact (by decide : "VERIFY_STEP_UNMODELED".toList ≠ "VERIFY_TRIGGER_UNREACHABLE".toList)
  · obtain ⟨name, -, rfl⟩ := List.mem_map.mp hf
    exact (by decide : "VERIFY_STEP_ORPHAN".toList ≠ "VERIFY_TRIGGER_UNREACHABLE".toList)
  · obtain ⟨name, -, hf⟩ := List.mem_flatMap.mp hf
    split at hf
    · rw [reconcileStepIo, List.mem_append] at hf
      rcases hf with hf | hf
      · split_ifs at hf
        · cases hf
        · obtain rfl := List.mem_singleton.mp hf
          exact (by decide : "VERIFY_WRITES_DRIFT".toList ≠ "VERIFY_TRIGGER_UNREACHABLE".toList)
      · split_ifs at hf
        · cases hf
        · obtain rfl := List.mem_singleton.mp hf
          exact (by decide : "VERIFY_READS_DRIFT".toList ≠ "VERIFY_TRIGGER_UNREACHABLE".toList)
    · cases hf

theorem mem_lintFindings (hv : body.meta_.lookup "verify".toList = some (.obj data))
    (hlint : lintVerifyMetaFidelity py body = []) {f : Finding}
    (hcode : f.issue.code = "VERIFY_TRIGGER_UNREACHABLE".toList) :
    f ∈ lintFindings py body ↔ isManual py data = false ∧ f ∈ checkTriggerReachability py data := by
  cases hm : isManual py data with
  | true =>
    rw [(lint_manual hv hm).1, List.mem_singleton]
    constructor
    · rintro rfl
      exact absurd hcode (by decide)
    · rintro ⟨h, -⟩
      cases h
  | false =>
    cases hs : verifySteps py data with
    | error issue =>
      rw [(lint_malformed hv hm hs).2] at hlint
      cases hlint
    | ok steps =>
      rw [(lint_modelled hv hm hs).1, List.mem_append, or_iff_right]
      · exact (and_iff_right rfl).symm
      · intro hf
        split_ifs at hf
        · obtain rfl := List.mem_singleton.mp hf
          exact absurd hcode (by decide)
        · exact reconcile_code hf hcode

theorem warns_iff (hv : body.meta_.lookup "verify".toList = some (.obj data))
    (hlint : lintVerifyMetaFidelity py body = []) : Warns py body idx t ↔
      isManual py data = false ∧
        ∃ raw, ruleAt data idx = some raw ∧ t ∈ triggersOf py raw ∧ t ∉ producible py data := by
  constructor
  · rintro ⟨data', raw, hv', hraw, hf⟩
    rw [hv] at hv'
    cases hv'
    obtain ⟨hm, hf⟩ := (mem_lintFindings hv hlint rfl).mp hf
    obtain ⟨idx', raw', t', hraw', ht', hp', he⟩ := mem_checkTriggerReachability.mp hf
    have hissue := congrArg Finding.issue he
    obtain rfl : idx = idx' := indexed_inj (congrArg LintIssue.path hissue)
    rw [hraw] at hraw'
    cases hraw'
    obtain rfl : t = t' := unreachableIssue_inj hissue
    exact ⟨hm, raw, hraw, ht', hp'⟩
  · rintro ⟨hm, raw, hraw, ht, hp⟩
    refine ⟨data, raw, hv, hraw, (mem_lintFindings hv hlint rfl).mpr ⟨hm, ?_⟩⟩
    exact mem_checkTriggerReachability.mpr ⟨idx, raw, t, hraw, ht, hp, rfl⟩

end findings

section model

variable {V : Type} [PyValue V] {a : TraceMindAdapter V} {s u : State V} {name t w : Str}
  {spec : StepSpec} {paths : List Path} {ws : List Str}

def Runs (a : TraceMindAdapter V) (s : State V) (name : Str) (spec : StepSpec) (u : State V) :
    Prop :=
  name ∈ a.enabledSteps s ∧ a.plan.steps.get? name = some spec ∧ a.runStep s name spec = .ok u

def Move (a : TraceMindAdapter V) (s u : State V) : Prop := ∃ name spec, Runs a s name spec u

def Arrives (a : TraceMindAdapter V) (s : State V) : Prop :=
  ∃ root, a.initialState = .ok root ∧ Relation.ReflTransGen (Move a) root s

def Fires (t : Str) (paths : List Path) : Prop := ruleTriggered [t] paths = .ok true

inductive Changes (a : TraceMindAdapter V) : List Path → Prop
  | start {root : State V} : a.initialState = .ok root → Changes a a.changedPaths
  | step {s u : State V} {name : Str} {spec : StepSpec} {paths : List Path} : Arrives a s →
      Runs a s name spec u → spec.writes.mapM selectorToPath = .ok paths → Changes a paths

def Schedules (a : TraceMindAdapter V) (idx : ℕ) (t : Str) : Prop :=
  ∃ rule paths, a.plan.rules[idx]? = some rule ∧ t ∈ rule.triggers ∧ Changes a paths ∧
    Fires t paths

def TokenCovers (tk f : Str) : Prop :=
  tk = ['*'] ∨ (tk = ['[', ']'] ∧ isIndex (pathToken f) = true) ∨
    ((isBracket tk = true → (pyInt (inner tk)).isSome = true) ∧ pathToken tk = pathToken f)

def Covers (t f : Str) : Prop :=
  ∃ toks facts, parse t = .ok toks ∧ parse f = .ok facts ∧ List.Forall₂ TokenCovers toks facts

theorem anyMatch_iff {toks : List Str} (h : parse t = .ok toks) :
    anyMatch t paths = .ok true ↔ ∃ p ∈ paths, matchToks toks p = true := by
  induction paths with
  | nil => simp [anyMatch]
  | cons p ps ih =>
    have hm : selectorMatch t p = .ok (matchToks toks p) := by
      rw [selectorMatch, h]
      rfl
    rw [anyMatch, hm]
    cases hb : matchToks toks p with
    | true => exact ⟨fun _ => ⟨p, List.mem_cons_self, hb⟩, fun _ => rfl⟩
    | false =>
      refine Iff.trans (Iff.trans Iff.rfl ih) ?_
      simp [hb]

theorem anyMatch_unparsed {e : Err} (h : parse t = .error e) : anyMatch t paths ≠ .ok true := by
  cases paths with
  | nil => exact fun hf => Bool.false_ne_true (Except.ok.inj hf)
  | cons p ps =>
    rw [anyMatch, selectorMatch, h]
    rintro ⟨⟩

theorem fires_anyMatch : Fires t paths ↔ anyMatch t paths = .ok true := by
  rw [Fires, ruleTriggered]
  cases anyMatch t paths with
  | error e => exact ⟨fun h => (by cases h), fun h => (by cases h)⟩
  | ok b => cases b <;> exact Iff.rfl

theorem fires_iff : Fires t paths ↔
    ∃ toks, parse t = .ok toks ∧ ∃ p ∈ paths, matchToks toks p = true := by
  rw [fires_anyMatch]
  cases h : parse t with
  | error e =>
    refine ⟨fun hf => absurd hf (anyMatch_unparsed h), ?_⟩
    rintro ⟨toks, htoks, -⟩
    cases htoks
  | ok toks =>
    rw [anyMatch_iff h]
    constructor
    · exact fun hp => ⟨toks, rfl, hp⟩
    · rintro ⟨toks', htoks, hp⟩
      cases htoks
      exact hp

theorem inner_eq_nil {tk : Str} (h : isBracket tk = true) (hi : inner tk = []) :
    tk = ['[', ']'] := by
  rw [isBracket, Bool.and_eq_true, startsWith, List.isPrefixOf_iff_prefix,
    List.isSuffixOf_iff_suffix] at h
  obtain ⟨⟨rest, rfl⟩, hs⟩ := h
  cases hr : rest with
  | nil =>
    rw [hr] at hs
    exact absurd hs (by decide)
  | cons c cs =>
    rw [hr] at hs hi
    have hcs : cs = [] := by
      have hlen := congrArg List.length hi
      simpa [Selectors.inner] using hlen
    subst hcs
    obtain ⟨pre, hpre⟩ := hs
    have hlast := congrArg List.getLast? hpre
    simp at hlast
    rw [← hlast]
    rfl

theorem pathToken_plain {tk : Str} (hb : isBracket tk = false) : pathToken tk = .key tk := by
  have hany : tk ≠ ['[', ']'] := by
    rintro rfl
    cases hb
  rw [pathToken, if_neg hany]
  by_cases hstar : tk = ['*']
  · rw [if_pos hstar, hstar]
  · rw [if_neg hstar, hb, if_neg Bool.false_ne_true]

theorem tokMatches_iff {tk f : Str} : tokMatches tk (pathToken f) = true ↔ TokenCovers tk f := by
  rw [tokMatches, TokenCovers]
  by_cases hstar : tk = ['*']
  · simp [hstar]
  rw [if_neg hstar, or_iff_right hstar]
  by_cases hany : tk = ['[', ']']
  · subst hany
    rw [if_pos rfl, and_iff_right rfl, or_iff_left]
    exact fun h => absurd (h.1 rfl) (by decide)
  rw [if_neg hany, or_iff_right (fun h => hany h.1)]
  cases hb : isBracket tk with
  | false =>
    rw [if_neg Bool.false_ne_true, decide_eq_true_eq, pathToken_plain hb,
      and_iff_right (fun h => absurd h Bool.false_ne_true), eq_comm]
  | true =>
    have hinner : inner tk ≠ [] := fun h => hany (inner_eq_nil hb h)
    have htk : pathToken tk = ((pyInt (inner tk)).map PathElem.index).getD (.key (inner tk)) := by
      rw [pathToken, if_neg hany, if_neg hstar, if_pos hb]
      cases pyInt (inner tk) <;> rfl
    rw [if_pos rfl, if_neg hinner, htk]
    cases pyInt (inner tk) with
    | none => simp
    | some i => simp [eq_comm]

theorem matchToks_iff {toks facts : List Str} :
    matchToks toks (facts.map pathToken) = true ↔ List.Forall₂ TokenCovers toks facts := by
  induction toks generalizing facts with
  | nil => cases facts <;> simp [matchToks]
  | cons tk toks ih =>
    cases facts with
    | nil => simp [matchToks]
    | cons f facts =>
      rw [List.map_cons, matchToks, Bool.and_eq_true, tokMatches_iff, ih, List.forall₂_cons]

theorem selectorToPath_ok {p : Path} : selectorToPath w = .ok p ↔
    ∃ facts, parse w = .ok facts ∧ facts.map pathToken = p := by
  rw [selectorToPath, Fallible.map_eq_ok]

theorem fires_covers (hp : ws.mapM selectorToPath = .ok paths) :
    Fires t paths ↔ ∃ w ∈ ws, Covers t w := by
  rw [fires_iff]
  constructor
  · rintro ⟨toks, htoks, p, hmem, hm⟩
    obtain ⟨w, hw, hwp⟩ := Fallible.mapM_mem hp hmem
    obtain ⟨facts, hfacts, rfl⟩ := selectorToPath_ok.mp hwp
    exact ⟨w, hw, toks, facts, htoks, hfacts, matchToks_iff.mp hm⟩
  · rintro ⟨w, hw, toks, facts, htoks, hfacts, hcov⟩
    obtain ⟨p, hmem, hwp⟩ := Fallible.mapM_image hp hw
    obtain ⟨facts', hfacts', rfl⟩ := selectorToPath_ok.mp hwp
    obtain rfl := Except.ok.inj (hfacts.symm.trans hfacts')
    exact ⟨toks, htoks, _, hmem, matchToks_iff.mpr hcov⟩

end model

section warnings

variable {py : PyText} {body : Artifacts.AgentBundleBody} {data : JsonFields}
  {a : TraceMindAdapter Json} {idx : ℕ} {t w : Str}

inductive Produced (py : PyText) (data : JsonFields) (a : TraceMindAdapter Json) : Str → Prop
  | changed {root : State Json} {texts : List Str} {w : Str} : a.initialState = .ok root →
      textsAt py data "changed_paths".toList = .ok texts → w ∈ texts → Produced py data a w
  | written {s u : State Json} {name : Str} {spec : StepSpec} {w : Str} : Arrives a s →
      Runs a s name spec u → w ∈ spec.writes → Produced py data a w

def Listed (py : PyText) (data : JsonFields) (a : TraceMindAdapter Json) : Prop :=
  ∀ idx raw, ruleAt data idx = some raw → ∀ t ∈ triggersOf py raw, ∀ w, Produced py data a w →
    Covers t w → t ∈ producible py data

theorem Runs.paths {s u : State Json} {name : Str} {spec : StepSpec} (h : Runs a s name spec u) :
    ∃ paths, spec.writes.mapM selectorToPath = .ok paths := by
  obtain ⟨-, -, hrun⟩ := h
  rw [TraceMindAdapter.runStep] at hrun
  obtain ⟨paths, hp, -⟩ := Fallible.bind_eq_ok.mp hrun
  exact ⟨paths, hp⟩

theorem changes_fires_iff (hread : BundleAdapter.Read py data a) :
    (∃ paths, Changes a paths ∧ Fires t paths) ↔ ∃ w, Produced py data a w ∧ Covers t w := by
  obtain ⟨texts, htexts, hpaths⟩ := hread.paths
  constructor
  · rintro ⟨paths, hchange, hf⟩
    cases hchange with
    | start hroot =>
      obtain ⟨w, hw, hcov⟩ := (fires_covers hpaths).mp hf
      exact ⟨w, .changed hroot htexts hw, hcov⟩
    | step hs hrun hp =>
      obtain ⟨w, hw, hcov⟩ := (fires_covers hp).mp hf
      exact ⟨w, .written hs hrun hw, hcov⟩
  · rintro ⟨w, hprod, hcov⟩
    cases hprod with
    | changed hroot htexts' hw =>
      obtain rfl := Except.ok.inj (htexts.symm.trans htexts')
      exact ⟨_, .start hroot, (fires_covers hpaths).mpr ⟨w, hw, hcov⟩⟩
    | written hs hrun hw =>
      obtain ⟨paths, hp⟩ := hrun.paths
      exact ⟨paths, .step hs hrun hp, (fires_covers hp).mpr ⟨w, hw, hcov⟩⟩

theorem forall₂_getElem? {α β : Type} {R : α → β → Prop} {xs : List α} {ys : List β}
    (h : List.Forall₂ R xs ys) {i : ℕ} {x : α} (hx : xs[i]? = some x) :
    ∃ y, ys[i]? = some y ∧ R x y := by
  induction h generalizing i with
  | nil => cases hx
  | cons hxy _ ih =>
    cases i with
    | zero =>
      cases hx
      exact ⟨_, rfl, hxy⟩
    | succ i => exact ih hx

theorem mem_triggers {raw : JsonFields} {rule : Rule} (h : BundleAdapter.ruleOf py (.obj raw) = .ok rule)
    (ht : t ∈ triggersOf py raw) : t ∈ rule.triggers := by
  rw [BundleAdapter.ruleOf] at h
  obtain ⟨triggers, htriggers, h⟩ := Fallible.bind_eq_ok.mp h
  obtain ⟨steps, -, h⟩ := Fallible.bind_eq_ok.mp h
  cases h
  unfold triggersOf asStrSet at ht
  split at ht
  · rename_i items hitems
    rw [textsAt, hitems] at htriggers
    cases items with
    | nil => cases ht
    | cons item items =>
      cases htriggers
      exact ht
  · cases ht

theorem rule_of_ruleAt (hread : BundleAdapter.Read py data a) {raw : JsonFields}
    (h : ruleAt data idx = some raw) (ht : t ∈ triggersOf py raw) :
    ∃ rule, a.plan.rules[idx]? = some rule ∧ t ∈ rule.triggers := by
  obtain ⟨rules, hrules, hraw⟩ := ruleAt_eq_some.mp h
  obtain ⟨rules', hrules', hall⟩ :=
    BundleAdapter.rulesOf_ok (BundleAdapter.planFromVerifyMeta_ok hread.plan).2
  have he : rules' = rules := by
    rw [hrules] at hrules'
    cases rules with
    | nil => exact (Json.arr.inj hrules').symm
    | cons rule rules => exact (Json.arr.inj hrules').symm
  subst he
  obtain ⟨rule, hrule, hof⟩ := forall₂_getElem? hall hraw
  exact ⟨rule, hrule, mem_triggers hof ht⟩

theorem trigger_warnings_iff (hlint : lintVerifyMetaFidelity py body = [])
    (ha : BundleAdapter.adapterFromBundle py body = .ok a) :
    (∀ idx t, Warns py body idx t → ¬Schedules a idx t) ↔
      ∀ data, body.meta_.lookup "verify".toList = some (.obj data) →
        isManual py data = true ∨ Listed py data a := by
  obtain ⟨data, hv, hread⟩ := BundleAdapter.adapterFromBundle_ok ha
  constructor
  · intro h data' hv'
    obtain rfl := Json.obj.inj (Option.some.inj (hv.symm.trans hv'))
    cases hm : isManual py data with
    | true => exact Or.inl rfl
    | false =>
      refine Or.inr (fun idx raw hraw t ht w hprod hcov => ?_)
      by_contra hp
      have hwarn : Warns py body idx t := (warns_iff hv hlint).mpr ⟨hm, raw, hraw, ht, hp⟩
      obtain ⟨rule, hrule, htr⟩ := rule_of_ruleAt hread hraw ht
      obtain ⟨paths, hchange, hf⟩ := (changes_fires_iff hread).mpr ⟨w, hprod, hcov⟩
      exact h idx t hwarn ⟨rule, paths, hrule, htr, hchange, hf⟩
  · rintro h idx t hwarn ⟨rule, paths, -, -, hchange, hf⟩
    obtain ⟨hm, raw, hraw, ht, hp⟩ := (warns_iff hv hlint).mp hwarn
    rcases h data hv with hmanual | hlisted
    · rw [hm] at hmanual
      cases hmanual
    · obtain ⟨w, hprod, hcov⟩ := (changes_fires_iff hread).mp ⟨paths, hchange, hf⟩
      exact hp (hlisted idx raw hraw t ht w hprod hcov)

end warnings

section plain

variable {py : PyText} {data : JsonFields} {a : TraceMindAdapter Json} {t w : Str}

structure PlainName (t : Str) : Prop where
  nonempty : t ≠ []
  star : t ≠ ['*']
  dot : '.' ∉ t
  bracket : '[' ∉ t

theorem scan_plain {expr cs buf : Str} (hdot : '.' ∉ cs) (hbracket : '[' ∉ cs) :
    scan expr cs buf false = .ok (flush (buf ++ cs) []) := by
  have hplain : ∀ c ∈ cs, isPlain c = true := fun c hc =>
    decide_eq_true ⟨fun he => hdot (he ▸ hc), fun he => hbracket (he ▸ hc)⟩
  have hrun := scan_run hplain expr buf []
  rwa [List.append_nil] at hrun

theorem PlainName.parse (h : PlainName t) : Selectors.parse t = .ok [t] := by
  rw [Selectors.parse, scan_plain h.dot h.bracket, List.nil_append, flush, if_neg h.nonempty]

theorem PlainName.notBracket (h : PlainName t) : isBracket t = false := by
  rw [isBracket, Bool.and_eq_false_iff]
  left
  rw [Bool.eq_false_iff, startsWith, ne_eq, List.isPrefixOf_iff_prefix]
  rintro ⟨rest, rfl⟩
  exact h.bracket List.mem_cons_self

theorem PlainName.covers_iff (ht : PlainName t) (hw : PlainName w) : Covers t w ↔ t = w := by
  constructor
  · rintro ⟨toks, facts, htoks, hfacts, hcov⟩
    obtain rfl := Except.ok.inj (ht.parse.symm.trans htoks)
    obtain rfl := Except.ok.inj (hw.parse.symm.trans hfacts)
    rcases (List.forall₂_cons.mp hcov).1 with hstar | ⟨hany, -⟩ | ⟨-, htok⟩
    · exact absurd hstar ht.star
    · rw [hany] at ht
      exact absurd List.mem_cons_self ht.bracket
    · rw [pathToken_plain ht.notBracket, pathToken_plain hw.notBracket] at htok
      exact PathElem.key.inj htok
  · rintro rfl
    exact ⟨[t], [t], ht.parse, ht.parse, .cons (Or.inr (Or.inr
      ⟨fun hb => absurd (ht.notBracket.symm.trans hb) Bool.false_ne_true, rfl⟩)) .nil⟩

def IsList (v : Option Json) : Prop := ∀ w, v = some w → ∃ items, w = .arr items

structure Plain (py : PyText) (data : JsonFields) : Prop where
  triggers : ∀ idx raw, ruleAt data idx = some raw → ∀ t ∈ triggersOf py raw, PlainName t
  facts : ∀ w ∈ producible py data, PlainName w
  changed : IsList (data.lookup "changed_paths".toList)
  writes : ∀ steps name raw, data.lookup "steps".toList = some (.obj steps) →
    (name, Json.obj raw) ∈ steps → IsList (raw.lookup "writes".toList)

theorem textsAt_list {raw : JsonFields} {key : Str} (h : IsList (raw.lookup key))
    {texts : List Str} (ht : textsAt py raw key = .ok texts) :
    texts = asStrSet py (raw.lookup key) := by
  rw [textsAt] at ht
  cases hl : raw.lookup key with
  | none =>
    rw [hl] at ht
    cases ht
    rfl
  | some v =>
    obtain ⟨items, rfl⟩ := h v hl
    rw [hl] at ht
    cases items with
    | nil =>
      cases ht
      rfl
    | cons item items =>
      cases ht
      rfl

theorem orEmpty_obj {v : Option Json} {raw : JsonFields} (h : Artifacts.orEmpty v = .obj raw)
    (hne : raw ≠ []) : v = some (.obj raw) := by
  rw [Artifacts.orEmpty.eq_def] at h
  split at h
  · exact absurd (Json.obj.inj h).symm hne
  · split_ifs at h
    · rw [h]
    · exact absurd (Json.obj.inj h).symm hne

theorem stepOf_writes {s : Str × Json} {e : Str × StepSpec} (h : BundleAdapter.stepOf py s = .ok e) :
    ∃ raw, s.2 = .obj raw ∧ textsAt py raw "writes".toList = .ok e.2.writes := by
  rw [BundleAdapter.stepOf.eq_def] at h
  split at h
  · rename_i raw hraw
    obtain ⟨reads, -, h⟩ := Fallible.bind_eq_ok.mp h
    obtain ⟨writes, hwrites, h⟩ := Fallible.bind_eq_ok.mp h
    obtain ⟨clears, -, h⟩ := Fallible.bind_eq_ok.mp h
    cases h
    exact ⟨raw, hraw, hwrites⟩
  · cases h

theorem Plain.written (h : Plain py data) (hread : BundleAdapter.Read py data a) {name : Str}
    {spec : StepSpec} (hspec : a.plan.steps.get? name = some spec) (hw : w ∈ spec.writes) :
    w ∈ stepWrites py (data.lookup "steps".toList) := by
  obtain ⟨steps, hsteps, hof⟩ := (BundleAdapter.planFromVerifyMeta_ok hread.plan).1
  obtain ⟨raw, hraw, hall⟩ := BundleAdapter.stepsOf_ok hof
  rw [hsteps] at hspec
  have hmem : (name, spec) ∈ steps := (SortedMap.mem_of_get?_insertAll hspec).resolve_right (by
    rintro ⟨⟩)
  obtain ⟨s, hs, hstep⟩ := Fallible.mapM_mem (Fallible.mapM_eq_ok.mpr hall) hmem
  obtain ⟨fields, hfields, hwrites⟩ := stepOf_writes hstep
  have hlook := orEmpty_obj hraw (List.ne_nil_of_mem hs)
  have hlist := h.writes raw s.1 fields hlook (hfields ▸ hs)
  rw [textsAt_list hlist hwrites] at hw
  rw [hlook]
  refine List.mem_flatMap.mpr ⟨s, hs, ?_⟩
  rw [hfields]
  exact hw

theorem Plain.produced (h : Plain py data) (hread : BundleAdapter.Read py data a)
    (hw : Produced py data a w) : w ∈ producible py data := by
  cases hw with
  | changed _ htexts hw =>
    rw [textsAt_list h.changed htexts] at hw
    exact List.mem_append_left _ (List.mem_append_left _ (List.mem_append_right _ hw))
  | written _ hrun hw => exact List.mem_append_right _ (h.written hread hrun.2.1 hw)

theorem Plain.listed (h : Plain py data) (hread : BundleAdapter.Read py data a) :
    Listed py data a := by
  intro idx raw hraw t ht w hprod hcov
  have hw := h.produced hread hprod
  rw [((h.triggers idx raw hraw t ht).covers_iff (h.facts w hw)).mp hcov]
  exact hw

end plain

def detectMeta (triggers : List Str) : JsonFields :=
  [("changed_paths".toList, .arr [.str "start".toList]),
    ("steps".toList, .obj [("detect".toList, .obj
      [("reads".toList, .arr []), ("writes".toList, .arr [.str "detected".toList])])]),
    ("rules".toList, .arr [.obj
      [("name".toList, .str "any".toList), ("triggers".toList, .arr (triggers.map .str)),
        ("steps".toList, .arr [.str "detect".toList])]])]

def detectBundle (triggers : List Str) : Artifacts.AgentBundleBody where
  bundleId := "bundle".toList
  agents := []
  plan := [{ step := "detect".toList, agentId := "agent".toList, outputs := ["detected".toList] }]
  meta_ := [("verify".toList, .obj (detectMeta triggers))]

def detectAdapter (triggers : List Str) : TraceMindAdapter Json where
  plan := ⟨SortedMap.ofList [("detect".toList, ⟨"detect".toList, [], ["detected".toList], []⟩)],
    [⟨"any".toList, triggers, ["detect".toList]⟩]⟩
  initialStore := SortedMap.ofList []
  changedPaths := [[.key "start".toList]]
  initialPending := []
  initialDone := []

theorem star_trigger_scheduled :
    lintVerifyMetaFidelity Queue.plainPy (detectBundle [['*']]) = [] ∧
    BundleAdapter.adapterFromBundle Queue.plainPy (detectBundle [['*']]) =
      .ok (detectAdapter [['*']]) ∧
    Warns Queue.plainPy (detectBundle [['*']]) 0 ['*'] ∧
    Schedules (detectAdapter [['*']]) 0 ['*'] := by
  refine ⟨rfl, rfl, ⟨_, _, rfl, rfl, List.mem_cons_self⟩, ?_⟩
  exact ⟨_, _, rfl, List.mem_cons_self, .start rfl, rfl⟩

def ghostTriggers : List Str := ["start".toList, "ghost".toList]

theorem ghost_plain : Plain Queue.plainPy (detectMeta ghostTriggers) where
  triggers := by
    intro idx raw hraw t ht
    obtain ⟨rules, hrules, hr⟩ := ruleAt_eq_some.mp hraw
    cases hrules
    cases idx with
    | zero =>
      cases hr
      have hmem : t ∈ ghostTriggers := ht
      rcases List.mem_pair.mp hmem with rfl | rfl <;>
        exact ⟨by decide, by decide, by decide, by decide⟩
    | succ idx => cases hr
  facts := by
    intro w hw
    have hmem : w ∈ ["start".toList, "detected".toList] := hw
    rcases List.mem_pair.mp hmem with rfl | rfl <;>
      exact ⟨by decide, by decide, by decide, by decide⟩
  changed := fun v hv => ⟨_, (Option.some.inj hv).symm⟩
  writes := by
    intro steps name raw hsteps hmem v hv
    cases hsteps
    obtain ⟨rfl, hraw⟩ := Prod.mk.inj (List.mem_singleton.mp hmem)
    cases hraw
    exact ⟨_, (Option.some.inj hv).symm⟩

theorem ghost_never_scheduled : Warns Queue.plainPy (detectBundle ghostTriggers) 0 "ghost".toList ∧
    ¬Schedules (detectAdapter ghostTriggers) 0 "ghost".toList := by
  have hwarn : Warns Queue.plainPy (detectBundle ghostTriggers) 0 "ghost".toList :=
    ⟨_, _, rfl, rfl, List.mem_cons_self⟩
  refine ⟨hwarn, (trigger_warnings_iff rfl rfl).mpr (fun data hv => Or.inr ?_) 0 _ hwarn⟩
  have hok : BundleAdapter.adapterFromBundle Queue.plainPy (detectBundle ghostTriggers) =
      .ok (detectAdapter ghostTriggers) := rfl
  obtain ⟨data', hv', hread⟩ := BundleAdapter.adapterFromBundle_ok hok
  cases hv
  cases hv'
  exact ghost_plain.listed hread

end TraceMind.Verify.Fidelity
