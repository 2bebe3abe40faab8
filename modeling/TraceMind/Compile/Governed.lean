import TraceMind.Artifacts.Accepted
import TraceMind.Compile.IntentToBundle

namespace TraceMind.Compile

open Artifacts
open Patterns (IntentBody PatternInstance)
open Queue (PyText)

section names

variable {instances : List PatternInstance}

def checkedIds (instances : List PatternInstance) : List Str :=
  (staged instances).map (fun i => sanitized i.1.patternId)

theorem nodup_map_of_imp {α β γ : Type} {f : α → β} {g : α → γ} {xs : List α}
    (h : ∀ a b, f a = f b → g a = g b) (hg : (xs.map g).Nodup) : (xs.map f).Nodup := by
  rw [List.Nodup, List.pairwise_map] at hg ⊢
  exact hg.imp (fun hne he => hne (h _ _ he))

theorem steps_names (intent : IntentBody) (instances : List PatternInstance)
    (planId owner summary : Str) :
    (buildPlan intent instances planId owner summary).steps.map PlanStep.name =
      mapePhases.map Phase.name ++ (staged instances).map (fun i => stepName i.1) := by
  rw [buildPlan, List.map_append, List.map_map, List.map_map]
  rfl

theorem head_phase_name (p : Phase) : p.name.head? ≠ some 'c' := by
  cases p <;> decide

theorem steps_nodup_iff (intent : IntentBody) (instances : List PatternInstance)
    (planId owner summary : Str) :
    ((buildPlan intent instances planId owner summary).steps.map PlanStep.name).Nodup ↔
      (checkedIds instances).Nodup := by
  rw [steps_names, List.nodup_append]
  constructor
  · rintro ⟨-, hchecks, -⟩
    refine nodup_map_of_imp ?_ hchecks
    intro a b he
    exact congrArg ("check_".toList ++ ·) he
  · intro h
    refine ⟨by decide, nodup_map_of_imp ?_ h, ?_⟩
    · intro a b he
      exact List.append_cancel_left he
    · intro a ha b hb he
      obtain ⟨p, -, rfl⟩ := List.mem_map.mp ha
      obtain ⟨i, -, rfl⟩ := List.mem_map.mp hb
      exact head_phase_name p (congrArg List.head? he)

theorem phase_eq_of_second {p q : Phase} (h : p.name[1]? = q.name[1]?) : p = q := by
  revert h
  cases p <;> cases q <;> decide

theorem checkRule_name_second (i : PatternInstance) (p : Phase) :
    (checkRule i p).name[4]? = p.name[1]? := by
  cases p <;> rfl

theorem checkRule_name_inj {i j : PatternInstance} {p q : Phase}
    (h : (checkRule i p).name = (checkRule j q).name) :
    sanitized i.patternId = sanitized j.patternId := by
  obtain rfl : p = q := by
    apply phase_eq_of_second
    rw [← checkRule_name_second i, h, checkRule_name_second]
  exact List.append_cancel_left h

theorem rules_nodup (intent : IntentBody) (planId owner summary : Str)
    (h : (checkedIds instances).Nodup) :
    ((buildPlan intent instances planId owner summary).rules.map PlanRule.name).Nodup := by
  rw [buildPlan, List.map_append, List.map_map, List.nodup_append]
  refine ⟨nodup_map_of_imp ?_ h, List.nodup_singleton _, ?_⟩
  · intro a b he
    exact checkRule_name_inj he
  · intro a ha b hb he
    obtain ⟨i, -, rfl⟩ := List.mem_map.mp ha
    rw [List.mem_singleton.mp hb] at he
    have hhead : some 'o' = some 'r' := congrArg List.head? he
    exact absurd hhead (by decide)

theorem suffixed_inj (name : Str) : Function.Injective (suffixed name) := by
  intro a b h
  have hdigits : Nat.toDigits 10 a = Nat.toDigits 10 b :=
    (List.cons.inj (List.append_cancel_left h)).2
  calc
    a = Nat.ofDigitChars 10 (Nat.toDigits 10 a) 0 := Nat.ofDigitChars_ten_toDigits.symm
    _ = Nat.ofDigitChars 10 (Nat.toDigits 10 b) 0 := by rw [hdigits]
    _ = b := Nat.ofDigitChars_ten_toDigits

theorem propertyName_not_mem (seen : List Str) (i : PatternInstance) :
    propertyName seen i ∉ seen := by
  rw [propertyName]
  split_ifs with hmem
  · exact FreeName.firstFree_not_mem (suffixed_inj _) seen 2
  · exact hmem

theorem specsFrom_names (seen : List Str) (instances : List PatternInstance) :
    (specsFrom seen instances).map PropertySpec.name =
      FreeName.nameAll propertyName seen instances := by
  induction instances generalizing seen with
  | nil => rfl
  | cons i rest ih =>
    rw [specsFrom, List.map_cons, ih, FreeName.nameAll]

theorem properties_nodup (instances : List PatternInstance) :
    ((buildPropertySpecs instances).map PropertySpec.name).Nodup := by
  rw [buildPropertySpecs, specsFrom_names]
  exact FreeName.nameAll_nodup propertyName_not_mem [] instances

end names

section plan

variable {intent : IntentBody} {instances : List PatternInstance} {planId owner summary : Str}

theorem planStepErrors_eq {raw : List Json} {idx : ℕ} {step : PlanStep} (seen : List Str)
    (hraw : raw[idx]? = some (planStepToDict step)) (hname : step.name ≠ []) :
    (planStepErrors raw seen idx step = [] ↔ step.name ∉ seen) ∧
      seenAfter raw seen idx step = step.name :: seen := by
  have hreads : (List.lookup "reads".toList [("name".toList, .str step.name),
      ("reads".toList, texts step.reads), ("writes".toList, texts step.writes),
      ("description".toList, optionalText step.description)]).isNone = false := rfl
  have hwrites : (List.lookup "writes".toList [("name".toList, .str step.name),
      ("reads".toList, texts step.reads), ("writes".toList, texts step.writes),
      ("description".toList, optionalText step.description)]).isNone = false := rfl
  rw [planStepErrors, seenAfter, hraw, Option.getD_some, planStepToDict]
  dsimp only
  rw [if_neg hname, if_neg hname, hreads, hwrites, if_neg Bool.false_ne_true,
    if_neg Bool.false_ne_true, List.append_nil, List.append_nil]
  refine ⟨?_, rfl⟩
  split_ifs with hmem
  · exact ⟨False.elim, fun h => absurd hmem h⟩
  · exact ⟨fun _ => hmem, fun _ => rfl⟩

theorem planStepsFrom_eq_nil {raw : List Json} {seen : List Str} {idx : ℕ} {steps : List PlanStep}
    (hraw : ∀ i step, steps[i]? = some step → raw[idx + i]? = some (planStepToDict step))
    (hnames : ∀ step ∈ steps, step.name ≠ []) :
    planStepsFrom raw seen idx steps = [] ↔
      (steps.map PlanStep.name).Nodup ∧ ∀ name ∈ steps.map PlanStep.name, name ∉ seen := by
  induction steps generalizing seen idx with
  | nil => simp [planStepsFrom]
  | cons step rest ih =>
    have hfirst : raw[idx]? = some (planStepToDict step) := hraw 0 step rfl
    have hstep := planStepErrors_eq seen hfirst (hnames step List.mem_cons_self)
    have hrest : ∀ i s, rest[i]? = some s → raw[idx + 1 + i]? = some (planStepToDict s) := by
      intro i s hs
      rw [Nat.add_assoc, Nat.add_comm 1 i]
      exact hraw (i + 1) s hs
    rw [planStepsFrom, List.append_eq_nil_iff, hstep.1, hstep.2,
      ih hrest (fun s hs => hnames s (List.mem_cons_of_mem _ hs)), List.map_cons, List.nodup_cons,
      List.forall_mem_cons]
    simp only [List.mem_cons, not_or]
    constructor
    · rintro ⟨hstep, hnodup, hfresh⟩
      exact ⟨⟨fun hmem => (hfresh _ hmem).1 rfl, hnodup⟩, hstep, fun n hn => (hfresh n hn).2⟩
    · rintro ⟨⟨hnot, hnodup⟩, hstep, hfresh⟩
      refine ⟨hstep, hnodup, fun n hn => ⟨?_, hfresh n hn⟩⟩
      rintro rfl
      exact hnot hn

theorem validatePlanSteps_eq_nil (body : PlanBody) (hnames : ∀ step ∈ body.steps, step.name ≠ []) :
    validatePlanSteps body ((planToDict body).lookup "steps".toList) = [] ↔
      (body.steps.map PlanStep.name).Nodup := by
  have hsteps : validatePlanSteps body ((planToDict body).lookup "steps".toList) =
      planStepsFrom (body.steps.map planStepToDict) [] 0 body.steps := rfl
  rw [hsteps, planStepsFrom_eq_nil ?_ hnames]
  · exact ⟨fun h => h.1, fun h => ⟨h, fun _ _ => List.not_mem_nil⟩⟩
  · intro i step hstep
    rw [Nat.zero_add, List.getElem?_map, hstep]
    rfl

theorem triggerChar_range {c : Char} (h : triggerChar c = true) : 36 ≤ c.toNat ∧ c.toNat ≤ 122 := by
  have hletters : 'A'.toNat = 65 ∧ 'Z'.toNat = 90 ∧ 'a'.toNat = 97 ∧ 'z'.toNat = 122 ∧
      '0'.toNat = 48 ∧ '9'.toNat = 57 := ⟨rfl, rfl, rfl, rfl, rfl, rfl⟩
  simp only [triggerChar, Bool.or_eq_true, Bool.and_eq_true, decide_eq_true_eq, Char.le_def,
    UInt32.le_iff_toNat_le, List.mem_cons, List.not_mem_nil, or_false] at h
  simp only [Char.toNat] at hletters ⊢
  rcases h with ((h | h) | h) | h
  · omega
  · omega
  · omega
  · rcases h with rfl | rfl | rfl | rfl | rfl | rfl <;> decide

theorem isSpace_of_triggerChar {c : Char} (h : triggerChar c = true) : isSpace c = false := by
  obtain ⟨hlow, hhigh⟩ := triggerChar_range h
  simp only [isSpace, Bool.or_eq_false_iff, Bool.and_eq_false_iff, decide_eq_false_iff_not,
    beq_eq_false_iff_ne]
  omega

theorem triggerErrors_eq_nil {trigger : Str} (rule : Str) (hne : trigger ≠ [])
    (hall : trigger.all triggerChar = true) : triggerErrors rule trigger = [] := by
  have hspace : ∀ c ∈ trigger, isSpace c = false := by
    intro c hc
    exact isSpace_of_triggerChar (List.all_eq_true.mp hall c hc)
  have hlast : trigger.getLast? ≠ some newline := by
    intro hnewline
    have htrigger := List.all_eq_true.mp hall newline (List.mem_of_getLast? hnewline)
    exact absurd htrigger (by decide)
  have hmatch : triggerMatches trigger = true := by
    rw [triggerMatches, if_neg hlast, hall, List.isEmpty_eq_false_iff.mpr hne]
    rfl
  rw [triggerErrors, strip_of_noSpace hspace, if_neg hne, if_pos hmatch]

theorem trigger_output (rule : Str) (p : Phase) : triggerErrors rule (outputRef p.name) = [] :=
  triggerErrors_eq_nil rule (List.cons_ne_nil _ _) (by cases p <;> decide +kernel)

theorem triggerChars_start : "intent.".toList.all triggerChar = true := by decide +kernel

theorem trigger_intent (rule : Str) {intentId : Str} (h : intentId.all triggerChar = true) :
    triggerErrors rule (intentRef intentId) = [] := by
  have hall : (intentRef intentId).all triggerChar = true :=
    (List.all_append).trans (Bool.and_eq_true_iff.mpr ⟨triggerChars_start, h⟩)
  exact triggerErrors_eq_nil rule (List.cons_ne_nil _ _) hall

theorem validateRule_eq_nil {stepNames : List Str} {rule : PlanRule} {trigger : Str}
    (htriggers : rule.triggers = [trigger]) (htrigger : triggerErrors rule.name trigger = [])
    (hsteps : rule.steps ≠ []) (hknown : ∀ target ∈ rule.steps, target ∈ stepNames) :
    validateRule stepNames rule = [] := by
  have htargets : rule.steps.flatMap (fun target =>
      if target ∉ stepNames then
        ["rule '".toList ++ rule.name ++ "' references undefined step '".toList ++ target ++
          "'".toList]
      else []) = [] := by
    rw [List.flatMap_eq_nil_iff]
    intro target ht
    exact if_neg (not_not_intro (hknown target ht))
  rw [validateRule, htriggers, if_neg (List.cons_ne_nil _ _), List.flatMap_singleton, htrigger,
    if_neg hsteps, htargets]
  rfl

theorem steps_named : ∀ step ∈ (buildPlan intent instances planId owner summary).steps,
    step.name ≠ [] := by
  intro step hstep
  rcases List.mem_append.mp hstep with hstep | hstep
  · obtain ⟨p, -, rfl⟩ := List.mem_map.mp hstep
    cases p <;> exact List.cons_ne_nil _ _
  · obtain ⟨i, -, rfl⟩ := List.mem_map.mp hstep
    exact List.cons_ne_nil _ _

theorem validatePlanRules_eq_nil (h : intent.intentId.all triggerChar = true) :
    validatePlanRules (buildPlan intent instances planId owner summary) = [] := by
  have hnames : ((buildPlan intent instances planId owner summary).steps.map PlanStep.name).filter
      (· ≠ []) = (buildPlan intent instances planId owner summary).steps.map PlanStep.name := by
    refine List.filter_eq_self.mpr ?_
    intro name hname
    obtain ⟨step, hstep, rfl⟩ := List.mem_map.mp hname
    exact decide_eq_true (steps_named step hstep)
  rw [validatePlanRules, hnames, steps_names, List.flatMap_eq_nil_iff]
  intro rule hrule
  rcases List.mem_append.mp hrule with hrule | hrule
  · obtain ⟨i, hi, rfl⟩ := List.mem_map.mp hrule
    refine validateRule_eq_nil rfl (trigger_output _ i.2) (List.cons_ne_nil _ _) ?_
    intro target ht
    rw [List.mem_singleton.mp ht]
    exact List.mem_append_right _ (List.mem_map_of_mem hi)
  · rw [List.mem_singleton.mp hrule]
    refine validateRule_eq_nil rfl (trigger_intent _ h) (List.cons_ne_nil _ _) ?_
    intro target ht
    exact List.mem_append_left _ ht

theorem validatePlanBody_eq_nil (py : PyText) (h : intent.intentId.all triggerChar = true) :
    validatePlanBody py (buildPlan intent instances planId owner summary)
        (planToDict (buildPlan intent instances planId owner summary)) = [] ↔
      (checkedIds instances).Nodup := by
  have hlint : lintPlanIoContract py
      (planToDict (buildPlan intent instances planId owner summary)) = [] := rfl
  rw [validatePlanBody, validatePlanRules_eq_nil h, hlint, List.map_nil, List.append_nil,
    List.append_nil, List.append_eq_nil_iff, validatePlanSteps_eq_nil _ steps_named,
    steps_nodup_iff]
  exact and_iff_left rfl

end plan

section registry

variable {known : Str → IORefMeta} {acc : RefRegistry × List LintIssue}

structure Consistent (known : Str → IORefMeta) (acc : RefRegistry × List LintIssue) : Prop where
  clean : acc.2 = []
  agrees : ∀ ref m, acc.1.get? ref = some m → m = known ref

def Declares (known : Str → IORefMeta) (r : IORef) : Prop :=
  known r.ref = ⟨r.kind, normalizeSchemaValue r.schema⟩

theorem Consistent.collectRef (h : Consistent known acc) (label : Str) {r : IORef}
    (hr : Declares known r) :
    Consistent known (collectRef label acc r) ∧
      ((collectRef label acc r).1.get? r.ref).isSome ∧
      ∀ ref, (acc.1.get? ref).isSome → ((collectRef label acc r).1.get? ref).isSome := by
  rw [Artifacts.collectRef]
  cases hget : acc.1.get? r.ref with
  | none =>
    refine ⟨⟨h.clean, ?_⟩, ?_, ?_⟩
    · intro ref m hm
      dsimp only at hm
      rw [OrderedDict.get?_store] at hm
      split_ifs at hm with he
      · rw [he, hr, Option.some.inj hm]
      · exact h.agrees ref m hm
    · dsimp only
      rw [OrderedDict.get?_store, if_pos rfl]
      rfl
    · intro ref hsome
      dsimp only
      rw [OrderedDict.get?_store]
      split_ifs
      · rfl
      · exact hsome
  | some m =>
    have hm : m = ⟨r.kind, normalizeSchemaValue r.schema⟩ := (h.agrees r.ref m hget).trans hr
    refine ⟨⟨?_, h.agrees⟩, ?_, fun ref hsome => hsome⟩
    · rw [hm]
      dsimp only
      rw [h.clean, if_neg (not_not_intro rfl), if_neg (not_not_intro rfl)]
      rfl
    · dsimp only
      rw [hget]
      rfl

theorem Consistent.collectRefs (h : Consistent known acc) (label : Str) {refs : List IORef}
    (hrefs : ∀ r ∈ refs, Declares known r) :
    Consistent known (refs.foldl (Artifacts.collectRef label) acc) ∧
      (∀ r ∈ refs, ((refs.foldl (Artifacts.collectRef label) acc).1.get? r.ref).isSome) ∧
      ∀ ref, (acc.1.get? ref).isSome →
        ((refs.foldl (Artifacts.collectRef label) acc).1.get? ref).isSome := by
  induction refs generalizing acc with
  | nil => exact ⟨h, fun r hr => (by cases hr), fun ref hsome => hsome⟩
  | cons r refs ih =>
    obtain ⟨hstep, hhas, hkeeps⟩ := h.collectRef label (hrefs r List.mem_cons_self)
    obtain ⟨hrest, hall, hold⟩ := ih hstep (fun r' hr' => hrefs r' (List.mem_cons_of_mem _ hr'))
    refine ⟨hrest, ?_, fun ref hsome => hold ref (hkeeps ref hsome)⟩
    intro r' hr'
    rcases List.mem_cons.mp hr' with rfl | hr'
    · exact hold _ hhas
    · exact hall r' hr'

theorem Consistent.collectContracts (h : Consistent known acc)
    {entries : List (Str × AgentContract)}
    (hentries : ∀ e ∈ entries, ∀ r ∈ e.2.inputs ++ e.2.outputs, Declares known r) :
    Consistent known (entries.foldl collectContract acc) ∧
      (∀ e ∈ entries, ∀ r ∈ e.2.inputs ++ e.2.outputs,
        ((entries.foldl collectContract acc).1.get? r.ref).isSome) ∧
      ∀ ref, (acc.1.get? ref).isSome → ((entries.foldl collectContract acc).1.get? ref).isSome := by
  induction entries generalizing acc with
  | nil => exact ⟨h, fun e he => (by cases he), fun ref hsome => hsome⟩
  | cons e entries ih =>
    obtain ⟨hstep, hhas, hkeeps⟩ :=
      h.collectRefs e.1 (hentries e List.mem_cons_self)
    obtain ⟨hrest, hall, hold⟩ := ih hstep (fun e' he' => hentries e' (List.mem_cons_of_mem _ he'))
    refine ⟨hrest, ?_, fun ref hsome => hold ref (hkeeps ref hsome)⟩
    intro e' he' r hr
    rcases List.mem_cons.mp he' with rfl | he'
    · exact hold _ (hhas r hr)
    · exact hall e' he' r hr

end registry

section bundle

variable {intent : IntentBody} {instances : List PatternInstance} {bundleId planId : Str}
  {runtimeKind : Str} {runtimeConfig : OrderedDict Str Json} {intentId : Str}

theorem outputRef_ne_intentRef (phase intentId : Str) : outputRef phase ≠ intentRef intentId := by
  intro h
  have hhead : some 'p' = some 'i' := congrArg List.head? h
  exact absurd hhead (by decide)

def knownRefs (intentId : Str) (ref : Str) : IORefMeta where
  kind := if ref = intentRef intentId then "artifact".toList else "phase_output".toList
  schemaRepr := normalizeSchemaValue objectSchema

theorem declares_contract (phase : Phase) (intentId : Str) :
    ∀ r ∈ (phaseContract phase intentId).inputs ++ (phaseContract phase intentId).outputs,
      Declares (knownRefs intentId) r := by
  intro r hr
  rcases List.mem_append.mp hr with hr | hr
  · rw [List.mem_singleton.mp hr, Declares, knownRefs]
    dsimp only
    rw [inputRef]
    split_ifs with hphase hsame hsame
    · rfl
    · exact absurd rfl hsame
    · exact absurd hsame (outputRef_ne_intentRef _ _)
    · rfl
  · rw [List.mem_singleton.mp hr, Declares, knownRefs]
    dsimp only
    rw [if_neg (outputRef_ne_intentRef _ _)]

theorem agentIdForPhase_inj {p q : Phase}
    (h : agentIdForPhase p intentId = agentIdForPhase q intentId) : p = q := by
  have hrest := (List.cons.inj (List.append_cancel_left h)).2
  have hname := congrArg (fun s : Str => s[1]?) hrest
  apply phase_eq_of_second
  cases p <;> cases q <;> exact hname

theorem mem_mapePhases (p : Phase) : p ∈ mapePhases := by
  cases p <;> decide

theorem bundleStepErrors_eq_nil (p : Phase) (idx : ℕ) :
    bundleStepErrors (mapePhases.map (agentIdForPhase · intentId)) idx (bundleStep intentId p) =
      [] := by
  have hname : (bundleStep intentId p).step ≠ [] := by cases p <;> exact List.cons_ne_nil _ _
  have hid : (bundleStep intentId p).agentId ≠ [] := List.cons_ne_nil _ _
  have hmem : (bundleStep intentId p).agentId ∈ mapePhases.map (agentIdForPhase · intentId) :=
    List.mem_map_of_mem (mem_mapePhases p)
  have hphase : mapeToBundlePhase p ∈ bundlePhases := by cases p <;> decide +kernel
  rw [bundleStepErrors, if_neg hname, if_neg hid, if_neg (not_not_intro hmem)]
  exact if_neg (fun h => h.2 hphase)

theorem validateAgentBundle_eq_nil :
    validateAgentBundle
      (buildBundle intent instances bundleId planId runtimeKind runtimeConfig).body
      (bundleToDict (buildBundle intent instances bundleId planId runtimeKind runtimeConfig)) =
        [] := by
  have hplan : validateAgentBundle
      (buildBundle intent instances bundleId planId runtimeKind runtimeConfig).body
      (bundleToDict (buildBundle intent instances bundleId planId runtimeKind runtimeConfig)) =
      (mapePhases.map (bundleStep intent.intentId)).zipIdx.flatMap (fun s =>
        bundleStepErrors (mapePhases.map (agentIdForPhase · intent.intentId)) s.2 s.1) := rfl
  rw [hplan, List.flatMap_eq_nil_iff]
  intro s hs
  obtain ⟨p, -, hp⟩ := List.mem_map.mp (List.fst_mem_of_mem_zipIdx hs)
  rw [← hp]
  exact bundleStepErrors_eq_nil p s.2

def phaseEntries (intentId : Str) : List (Str × AgentContract) :=
  mapePhases.map (fun p => (agentIdForPhase p intentId, phaseContract p intentId))

theorem effectIssues_eq_nil {registry : RefRegistry} {label : Str} {effect : EffectRef}
    (htarget : (registry.get? effect.target).isSome) (hkeys : effect.idempotency.keyFields ≠ []) :
    effectIssues label registry effect = [] := by
  have hnone : (registry.get? effect.target).isNone = false := by
    rw [← Option.not_isSome, htarget]
    rfl
  rw [effectIssues, hnone, if_neg Bool.false_ne_true, if_neg (fun hc => hkeys hc.2)]
  rfl

theorem outputIssues_eq_nil {label : Str} {effects : List EffectRef} {r : IORef}
    (h : r.ref ∈ effects.map EffectRef.target) : outputIssues label effects r = [] := by
  rw [outputIssues]
  exact if_neg (fun hc => hc.2 h)

theorem validateContractEffects_eq_nil {registry : RefRegistry} (label : Str) (p : Phase)
    (h : (registry.get? (outputRef p.name)).isSome) :
    validateContractEffects registry (label, phaseContract p intentId) = [] := by
  rw [validateContractEffects, List.append_eq_nil_iff, List.flatMap_eq_nil_iff,
    List.flatMap_eq_nil_iff]
  constructor
  · intro effect he
    rw [List.mem_singleton.mp he]
    exact effectIssues_eq_nil h (List.cons_ne_nil _ _)
  · intro r hr
    rw [List.mem_singleton.mp hr]
    exact outputIssues_eq_nil (List.mem_singleton.mpr rfl)

theorem exists_output (p : Phase) (intentId : Str) :
    ∃ r ∈ (phaseContract p intentId).inputs ++ (phaseContract p intentId).outputs,
      r.ref = outputRef p.name :=
  ⟨_, List.mem_append_right _ (List.mem_singleton_self _), rfl⟩

theorem registry_consistent (intentId : Str) :
    (collectRefRegistry (phaseEntries intentId)).2 = [] ∧
      (phaseEntries intentId).flatMap
        (validateContractEffects (collectRefRegistry (phaseEntries intentId)).1) = [] := by
  have hempty : Consistent (knownRefs intentId) (OrderedDict.empty, []) := by
    refine ⟨rfl, ?_⟩
    intro ref m hm
    cases hm
  have hdeclares : ∀ e ∈ phaseEntries intentId, ∀ r ∈ e.2.inputs ++ e.2.outputs,
      Declares (knownRefs intentId) r := by
    intro e he
    obtain ⟨p, -, rfl⟩ := List.mem_map.mp he
    exact declares_contract p intentId
  obtain ⟨hall, hhas, -⟩ := hempty.collectContracts hdeclares
  refine ⟨hall.clean, List.flatMap_eq_nil_iff.mpr ?_⟩
  intro e he
  obtain ⟨p, -, rfl⟩ := List.mem_map.mp he
  apply validateContractEffects_eq_nil
  obtain ⟨r, hr, href⟩ := exists_output p intentId
  rw [← href]
  exact hhas _ he r hr

theorem get?_phaseSets (p : Phase) :
    (buildContractIoSets (phaseEntries intentId)).get? (agentIdForPhase p intentId) =
      some ([inputRef intentId p], [outputRef p.name]) := by
  have hne : ∀ q, p ≠ q → agentIdForPhase p intentId ≠ agentIdForPhase q intentId :=
    fun q hpq he => hpq (agentIdForPhase_inj he)
  simp only [buildContractIoSets, phaseEntries, mapePhases, List.map_cons, List.map_nil,
    List.foldl_cons, List.foldl_nil, OrderedDict.get?_assign]
  cases p with
  | observe =>
    rw [if_neg (hne .act (by decide)), if_neg (hne .decide (by decide)), if_neg (hne .analyze (by decide)),
      if_pos rfl]
    rfl
  | analyze =>
    rw [if_neg (hne .act (by decide)), if_neg (hne .decide (by decide)), if_pos rfl]
    rfl
  | decide =>
    rw [if_neg (hne .act (by decide)), if_pos rfl]
    rfl
  | act =>
    rw [if_pos rfl]
    rfl

theorem lintPlanFrom_step {idx : ℕ} {available : List Str} {rest : List AgentBundlePlanStep}
    (p : Phase) (h : inputRef intentId p ∈ available) :
    lintPlanFrom (buildContractIoSets (phaseEntries intentId)) idx available
        (bundleStep intentId p :: rest) =
      lintPlanFrom (buildContractIoSets (phaseEntries intentId)) (idx + 1)
        (available ++ [outputRef p.name]) rest := by
  have hissues : ∀ path, stepIssues path (bundleStep intentId p) available
      ([inputRef intentId p], [outputRef p.name]) = [] := by
    intro path
    rw [stepIssues, bundleStep, List.flatMap_singleton, List.flatMap_singleton, inputIssues,
      if_neg (not_not_intro h), if_neg (not_not_intro (List.mem_singleton_self _)),
      if_neg (not_not_intro (List.mem_singleton_self _))]
    rfl
  have hget : (buildContractIoSets (phaseEntries intentId)).get? (bundleStep intentId p).agentId =
      some ([inputRef intentId p], [outputRef p.name]) := get?_phaseSets p
  rw [lintPlanFrom, hget]
  dsimp only
  rw [hissues, List.nil_append]
  rfl

theorem lintAgentBundlePlan_eq_nil (py : PyText) :
    lintAgentBundlePlan py
      (buildBundle intent instances bundleId planId runtimeKind runtimeConfig).body
      (bundleToDict (buildBundle intent instances bundleId planId runtimeKind runtimeConfig))
      (buildContractIoSets (phaseEntries intent.intentId)) = [] := by
  have hpre : extractPreconditions py
      (bundleToDict (buildBundle intent instances bundleId planId runtimeKind runtimeConfig)) =
      [py.str (.str (intentRef intent.intentId))] := rfl
  have hplan : (buildBundle intent instances bundleId planId runtimeKind runtimeConfig).body.plan =
      [bundleStep intent.intentId .observe, bundleStep intent.intentId .analyze,
        bundleStep intent.intentId .decide, bundleStep intent.intentId .act] := rfl
  have hfirst : inputRef intent.intentId .observe ∈ [intentRef intent.intentId] :=
    List.mem_singleton_self _
  have hnext : ∀ (available : List Str) (p q : Phase),
      inputRef intent.intentId q = outputRef p.name →
        inputRef intent.intentId q ∈ available ++ [outputRef p.name] :=
    fun _ _ _ he => List.mem_append_right _ (List.mem_singleton.mpr he)
  rw [lintAgentBundlePlan, hpre, hplan, py.str_str, lintPlanFrom_step .observe hfirst,
    lintPlanFrom_step .analyze (hnext _ .observe .analyze rfl),
    lintPlanFrom_step .decide (hnext _ .analyze .decide rfl),
    lintPlanFrom_step .act (hnext _ .decide .act rfl), lintPlanFrom]

theorem bundleErrors_eq_nil (py : PyText) :
    bodyErrors py
      (bundleToDict (buildBundle intent instances bundleId planId runtimeKind runtimeConfig))
      (.agentBundle (buildBundle intent instances bundleId planId runtimeKind runtimeConfig).body) =
        [] := by
  have hentries : (buildBundle intent instances bundleId planId runtimeKind
      runtimeConfig).body.contractEntries = phaseEntries intent.intentId := rfl
  have hfidelity : lintVerifyMetaFidelity py
      (buildBundle intent instances bundleId planId runtimeKind runtimeConfig).body = [] := rfl
  have hne : phaseEntries intent.intentId ≠ [] := List.cons_ne_nil _ _
  obtain ⟨hrefs, heffects⟩ := registry_consistent intent.intentId
  rw [bodyErrors, validateAgentBundle_eq_nil, hfidelity, lintAgentBundleIoContract, hentries,
    if_neg hne, hrefs, heffects, lintAgentBundlePlan_eq_nil]
  rfl

end bundle

section governed

variable (py : PyText) (sha : Sha256)

def candidate (artifactId : Str) (body : ArtifactBody) (raw : JsonFields) : Artifact where
  envelope := {
    artifactId := artifactId
    status := .candidate
    version := "v0".toList
    bodyHash := bodyHash sha (.obj raw) }
  body := body
  bodyRaw := raw

def Accepted (artifact : Artifact) : Prop := ∃ accepted, verify py sha artifact = .ok accepted

structure Governed (artifactId : Str) (result : CompilationResult) : Prop where
  plan : Accepted py sha
    (candidate sha artifactId (.plan result.plan) (planToDict result.plan))
  bundle : Accepted py sha
    (candidate sha artifactId (.agentBundle result.bundle.body) (bundleToDict result.bundle))
  steps : (result.plan.steps.map PlanStep.name).Nodup
  rules : (result.plan.rules.map PlanRule.name).Nodup
  properties : (result.properties.map PropertySpec.name).Nodup

theorem accepted_iff {artifactId : Str} {body : ArtifactBody} {raw : JsonFields} :
    Accepted py sha (candidate sha artifactId body raw) ↔ bodyErrors py raw body = [] := by
  have herrors : verificationErrors py (candidate sha artifactId body raw) =
      bodyErrors py raw body := rfl
  constructor
  · rintro ⟨accepted, h⟩
    rw [← herrors]
    exact (verify_ok h).1
  · intro h
    exact verify_eq_ok (herrors.trans h)

theorem compile_ok (intent : IntentBody) (instances : List PatternInstance) (options : Options)
    (hcover : ∀ ref ∈ intent.propertyPatternRefs, ref ∈ instances.map PatternInstance.patternId) :
    ∃ planId summary bundleId, compileIntentToBundle py intent instances options = .ok {
      intent := intent
      plan := buildPlan intent instances planId options.owner summary
      bundle := buildBundle intent instances bundleId planId options.runtimeKind
        options.runtimeConfig
      properties := buildPropertySpecs instances
      patternInstances := instances } := by
  have hmissing : missingRefs intent instances = [] := by
    refine List.filter_eq_nil_iff.mpr ?_
    intro ref href
    exact fun hc => of_decide_eq_true hc (hcover ref href)
  rw [compileIntentToBundle, checkCoverage, if_pos hmissing]
  exact ⟨_, _, _, rfl⟩

theorem governed_iff (intent : IntentBody) (instances : List PatternInstance) (options : Options)
    (artifactId : Str) (hid : intent.intentId.all triggerChar = true)
    (hcover : ∀ ref ∈ intent.propertyPatternRefs, ref ∈ instances.map PatternInstance.patternId) :
    ∃ result, compileIntentToBundle py intent instances options = .ok result ∧
      (Governed py sha artifactId result ↔ (checkedIds instances).Nodup) := by
  obtain ⟨planId, summary, bundleId, hresult⟩ := compile_ok py intent instances options hcover
  refine ⟨_, hresult, ?_⟩
  constructor
  · intro h
    exact (steps_nodup_iff intent instances planId options.owner summary).mp h.steps
  · intro h
    refine ⟨?_, ?_, ?_, rules_nodup intent planId options.owner summary h,
      properties_nodup instances⟩
    · exact (accepted_iff py sha).mpr ((validatePlanBody_eq_nil py hid).mpr h)
    · exact (accepted_iff py sha).mpr (bundleErrors_eq_nil py)
    · exact (steps_nodup_iff intent instances planId options.owner summary).mpr h

end governed

def sampleInstance (patternId : String) : PatternInstance where
  patternId := patternId.toList
  category := "safety".toList
  resolvedFormula := "AG ok".toList
  slotFills := OrderedDict.empty
  title := "Always ok".toList
  sourceTemplate := "AG ok".toList

def sampleIntent : IntentBody where
  intentId := "demo".toList
  propertyPatternRefs := ["safety.ok".toList]

def plainSha : Sha256 := .ofTable [] Artifacts.noDigests

theorem governed_single : ∃ result,
    compileIntentToBundle Queue.plainPy sampleIntent [sampleInstance "safety.ok"] {} = .ok result ∧
      Governed Queue.plainPy plainSha "demo".toList result := by
  obtain ⟨result, hresult, hiff⟩ := governed_iff Queue.plainPy plainSha sampleIntent
    [sampleInstance "safety.ok"] {} "demo".toList (by decide +kernel) (by decide +kernel)
  exact ⟨result, hresult, hiff.mpr (by decide +kernel)⟩

theorem repeated_pattern_rejected : ∃ result,
    compileIntentToBundle Queue.plainPy sampleIntent
      [sampleInstance "safety.ok", sampleInstance "safety.ok"] {} = .ok result ∧
      ¬Accepted Queue.plainPy plainSha (candidate plainSha "demo".toList (.plan result.plan)
        (planToDict result.plan)) ∧
      ¬(result.plan.steps.map PlanStep.name).Nodup ∧
      ¬Governed Queue.plainPy plainSha "demo".toList result := by
  obtain ⟨planId, summary, bundleId, hresult⟩ := compile_ok Queue.plainPy sampleIntent
    [sampleInstance "safety.ok", sampleInstance "safety.ok"] {} (by decide +kernel)
  have hrepeated : ¬(checkedIds
      [sampleInstance "safety.ok", sampleInstance "safety.ok"]).Nodup := by decide +kernel
  have hsteps : ¬((buildPlan sampleIntent [sampleInstance "safety.ok", sampleInstance "safety.ok"]
      planId ({} : Options).owner summary).steps.map PlanStep.name).Nodup :=
    fun h => hrepeated ((steps_nodup_iff ..).mp h)
  refine ⟨_, hresult, ?_, hsteps, fun h => hsteps h.steps⟩
  intro h
  have herrors := (accepted_iff Queue.plainPy plainSha).mp h
  exact hrepeated ((validatePlanBody_eq_nil Queue.plainPy (by decide +kernel)).mp herrors)

end TraceMind.Compile
