import TraceMind.Policy.Canonical
import TraceMind.Foundation.Fallible

namespace TraceMind.Policy

open Artifacts
open Queue (Document Error PyFloat PyText)

section steps

variable (py : PyText) (float : PyFloat) (env : Json)

def Rule.steps (r : Rule) : List (Str × Action) :=
  r.actions.map (fun raw => (r.ruleId, normalizeAction py raw))

def fires (r : Rule) : Bool :=
  match evaluateCondition float env r.when with
  | .ok b => b
  | .error _ => false

def firedSteps (r : Rule) : List (Str × Action) := if fires float env r then r.steps py else []

def ActionLog.addAll (log : ActionLog) (steps : List (Str × Action)) : ActionLog :=
  steps.foldl (fun log s => log.add s.1 s.2) log

def ActionLog.steps (log : ActionLog) : List (Str × Action) :=
  log.actions.map (fun e => (e.ruleId, e.action))

def ruleOf? (raw : Json) : Option Rule := (ruleOf py float raw).toOption.join

def validRules (raws : List Json) : List Rule := raws.filterMap (ruleOf? py float)

def rawsOf : Option Json → List Json
  | some (.arr raws) => raws
  | _ => []

structure Evaluable (raws : List Json) : Prop where
  priorities : ∀ raw ∈ raws, ∃ r, ruleOf py float raw = .ok r
  conditions : ∀ r ∈ validRules py float raws, ∃ b, evaluateCondition float env r.when = .ok b

end steps

section runs

variable {py : PyText} {float : PyFloat} {env : Json} {raws : List Json} {rs : List Rule}
  {log log' : ActionLog}

theorem addRule_eq (log : ActionLog) (r : Rule) : log.addRule py r = log.addAll (r.steps py) := by
  rw [ActionLog.addRule, ActionLog.addAll, Rule.steps, List.foldl_map]

theorem addAll_append (xs ys : List (Str × Action)) :
    log.addAll (xs ++ ys) = (log.addAll xs).addAll ys := List.foldl_append ..

theorem evaluateRules_ok : evaluateRules py float env rs log = .ok log' ↔
    (∀ r ∈ rs, ∃ b, evaluateCondition float env r.when = .ok b) ∧
      log' = log.addAll (rs.flatMap (firedSteps py float env)) := by
  induction rs generalizing log with
  | nil =>
    rw [evaluateRules]
    constructor
    · rintro ⟨⟩
      exact ⟨fun r hr => absurd hr List.not_mem_nil, rfl⟩
    · rintro ⟨-, rfl⟩
      rfl
  | cons r rs ih =>
    rw [evaluateRules, Fallible.bind_eq_ok, List.flatMap_cons, addAll_append, List.forall_mem_cons]
    have hfired : ∀ b, evaluateCondition float env r.when = .ok b →
        log.addAll (firedSteps py float env r) = if b then log.addRule py r else log := by
      intro b hb
      rw [firedSteps, fires, hb, addRule_eq]
      cases b <;> rfl
    constructor
    · rintro ⟨b, hb, hrest⟩
      have hlog := hfired b hb
      rw [hlog]
      cases b with
      | true => exact (ih.mp hrest).imp_left (fun h => ⟨⟨true, hb⟩, h⟩)
      | false => exact (ih.mp hrest).imp_left (fun h => ⟨⟨false, hb⟩, h⟩)
    · rintro ⟨⟨⟨b, hb⟩, hrest⟩, rfl⟩
      have hlog := hfired b hb
      refine ⟨b, hb, ?_⟩
      cases b with
      | true => exact ih.mpr ⟨hrest, by rw [hlog]; rfl⟩
      | false => exact ih.mpr ⟨hrest, by rw [hlog]; rfl⟩

theorem ruleOf?_ok {raw : Json} {r? : Option Rule} (h : ruleOf py float raw = .ok r?) :
    ruleOf? py float raw = r? := by
  rw [ruleOf?, h]
  cases r? <;> rfl

theorem validRules_of_ok {rs? : List (Option Rule)} (h : raws.mapM (ruleOf py float) = .ok rs?) :
    rs?.filterMap id = validRules py float raws := by
  have hall := Fallible.mapM_eq_ok.mp h
  clear h
  induction hall with
  | nil => rfl
  | @cons raw r? raws rs? hr _ ih =>
    rw [validRules, List.filterMap_cons, List.filterMap_cons, ruleOf?_ok hr, ih]
    rfl

theorem normalizeRules_ok {rules : Option Json} : normalizeRules py float rules = .ok rs ↔
    (∀ raw ∈ rawsOf rules, ∃ r, ruleOf py float raw = .ok r) ∧
      rs = StableSort.sort Rule.key (validRules py float (rawsOf rules)) := by
  have harr : ∀ raws : List Json, normalizeRules py float (some (.arr raws)) = .ok rs ↔
      (∀ raw ∈ raws, ∃ r, ruleOf py float raw = .ok r) ∧
        rs = StableSort.sort Rule.key (validRules py float raws) := by
    intro raws
    rw [normalizeRules, Fallible.map_eq_ok]
    constructor
    · rintro ⟨rs?, h, rfl⟩
      exact ⟨fun raw hraw => Fallible.mapM_each h hraw, by rw [validRules_of_ok h]⟩
    · rintro ⟨hall, rfl⟩
      obtain ⟨rs?, h⟩ := Fallible.mapM_ok hall
      exact ⟨rs?, h, by rw [validRules_of_ok h]⟩
  have hnone : ∀ v, rawsOf v = [] → (.ok [] = (.ok rs : Except Error (List Rule)) ↔
      (∀ raw ∈ rawsOf v, ∃ r, ruleOf py float raw = .ok r) ∧
        rs = StableSort.sort Rule.key (validRules py float (rawsOf v))) := by
    intro v hv
    rw [hv]
    constructor
    · rintro ⟨⟩
      exact ⟨fun _ h => absurd h List.not_mem_nil, rfl⟩
    · rintro ⟨-, rfl⟩
      rfl
  cases rules with
  | none => exact hnone none rfl
  | some v =>
    cases v with
    | arr raws => exact harr raws
    | null | bool _ | nan | infinity _ | int _ | float _ | str _ | obj _ => exact hnone _ rfl

theorem evaluate_ok {rules : Option Json} {obs state : Document} :
    evaluate py float rules obs state = .ok log ↔
      Evaluable py float (envOf obs state) (rawsOf rules) ∧
      log = ActionLog.addAll {} ((StableSort.sort Rule.key
        (validRules py float (rawsOf rules))).flatMap (firedSteps py float (envOf obs state))) := by
  have hmem : ∀ r, r ∈ StableSort.sort Rule.key (validRules py float (rawsOf rules)) ↔
      r ∈ validRules py float (rawsOf rules) := fun r => (StableSort.sort_perm _ _).mem_iff
  rw [evaluate, Fallible.bind_eq_ok]
  constructor
  · rintro ⟨rs, hrs, h⟩
    obtain ⟨hpri, rfl⟩ := normalizeRules_ok.mp hrs
    obtain ⟨hcond, rfl⟩ := evaluateRules_ok.mp h
    exact ⟨⟨hpri, fun r hr => hcond r ((hmem r).mpr hr)⟩, rfl⟩
  · rintro ⟨hev, rfl⟩
    refine ⟨_, normalizeRules_ok.mpr ⟨hev.priorities, rfl⟩, evaluateRules_ok.mpr ⟨?_, rfl⟩⟩
    exact fun r hr => hev.conditions r ((hmem r).mp hr)

end runs

section wins

variable {log : ActionLog} {ruleId : Str} {action : Action}

def Entry.sets (k : Str) (e : Entry) : Bool :=
  match e.action with
  | .set (.str actuator) _ => actuator = k
  | _ => false

structure FirstWins (log : ActionLog) : Prop where
  patch : ∀ k v, log.finalPatch.get? k = some v ↔
    ∃ e ∈ log.actions, e.applied = true ∧ e.action = .set (.str k) v
  texts : ∀ e ∈ log.actions, e.applied = true → ∀ actuator v, e.action = .set actuator v →
    ∃ k, actuator = .str k
  first : ∀ k, log.actions.filter (Entry.sets k) = [] ∨
    ∃ e es, log.actions.filter (Entry.sets k) = e :: es ∧ e.applied = true ∧
      ∀ f ∈ es, f.applied = false

theorem firstWins_empty : FirstWins {} := by
  refine ⟨fun k v => iff_of_false (fun h => by cases h) ?_, ?_, fun k => Or.inl rfl⟩
  · rintro ⟨e, he, -⟩
    exact absurd he List.not_mem_nil
  · exact fun e he => absurd he List.not_mem_nil

theorem sets_iff {e : Entry} {k : Str} : e.sets k = true ↔ ∃ v, e.action = .set (.str k) v := by
  rw [Entry.sets]
  cases ha : e.action with
  | set actuator value =>
    cases actuator with
    | str a => simp
    | null | bool _ | nan | infinity _ | int _ | float _ | arr _ | obj _ => simp
  | emitEvent event payload => simp
  | other actionType => simp

theorem add_cases (log : ActionLog) (ruleId : Str) (action : Action) :
    (∃ k v, action = .set (.str k) v ∧ log.finalPatch.get? k = none ∧
      log.add ruleId action = { log.append ⟨ruleId, action, true⟩ with
        finalPatch := log.finalPatch.store k v }) ∨
    (∃ b, log.add ruleId action = log.append ⟨ruleId, action, b⟩ ∧
      (∀ actuator v, action = .set actuator v → b = false) ∧
      ∀ k v, action = .set (.str k) v → (log.finalPatch.get? k).isSome = true) := by
  cases action with
  | set actuator value =>
    cases actuator with
    | str k =>
      by_cases hk : (log.finalPatch.get? k).isSome = true
      · refine Or.inr ⟨false, if_pos hk, fun _ _ _ => rfl, ?_⟩
        rintro _ _ ⟨⟩
        exact hk
      · exact Or.inl ⟨k, value, rfl, by simpa using hk, if_neg hk⟩
    | null | bool _ | nan | infinity _ | int _ | float _ | arr _ | obj _ =>
      exact Or.inr ⟨false, rfl, fun _ _ _ => rfl, fun _ _ h => by cases h⟩
  | emitEvent event payload =>
    exact Or.inr ⟨true, rfl, fun _ _ h => (by cases h), fun _ _ h => by cases h⟩
  | other actionType =>
    exact Or.inr ⟨true, rfl, fun _ _ h => (by cases h), fun _ _ h => by cases h⟩

theorem add_steps (log : ActionLog) (ruleId : Str) (action : Action) :
    (log.add ruleId action).steps = log.steps ++ [(ruleId, action)] := by
  rcases add_cases log ruleId action with ⟨k, v, -, -, h⟩ | ⟨b, h, -, -⟩
  · rw [h]
    exact List.map_append
  · rw [h]
    exact List.map_append

theorem filter_append_sets (log : ActionLog) (e : Entry) (k : Str) :
    (log.append e).actions.filter (Entry.sets k) =
      log.actions.filter (Entry.sets k) ++ if e.sets k then [e] else [] := by
  rw [ActionLog.append, List.filter_append]
  congr 1
  by_cases he : e.sets k = true <;> simp [he]

theorem mem_append_iff {e f : Entry} : e ∈ (log.append f).actions ↔ e ∈ log.actions ∨ e = f := by
  simp [ActionLog.append]

theorem FirstWins.store (h : FirstWins log) {k : Str} {v : Json}
    (hnone : log.finalPatch.get? k = none) :
    FirstWins { log.append ⟨ruleId, .set (.str k) v, true⟩ with
      finalPatch := log.finalPatch.store k v } := by
  have hfree : ∀ e ∈ log.actions, e.applied = true → ∀ w, e.action ≠ .set (.str k) w := by
    intro e he happlied w hw
    have hget := (h.patch k w).mpr ⟨e, he, happlied, hw⟩
    rw [hnone] at hget
    cases hget
  refine ⟨fun j w => ?_, fun e he happlied actuator w hw => ?_, fun j => ?_⟩
  · dsimp only
    simp only [mem_append_iff]
    rw [OrderedDict.get?_store]
    split_ifs with hj
    · subst hj
      constructor
      · rintro ⟨⟩
        exact ⟨_, Or.inr rfl, rfl, rfl⟩
      · rintro ⟨e, he | rfl, happlied, hw⟩
        · exact absurd hw (hfree e he happlied w)
        · cases hw
          rfl
    · rw [h.patch]
      constructor
      · rintro ⟨e, he, hrest⟩
        exact ⟨e, Or.inl he, hrest⟩
      · rintro ⟨e, he | rfl, happlied, hw⟩
        · exact ⟨e, he, happlied, hw⟩
        · cases hw
          exact absurd rfl hj
  · rcases mem_append_iff.mp he with he | rfl
    · exact h.texts e he happlied actuator w hw
    · cases hw
      exact ⟨k, rfl⟩
  · dsimp only
    rw [filter_append_sets]
    split_ifs with hj
    · obtain ⟨w, hw⟩ := sets_iff.mp hj
      cases hw
      have hnil : log.actions.filter (Entry.sets k) = [] := by
        rcases h.first k with hnil | ⟨e, es, hfilter, happlied, -⟩
        · exact hnil
        · have he : e ∈ log.actions.filter (Entry.sets k) := hfilter ▸ List.mem_cons_self
          obtain ⟨w, hw⟩ := sets_iff.mp (List.mem_filter.mp he).2
          exact absurd hw (hfree e (List.mem_filter.mp he).1 happlied w)
      rw [hnil]
      exact Or.inr ⟨_, [], rfl, rfl, fun f hf => absurd hf List.not_mem_nil⟩
    · rw [List.append_nil]
      exact h.first j

theorem FirstWins.append (h : FirstWins log) {b : Bool}
    (hset : ∀ actuator v, action = .set actuator v → b = false)
    (hsome : ∀ k v, action = .set (.str k) v → (log.finalPatch.get? k).isSome = true) :
    FirstWins (log.append ⟨ruleId, action, b⟩) := by
  have hquiet : b = true → ∀ actuator w, action ≠ .set actuator w := by
    intro hb actuator w hw
    have hfalse := hset actuator w hw
    rw [hb] at hfalse
    cases hfalse
  refine ⟨fun j w => ?_, fun e he happlied actuator w hw => ?_, fun j => ?_⟩
  · simp only [mem_append_iff]
    rw [ActionLog.append, h.patch]
    constructor
    · rintro ⟨e, he, hrest⟩
      exact ⟨e, Or.inl he, hrest⟩
    · rintro ⟨e, he | rfl, happlied, hw⟩
      · exact ⟨e, he, happlied, hw⟩
      · exact absurd hw (hquiet happlied _ _)
  · rcases mem_append_iff.mp he with he | rfl
    · exact h.texts e he happlied actuator w hw
    · exact absurd hw (hquiet happlied _ _)
  · rw [filter_append_sets]
    split_ifs with hj
    · obtain ⟨w, hw⟩ := sets_iff.mp hj
      obtain ⟨u, hu⟩ := Option.isSome_iff_exists.mp (hsome j w hw)
      obtain ⟨d, hd, -, hdu⟩ := (h.patch j u).mp hu
      have hmem : d ∈ log.actions.filter (Entry.sets j) :=
        List.mem_filter.mpr ⟨hd, sets_iff.mpr ⟨u, hdu⟩⟩
      rcases h.first j with hnil | ⟨e, es, hfilter, happlied, hes⟩
      · rw [hnil] at hmem
        cases hmem
      · refine Or.inr ⟨e, es ++ [⟨ruleId, action, b⟩], by rw [hfilter]; rfl, happlied, ?_⟩
        intro f hf
        rcases List.mem_append.mp hf with hf | hf
        · exact hes f hf
        · cases List.mem_singleton.mp hf
          exact hset _ _ hw
    · rw [List.append_nil]
      exact h.first j

theorem FirstWins.add (h : FirstWins log) : FirstWins (log.add ruleId action) := by
  rcases add_cases log ruleId action with ⟨k, v, rfl, hnone, heq⟩ | ⟨b, heq, hset, hsome⟩
  · rw [heq]
    exact h.store hnone
  · rw [heq]
    exact h.append hset hsome

theorem FirstWins.addAll (h : FirstWins log) (steps : List (Str × Action)) :
    FirstWins (log.addAll steps) := by
  induction steps generalizing log with
  | nil => exact h
  | cons s steps ih => exact ih h.add

theorem addAll_steps (steps : List (Str × Action)) :
    (log.addAll steps).steps = log.steps ++ steps := by
  induction steps generalizing log with
  | nil => exact (List.append_nil _).symm
  | cons s steps ih =>
    show ((log.add s.1 s.2).addAll steps).steps = _
    rw [ih, add_steps, List.append_assoc]
    rfl

end wins

end TraceMind.Policy
