import TraceMind.Policy.Determinism

namespace TraceMind.Policy

open Artifacts
open Queue (Document Error PyFloat PyText)
open Json (wfFields_iff wfItems_iff)

section canon

variable {log log' : ActionLog}

def canonStep (s : Str × Action) : Str × Action := (s.1, s.2.canon)

theorem addAll_canon (log : ActionLog) (steps : List (Str × Action)) :
    (log.addAll steps).canon = log.canon.addAll (steps.map canonStep) := by
  induction steps generalizing log with
  | nil => rfl
  | cons s steps ih =>
    show ((log.add s.1 s.2).addAll steps).canon = _
    rw [ih, add_canon]
    rfl

theorem canon_steps (log : ActionLog) : log.canon.steps = log.steps.map canonStep := by
  rw [ActionLog.steps, ActionLog.steps, ActionLog.canon, List.map_map, List.map_map]
  rfl

theorem bytes_of_canon (h : log.canon = log'.canon) : log.bytes = log'.bytes := by
  rw [ActionLog.bytes, ActionLog.bytes, canonicalJson, canonicalJson, sortKeys_log, sortKeys_log, h]

theorem entry_sorted_injective {e f : Entry} (h : e.sorted = f.sorted) : e = f := by
  obtain ⟨i, a, b⟩ := e
  obtain ⟨j, c, d⟩ := f
  simp only [Entry.sorted, Json.obj.injEq, List.cons.injEq, Prod.mk.injEq, Json.bool.injEq,
    Json.str.injEq, true_and, and_true] at h
  obtain ⟨ha, rfl, rfl⟩ := h
  rw [sorted_injective ha]

theorem steps_of_bytes (hwf : Json.wf log.json = true) (hwf' : Json.wf log'.json = true)
    (h : log.bytes = log'.bytes) : log.steps.map canonStep = log'.steps.map canonStep := by
  have hsort := Json.render_injective canonicalStyle (sortKeys_wf _ hwf) (sortKeys_wf _ hwf') h
  rw [sortKeys_log, sortKeys_log, ActionLog.sorted, ActionLog.sorted] at hsort
  simp only [Json.obj.injEq, List.cons.injEq, Prod.mk.injEq, Json.arr.injEq, true_and] at hsort
  have hactions : log.canon.actions = log'.canon.actions :=
    List.map_injective_iff.mpr (fun _ _ => entry_sorted_injective) hsort.1
  rw [← canon_steps, ← canon_steps, ActionLog.steps, ActionLog.steps, hactions]

end canon

section wf

variable {py : PyText} {float : PyFloat} {env : Json} {log : ActionLog} {raws : List Json}

theorem orNone_wf {fs : List (Str × Json)} (h : Json.wf (.obj fs) = true) (key : String) :
    Json.wf (orNone fs key) = true := by
  rw [orNone]
  cases hv : fs.lookup key.toList with
  | none => rfl
  | some v => exact wf_lookup h hv

theorem action_wf {a : Action} : Json.wf a.json = true ↔
    (∀ x v, a = .set x v → Json.wf x = true ∧ Json.wf v = true) ∧
      ∀ x v, a = .emitEvent x v → Json.wf x = true ∧ Json.wf v = true := by
  cases a with
  | set x v => simp [Action.json, Json.wf, Json.wfFields]
  | emitEvent x v => simp [Action.json, Json.wf, Json.wfFields]
  | other t => simp [Action.json, Json.wf, Json.wfFields]

theorem normalizeAction_wf {fs : List (Str × Json)} (h : Json.wf (.obj fs) = true) :
    Json.wf (normalizeAction py fs).json = true := by
  have hn := orNone_wf h
  rw [normalizeAction, action_wf]
  split_ifs <;> simp [hn]

theorem mappings_wf {vs : List Json} (h : Json.wfItems vs = true) {fs : List (Str × Json)}
    (hfs : fs ∈ mappings vs) : Json.wf (.obj fs) = true := by
  obtain ⟨v, hv, he⟩ := List.mem_filterMap.mp hfs
  have hw := wfItems_iff.mp h v hv
  cases v with
  | obj gs =>
    cases he
    exact hw
  | null | bool _ | nan | infinity _ | int _ | float _ | str _ | arr _ => cases he

theorem normalizeActions_wf {then_ : Option Json} (h : ∀ v, then_ = some v → Json.wf v = true)
    {fs : List (Str × Json)} (hfs : fs ∈ normalizeActions then_) : Json.wf (.obj fs) = true := by
  cases then_ with
  | none => cases hfs
  | some v =>
    have hw := h v rfl
    cases v with
    | arr vs => exact mappings_wf hw hfs
    | obj gs =>
      rw [normalizeActions] at hfs
      cases hl : gs.lookup "actions".toList with
      | none =>
        rw [hl] at hfs
        cases List.mem_singleton.mp hfs
        exact hw
      | some a =>
        have ha := wf_lookup hw hl
        rw [hl] at hfs
        cases a with
        | arr vs => exact mappings_wf ha hfs
        | str s => cases hfs
        | null | bool _ | nan | infinity _ | int _ | float _ | obj _ =>
          cases List.mem_singleton.mp hfs
          exact hw
    | null | bool _ | nan | infinity _ | int _ | float _ | str _ => cases hfs

theorem ruleOf_some {raw : Json} {r : Rule} (h : ruleOf py float raw = .ok (some r)) :
    ∃ fs, raw = .obj fs ∧ r.actions = normalizeActions (fs.lookup "then".toList) := by
  cases raw with
  | obj fs =>
    refine ⟨fs, rfl, ?_⟩
    rw [ruleOf] at h
    split_ifs at h with hid
    · cases h
    obtain ⟨priority, -, hr⟩ := Fallible.map_eq_ok.mp h
    cases hw : fs.lookup "when".toList with
    | none =>
      rw [hw] at hr
      cases hr
    | some w =>
      rw [hw] at hr
      cases w with
      | obj w =>
        cases hr
        rfl
      | null | bool _ | nan | infinity _ | int _ | float _ | str _ | arr _ => cases hr
  | null | bool _ | nan | infinity _ | int _ | float _ | str _ | arr _ => cases h

theorem ruleOf?_some {raw : Json} {r : Rule} (h : ruleOf? py float raw = some r) :
    ruleOf py float raw = .ok (some r) := by
  rw [ruleOf?] at h
  cases hr : ruleOf py float raw with
  | error e =>
    rw [hr] at h
    cases h
  | ok r? =>
    rw [hr] at h
    cases r? with
    | none => cases h
    | some s =>
      cases h
      rfl

theorem steps_wf (hraws : ∀ raw ∈ raws, Json.wf raw = true) {r : Rule}
    (hr : r ∈ validRules py float raws) : ∀ s ∈ r.steps py, Json.wf s.2.json = true := by
  obtain ⟨raw, hraw, hsome⟩ := List.mem_filterMap.mp hr
  obtain ⟨fs, rfl, hactions⟩ := ruleOf_some (ruleOf?_some hsome)
  intro s hs
  obtain ⟨gs, hgs, rfl⟩ := List.mem_map.mp hs
  rw [hactions] at hgs
  have hwf := hraws _ hraw
  exact normalizeAction_wf (normalizeActions_wf (fun v hv => wf_lookup hwf hv) hgs)

theorem firedSteps_wf (hraws : ∀ raw ∈ raws, Json.wf raw = true) {rs : List Rule}
    (hrs : ∀ r ∈ rs, r ∈ validRules py float raws) :
    ∀ s ∈ rs.flatMap (firedSteps py float env), Json.wf s.2.json = true := by
  intro s hs
  obtain ⟨r, hr, hs⟩ := List.mem_flatMap.mp hs
  rw [firedSteps] at hs
  split_ifs at hs
  · exact steps_wf hraws (hrs r hr) s hs
  · cases hs

theorem addAll_wf {steps : List (Str × Action)} (h : ∀ s ∈ steps, Json.wf s.2.json = true) :
    Json.wf (ActionLog.addAll {} steps).json = true := by
  have hwins := firstWins_empty.addAll steps
  have hsteps : (ActionLog.addAll {} steps).steps = steps := addAll_steps steps
  generalize ActionLog.addAll {} steps = log at hwins hsteps
  have hactions : ∀ e ∈ log.actions, Json.wf e.action.json = true := fun e he =>
    h (e.ruleId, e.action) (hsteps ▸ List.mem_map_of_mem he)
  have hentries : Json.wfItems (log.actions.map Entry.json) = true := by
    refine wfItems_iff.mpr (fun v hv => ?_)
    obtain ⟨e, he, rfl⟩ := List.mem_map.mp hv
    simp [Entry.json, Json.wf, Json.wfFields, hactions e he]
  have hpatch : Json.wfFields log.finalPatch.entries = true := by
    refine wfFields_iff.mpr (fun f hf => ?_)
    obtain ⟨e, he, -, hset⟩ := (hwins.patch f.1 f.2).mp (OrderedDict.get?_eq_some.mpr hf)
    exact ((action_wf.mp (hactions e he)).1 _ _ hset).2
  simp [ActionLog.json, Json.wf, Json.wfFields, hentries, hpatch, log.finalPatch.nodup]

end wf

section orders

variable (py : PyText) (float : PyFloat) (env : Json)

structure Tie (raws : List Json) (a b : Rule) : Prop where
  left : a ∈ validRules py float raws
  right : b ∈ validRules py float raws
  leftFires : fires float env a = true
  rightFires : fires float env b = true
  priorities : a.priority = b.priority
  ids : a.ruleId = b.ruleId

def TiesCommute (raws : List Json) : Prop :=
  ∀ a b, Tie py float env raws a b →
    (a.steps py ++ b.steps py).map canonStep = (b.steps py ++ a.steps py).map canonStep

def Rule.before (a b : Rule) : Prop :=
  b.priority < a.priority ∨ a.priority = b.priority ∧ a.ruleId ≤ b.ruleId

def InOrder (raws : List Json) (log : ActionLog) : Prop :=
  ∃ rs : List Rule, rs.Perm (validRules py float raws) ∧ rs.Pairwise Rule.before ∧
    log.steps = (rs.filter (fires float env)).flatMap (Rule.steps py)

variable {py float env} {raws raws' : List Json}

theorem before_of_key {a b : Rule} (h : a.key ≤ b.key) : a.before b := by
  rcases Prod.Lex.le_iff.mp h with hlt | ⟨heq, hle⟩
  · exact Or.inl (neg_lt_neg_iff.mp hlt)
  · exact Or.inr ⟨neg_inj.mp heq, hle⟩

theorem key_eq_iff {a b : Rule} : a.key = b.key ↔ a.priority = b.priority ∧ a.ruleId = b.ruleId := by
  rw [Rule.key, Rule.key, toLex_inj, Prod.mk.injEq, neg_inj]

theorem flatMap_firedSteps (rs : List Rule) :
    rs.flatMap (firedSteps py float env) = (rs.filter (fires float env)).flatMap (Rule.steps py) := by
  induction rs with
  | nil => rfl
  | cons r rs ih =>
    rw [List.flatMap_cons, List.filter_cons, firedSteps, ih]
    split_ifs with hr
    · rfl
    · rfl

theorem Evaluable.perm (h : Evaluable py float env raws) (hp : raws'.Perm raws) :
    Evaluable py float env raws' where
  priorities raw hraw := h.priorities raw (hp.subset hraw)
  conditions r hr := h.conditions r ((hp.filterMap _).subset hr)

def sortedLog (py : PyText) (float : PyFloat) (env : Json) (rs : List Rule) : ActionLog :=
  ActionLog.addAll {} ((StableSort.sort Rule.key rs).flatMap (firedSteps py float env))

theorem sortedLog_steps (rs : List Rule) : (sortedLog py float env rs).steps =
    (StableSort.sort Rule.key rs).flatMap (firedSteps py float env) := addAll_steps _

theorem sortedLog_firstWins (rs : List Rule) : FirstWins (sortedLog py float env rs) :=
  firstWins_empty.addAll _

theorem sortedLog_inOrder (raws : List Json) :
    InOrder py float env raws (sortedLog py float env (validRules py float raws)) := by
  refine ⟨StableSort.sort Rule.key (validRules py float raws), StableSort.sort_perm _ _, ?_, ?_⟩
  · exact (StableSort.sort_sorted Rule.key _).imp (fun h => before_of_key h)
  · rw [sortedLog_steps, flatMap_firedSteps]

theorem sortedLog_wf (hraws : ∀ raw ∈ raws, Json.wf raw = true) :
    Json.wf (sortedLog py float env (validRules py float raws)).json = true := by
  refine addAll_wf (firedSteps_wf hraws (fun r hr => ?_))
  exact (StableSort.sort_perm _ _).subset hr

def canonSteps (py : PyText) (float : PyFloat) (env : Json) (r : Rule) : List (Str × Action) :=
  (firedSteps py float env r).map canonStep

theorem flatMap_canonSteps (rs : List Rule) : rs.flatMap (canonSteps py float env) =
    (rs.flatMap (firedSteps py float env)).map canonStep := (List.map_flatMap ..).symm

theorem tiesCommute_iff : TiesCommute py float env raws ↔
    ∀ a ∈ validRules py float raws, ∀ b ∈ validRules py float raws, a.key = b.key →
      StableSort.Commutes (canonSteps py float env) a b := by
  have hsteps : ∀ r, fires float env r = true → canonSteps py float env r =
      (r.steps py).map canonStep := by
    intro r hr
    rw [canonSteps, firedSteps, if_pos hr]
  have hnil : ∀ r, ¬fires float env r = true → canonSteps py float env r = [] := by
    intro r hr
    rw [canonSteps, firedSteps, if_neg hr]
    rfl
  constructor
  · intro h a ha b hb hk
    rw [StableSort.Commutes]
    by_cases hfa : fires float env a = true
    · by_cases hfb : fires float env b = true
      · obtain ⟨hpri, hid⟩ := key_eq_iff.mp hk
        rw [hsteps a hfa, hsteps b hfb, ← List.map_append, ← List.map_append]
        exact h a b ⟨ha, hb, hfa, hfb, hpri, hid⟩
      · rw [hnil b hfb, List.append_nil, List.nil_append]
    · rw [hnil a hfa, List.append_nil, List.nil_append]
  · intro h a b ht
    have hc := h a ht.left b ht.right (key_eq_iff.mpr ⟨ht.priorities, ht.ids⟩)
    rw [StableSort.Commutes, hsteps a ht.leftFires, hsteps b ht.rightFires] at hc
    rw [List.map_append, List.map_append]
    exact hc

theorem sortedLog_bytes {rs rs' : List Rule}
    (h : (StableSort.sort Rule.key rs).flatMap (canonSteps py float env) =
      (StableSort.sort Rule.key rs').flatMap (canonSteps py float env)) :
    (sortedLog py float env rs).bytes = (sortedLog py float env rs').bytes := by
  refine bytes_of_canon ?_
  rw [sortedLog, sortedLog, addAll_canon, addAll_canon, ← flatMap_canonSteps, h,
    flatMap_canonSteps]

theorem canonSteps_of_bytes (hraws : ∀ raw ∈ raws, Json.wf raw = true)
    (hraws' : ∀ raw ∈ raws', Json.wf raw = true)
    (h : (sortedLog py float env (validRules py float raws)).bytes =
      (sortedLog py float env (validRules py float raws')).bytes) :
    (StableSort.sort Rule.key (validRules py float raws)).flatMap (canonSteps py float env) =
      (StableSort.sort Rule.key (validRules py float raws')).flatMap (canonSteps py float env) := by
  have hsteps := steps_of_bytes (sortedLog_wf hraws) (sortedLog_wf hraws') h
  rw [flatMap_canonSteps, flatMap_canonSteps]
  rw [sortedLog_steps, sortedLog_steps] at hsteps
  exact hsteps

end orders

section rules

variable (py : PyText) (float : PyFloat)

def OneLog (policy obs state : Document) : Prop :=
  ∃ log, evaluate py float (policy.get? "rules".toList) obs state = .ok log ∧
    ∀ raws', raws'.Perm (rawsOf (policy.get? "rules".toList)) →
      ∃ log', evaluate py float (some (.arr raws')) obs state = .ok log' ∧ log'.bytes = log.bytes ∧
        InOrder py float (envOf obs state) raws' log' ∧ FirstWins log'

theorem rawsOf_wf (policy : Document) :
    ∀ raw ∈ rawsOf (policy.get? "rules".toList), Json.wf raw = true := by
  intro raw hraw
  cases hv : policy.get? "rules".toList with
  | none =>
    rw [hv] at hraw
    cases hraw
  | some v =>
    have hw := wf_lookup policy.wf hv
    rw [hv] at hraw
    cases v with
    | arr vs => exact wfItems_iff.mp hw raw hraw
    | null | bool _ | nan | infinity _ | int _ | float _ | str _ | obj _ => cases hraw

theorem oneLog_iff (policy obs state : Document) :
    OneLog py float policy obs state ↔
      Evaluable py float (envOf obs state) (rawsOf (policy.get? "rules".toList)) ∧
        TiesCommute py float (envOf obs state) (rawsOf (policy.get? "rules".toList)) := by
  have hwf := rawsOf_wf policy
  rw [tiesCommute_iff, ← StableSort.sort_flatMap_iff]
  constructor
  · rintro ⟨log, hlog, hall⟩
    obtain ⟨hev, rfl⟩ := evaluate_ok.mp hlog
    refine ⟨hev, fun rs hrs => ?_⟩
    obtain ⟨raws', hp, rfl⟩ := StableSort.perm_of_filterMap hrs
    obtain ⟨log', hlog', hbytes, -, -⟩ := hall raws' hp
    obtain ⟨-, rfl⟩ := evaluate_ok.mp hlog'
    exact canonSteps_of_bytes (fun raw hraw => hwf raw (hp.subset hraw)) hwf hbytes
  · rintro ⟨hev, hcomm⟩
    refine ⟨_, evaluate_ok.mpr ⟨hev, rfl⟩, fun raws' hp => ?_⟩
    refine ⟨_, evaluate_ok.mpr ⟨hev.perm hp, rfl⟩, ?_, sortedLog_inOrder raws',
      sortedLog_firstWins _⟩
    exact sortedLog_bytes (hcomm _ (hp.filterMap _))

def setRule (ruleId : String) (value : ℤ) : Json :=
  .obj [("id".toList, .str ruleId.toList), ("when".toList, .obj [("==".toList, .arr [.int 1, .int 1])]),
    ("then".toList, .arr [.obj [("type".toList, .str "set".toList),
      ("actuator".toList, .str "m".toList), ("value".toList, .int value)]])]

def twinPolicy : Document := ⟨[("rules".toList, .arr [setRule "a" 1, setRule "a" 2])], rfl⟩

def bytesOf (rules : Option Json) : Option Str :=
  (evaluate Queue.plainPy (fun _ => none) rules Document.empty Document.empty).toOption.map
    ActionLog.bytes

theorem bytesOf_ok {rules : Option Json} {log : ActionLog}
    (h : evaluate Queue.plainPy (fun _ => none) rules Document.empty Document.empty = .ok log) :
    bytesOf rules = some log.bytes := by
  rw [bytesOf, h]
  rfl

theorem twins_differ :
    ¬∀ policy obs state, OneLog Queue.plainPy (fun _ => none) policy obs state := by
  intro h
  obtain ⟨log, hlog, hall⟩ := h twinPolicy Document.empty Document.empty
  obtain ⟨log', hlog', hbytes, -, -⟩ :=
    hall [setRule "a" 2, setRule "a" 1] (List.Perm.swap _ _ [])
  have heq := bytesOf_ok hlog
  rw [← hbytes, ← bytesOf_ok hlog'] at heq
  have hne : bytesOf (twinPolicy.get? "rules".toList) ≠
      bytesOf (some (.arr [setRule "a" 2, setRule "a" 1])) := by decide +kernel
  exact hne heq

end rules

end TraceMind.Policy
