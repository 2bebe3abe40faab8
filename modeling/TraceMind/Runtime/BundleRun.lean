import TraceMind.Artifacts.Accepted
import TraceMind.Runtime.Executor

namespace TraceMind.Runtime

open Artifacts Fallible
open Queue (PyText)

section records

variable {V W : Type}

structure StepRecord (V : Type) where
  step : AgentBundlePlanStep
  ran : Bool
  inputs : Refs V
  outputs : Refs V
  recordedAt : ℚ

def SameStep (s t : AgentBundlePlanStep) : Prop := s.agentId = t.agentId ∧ s.step = t.step

instance (s t : AgentBundlePlanStep) : Decidable (SameStep s t) :=
  inferInstanceAs (Decidable (_ ∧ _))

def valueAt (empty : V) (preconditions : List Str) (records : List (StepRecord V)) (ref : Str) :
    Option V :=
  match records.reverse.find? (fun r => ref ∈ r.step.outputs) with
  | some r => r.outputs.get? ref
  | none => if ref ∈ preconditions then some empty else none

def earlier (records : List (StepRecord V)) (step : AgentBundlePlanStep) :
    Option (StepRecord V) :=
  records.reverse.find? (fun r => r.ran && decide (SameStep r.step step))

variable (empty : V) (preconditions : List Str)
  (agentOf : AgentBundlePlanStep → RuntimeAgent V W → Prop) (clock : ℕ → ℚ × ℚ)

inductive Does (before : List (StepRecord V)) (w : W) (r : StepRecord V) : W → Prop
  | run (agent : RuntimeAgent V W) (w' : W) (hagent : agentOf r.step agent)
      (hran : r.ran = true)
      (hnone : ∀ e, earlier before r.step = some e → e.recordedAt + 60 ≤ (clock before.length).1)
      (htime : r.recordedAt = (clock before.length).2)
      (hrun : agent.run r.inputs (agent.init r.step.step w) = (.ok r.outputs, w')) :
      Does before w r (agent.finalize w')
  | reuse (agent : RuntimeAgent V W) (e : StepRecord V) (hagent : agentOf r.step agent)
      (hran : r.ran = false)
      (hearlier : earlier before r.step = some e)
      (hfresh : (clock before.length).1 < e.recordedAt + 60) (houtputs : r.outputs = e.outputs) :
      Does before w r (agent.finalize (agent.init r.step.step w))

def Reads (before : List (StepRecord V)) (r : StepRecord V) : Prop :=
  ∀ ref, r.inputs.get? ref =
    if ref ∈ r.step.inputs then valueAt empty preconditions before ref else none

inductive Performed : List (StepRecord V) → W → W → Prop
  | nil (w : W) : Performed [] w w
  | snoc {before : List (StepRecord V)} {w w' w'' : W} {r : StepRecord V}
      (h : Performed before w w') (hreads : Reads empty preconditions before r)
      (hdoes : Does agentOf clock before w' r w'') : Performed (before ++ [r]) w w''

variable {empty preconditions} {records : List (StepRecord V)} {r : StepRecord V} {ref : Str}
  {step : AgentBundlePlanStep}

theorem valueAt_snoc : valueAt empty preconditions (records ++ [r]) ref =
    if ref ∈ r.step.outputs then r.outputs.get? ref
    else valueAt empty preconditions records ref := by
  by_cases h : ref ∈ r.step.outputs
  · simp [valueAt, h]
  · simp [valueAt, h]

theorem earlier_snoc : earlier (records ++ [r]) step =
    if r.ran = true ∧ SameStep r.step step then some r else earlier records step := by
  rw [earlier, List.reverse_append, List.reverse_singleton, List.singleton_append, List.find?_cons]
  split_ifs with h
  · simp [h]
  · rw [← earlier]
    cases hran : r.ran with
    | false => rfl
    | true =>
      have hnot : ¬ SameStep r.step step := fun hs => h ⟨hran, hs⟩
      simp [hnot]

theorem earlier_mem {e : StepRecord V} (h : earlier records step = some e) :
    e ∈ records ∧ e.ran = true ∧ SameStep e.step step := by
  obtain hmem := List.mem_of_find?_eq_some h
  have hp := List.find?_some h
  rw [Bool.and_eq_true, decide_eq_true_eq] at hp
  exact ⟨List.mem_reverse.mp hmem, hp⟩

end records

section parts

variable {V W : Type} {source : Refs V} {names : List Str}

theorem assignFrom_ok (missing : Str → Str) (refs : Refs V)
    (h : ∀ ref ∈ names, (source.get? ref).isSome) :
    ∃ refs', assignFrom source missing names refs = .ok refs' ∧
      ∀ ref, refs'.get? ref = if ref ∈ names then source.get? ref else refs.get? ref := by
  induction names generalizing refs with
  | nil => exact ⟨refs, rfl, fun ref => (if_neg List.not_mem_nil).symm⟩
  | cons name names ih =>
    obtain ⟨v, hv⟩ := Option.isSome_iff_exists.mp (h name List.mem_cons_self)
    obtain ⟨refs', hok, hget⟩ := ih (refs.assign name v)
      (fun ref href => h ref (List.mem_cons_of_mem _ href))
    refine ⟨refs', ?_, fun ref => ?_⟩
    · rw [assignFrom, List.foldlM_cons, hv]
      exact hok
    · rw [hget, OrderedDict.get?_assign]
      by_cases hname : ref = name
      · subst hname
        simp [hv]
      · simp [hname]

theorem checkEffects_ok {py : PyText} {guard : PolicyGuard} {data : JsonFields}
    {effects : List EffectRef} (h : ∀ e ∈ effects, (guard.evaluate py data e).allowed = true) :
    checkEffects py guard data effects = .ok () := by
  induction effects with
  | nil => rfl
  | cons e effects ih =>
    rw [checkEffects, List.forM_eq_forM, List.forM_cons, if_pos (h e List.mem_cons_self)]
    exact ih (fun e he => h e (List.mem_cons_of_mem _ he))

end parts

section cache

variable {V W : Type} {g : ExecutionIdempotencyGuard V} {key : Str} {times : ℚ × ℚ}
  {run : W → Except Str (Refs V) × W} {w w' : W} {outputs : Refs V}

theorem runIdempotent_cached (run : W → Except Str (Refs V) × W) (w : W) {entry : Refs V × ℚ}
    (h : g.history.get? key = some entry) (hfresh : times.1 < entry.2) :
    runIdempotent times key run g w = .ok (entry.1, g, w) := by
  rw [runIdempotent, ExecutionIdempotencyGuard.lookup, h]
  dsimp only
  rw [if_neg (not_le.mpr hfresh)]

theorem runIdempotent_run (h : ∀ entry, g.history.get? key = some entry → entry.2 ≤ times.1)
    (hrun : run w = (.ok outputs, w')) :
    ∃ g', runIdempotent times key run g w = .ok (outputs, g', w') ∧ g'.ttlSeconds = g.ttlSeconds ∧
      ∀ k, g'.history.get? k =
        if k = key then some (outputs, times.2 + g.ttlSeconds) else g.history.get? k := by
  rw [runIdempotent, ExecutionIdempotencyGuard.lookup]
  cases hentry : g.history.get? key with
  | none =>
    dsimp only
    rw [hrun]
    exact ⟨_, rfl, rfl, fun k => OrderedDict.get?_assign ..⟩
  | some entry =>
    dsimp only
    rw [if_pos (h entry hentry)]
    dsimp only
    rw [hrun]
    refine ⟨_, rfl, rfl, fun k => ?_⟩
    refine (OrderedDict.get?_assign ..).trans ?_
    split_ifs with hk
    · rfl
    · exact (OrderedDict.get?_erase ..).trans (if_neg hk)

end cache

section steps

variable {V W : Type} (empty : V) (py : PyText) (guard : PolicyGuard)
  (resolve : AgentSpec → Except Str (RuntimeAgent V W)) (body : AgentBundleBody)

def AgentOf (step : AgentBundlePlanStep) (agent : RuntimeAgent V W) : Prop :=
  ∃ spec, body.agentEntries.get? step.agentId = some spec ∧ resolve spec = .ok agent

def Complete (spec : AgentSpec) : Prop :=
  ∃ agent, resolve spec = .ok agent ∧ ∀ inputs w, ∃ outputs w',
    agent.run inputs w = (.ok outputs, w') ∧
      ∀ o ∈ spec.contract.outputs, (outputs.get? o.ref).isSome

def Allowed (spec : AgentSpec) : Prop :=
  ∀ e ∈ AgentContract.resourceEffects spec.contract,
    (guard.evaluate py body.meta_ e).allowed = true

def KeysApart : Prop :=
  ∀ s ∈ body.plan, ∀ t ∈ body.plan, stepKey s = stepKey t → s.agentId = t.agentId

structure Carried (ctx : ExecutionContext V) (records : List (StepRecord V)) : Prop where
  refs : ∀ ref, ctx.refs.get? ref = valueAt empty (preconditionTexts py body.meta_) records ref
  ttl : ctx.idempotencyGuard.ttlSeconds = 60
  history : ∀ step ∈ body.plan, ctx.idempotencyGuard.history.get? (stepKey step) =
    (earlier records step).map (fun e => (e.outputs, e.recordedAt + 60))
  whole : ∀ r ∈ records, ∀ spec, body.agentEntries.get? r.step.agentId = some spec →
    ∀ o ∈ spec.contract.outputs, (r.outputs.get? o.ref).isSome

variable {empty py guard resolve body} {ctx : ExecutionContext V}
  {records : List (StepRecord V)} {step : AgentBundlePlanStep} {w : W}

theorem sameStep_of_key (hapart : KeysApart body) {s t : AgentBundlePlanStep} (hs : s ∈ body.plan)
    (ht : t ∈ body.plan) (h : stepKey s = stepKey t) : SameStep s t := by
  have hid := hapart s hs t ht h
  rw [stepKey, stepKey, hid] at h
  exact ⟨hid, (List.cons.inj (List.append_cancel_left h)).2⟩

theorem stepKey_of_same {s t : AgentBundlePlanStep} (h : SameStep s t) : stepKey s = stepKey t := by
  rw [stepKey, stepKey, h.1, h.2]

theorem executeStep_eq {times : ℚ × ℚ} {spec : AgentSpec} {agent : RuntimeAgent V W}
    {inputs outputs refs : Refs V} {g : ExecutionIdempotencyGuard V} {w' : W}
    (hspec : body.agentEntries.get? step.agentId = some spec) (hresolve : resolve spec = .ok agent)
    (hinputs : collectInputs step ctx.refs = .ok inputs) (hallowed : Allowed py guard body spec)
    (hrun : runIdempotent times (stepKey step) (agent.run inputs) ctx.idempotencyGuard
      (agent.init step.step w) = .ok (outputs, g, w'))
    (hrefs : persistOutputs step outputs ctx.refs = .ok refs) :
    ∃ ctx', executeStep py guard resolve body times step (ctx, w) =
        .ok (ctx', agent.finalize w') ∧ ctx'.refs = refs ∧ ctx'.idempotencyGuard = g := by
  refine ⟨{
    idempotencyGuard := g
    refs := refs
    executedSteps := ctx.executedSteps ++ [step.step]
    stepOutputs := ctx.stepOutputs.assign step.step (stepOutputs step outputs) }, ?_, rfl, rfl⟩
  rw [executeStep, hspec]
  simp only [Option.elim_some, bind, Except.bind, hresolve, hinputs, checkEffects_ok hallowed,
    hrun, hrefs]

theorem Carried.snoc {spec : AgentSpec} {ctx' : ExecutionContext V} {r : StepRecord V}
    (h : Carried empty py body ctx records)
    (hspec : body.agentEntries.get? r.step.agentId = some spec)
    (hrefs : ∀ ref, ctx'.refs.get? ref =
      if ref ∈ r.step.outputs then r.outputs.get? ref else ctx.refs.get? ref)
    (httl : ctx'.idempotencyGuard.ttlSeconds = 60)
    (hhistory : ∀ t ∈ body.plan, ctx'.idempotencyGuard.history.get? (stepKey t) =
      (earlier (records ++ [r]) t).map (fun e => (e.outputs, e.recordedAt + 60)))
    (hwhole : ∀ o ∈ spec.contract.outputs, (r.outputs.get? o.ref).isSome) :
    Carried empty py body ctx' (records ++ [r]) where
  refs := by
    intro ref
    rw [hrefs, valueAt_snoc, h.refs]
  ttl := httl
  history := hhistory
  whole := by
    intro q hq spec' hspec'
    rcases List.mem_append.mp hq with hq | hq
    · exact h.whole q hq spec' hspec'
    · obtain rfl := List.mem_singleton.mp hq
      obtain rfl := Option.some.inj (hspec.symm.trans hspec')
      exact hwhole

theorem executeStep_spec {spec : AgentSpec} (clock : ℕ → ℚ × ℚ)
    (h : Carried empty py body ctx records)
    (hapart : KeysApart body) (hstep : step ∈ body.plan)
    (hspec : body.agentEntries.get? step.agentId = some spec)
    (hinputs : ∀ ref ∈ step.inputs, (ctx.refs.get? ref).isSome)
    (houtputs : ∀ ref ∈ step.outputs, ref ∈ spec.contract.outputs.map IORef.ref)
    (hcomplete : Complete resolve spec) (hallowed : Allowed py guard body spec) (w : W) :
    ∃ ctx' w' r, executeStep py guard resolve body (clock records.length) step (ctx, w) =
        .ok (ctx', w') ∧ r.step = step ∧
      Reads empty (preconditionTexts py body.meta_) records r ∧
      Does (AgentOf resolve body) clock records w r w' ∧
      Carried empty py body ctx' (records ++ [r]) := by
  obtain ⟨agent, hresolve, hruns⟩ := hcomplete
  obtain ⟨inputs, hcollect, hread⟩ := assignFrom_ok (missingInput step) OrderedDict.empty
    hinputs
  have hagent : AgentOf resolve body step agent := ⟨spec, hspec, hresolve⟩
  have hreads : ∀ ran outputs time, Reads empty (preconditionTexts py body.meta_) records
      ⟨step, ran, inputs, outputs, time⟩ := by
    intro ran outputs time ref
    rw [hread, h.refs]
    rfl
  have hpersist : ∀ outputs : Refs V, (∀ o ∈ spec.contract.outputs, (outputs.get? o.ref).isSome) →
      ∀ ref ∈ step.outputs, (outputs.get? ref).isSome := by
    intro outputs hwhole ref href
    obtain ⟨o, ho, rfl⟩ := List.mem_map.mp (houtputs ref href)
    exact hwhole o ho
  by_cases hcached : ∃ e, earlier records step = some e ∧
      (clock records.length).1 < e.recordedAt + 60
  · obtain ⟨e, hearlier, hfresh⟩ := hcached
    obtain ⟨hmem, -, hsame⟩ := earlier_mem hearlier
    have hwhole := h.whole e hmem spec (by rw [hsame.1]; exact hspec)
    have hentry := h.history step hstep
    rw [hearlier, Option.map_some] at hentry
    have hrun := runIdempotent_cached (agent.run inputs) (agent.init step.step w) hentry hfresh
    obtain ⟨refs, hok, hrefs⟩ := assignFrom_ok (missingOutput step) ctx.refs
      (hpersist e.outputs hwhole)
    obtain ⟨ctx', hexec, hctx, hguard⟩ :=
      executeStep_eq hspec hresolve hcollect hallowed hrun hok
    refine ⟨ctx', _, ⟨step, false, inputs, e.outputs, 0⟩, hexec, rfl, hreads _ _ _,
      .reuse agent e hagent rfl hearlier hfresh rfl, h.snoc hspec ?_ ?_ ?_ hwhole⟩
    · rw [hctx]
      exact hrefs
    · rw [hguard]
      exact h.ttl
    · intro t ht
      rw [hguard, earlier_snoc, if_neg (by simp)]
      exact h.history t ht
  · have hexpired : ∀ entry, ctx.idempotencyGuard.history.get? (stepKey step) = some entry →
        entry.2 ≤ (clock records.length).1 := by
      intro entry hentry
      rw [h.history step hstep] at hentry
      obtain ⟨e, hearlier, rfl⟩ := Option.map_eq_some_iff.mp hentry
      exact not_lt.mp (fun hlt => hcached ⟨e, hearlier, hlt⟩)
    obtain ⟨outputs, w', hout, hwhole⟩ := hruns inputs (agent.init step.step w)
    obtain ⟨g, hrun, httl, hhistory⟩ := runIdempotent_run hexpired hout
    obtain ⟨refs, hok, hrefs⟩ := assignFrom_ok (missingOutput step) ctx.refs
      (hpersist outputs hwhole)
    obtain ⟨ctx', hexec, hctx, hguard⟩ :=
      executeStep_eq hspec hresolve hcollect hallowed hrun hok
    refine ⟨ctx', _, ⟨step, true, inputs, outputs, (clock records.length).2⟩, hexec, rfl,
      hreads _ _ _, .run agent w' hagent rfl ?_ rfl hout, h.snoc hspec ?_ ?_ ?_ hwhole⟩
    · intro e hearlier
      exact not_lt.mp (fun hlt => hcached ⟨e, hearlier, hlt⟩)
    · rw [hctx]
      exact hrefs
    · rw [hguard, httl]
      exact h.ttl
    · intro t ht
      rw [hguard, hhistory, earlier_snoc, h.ttl]
      by_cases hkey : stepKey t = stepKey step
      · have hsame : SameStep step t := sameStep_of_key hapart hstep ht hkey.symm
        rw [if_pos hkey, if_pos ⟨rfl, hsame⟩]
        rfl
      · rw [if_neg hkey, if_neg (fun hs => hkey (stepKey_of_same hs.2).symm)]
        exact h.history t ht

theorem Carried.available {spec : AgentSpec} {ctx' : ExecutionContext V} {r : StepRecord V}
    {available : List Str} (h : Carried empty py body ctx records)
    (h' : Carried empty py body ctx' (records ++ [r]))
    (hspec : body.agentEntries.get? r.step.agentId = some spec)
    (houtputs : ∀ ref ∈ r.step.outputs, ref ∈ spec.contract.outputs.map IORef.ref)
    (havailable : ∀ ref ∈ available, (ctx.refs.get? ref).isSome) :
    ∀ ref ∈ available ++ r.step.outputs, (ctx'.refs.get? ref).isSome := by
  intro ref href
  rw [h'.refs, valueAt_snoc, ← h.refs]
  split_ifs with hout
  · obtain ⟨o, ho, rfl⟩ := List.mem_map.mp (houtputs ref hout)
    exact h'.whole r (by simp) spec hspec o ho
  · exact havailable ref ((List.mem_append.mp href).resolve_right hout)

theorem executeFrom_spec (clock : ℕ → ℚ × ℚ) (hapart : KeysApart body)
    (hcomplete : ∀ agent ∈ body.agents, Complete resolve agent.spec)
    (hallowed : ∀ agent ∈ body.agents, Allowed py guard body agent.spec)
    {rest : List AgentBundlePlanStep} (hrest : ∀ step ∈ rest, step ∈ body.plan)
    {available : List Str}
    (hclosed : Closed (buildContractIoSets body.contractEntries) available rest)
    (h : Carried empty py body ctx records)
    (havailable : ∀ ref ∈ available, (ctx.refs.get? ref).isSome) {w₀ w : W}
    (hdone : Performed empty (preconditionTexts py body.meta_) (AgentOf resolve body) clock
      records w₀ w) :
    ∃ ctx' w' records', executeFrom py guard resolve body clock records.length rest (ctx, w) =
        .ok (ctx', w') ∧ records'.map StepRecord.step = records.map StepRecord.step ++ rest ∧
      Performed empty (preconditionTexts py body.meta_) (AgentOf resolve body) clock
        records' w₀ w' ∧ Carried empty py body ctx' records' := by
  induction rest generalizing available ctx records w with
  | nil => exact ⟨ctx, w, records, rfl, (List.append_nil _).symm, hdone, h⟩
  | cons step rest ih =>
    obtain ⟨⟨io, hio, houtputs⟩, hinputs, hclosed⟩ := hclosed
    rw [get?_buildContractIoSets] at hio
    obtain ⟨spec, hspec, rfl⟩ := Option.map_eq_some_iff.mp hio
    obtain ⟨agent, hagent, rfl, -⟩ := agentEntries_mem hspec
    obtain ⟨ctx', w', r, hexec, rfl, hreads, hdoes, h'⟩ := executeStep_spec clock h hapart
      (hrest step List.mem_cons_self) hspec (fun ref href => havailable ref (hinputs ref href))
      houtputs (hcomplete agent hagent) (hallowed agent hagent) w
    obtain ⟨ctx'', w'', records', hrun, hsteps, hperformed, hcarried⟩ :=
      ih (fun s hs => hrest s (List.mem_cons_of_mem _ hs)) hclosed h'
        (h.available h' hspec houtputs havailable) (hdone.snoc hreads hdoes)
    refine ⟨ctx'', w'', records', ?_, ?_, hperformed, hcarried⟩
    · rw [List.length_append, List.length_singleton] at hrun
      rw [executeFrom, hexec]
      exact hrun
    · rw [hsteps, List.map_append, List.append_assoc]
      rfl

end steps

section bundles

variable {V W : Type} (empty : V) {py : PyText} (guard : PolicyGuard) {sha : Sha256}
  (resolve : AgentSpec → Except Str (RuntimeAgent V W)) {body : AgentBundleBody}

theorem loadPreconditions_from (refs : List Str) (ctx : ExecutionContext V) (ref : Str) :
    let ctx' := refs.foldl (fun ctx ref =>
      if (ctx.refs.get? ref).isSome then ctx
      else { ctx with refs := ctx.refs.assign ref empty }) ctx
    ctx'.refs.get? ref = (ctx.refs.get? ref).or (if ref ∈ refs then some empty else none) ∧
      ctx'.idempotencyGuard = ctx.idempotencyGuard := by
  induction refs generalizing ctx with
  | nil => exact ⟨by simp, rfl⟩
  | cons first refs ih =>
    obtain ⟨hrefs, hguard⟩ := ih (if (ctx.refs.get? first).isSome then ctx
      else { ctx with refs := ctx.refs.assign first empty })
    dsimp only [List.foldl_cons]
    rw [hrefs, hguard]
    by_cases hsome : (ctx.refs.get? first).isSome
    · rw [if_pos hsome]
      refine ⟨?_, rfl⟩
      by_cases href : ref = first
      · subst href
        obtain ⟨v, hv⟩ := Option.isSome_iff_exists.mp hsome
        simp [hv]
      · simp [href]
    · rw [if_neg hsome]
      refine ⟨?_, rfl⟩
      dsimp only
      rw [OrderedDict.get?_assign]
      by_cases href : ref = first
      · subst href
        simp [Option.not_isSome_iff_eq_none.mp hsome]
      · simp [href]

theorem carried_start : Carried empty py body (loadPreconditions empty py body {}) [] := by
  have hload := loadPreconditions_from empty (preconditionTexts py body.meta_) {}
  refine ⟨fun ref => ?_, ?_, fun step _ => ?_, fun r hr => absurd hr List.not_mem_nil⟩
  · exact (hload ref).1.trans rfl
  · rw [loadPreconditions, (hload []).2]
  · rw [loadPreconditions, (hload []).2]
    rfl

theorem executes_plan {candidate artifact : Artifact} (clock : ℕ → ℚ × ℚ) (w : W)
    (hbody : candidate.body = .agentBundle body)
    (hload : AgentBundleBody.fromMapping py candidate.bodyRaw = .ok body)
    (haccepted : verify py sha candidate = .ok artifact)
    (hcomplete : ∀ agent ∈ body.agents, Complete resolve agent.spec)
    (hallowed : ∀ agent ∈ body.agents, Allowed py guard body agent.spec)
    (hapart : KeysApart body) :
    ∃ ctx w' records, execute empty py guard resolve clock artifact w = .ok (ctx, w') ∧
      records.map StepRecord.step = body.plan ∧
      Performed empty (preconditionTexts py body.meta_) (AgentOf resolve body) clock records w w' ∧
      ∀ ref, ctx.refs.get? ref =
        valueAt empty (preconditionTexts py body.meta_) records ref := by
  obtain ⟨-, hstatus, hsame⟩ := verify_ok haccepted
  have hclosed := accepted_closed haccepted hbody
  rw [preconditions_fromMapping hload] at hclosed
  have hstart : Carried empty py body (loadPreconditions empty py body {}) [] := carried_start empty
  obtain ⟨ctx, w', records, hexec, hsteps, hperformed, hcarried⟩ :=
    executeFrom_spec clock hapart hcomplete hallowed (fun _ hs => hs) hclosed hstart
      (fun ref href => by rw [hstart.refs]; simp [valueAt, href]) (.nil w)
  refine ⟨ctx, w', records, ?_, hsteps, hperformed, hcarried.refs⟩
  rw [execute, hstatus, hsame, hbody]
  exact hexec

end bundles

def repeatedStep : Json :=
  .obj [("step".toList, .str "s".toList), ("agent_id".toList, .str "a".toList),
    ("outputs".toList, .arr [.str "r".toList])]

def repeatedRaw : JsonFields :=
  [("bundle_id".toList, .str "b".toList),
    ("agents".toList, .arr [.obj [("agent_id".toList, .str "a".toList),
      ("contract".toList, .obj [("inputs".toList, .arr []),
        ("outputs".toList, .arr [.obj [("ref".toList, .str "r".toList),
          ("kind".toList, .str "artifact".toList), ("schema".toList, .str "any".toList),
          ("required".toList, .bool true), ("mode".toList, .str "read".toList)]]),
        ("effects".toList, .arr [])])]]),
    ("plan".toList, .arr [repeatedStep, repeatedStep])]

def repeatedPlanStep : AgentBundlePlanStep :=
  { step := "s".toList
    agentId := "a".toList
    outputs := ["r".toList] }

def repeatedBody : AgentBundleBody :=
  { bundleId := "b".toList
    agents := [{ spec := ⟨"a".toList,
      ⟨[], [⟨"r".toList, "artifact".toList, .str "any".toList, true, "read".toList⟩], []⟩⟩ }]
    plan := [repeatedPlanStep, repeatedPlanStep] }

def repeatedCandidate : Artifact :=
  { envelope := { artifactId := "b".toList, status := .candidate, version := "v0".toList }
    body := .agentBundle repeatedBody
    bodyRaw := repeatedRaw }

def countingAgent : RuntimeAgent Unit ℕ where
  init := fun _ n => n
  run := fun _ n => (.ok (OrderedDict.empty.assign "r".toList ()), n + 1)
  finalize := id

theorem repeated_loaded :
    AgentBundleBody.fromMapping Queue.plainPy repeatedRaw = .ok repeatedBody := by
  rfl

theorem repeated_accepted (sha : Sha256) :
    ∃ artifact, verify Queue.plainPy sha repeatedCandidate = .ok artifact :=
  verify_eq_ok (by decide +kernel)

theorem counting_complete (spec : AgentSpec) (h : spec ∈ repeatedBody.agents.map (·.spec)) :
    Complete (fun _ => .ok countingAgent) spec := by
  refine ⟨countingAgent, rfl, fun inputs n => ⟨_, _, rfl, ?_⟩⟩
  obtain rfl := List.mem_singleton.mp h
  intro o ho
  obtain rfl := List.mem_singleton.mp ho
  rfl

theorem repeated_followed (sha : Sha256) (artifact : Artifact)
    (h : verify Queue.plainPy sha repeatedCandidate = .ok artifact) :
    ∃ ctx, execute () Queue.plainPy {} (fun _ => .ok countingAgent) (fun _ => (0, 0)) artifact 0 =
      .ok (ctx, 1) := by
  obtain ⟨-, hstatus, hbody⟩ := verify_ok h
  rw [execute, hstatus, hbody]
  exact ⟨_, by with_unfolding_all rfl⟩

theorem repeated_executes : ∃ artifact ctx n records,
    verify Queue.plainPy (Sha256.ofTable [] rfl) repeatedCandidate = .ok artifact ∧
    execute () Queue.plainPy {} (fun _ => .ok countingAgent) (fun n => (n, n)) artifact 0 =
      .ok (ctx, n) ∧ records.map StepRecord.step = [repeatedPlanStep, repeatedPlanStep] ∧
    Performed () [] (AgentOf (fun _ => .ok countingAgent) repeatedBody) (fun n => (n, n)) records
      0 n ∧ ∀ ref, ctx.refs.get? ref = valueAt () [] records ref := by
  obtain ⟨artifact, hverify⟩ := repeated_accepted (Sha256.ofTable [] rfl)
  obtain ⟨ctx, n, records, hrun⟩ := executes_plan () {}
    (fun _ => .ok countingAgent) (fun n => (n, n)) 0 rfl repeated_loaded hverify
    (fun agent hagent => counting_complete _ (List.mem_map_of_mem hagent))
    (fun agent hagent e he => by
      obtain rfl := List.mem_singleton.mp hagent
      cases he)
    (fun s hs t ht _ => by
      simp only [repeatedBody, List.mem_cons, List.not_mem_nil, or_false, or_self] at hs ht
      rw [hs, ht])
  exact ⟨artifact, ctx, n, records, hverify, hrun⟩

theorem repeated_step_runs_once : ∃ artifact ctx,
    verify Queue.plainPy (Sha256.ofTable [] rfl) repeatedCandidate = .ok artifact ∧
    (∀ agent ∈ repeatedBody.agents, Complete (fun _ => .ok countingAgent) agent.spec) ∧
    (∀ agent ∈ repeatedBody.agents, Allowed Queue.plainPy {} repeatedBody agent.spec) ∧
    execute () Queue.plainPy {} (fun _ => .ok countingAgent) (fun _ => (0, 0)) artifact 0 =
      .ok (ctx, 1) ∧ repeatedBody.plan.length = 2 := by
  obtain ⟨artifact, hverify⟩ := repeated_accepted (Sha256.ofTable [] rfl)
  obtain ⟨ctx, hrun⟩ := repeated_followed _ artifact hverify
  refine ⟨artifact, ctx, hverify, fun agent hagent => ?_, fun agent hagent e he => ?_, hrun, rfl⟩
  · exact counting_complete _ (List.mem_map_of_mem hagent)
  · obtain rfl := List.mem_singleton.mp hagent
    cases he

end TraceMind.Runtime
