import TraceMind.Artifacts.Verify

namespace TraceMind.Artifacts

open Queue (PyText)
open Fallible

variable {py : PyText} {sha : Sha256}

section closed

variable {sets : OrderedDict Str (List Str × List Str)}

def Closed (sets : OrderedDict Str (List Str × List Str)) :
    List Str → List AgentBundlePlanStep → Prop
  | _, [] => True
  | available, step :: rest => (∃ io, sets.get? step.agentId = some io ∧
      (∀ ref ∈ step.outputs, ref ∈ io.2)) ∧ (∀ ref ∈ step.inputs, ref ∈ available) ∧
      Closed sets (available ++ step.outputs) rest

theorem stepIssues_eq_nil {path : Str} {step : AgentBundlePlanStep} {available : List Str}
    {io : List Str × List Str} (h : stepIssues path step available io = []) :
    (∀ ref ∈ step.inputs, ref ∈ available) ∧ ∀ ref ∈ step.outputs, ref ∈ io.2 := by
  rw [stepIssues, List.append_eq_nil_iff, List.flatMap_eq_nil_iff, List.flatMap_eq_nil_iff] at h
  constructor
  · intro ref href
    by_contra hnot
    have hissue := h.1 ref href
    rw [inputIssues, if_pos hnot] at hissue
    cases hissue
  · intro ref href
    by_contra hnot
    have hissue := h.2 ref href
    rw [if_pos hnot] at hissue
    cases hissue

theorem closed_of_lint {idx : ℕ} {available : List Str} {plan : List AgentBundlePlanStep}
    (h : lintPlanFrom sets idx available plan = [])
    (hknown : ∀ step ∈ plan, (sets.get? step.agentId).isSome) : Closed sets available plan := by
  induction plan generalizing idx available with
  | nil => trivial
  | cons step rest ih =>
    obtain ⟨io, hio⟩ := Option.isSome_iff_exists.mp (hknown step List.mem_cons_self)
    rw [lintPlanFrom, hio] at h
    obtain ⟨hstep, hrest⟩ := List.append_eq_nil_iff.mp h
    obtain ⟨hinputs, houtputs⟩ := stepIssues_eq_nil hstep
    exact ⟨⟨io, hio, houtputs⟩, hinputs,
      ih hrest (fun s hs => hknown s (List.mem_cons_of_mem _ hs))⟩

end closed

section entries

variable {body : AgentBundleBody} {id : Str} {spec : AgentSpec}

def ioSets (spec : AgentSpec) : List Str × List Str :=
  (spec.contract.inputs.map IORef.ref, spec.contract.outputs.map IORef.ref)

theorem ioSets_from {agents : List AgentBundleAgent} {known : OrderedDict Str AgentSpec}
    {sets : OrderedDict Str (List Str × List Str)}
    (h : ∀ id, sets.get? id = (known.get? id).map ioSets) (id : Str) :
    ((agents.map (fun agent => (agent.spec.agentId, agent.spec.contract))).foldl
      (fun sets entry => sets.assign entry.1
        (entry.2.inputs.map IORef.ref, entry.2.outputs.map IORef.ref)) sets).get? id =
      ((agents.foldl (fun known agent => known.assign agent.spec.agentId agent.spec)
        known).get? id).map ioSets := by
  induction agents generalizing known sets with
  | nil => exact h id
  | cons agent agents ih =>
    refine ih (fun id => ?_)
    rw [OrderedDict.get?_assign, OrderedDict.get?_assign]
    split_ifs
    · rfl
    · exact h id

theorem get?_buildContractIoSets : (buildContractIoSets body.contractEntries).get? id =
    (body.agentEntries.get? id).map ioSets :=
  ioSets_from (fun _ => rfl) id

theorem entries_from {agents : List AgentBundleAgent} {known : OrderedDict Str AgentSpec}
    (h : (agents.foldl (fun known agent => known.assign agent.spec.agentId agent.spec)
      known).get? id = some spec) :
    known.get? id = some spec ∨ ∃ agent ∈ agents, agent.spec = spec ∧ spec.agentId = id := by
  induction agents generalizing known with
  | nil => exact Or.inl h
  | cons agent agents ih =>
    rcases ih h with hknown | ⟨a, ha, hspec⟩
    · rw [OrderedDict.get?_assign] at hknown
      split_ifs at hknown with hid
      · obtain rfl := Option.some.inj hknown
        exact Or.inr ⟨agent, List.mem_cons_self, rfl, hid.symm⟩
      · exact Or.inl hknown
    · exact Or.inr ⟨a, List.mem_cons_of_mem _ ha, hspec⟩

theorem agentEntries_mem (h : body.agentEntries.get? id = some spec) :
    ∃ agent ∈ body.agents, agent.spec = spec ∧ spec.agentId = id := by
  rcases entries_from h with hnone | hagent
  · cases hnone
  · exact hagent

theorem isSome_entries_from {agents : List AgentBundleAgent} {known : OrderedDict Str AgentSpec}
    (h : (known.get? id).isSome ∨ id ∈ agents.map (fun agent => agent.spec.agentId)) :
    ((agents.foldl (fun known agent => known.assign agent.spec.agentId agent.spec)
      known).get? id).isSome := by
  induction agents generalizing known with
  | nil => exact h.resolve_right List.not_mem_nil
  | cons agent agents ih =>
    refine ih ?_
    rw [OrderedDict.get?_assign]
    rcases h with hknown | hmem
    · split_ifs
      · exact Or.inl rfl
      · exact Or.inl hknown
    · rcases List.mem_cons.mp hmem with rfl | hrest
      · rw [if_pos rfl]
        exact Or.inl rfl
      · exact Or.inr hrest

theorem isSome_agentEntries (h : id ∈ body.agents.map (fun agent => agent.spec.agentId)) :
    (body.agentEntries.get? id).isSome :=
  isSome_entries_from (Or.inr h)

end entries

section accepted

variable {candidate artifact : Artifact} {body : AgentBundleBody}

theorem verify_ok (h : verify py sha candidate = .ok artifact) :
    verificationErrors py candidate = [] ∧ artifact.envelope.status = .accepted ∧
      artifact.body = candidate.body := by
  rw [verify] at h
  split_ifs at h with herrors
  obtain rfl := Except.ok.inj h
  exact ⟨herrors, rfl, rfl⟩

theorem verify_eq_ok (h : verificationErrors py candidate = []) :
    ∃ artifact, verify py sha candidate = .ok artifact := by
  rw [verify, if_pos h]
  exact ⟨_, rfl⟩

theorem bundleStep_registered {agentIds : List Str} {idx : ℕ} {step : AgentBundlePlanStep}
    (h : bundleStepErrors agentIds idx step = []) : step.agentId ∈ agentIds := by
  rw [bundleStepErrors, List.append_eq_nil_iff, List.append_eq_nil_iff] at h
  obtain ⟨⟨-, hid⟩, -⟩ := h
  split_ifs at hid with hempty hmem
  · exact hmem

theorem plan_registered {raw : JsonFields} (h : validateAgentBundle body raw = [])
    {step : AgentBundlePlanStep} (hstep : step ∈ body.plan) :
    step.agentId ∈ body.agents.map (fun agent => agent.spec.agentId) := by
  rw [validateAgentBundle, List.append_eq_nil_iff] at h
  obtain ⟨-, hplan⟩ := h
  cases herror : bundlePlanError (raw.lookup "plan".toList) with
  | some e =>
    rw [herror] at hplan
    cases hplan
  | none =>
    rw [herror, Option.elim_none, List.flatMap_eq_nil_iff] at hplan
    obtain ⟨idx, hidx⟩ := List.mem_iff_getElem?.mp hstep
    exact bundleStep_registered (hplan (step, idx) (List.mk_mem_zipIdx_iff_getElem?.mpr hidx))

theorem accepted_closed (h : verify py sha candidate = .ok artifact)
    (hbody : candidate.body = .agentBundle body) :
    Closed (buildContractIoSets body.contractEntries)
      (extractPreconditions py candidate.bodyRaw) body.plan := by
  obtain ⟨herrors, -, -⟩ := verify_ok h
  simp only [verificationErrors, hbody, bodyErrors, List.append_eq_nil_iff,
    List.map_eq_nil_iff] at herrors
  obtain ⟨-, ⟨hvalid, hlint⟩, -⟩ := herrors
  have hregistered : ∀ step ∈ body.plan,
      ((buildContractIoSets body.contractEntries).get? step.agentId).isSome := by
    intro step hstep
    rw [get?_buildContractIoSets, Option.isSome_map]
    exact isSome_agentEntries (plan_registered hvalid hstep)
  have hagents : body.contractEntries ≠ [] := by
    intro hnone
    rw [validateAgentBundle, List.append_eq_nil_iff] at hvalid
    rw [if_pos (List.map_eq_nil_iff.mp hnone)] at hvalid
    cases hvalid.1
  rw [lintAgentBundleIoContract, if_neg hagents, List.append_eq_nil_iff] at hlint
  exact closed_of_lint hlint.2 hregistered

theorem extractPreconditions_eq {raw fields : JsonFields}
    (h : ensureDict "meta".toList (orEmpty (raw.lookup "meta".toList)) = .ok fields) :
    extractPreconditions py raw = preconditionTexts py fields := by
  rw [extractPreconditions]
  cases hraw : raw.lookup "meta".toList with
  | none =>
    rw [hraw] at h
    obtain rfl := Except.ok.inj h
    rfl
  | some v =>
    rw [hraw, orEmpty] at h
    split_ifs at h with htruth
    · cases v <;> cases h
      rfl
    · obtain rfl := Except.ok.inj h
      cases v with
      | obj data =>
        have hempty : data = [] := by simpa [Workflow.truth] using htruth
        rw [hempty]
      | _ => rfl

theorem preconditions_fromMapping {raw : JsonFields}
    (h : AgentBundleBody.fromMapping py raw = .ok body) :
    extractPreconditions py raw = preconditionTexts py body.meta_ := by
  rw [AgentBundleBody.fromMapping] at h
  obtain ⟨agentsRaw, -, h⟩ := bind_eq_ok.mp h
  obtain ⟨planRaw, -, h⟩ := bind_eq_ok.mp h
  obtain ⟨bundleId, -, h⟩ := bind_eq_ok.mp h
  obtain ⟨agents, -, h⟩ := bind_eq_ok.mp h
  obtain ⟨plan, -, h⟩ := bind_eq_ok.mp h
  obtain ⟨fields, hfields, h⟩ := bind_eq_ok.mp h
  obtain rfl := Except.ok.inj h
  exact extractPreconditions_eq hfields

end accepted

end TraceMind.Artifacts
