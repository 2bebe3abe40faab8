import TraceMind.Flow.RecipeLoader
import Mathlib.Data.List.Chain

namespace TraceMind.Recipe

open Dsl (Calls Fields FlowEdge FlowStep StepContext)

section execution

variable {W : Type}

def runHook (E : Calls W) (ctx : StepContext) (x : Fields × W) : Hook → Except Str (Fields × W)
  | .call => Dsl.call E ctx x
  | .switch => .ok (Dsl.switch ctx x.1, x.2)
  | .emitOutputs => (Dsl.emitOutputs E.literal ctx x.1).map (fun state => (state, x.2))

def runStep (E : Calls W) (step : StepDef) (x : Fields × W) : Except Str (Fields × W) :=
  match step.operation, step.run with
  | .task, some hook => runHook E { step := step.name, config := step.config } x hook
  | _, _ => .ok x

def textAt (k : Str) (config : Fields) : Option Str :=
  match OrderedDict.find k config with
  | some (.str s) => some s
  | _ => none

def StepDef.listed (step : StepDef) (name : Option Str) : Option Str :=
  name.filter (fun n => n ∈ step.nextSteps)

def nextStep (step : StepDef) : Option Str :=
  match step.operation with
  | .switch => (step.listed (textAt "key".toList step.config)).or
      ((step.listed (textAt "default".toList step.config)).or step.nextSteps.head?)
  | _ => step.nextSteps.head?

abbrev Executed (W : Type) := List Str × Fields × W

def continues (executed : List Str) (next : Str) : Bool :=
  !next.isEmpty && decide (next ∉ executed)

def executeFrom (E : Calls W) (spec : FlowSpec) :
    ℕ → Str → List Str → Fields × W → Fuelled Str (Executed W)
  | 0, _, _, _ => .out
  | fuel + 1, current, executed, x =>
    match spec.step current with
    | none => .fail current
    | some step =>
      match runStep E step x with
      | .error e => .fail e
      | .ok y =>
        match (nextStep step).filter (continues (executed ++ [current])) with
        | none => .ret (executed ++ [current], y)
        | some next => executeFrom E spec fuel next (executed ++ [current]) y

def firstStep (spec : FlowSpec) : Str :=
  if spec.entrypoint.isEmpty then (spec.steps.head?.map StepDef.name).getD []
  else spec.entrypoint

def executeImmediately (E : Calls W) (spec : FlowSpec) (inputs : Fields) (world : W) :
    Fuelled Str (Executed W) :=
  if (firstStep spec).isEmpty then .ret ([], inputs, world)
  else executeFrom E spec (spec.steps.length + 1) (firstStep spec) [] (inputs, world)

end execution

section steps

variable {W : Type} {E : Calls W} {spec : FlowSpec} {step : StepDef} {current : Str}
  {executed : List Str} {x y : Fields × W}

theorem runStep_task {hook : Hook} (hop : step.operation = .task) (hrun : step.run = some hook) :
    runStep E step x = runHook E { step := step.name, config := step.config } x hook := by
  rw [runStep, hop, hrun]

theorem runStep_finish (hop : step.operation = .finish) : runStep E step x = .ok x := by
  rw [runStep, hop]

theorem executeFrom_next {fuel : ℕ} {next : Str} (hstep : spec.step current = some step)
    (hrun : runStep E step x = .ok y) (hnext : nextStep step = some next) (hne : next ≠ [])
    (hnew : next ∉ executed ++ [current]) :
    executeFrom E spec (fuel + 1) current executed x =
      executeFrom E spec fuel next (executed ++ [current]) y := by
  have hcont : continues (executed ++ [current]) next = true := by
    rw [continues, decide_eq_true hnew, Bool.and_true, Bool.not_eq_true',
      List.isEmpty_eq_false_iff]
    exact hne
  rw [executeFrom, hstep]
  dsimp only
  rw [hrun]
  dsimp only
  rw [hnext, Option.filter_some, if_pos hcont]

theorem executeFrom_last {fuel : ℕ} (hstep : spec.step current = some step)
    (hrun : runStep E step x = .ok y) (hnext : nextStep step = none) :
    executeFrom E spec (fuel + 1) current executed x = .ret (executed ++ [current], y) := by
  rw [executeFrom, hstep]
  dsimp only
  rw [hrun]
  dsimp only
  rw [hnext]
  rfl

theorem executeFrom_fail {fuel : ℕ} {e : Str} (hstep : spec.step current = some step)
    (hrun : runStep E step x = .error e) :
    executeFrom E spec (fuel + 1) current executed x = .fail e := by
  rw [executeFrom, hstep]
  dsimp only
  rw [hrun]

end steps

section walk

inductive Failure (ε : Type) where
  | unknown (name : Str)
  | raised (e : ε)

def Failure.text : Failure Str → Str
  | .unknown name => name
  | .raised e => e

variable {σ ε : Type}

def runFrom (invoke : StepDef → List Str → σ → Except ε σ) (spec : FlowSpec) :
    ℕ → Str → List Str → σ → Option (List Str × Except (Failure ε) σ)
  | 0, _, _, _ => none
  | fuel + 1, current, executed, state =>
    match spec.step current with
    | none => some (executed, .error (.unknown current))
    | some step =>
      match invoke step executed state with
      | .error e => some (executed ++ [current], .error (.raised e))
      | .ok state =>
        match (nextStep step).filter (continues (executed ++ [current])) with
        | none => some (executed ++ [current], .ok state)
        | some next => runFrom invoke spec fuel next (executed ++ [current]) state

def runImmediately (invoke : StepDef → List Str → σ → Except ε σ) (spec : FlowSpec) (state : σ) :
    Option (List Str × Except (Failure ε) σ) :=
  if (firstStep spec).isEmpty then some ([], .ok state)
  else runFrom invoke spec (spec.steps.length + 1) (firstStep spec) [] state

theorem executeFrom_eq {W : Type} (E : Calls W) (spec : FlowSpec) (fuel : ℕ) :
    ∀ (current : Str) (executed : List Str) (x : Fields × W),
      executeFrom E spec fuel current executed x =
        (runFrom (fun step _ => runStep E step) spec fuel current executed x).map
          (fun r => (r.2.mapError Failure.text).map (fun y => (r.1, y))) := by
  induction fuel with
  | zero => exact fun _ _ _ => rfl
  | succ fuel ih =>
    intro current executed x
    rw [executeFrom, runFrom]
    cases spec.step current with
    | none => rfl
    | some step =>
      dsimp only
      cases runStep E step x with
      | error e => rfl
      | ok y =>
        dsimp only
        cases (nextStep step).filter (continues (executed ++ [current])) with
        | none => rfl
        | some next => exact ih next _ y

structure BuiltFrom (spec : FlowSpec) (entry : Str) (steps : List FlowStep)
    (edges : List FlowEdge) : Prop where
  entrypoint : spec.entrypoint = entry
  steps : spec.steps.map (fun s => (s.name, s.nextSteps)) =
    steps.map (fun s => (s.id, adjacencyOf edges s.id))

variable {spec : FlowSpec} {entry : Str} {steps : List FlowStep} {edges : List FlowEdge}

theorem nextStep_mem {step : StepDef} {n : Str} (h : nextStep step = some n) :
    n ∈ step.nextSteps := by
  have hhead : step.nextSteps.head? = some n → n ∈ step.nextSteps := List.mem_of_head?
  have hlisted : ∀ name, step.listed name = some n → n ∈ step.nextSteps := by
    intro name hn
    exact of_decide_eq_true (Option.filter_eq_some_iff.mp hn).2
  rw [nextStep] at h
  split at h
  · rcases Option.or_eq_some_iff.mp h with hk | ⟨-, h⟩
    · exact hlisted _ hk
    · rcases Option.or_eq_some_iff.mp h with hd | ⟨-, h⟩
      · exact hlisted _ hd
      · exact hhead h
  · exact hhead h

theorem BuiltFrom.names (h : BuiltFrom spec entry steps edges) :
    spec.steps.map StepDef.name = steps.map FlowStep.id := by
  have hfst := congrArg (List.map Prod.fst) h.steps
  rwa [List.map_map, List.map_map] at hfst

theorem BuiltFrom.step (h : BuiltFrom spec entry steps edges) {name : Str}
    (hname : name ∈ steps.map FlowStep.id) :
    ∃ step, spec.step name = some step ∧ step.nextSteps = adjacencyOf edges name := by
  rw [← h.names] at hname
  obtain ⟨s, hs, hsn⟩ := List.mem_map.mp hname
  cases hstep : spec.step name with
  | none => exact absurd hsn (by simpa using List.find?_eq_none.mp hstep s hs)
  | some step =>
    have hfound := List.find?_some hstep
    obtain rfl : step.name = name := of_decide_eq_true hfound
    have hmem : (step.name, step.nextSteps) ∈ steps.map (fun s => (s.id, adjacencyOf edges s.id)) :=
      h.steps ▸ List.mem_map_of_mem (f := fun s : StepDef => (s.name, s.nextSteps))
        (List.mem_of_find?_eq_some hstep)
    obtain ⟨t, -, ht⟩ := List.mem_map.mp hmem
    obtain ⟨hid, hnext⟩ := Prod.mk.inj ht
    exact ⟨step, rfl, by rw [← hnext, hid]⟩

def IsPath (edges : List FlowEdge) (names : List Str) : Prop :=
  names.Nodup ∧ names.IsChain (Leads (adjacencyOf edges))

theorem runFrom_path (h : BuiltFrom spec entry steps edges)
    (hedges : ∀ n, ∀ m ∈ adjacencyOf edges n, m ∈ steps.map FlowStep.id)
    (invoke : StepDef → List Str → σ → Except ε σ) (fuel : ℕ) :
    ∀ {current : Str} {executed : List Str} {state : σ}, IsPath edges (executed ++ [current]) →
      executed ++ [current] ⊆ steps.map FlowStep.id →
      steps.length < executed.length + fuel →
        ∃ visited result, runFrom invoke spec fuel current executed state =
          some (visited, result) ∧ IsPath edges visited ∧ executed ++ [current] <+: visited ∧
            ∀ n, result ≠ .error (.unknown n) := by
  induction fuel with
  | zero =>
    intro current executed state hpath hsub hlt
    have hle := (List.subperm_of_subset hpath.1 hsub).length_le
    rw [List.length_append, List.length_map] at hle
    omega
  | succ fuel ih =>
    intro current executed state hpath hsub hlt
    obtain ⟨step, hstep, hnext⟩ := h.step (hsub (List.mem_append_right _ List.mem_cons_self))
    rw [runFrom, hstep]
    dsimp only
    cases invoke step executed state with
    | error e => exact ⟨_, _, rfl, hpath, List.prefix_rfl, fun n hn => by cases hn⟩
    | ok state =>
      dsimp only
      cases hn : (nextStep step).filter (continues (executed ++ [current])) with
      | none => exact ⟨_, _, rfl, hpath, List.prefix_rfl, fun n hn => by cases hn⟩
      | some next =>
        obtain ⟨hmem, hcont⟩ := Option.filter_eq_some_iff.mp hn
        rw [continues, Bool.and_eq_true, decide_eq_true_eq] at hcont
        replace hmem := nextStep_mem hmem
        rw [hnext] at hmem
        have hlonger : IsPath edges ((executed ++ [current]) ++ [next]) := by
          refine ⟨?_, ?_⟩
          · refine List.nodup_append.mpr ⟨hpath.1, List.nodup_singleton _, ?_⟩
            intro a ha b hb hab
            exact hcont.2 (List.mem_singleton.mp hb ▸ hab ▸ ha)
          · rw [List.append_assoc]
            exact List.isChain_append_cons_cons.mpr ⟨hpath.2, hmem, List.isChain_singleton _⟩
        have hknown : (executed ++ [current]) ++ [next] ⊆ steps.map FlowStep.id :=
          List.append_subset.mpr ⟨hsub, List.cons_subset.mpr ⟨hedges _ _ hmem, List.nil_subset _⟩⟩
        obtain ⟨visited, result, hrun, hpath', hprefix, hresult⟩ :=
          @ih next (executed ++ [current]) state hlonger hknown (by
            rw [List.length_append, List.length_singleton]
            omega)
        exact ⟨visited, result, hrun, hpath', (List.prefix_append _ _).trans hprefix, hresult⟩

theorem graph_accepted_and_walked {entry : Str} {steps : List FlowStep} {edges : List FlowEdge}
    (hne : ∀ s ∈ steps, s.id ≠ []) :
    graphChecks entry steps edges ≠ .out ∧
    (graphChecks entry steps edges = .ret () ↔
      (steps.map FlowStep.id).Nodup ∧
        (∀ e ∈ edges, e.src ∈ steps.map FlowStep.id ∧ e.dst ∈ steps.map FlowStep.id) ∧
        entry ∈ steps.map FlowStep.id ∧
        (∀ n, Reaches (adjacencyOf edges) entry n → ¬Cyclic (adjacencyOf edges) n) ∧
        ∀ id ∈ steps.map FlowStep.id, Reaches (adjacencyOf edges) entry id) ∧
    (graphChecks entry steps edges = .ret () → ∀ spec, BuiltFrom spec entry steps edges →
      ∀ (σ ε : Type) (invoke : StepDef → List Str → σ → Except ε σ) (state : σ),
        ∃ visited result, runImmediately invoke spec state = some (visited, result) ∧
          visited.head? = some entry ∧ IsPath edges visited ∧
            ∀ n, result ≠ .error (.unknown n)) := by
  refine ⟨graphChecks_ne_out entry steps edges, graphChecks_iff hne, ?_⟩
  intro haccepted spec hspec σ ε invoke state
  obtain ⟨-, hedges, hentry, -⟩ := (graphChecks_iff hne).mp haccepted
  have hentry_ne : entry ≠ [] := by
    obtain ⟨s, hs, rfl⟩ := List.mem_map.mp hentry
    exact hne s hs
  have hfirst : firstStep spec = entry := by
    rw [firstStep, hspec.entrypoint, if_neg (by simpa using hentry_ne)]
  have hlen : spec.steps.length = steps.length := by
    have hnames := congrArg List.length hspec.names
    rwa [List.length_map, List.length_map] at hnames
  rw [runImmediately, hfirst, if_neg (by simpa using hentry_ne), hlen]
  obtain ⟨visited, result, hrun, hpath, hprefix, hresult⟩ :=
    @runFrom_path _ _ _ _ _ _ hspec (adjacency_known hedges) invoke (steps.length + 1) entry []
      state ⟨List.nodup_singleton _, List.isChain_singleton _⟩
      (List.cons_subset.mpr ⟨hentry, List.nil_subset _⟩) (by simp)
  obtain ⟨rest, rfl⟩ := hprefix
  exact ⟨_, result, hrun, rfl, hpath, hresult⟩

def twoSteps : List FlowStep := [⟨['a'], .finish, {}⟩, ⟨['b'], .finish, {}⟩]

def oneEdge : List FlowEdge := [{ src := ['a'], dst := ['b'] }]

theorem two_steps_accepted :
    graphChecks ['a'] twoSteps oneEdge = .ret () ∧
      ∀ id ∈ twoSteps.map FlowStep.id, Reaches (adjacencyOf oneEdge) ['a'] id := by
  have hne : ∀ s ∈ twoSteps, s.id ≠ [] := by
    simp [twoSteps]
  have haccepted : graphChecks ['a'] twoSteps oneEdge = .ret () := rfl
  exact ⟨haccepted, ((graph_accepted_and_walked hne).2.1.mp haccepted).2.2.2.2⟩

end walk

end TraceMind.Recipe
