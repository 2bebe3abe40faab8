import TraceMind.Foundation.Fallible
import TraceMind.Verify.ExplorerSpec

namespace TraceMind.Pipeline

open Selectors (Path selectorMatch)
open Verify (Plan Rule StepSpec anyMatch ruleTriggered)

section engine

structure Functions (W C : Type) where
  fn : Str → W → C → W × Except (Str × C) C
  snapshot : C → Except Err C

structure TraceSpan (C : Type) where
  rule : Str
  step : Str
  inputs : C
  outputs : C
  reads : List Str
  writes : List Str
  error : Option Str

structure Executed (C : Type) where
  name : Str
  spec : StepSpec
  before : C
  span : TraceSpan C

structure Outcome (W C : Type) where
  executed : List (Executed C)
  world : W
  result : Except Err C

variable {W C : Type}

def matchPaths (matcher : Str → Path → Except Err Bool) (e : Str) : List Path → Except Err Bool
  | [] => .ok false
  | p :: ps => do
    let hit ← matcher e p
    if hit then .ok true else matchPaths matcher e ps

def matchAny (matcher : Str → Path → Except Err Bool) : List Str → List Path → Except Err Bool
  | [], _ => .ok false
  | e :: exprs, changed => do
    let hit ← matchPaths matcher e changed
    if hit then .ok true else matchAny matcher exprs changed

def makeSpan (rule : Str) (spec : StepSpec) (inputs outputs : C) (error : Option Str) : TraceSpan C :=
  ⟨rule, spec.name, inputs, outputs, spec.reads, spec.writes, error⟩

def Outcome.after (o : Outcome W C) (e : Executed C) : Outcome W C :=
  { o with executed := e :: o.executed }

def runSteps (f : Functions W C) (plan : Plan) (rule : Str) : List Str → W → C → Outcome W C
  | [], w, ctx => ⟨[], w, .ok ctx⟩
  | name :: names, w, ctx =>
    match plan.steps.get? name with
    | none => ⟨[], w, .error (.keyError (String.ofList name))⟩
    | some spec =>
      match f.snapshot ctx with
      | .error e => ⟨[], w, .error e⟩
      | .ok before =>
        match f.fn name w ctx with
        | (w', .ok ctx') => (runSteps f plan rule names w' ctx').after
            ⟨name, spec, ctx, makeSpan rule spec before ctx' none⟩
        | (w', .error (err, ctx')) =>
          ⟨[⟨name, spec, ctx, makeSpan rule spec before ctx' (some err)⟩], w', .ok ctx'⟩

def Outcome.andThen (o : Outcome W C) (next : W → C → Outcome W C) : Outcome W C :=
  match o.result with
  | .error e => ⟨o.executed, o.world, .error e⟩
  | .ok ctx =>
    let o' := next o.world ctx
    ⟨o.executed ++ o'.executed, o'.world, o'.result⟩

def runRules (f : Functions W C) (plan : Plan) (changed : List Path)
    (matcher : Str → Path → Except Err Bool) : List Rule → W → C → Outcome W C
  | [], w, ctx => ⟨[], w, .ok ctx⟩
  | rule :: rules, w, ctx =>
    match matchAny matcher rule.triggers changed with
    | .error e => ⟨[], w, .error e⟩
    | .ok false => runRules f plan changed matcher rules w ctx
    | .ok true =>
      (runSteps f plan rule.name rule.steps w ctx).andThen (runRules f plan changed matcher rules)

def run (f : Functions W C) (plan : Plan) (w : W) (ctx : C) (changedPaths : List Path)
    (matcher : Str → Path → Except Err Bool) : Outcome W C :=
  runRules f plan changedPaths matcher plan.rules w ctx

theorem matchPaths_selectorMatch (trig : Str) (paths : List Path) :
    matchPaths selectorMatch trig paths = anyMatch trig paths := by
  induction paths with
  | nil => rfl
  | cons p ps ih => rw [matchPaths, anyMatch, ih]

theorem matchAny_selectorMatch (trigs : List Str) (paths : List Path) :
    matchAny selectorMatch trigs paths = ruleTriggered trigs paths := by
  induction trigs with
  | nil => rfl
  | cons trig trigs ih => rw [matchAny, ruleTriggered, matchPaths_selectorMatch, ih]

end engine

end TraceMind.Pipeline

-- The verifier's model of a plan against the engine that runs it.
namespace TraceMind.Pipeline

open BoundedSearch (Next)
open Selectors (Path selectorMatch)
open Verify

section adapter

variable {V : Type} {a : TraceMindAdapter V} {s t : State V} {name : Str} {spec : StepSpec}

theorem mem_appendNew {xs : List Str} {x y : Str} :
    y ∈ TraceMindAdapter.appendNew xs x ↔ y ∈ xs ∨ y = x := by
  rw [TraceMindAdapter.appendNew]
  split_ifs with hx
  · exact ⟨Or.inl, fun h => h.elim id (fun he => he ▸ hx)⟩
  · rw [List.mem_append, List.mem_singleton]

theorem mem_foldl_appendNew {xs ys : List Str} {y : Str} :
    y ∈ ys.foldl TraceMindAdapter.appendNew xs ↔ y ∈ xs ∨ y ∈ ys := by
  induction ys generalizing xs with
  | nil => simp
  | cons z ys ih => rw [List.foldl_cons, ih, mem_appendNew, List.mem_cons, or_assoc]

theorem mem_enabledSteps (hp : name ∈ s.pending) (hspec : a.plan.steps.get? name = some spec)
    (hreads : ∀ r ∈ spec.reads, s.store.contains r = true) : name ∈ a.enabledSteps s := by
  refine mem_foldl_appendNew.mpr (Or.inr (List.mem_filter.mpr ⟨hp, ?_⟩))
  rw [TraceMindAdapter.isEnabled, hspec]
  exact List.all_eq_true.mpr hreads

def Waits (a : TraceMindAdapter V) (collected : List Str) (s : State V) : Prop :=
  ∀ name ∈ collected, name ∈ s.pending ∨
    ∀ spec, a.plan.steps.get? name = some spec → ∀ k ∈ spec.writes, s.store.contains k = true

theorem exists_collected {root : State V} (hroot : a.initialState = .ok root) :
    ∃ collected, a.collectSteps a.changedPaths = .ok collected := by
  rw [TraceMindAdapter.initialState] at hroot
  obtain ⟨collected, hc, -⟩ := Fallible.bind_eq_ok.mp hroot
  exact ⟨collected, hc⟩

theorem waits_initial {root : State V} {collected : List Str}
    (hc : a.collectSteps a.changedPaths = .ok collected) (h : a.initialState = .ok root) :
    Waits a collected root := by
  rw [TraceMindAdapter.initialState] at h
  obtain ⟨c, hc', h⟩ := Fallible.bind_eq_ok.mp h
  rw [hc] at hc'
  cases hc'
  cases h
  exact fun name hname => Or.inl
    (mem_foldl_appendNew.mpr (Or.inr (List.mem_append_right _ hname)))

variable [PyValue V]

theorem successorsOf_mem {names : List Str} {ys : List (Str × State V)}
    (h : a.successorsOf s names = .ok ys) (hname : name ∈ names)
    (hspec : a.plan.steps.get? name = some spec) :
    ∃ t, (name, t) ∈ ys ∧ a.runStep s name spec = .ok t := by
  induction names generalizing ys with
  | nil => cases hname
  | cons n names ih =>
    rw [TraceMindAdapter.successorsOf] at h
    cases hn : a.plan.steps.get? n with
    | none =>
      rw [hn] at h
      rcases List.mem_cons.mp hname with rfl | hmem
      · rw [hspec] at hn
        cases hn
      · exact ih h hmem
    | some spec' =>
      rw [hn] at h
      obtain ⟨u, hu, h⟩ := Fallible.bind_eq_ok.mp h
      obtain ⟨rest, hrest, h⟩ := Fallible.bind_eq_ok.mp h
      cases h
      rcases List.mem_cons.mp hname with rfl | hmem
      · rw [hspec] at hn
        cases hn
        exact ⟨u, List.mem_cons_self, hu⟩
      · obtain ⟨t, ht, hrun⟩ := ih hrest hmem
        exact ⟨t, List.mem_cons_of_mem _ ht, hrun⟩

theorem runStep_pending (h : a.runStep s name spec = .ok t) {x : Str} (hx : x ∈ s.pending)
    (hne : x ≠ name) : x ∈ t.pending := by
  rw [TraceMindAdapter.runStep] at h
  obtain ⟨paths, _, h⟩ := Fallible.bind_eq_ok.mp h
  obtain ⟨triggered, _, h⟩ := Fallible.bind_eq_ok.mp h
  cases h
  exact mem_foldl_appendNew.mpr (Or.inl ((List.mem_erase_of_ne hne).mpr hx))

theorem contains_writeAll (store : Store V) (writes : List Str) (k : Str) :
    (TraceMindAdapter.writeAll store writes).contains k =
      (store.contains k || decide (k ∈ writes)) := by
  rw [Bool.eq_iff_iff, TraceMindAdapter.writeAll, SortedMap.contains_insertAll]
  simp [or_comm]

def NoClears (plan : Plan) : Prop := ∀ name spec, plan.steps.get? name = some spec → spec.clears = []

theorem runStep_contains (hclears : NoClears a.plan) (hspec : a.plan.steps.get? name = some spec)
    (h : a.runStep s name spec = .ok t) (k : Str) :
    t.store.contains k = (s.store.contains k || decide (k ∈ spec.writes)) := by
  rw [TraceMindAdapter.runStep_store h, hclears name spec hspec]
  exact contains_writeAll s.store spec.writes k

theorem waits_next (hclears : NoClears a.plan) {collected : List Str} (hw : Waits a collected s)
    (h : Next a.successors s t) : Waits a collected t := by
  obtain ⟨ys, hys, hmem⟩ := h
  obtain ⟨e, he, rfl⟩ := List.mem_map.mp hmem
  obtain ⟨spec, hspec, hrun⟩ := TraceMindAdapter.mem_successorsOf hys he
  intro name hname
  have hgrow : ∀ k, s.store.contains k = true → e.2.store.contains k = true := by
    intro k hk
    rw [runStep_contains hclears hspec hrun, hk]
    rfl
  rcases hw name hname with hp | hdone
  · by_cases hne : name = e.1
    · subst hne
      refine Or.inr (fun spec' hspec' k hk => ?_)
      rw [hspec] at hspec'
      cases hspec'
      rw [runStep_contains hclears hspec hrun, decide_eq_true hk, Bool.or_true]
    · exact Or.inl (runStep_pending hrun hp hne)
  · exact Or.inr (fun spec' hspec' k hk => hgrow k (hdone spec' hspec' k hk))

def Reachable (a : TraceMindAdapter V) (s : State V) : Prop :=
  ∃ root, a.initialState = .ok root ∧ Relation.ReflTransGen (Next a.successors) root s

theorem Reachable.waits (hclears : NoClears a.plan) {collected : List Str}
    (hc : a.collectSteps a.changedPaths = .ok collected) (h : Reachable a s) :
    Waits a collected s := by
  obtain ⟨root, hroot, hreach⟩ := h
  induction hreach with
  | refl => exact waits_initial hc hroot
  | tail _ hnext ih => exact waits_next hclears ih hnext

end adapter

section run

variable {V W C : Type} [PyValue V] {a : TraceMindAdapter V} {f : Functions W C}
  {facts : C → Str → Bool} {S : State V → Prop} {collected : List Str}

structure Declared (f : Functions W C) (plan : Plan) (facts : C → Str → Bool) : Prop where
  adds : ∀ name spec w c w' c', plan.steps.get? name = some spec → f.fn name w c = (w', .ok c') →
    ∀ k, facts c' k = (facts c k || decide (k ∈ spec.writes))
  keeps : ∀ name w c w' err c', f.fn name w c = (w', .error (err, c')) → c' = c

def Shows (facts : C → Str → Bool) (c : C) (s : State V) : Prop :=
  ∀ k, facts c k = s.store.contains k

def ReadsFound (facts : C → Str → Bool) (e : Executed C) : Prop :=
  ∀ r ∈ e.spec.reads, facts e.before r = true

structure Follows (a : TraceMindAdapter V) (S : State V → Prop) : Prop where
  reachable : ∀ s, S s → Reachable a s
  closed : ∀ s, S s → ∃ ys, a.successors s = .ok ys ∧
    ∀ e ∈ ys, ∃ t, S t ∧ t.store = e.2.store

def Simulated (facts : C → Str → Bool) (S : State V → Prop) (c : C) : Prop :=
  ∃ s, S s ∧ Shows facts c s

theorem Simulated.next (hclears : NoClears a.plan) (hdecl : Declared f a.plan facts)
    (hc : a.collectSteps a.changedPaths = .ok collected) (hS : Follows a S) {name : Str}
    {spec : StepSpec} (hspec : a.plan.steps.get? name = some spec) (hname : name ∈ collected)
    {w w' : W} {c c' : C} (hreads : ∀ r ∈ spec.reads, facts c r = true)
    (hfn : f.fn name w c = (w', .ok c')) (h : Simulated facts S c) : Simulated facts S c' := by
  obtain ⟨s, hs, hshow⟩ := h
  have hadd := hdecl.adds name spec w c w' c' hspec hfn
  rcases (hS.reachable s hs).waits hclears hc name hname with hp | hdone
  · obtain ⟨ys, hys, hclosed⟩ := hS.closed s hs
    have henabled := mem_enabledSteps hp hspec (fun r hr => (hshow r).symm.trans (hreads r hr))
    obtain ⟨t, hmem, hrun⟩ := successorsOf_mem hys henabled hspec
    obtain ⟨u, hu, hstore⟩ := hclosed (name, t) hmem
    refine ⟨u, hu, fun k => ?_⟩
    rw [hadd k, hshow k, hstore, runStep_contains hclears hspec hrun]
  · refine ⟨s, hs, fun k => ?_⟩
    rw [hadd k, hshow k]
    by_cases hk : k ∈ spec.writes
    · rw [hdone spec hspec k hk, Bool.true_or]
    · rw [decide_eq_false hk, Bool.or_false]

def Outcome.Simulated (facts : C → Str → Bool) (S : State V → Prop) (o : Outcome W C) : Prop :=
  (∀ e ∈ o.executed, Pipeline.Simulated facts S e.span.outputs) ∧
    ∀ ctx, o.result = .ok ctx → Pipeline.Simulated facts S ctx

theorem runSteps_simulated (hclears : NoClears a.plan) (hdecl : Declared f a.plan facts)
    (hc : a.collectSteps a.changedPaths = .ok collected) (hS : Follows a S) (rule : Str)
    {names : List Str} (hnames : ∀ name ∈ names, name ∈ collected) {w : W} {ctx : C}
    (hreads : ∀ e ∈ (runSteps f a.plan rule names w ctx).executed, ReadsFound facts e)
    (h : Simulated facts S ctx) : (runSteps f a.plan rule names w ctx).Simulated facts S := by
  induction names generalizing w ctx with
  | nil => exact ⟨fun e he => (List.not_mem_nil he).elim, fun c hc => by cases hc; exact h⟩
  | cons name names ih =>
    rw [runSteps] at hreads ⊢
    cases hspec : a.plan.steps.get? name with
    | none => exact ⟨fun e he => (List.not_mem_nil he).elim, fun c hc => by cases hc⟩
    | some spec =>
      rw [hspec] at hreads
      cases hsnap : f.snapshot ctx with
      | error e => exact ⟨fun e he => (List.not_mem_nil he).elim, fun c hc => by cases hc⟩
      | ok before =>
        rw [hsnap] at hreads
        obtain ⟨⟨w', r⟩, hfn⟩ : ∃ x, f.fn name w ctx = x := ⟨_, rfl⟩
        dsimp only at hreads ⊢
        rw [hfn] at hreads ⊢
        cases r with
        | error x =>
          obtain ⟨err, ctx'⟩ := x
          have hkeep : Pipeline.Simulated facts S ctx' := by
            rw [hdecl.keeps name w ctx w' err ctx' hfn]
            exact h
          refine ⟨fun e he => ?_, fun c hc => by cases hc; exact hkeep⟩
          rw [List.mem_singleton.mp he]
          exact hkeep
        | ok ctx' =>
          have hread := hreads _ List.mem_cons_self
          have hnext := h.next hclears hdecl hc hS hspec (hnames name List.mem_cons_self) hread hfn
          obtain ⟨hrest, hlast⟩ := ih (fun n hn => hnames n (List.mem_cons_of_mem _ hn))
            (fun e he => hreads e (List.mem_cons_of_mem _ he)) hnext
          refine ⟨fun e he => ?_, hlast⟩
          rcases List.mem_cons.mp he with rfl | he
          · exact hnext
          · exact hrest e he

theorem runRules_simulated (hclears : NoClears a.plan) (hdecl : Declared f a.plan facts)
    (hc : a.collectSteps a.changedPaths = .ok collected) (hS : Follows a S) {rules : List Rule}
    {steps : List Str} (hcollect : TraceMindAdapter.collectFrom a.changedPaths rules = .ok steps)
    (hsteps : ∀ name ∈ steps, name ∈ collected) {w : W} {ctx : C}
    (hreads : ∀ e ∈ (runRules f a.plan a.changedPaths selectorMatch rules w ctx).executed,
      ReadsFound facts e)
    (h : Simulated facts S ctx) :
    (runRules f a.plan a.changedPaths selectorMatch rules w ctx).Simulated facts S := by
  induction rules generalizing w ctx steps with
  | nil => exact ⟨fun e he => (List.not_mem_nil he).elim, fun c hc => by cases hc; exact h⟩
  | cons rule rules ih =>
    rw [TraceMindAdapter.collectFrom] at hcollect
    obtain ⟨b, hb, hcollect⟩ := Fallible.bind_eq_ok.mp hcollect
    obtain ⟨rest, hrest, hcollect⟩ := Fallible.bind_eq_ok.mp hcollect
    rw [runRules, matchAny_selectorMatch, hb] at hreads ⊢
    cases b with
    | false =>
      cases hcollect
      exact ih hrest hsteps hreads h
    | true =>
      cases hcollect
      have hmine : ∀ name ∈ rule.steps, name ∈ collected :=
        fun n hn => hsteps n (List.mem_append_left _ hn)
      have hothers : ∀ name ∈ rest, name ∈ collected :=
        fun n hn => hsteps n (List.mem_append_right _ hn)
      dsimp only [Outcome.andThen] at hreads ⊢
      cases hres : (runSteps f a.plan rule.name rule.steps w ctx).result with
      | error e =>
        rw [hres] at hreads
        exact ⟨(runSteps_simulated hclears hdecl hc hS rule.name hmine hreads h).1,
          fun c hc => by cases hc⟩
      | ok ctx' =>
        rw [hres] at hreads
        obtain ⟨hexec, hlast⟩ := runSteps_simulated hclears hdecl hc hS rule.name hmine
          (fun e he => hreads e (List.mem_append_left _ he)) h
        obtain ⟨hexec', hlast'⟩ := ih hrest hothers
          (fun e he => hreads e (List.mem_append_right _ he)) (hlast ctx' hres)
        refine ⟨fun e he => ?_, hlast'⟩
        exact (List.mem_append.mp he).elim (hexec e) (hexec' e)

theorem run_simulated (hclears : NoClears a.plan) (hdecl : Declared f a.plan facts)
    (hc : a.collectSteps a.changedPaths = .ok collected) (hS : Follows a S) {w : W} {ctx : C}
    (hreads : ∀ e ∈ (run f a.plan w ctx a.changedPaths selectorMatch).executed, ReadsFound facts e)
    (h : Simulated facts S ctx) :
    (run f a.plan w ctx a.changedPaths selectorMatch).Simulated facts S :=
  runRules_simulated hclears hdecl hc hS hc (fun _ hn => hn) hreads h

end run

section formulas

variable {V C : Type} {facts : C → Str → Bool}

theorem Shows.initial {a : TraceMindAdapter V} {ctx : C}
    (hstart : ∀ k, facts ctx k = a.initialStore.contains k) {root : State V}
    (hroot : a.initialState = .ok root) : Shows facts ctx root := by
  intro k
  rw [hstart, TraceMindAdapter.initialState_store hroot]

def OverHas : Expr → Prop
  | .predicate n _ => lower n = "has".toList
  | .not c => OverHas c
  | .and l r => OverHas l ∧ OverHas r
  | .or l r => OverHas l ∧ OverHas r
  | .ctl _ _ => False
  | .until _ _ _ => False

def truthOn (has : Str → Bool) : Expr → Bool
  | .predicate _ none => false
  | .predicate _ (some v) => has v
  | .not c => !truthOn has c
  | .and l r => truthOn has l && truthOn has r
  | .or l r => truthOn has l || truthOn has r
  | .ctl _ _ => false
  | .until _ _ _ => false

theorem truth_overHas {p : Expr} (hp : OverHas p) (enabled : State V → List Str) (s : State V) :
    Ctl.truth enabled s p = truthOn s.store.contains p := by
  induction p with
  | predicate n v =>
    have hn : lower n = "has".toList := hp
    have hterm : ¬lower n = "terminal".toList := by
      rw [hn]
      decide
    cases v with
    | none => exact if_neg hterm
    | some v => exact (if_neg hterm).trans (if_pos hn)
  | not c ih => rw [Ctl.truth, truthOn, ih hp]
  | and l r ihl ihr => rw [Ctl.truth, truthOn, ihl hp.1, ihr hp.2]
  | or l r ihl ihr => rw [Ctl.truth, truthOn, ihl hp.1, ihr hp.2]
  | ctl op c => exact hp.elim
  | «until» op l r => exact hp.elim

theorem noCtl_overHas {p : Expr} (hp : OverHas p) : Ctl.hasCtlNodes p = false := by
  induction p with
  | predicate n v => rfl
  | not c ih => exact ih hp
  | and l r ihl ihr | or l r ihl ihr => exact Bool.or_eq_false_iff.mpr ⟨ihl hp.1, ihr hp.2⟩
  | ctl op c => exact hp.elim
  | «until» op l r => exact hp.elim

theorem simulated_truth {c : C} {s : State V} {p : Expr} (hp : OverHas p)
    (h : Shows facts c s) (enabled : State V → List Str) :
    truthOn (facts c) p = Ctl.truth enabled s p := by
  rw [truth_overHas hp, show facts c = s.store.contains from funext h]

end formulas

section verified

variable {V W C : Type} [PyValue V] {a : TraceMindAdapter V} {f : Functions W C}
  {facts : C → Str → Bool} {ctx : C} {mode : HashMode} {maxDepth : ℤ}
  {r : ExplorationResult V} {u : Unit}

def Explorable (a : TraceMindAdapter V) : Prop :=
  (∃ root, a.initialState = .ok root) ∧ ∀ s, Reachable a s → ∃ ys, a.successors s = .ok ys

theorem follows_reachable (h : Explorable a) : Follows a (Reachable a) where
  reachable := fun _ hs => hs
  closed := by
    rintro s ⟨root, hroot, hreach⟩
    obtain ⟨ys, hys⟩ := h.2 s ⟨root, hroot, hreach⟩
    refine ⟨ys, hys, fun e he => ⟨e.2, ⟨root, hroot, hreach.tail ⟨ys, hys, ?_⟩⟩, rfl⟩⟩
    exact List.mem_map_of_mem he

def Closed (expr : Str) : Prop := ∃ toks, Selectors.parse expr = .ok toks

theorem anyMatch_ok {trig : Str} (h : Closed trig) (paths : List Path) :
    ∃ b, anyMatch trig paths = .ok b := by
  obtain ⟨toks, htoks⟩ := h
  induction paths with
  | nil => exact ⟨false, rfl⟩
  | cons p ps ih =>
    obtain ⟨b, hb⟩ := ih
    rw [anyMatch, selectorMatch, htoks, hb]
    cases hm : Selectors.matchToks toks p with
    | false => exact ⟨b, by simp [Except.map, hm, bind, Except.bind]⟩
    | true => exact ⟨true, by simp [Except.map, hm, bind, Except.bind]⟩

theorem ruleTriggered_ok {trigs : List Str} (h : ∀ trig ∈ trigs, Closed trig) (paths : List Path) :
    ∃ b, ruleTriggered trigs paths = .ok b := by
  induction trigs with
  | nil => exact ⟨false, rfl⟩
  | cons trig trigs ih =>
    obtain ⟨b, hb⟩ := anyMatch_ok (h trig List.mem_cons_self) paths
    obtain ⟨b', hb'⟩ := ih (fun t ht => h t (List.mem_cons_of_mem _ ht))
    rw [ruleTriggered, hb, hb']
    cases b with
    | false => exact ⟨b', rfl⟩
    | true => exact ⟨true, rfl⟩

theorem collectFrom_ok {rules : List Rule} (h : ∀ rule ∈ rules, ∀ trig ∈ rule.triggers, Closed trig)
    (paths : List Path) : ∃ steps, TraceMindAdapter.collectFrom paths rules = .ok steps := by
  induction rules with
  | nil => exact ⟨[], rfl⟩
  | cons rule rules ih =>
    obtain ⟨b, hb⟩ := ruleTriggered_ok (h rule List.mem_cons_self) paths
    obtain ⟨steps, hsteps⟩ := ih (fun r hr => h r (List.mem_cons_of_mem _ hr))
    exact ⟨_, by rw [TraceMindAdapter.collectFrom, hb, hsteps]; rfl⟩

theorem successorsOf_ok {s : State V} {names : List Str}
    (h : ∀ name spec, a.plan.steps.get? name = some spec → ∃ t, a.runStep s name spec = .ok t) :
    ∃ ys, a.successorsOf s names = .ok ys := by
  induction names with
  | nil => exact ⟨[], rfl⟩
  | cons name names ih =>
    obtain ⟨ys, hys⟩ := ih
    rw [TraceMindAdapter.successorsOf]
    cases hspec : a.plan.steps.get? name with
    | none => exact ⟨ys, hys⟩
    | some spec =>
      obtain ⟨t, ht⟩ := h name spec hspec
      exact ⟨(name, t) :: ys, by dsimp only; rw [ht, hys]; rfl⟩

theorem runStep_ok {s : State V} (hwrites : ∀ k ∈ spec.writes, Closed k)
    (htrigs : ∀ rule ∈ a.plan.rules, ∀ trig ∈ rule.triggers, Closed trig) :
    ∃ t, a.runStep s name spec = .ok t := by
  have hpaths : ∃ paths, spec.writes.mapM selectorToPath = .ok paths := by
    refine Fallible.mapM_ok (fun k hk => ?_)
    obtain ⟨toks, htoks⟩ := hwrites k hk
    exact ⟨_, by rw [selectorToPath, htoks]; rfl⟩
  obtain ⟨paths, hpaths⟩ := hpaths
  have hcollect : ∃ steps, a.collectSteps paths = .ok steps := collectFrom_ok htrigs paths
  obtain ⟨steps, hsteps⟩ := hcollect
  simp only [TraceMindAdapter.runStep, hpaths, bind, Except.bind, hsteps]
  exact ⟨_, rfl⟩

theorem explorable_of_closed
    (htrigs : ∀ rule ∈ a.plan.rules, ∀ trig ∈ rule.triggers, Closed trig)
    (hwrites : ∀ name spec, a.plan.steps.get? name = some spec → ∀ k ∈ spec.writes, Closed k) :
    Explorable a := by
  have hcollect : ∀ paths, ∃ steps, a.collectSteps paths = .ok steps := collectFrom_ok htrigs
  constructor
  · obtain ⟨steps, hsteps⟩ := hcollect a.changedPaths
    exact ⟨_, by rw [TraceMindAdapter.initialState, hsteps]; rfl⟩
  · intro s _
    exact successorsOf_ok (fun name spec hspec => runStep_ok (hwrites name spec hspec) htrigs)

def Exhaustive (a : TraceMindAdapter V) (mode : HashMode) (r : ExplorationResult V) : Prop :=
  ∀ s ∈ r.states, ∃ ys, a.successors s = .ok ys ∧
    ∀ e ∈ ys, ∃ t ∈ r.states, t.stableHash mode = e.2.stableHash mode

variable [DecidableEq V]

theorem run_explored (h : Explorer.run a.component.stateless () maxDepth mode = .ok (r, u)) :
    ∃ root, a.initialState = .ok root ∧ r.states[0]? = some root ∧ r.WellFormed ∧
      (∀ s ∈ r.states, Reachable a s) ∧
      ∀ i, i < r.states.length → Relation.ReflTransGen (Ctl.Step r) 0 i := by
  obtain ⟨root, m1, x, hi, hs, rfl⟩ := Explorer.run_eq_ok h
  have hroot : a.initialState = .ok root := by
    obtain ⟨root', hroot', he⟩ := Fallible.map_eq_ok.mp hi
    cases he
    exact hroot'
  have hfound : ∃ nodes, BoundedSearch.Explored (Explorer.space a.component.stateless maxDepth mode)
      a.component.successors id (fun _ _ => True) root (u, x) nodes :=
    BoundedSearch.search_ok (stateless_lawful a.component maxDepth mode) trivial hs
  obtain ⟨nodes, hex⟩ := hfound
  refine ⟨root, hroot, Explorer.state_of_node hex hex.root, Explorer.result_wellFormed hex, ?_,
    (BoundedSearch.search_rooted hs).reached⟩
  intro s hmem
  obtain ⟨i, hi⟩ := List.mem_iff_getElem?.mp hmem
  obtain ⟨n, hn, rfl⟩ := Explorer.node_of_state hex hi
  exact ⟨root, hroot, (hex.walk n (List.mem_of_getElem? hn)).reach⟩

theorem follows_explored (h : Explorer.run a.component.stateless () maxDepth mode = .ok (r, u))
    (hex : Exhaustive a mode r) : Follows a (· ∈ r.states) where
  reachable := by
    obtain ⟨_, _, _, _, hreach, _⟩ := run_explored h
    exact hreach
  closed := by
    intro s hs
    obtain ⟨ys, hys, hclosed⟩ := hex s hs
    refine ⟨ys, hys, fun e he => ?_⟩
    obtain ⟨t, ht, hhash⟩ := hclosed e he
    exact ⟨t, ht, State.store_of_hash hhash⟩

theorem always_explored (h : Explorer.run a.component.stateless () maxDepth mode = .ok (r, u))
    {p : Expr} (hp : Ctl.hasCtlNodes p = false)
    (hag : 0 ∈ Ctl.checkCtl (.ctl .AG p) r a.enabledSteps) :
    ∀ s ∈ r.states, Ctl.truth a.enabledSteps s p = true := by
  obtain ⟨_, _, _, hwf, _, hrooted⟩ := run_explored h
  have hall := ((Ctl.checkCtl_denotes hwf a.enabledSteps (.ctl .AG p)) 0).mp hag
  rw [Ctl.Holds, Branching.AG_iff_reach] at hall
  intro s hs
  obtain ⟨i, hi⟩ := List.mem_iff_getElem?.mp hs
  have hlt := (List.getElem?_eq_some_iff.mp hi).1
  exact (Ctl.holds_truth hp hi).mp (hall.2 i (hrooted i hlt))

theorem run_verified {w : W} (hclears : NoClears a.plan) (hdecl : Declared f a.plan facts)
    (hexpl : Explorable a) (hstart : ∀ k, facts ctx k = a.initialStore.contains k)
    (hreads : ∀ e ∈ (run f a.plan w ctx a.changedPaths selectorMatch).executed,
      ReadsFound facts e) :
    (∀ e ∈ (run f a.plan w ctx a.changedPaths selectorMatch).executed,
      ∃ s, Reachable a s ∧ ∀ k, facts e.span.outputs k = s.store.contains k) ∧
    ∀ maxDepth mode r p, Explorer.run a.component.stateless () maxDepth mode = .ok (r, ()) →
      Exhaustive a mode r → OverHas p → 0 ∈ Ctl.checkCtl (.ctl .AG p) r a.enabledSteps →
      truthOn (facts ctx) p = true ∧
        ∀ e ∈ (run f a.plan w ctx a.changedPaths selectorMatch).executed,
          truthOn (facts e.span.outputs) p = true := by
  obtain ⟨root, hroot⟩ := hexpl.1
  obtain ⟨collected, hc⟩ := exists_collected hroot
  have hshow := Shows.initial hstart hroot
  constructor
  · exact (run_simulated hclears hdecl hc (follows_reachable hexpl) hreads
      ⟨root, ⟨root, hroot, .refl⟩, hshow⟩).1
  · intro maxDepth mode r p hrun hex hp hag
    obtain ⟨root', hroot', hfirst, -⟩ := run_explored hrun
    rw [hroot] at hroot'
    cases hroot'
    have hall := always_explored hrun (noCtl_overHas hp) hag
    have hsim := run_simulated hclears hdecl hc (follows_explored hrun hex) hreads
      ⟨root, List.mem_of_getElem? hfirst, hshow⟩
    constructor
    · rw [simulated_truth hp hshow a.enabledSteps]
      exact hall root (List.mem_of_getElem? hfirst)
    · intro e he
      obtain ⟨s, hs, hs'⟩ := hsim.1 e he
      rw [simulated_truth hp hs' a.enabledSteps]
      exact hall s hs

end verified

def addWrites (plan : Plan) : Functions Unit (List Str) where
  fn name w c := (w, .ok (c ++ ((plan.steps.get? name).map StepSpec.writes).getD []))
  snapshot := .ok

def listed (c : List Str) (k : Str) : Bool := decide (k ∈ c)

theorem addWrites_declared (plan : Plan) : Declared (addWrites plan) plan listed where
  adds := by
    intro name spec w c w' c' hspec hfn k
    cases hfn
    rw [hspec, listed, listed, Bool.eq_iff_iff]
    simp
  keeps := by
    intro name w c w' err c' hfn
    cases hfn

def stepsOf (specs : List StepSpec) : SortedMap Str StepSpec :=
  SortedMap.ofList (specs.map (fun spec => (spec.name, spec)))

def adapterOf (plan : Plan) : TraceMindAdapter Bool where
  plan := plan
  initialStore := SortedMap.empty
  changedPaths := [[.key ['x']]]
  initialPending := []
  initialDone := []

def openPlan : Plan where
  steps := stepsOf [⟨['s'], [], [['a', '[']], []⟩]
  rules := [⟨['r'], [['x']], [['s']]⟩]

theorem forall_steps {plan : Plan} {P : Str → StepSpec → Prop}
    (h : ∀ e ∈ plan.steps.entries, P e.1 e.2) (name : Str) (spec : StepSpec)
    (hspec : plan.steps.get? name = some spec) : P name spec :=
  h (name, spec) (SortedMap.get?_eq_some_iff.mp hspec)

theorem openPlan_stuck {s : State Bool} (h : Reachable (adapterOf openPlan) s) :
    s.store = SortedMap.empty := by
  obtain ⟨root, hroot, hreach⟩ := h
  cases hroot
  rcases hreach.cases_head with rfl | ⟨t, ⟨ys, hys, -⟩, -⟩
  · rfl
  · cases hys

theorem openPlan_not_simulated : NoClears openPlan ∧
    Declared (addWrites openPlan) openPlan listed ∧
    ∃ e, (run (addWrites openPlan) openPlan () [] (adapterOf openPlan).changedPaths
        selectorMatch).executed = [e] ∧ ReadsFound listed e ∧
      ∀ s, Reachable (adapterOf openPlan) s →
        ∃ k, listed e.span.outputs k ≠ s.store.contains k := by
  refine ⟨?_, addWrites_declared openPlan, ⟨['s'], ⟨['s'], [], [['a', '[']], []⟩, [],
    ⟨['r'], ['s'], [], [['a', '[']], [], [['a', '[']], none⟩⟩, rfl, ?_, ?_⟩
  · exact forall_steps (P := fun _ spec => spec.clears = []) (by decide +kernel)
  · exact fun r hr => (List.not_mem_nil hr).elim
  · intro s hs
    rw [openPlan_stuck hs]
    exact ⟨['a', '['], by decide⟩

def sharedPlan : Plan where
  steps := stepsOf [⟨['s'], [], [['k']], []⟩, ⟨['t'], [['k']], [['m']], []⟩]
  rules := [⟨['p'], [['x']], [['s'], ['t']]⟩, ⟨['q'], [['x']], [['t']]⟩]

def sharedAdapter : TraceMindAdapter Bool := adapterOf sharedPlan

def sharedRun : Outcome Unit (List Str) :=
  run (addWrites sharedPlan) sharedPlan () [] sharedAdapter.changedPaths selectorMatch

def sharedModel : ExplorationResult Bool :=
  ((Explorer.run sharedAdapter.component.stateless () 8 .full).toOption.get rfl).1

def neverAlone : Expr :=
  .or (.not (.predicate "has".toList (some ['m']))) (.predicate "has".toList (some ['k']))

theorem sharedModel_run :
    Explorer.run sharedAdapter.component.stateless () 8 .full = .ok (sharedModel, ()) := by
  rfl

instance (expr : Str) : Decidable (Closed expr) :=
  match h : Selectors.parse expr with
  | .ok toks => .isTrue ⟨toks, h⟩
  | .error _ => .isFalse (fun hc => by
      obtain ⟨toks, hok⟩ := hc
      rw [h] at hok
      cases hok)

theorem sharedAdapter_explorable : Explorable sharedAdapter :=
  explorable_of_closed (by decide +kernel)
    (forall_steps (P := fun _ spec => ∀ k ∈ spec.writes, Closed k) (by decide +kernel))

def exploredFrom (a : TraceMindAdapter Bool) (mode : HashMode) (r : ExplorationResult Bool)
    (s : State Bool) : Bool :=
  match a.successors s with
  | .error _ => false
  | .ok ys => ys.all (fun e => r.states.any (fun t => t.stableHash mode = e.2.stableHash mode))

theorem exhaustive_of_explored {a : TraceMindAdapter Bool} {mode : HashMode}
    {r : ExplorationResult Bool} (h : r.states.all (exploredFrom a mode r) = true) :
    Exhaustive a mode r := by
  intro s hs
  have hs := List.all_eq_true.mp h s hs
  rw [exploredFrom] at hs
  cases hys : a.successors s with
  | error e =>
    rw [hys] at hs
    cases hs
  | ok ys =>
    rw [hys] at hs
    refine ⟨ys, rfl, fun e he => ?_⟩
    obtain ⟨t, ht, heq⟩ := List.any_eq_true.mp (List.all_eq_true.mp hs e he)
    exact ⟨t, ht, of_decide_eq_true heq⟩

theorem sharedRun_verified :
    (∀ e ∈ sharedRun.executed, ∃ s, Reachable sharedAdapter s ∧
      ∀ k, listed e.span.outputs k = s.store.contains k) ∧
    ∀ e ∈ sharedRun.executed, truthOn (listed e.span.outputs) neverAlone = true := by
  have hreads : ∀ e ∈ sharedRun.executed, ReadsFound listed e := by
    have hall : sharedRun.executed.all (fun e => e.spec.reads.all (listed e.before)) = true := rfl
    intro e he r hr
    exact List.all_eq_true.mp (List.all_eq_true.mp hall e he) r hr
  have hstart : ∀ k, listed ([] : List Str) k = sharedAdapter.initialStore.contains k :=
    fun _ => rfl
  have h := run_verified (a := sharedAdapter) (f := addWrites sharedPlan) (w := ())
    (forall_steps (P := fun _ spec => spec.clears = []) (by decide +kernel))
    (addWrites_declared sharedPlan) sharedAdapter_explorable hstart hreads
  have hex : Exhaustive sharedAdapter .full sharedModel := exhaustive_of_explored (by decide +kernel)
  have hag : 0 ∈ Ctl.checkCtl (.ctl .AG neverAlone) sharedModel sharedAdapter.enabledSteps := by
    decide +kernel
  exact ⟨h.1, (h.2 8 .full sharedModel neverAlone sharedModel_run hex ⟨rfl, rfl⟩ hag).2⟩

end TraceMind.Pipeline
