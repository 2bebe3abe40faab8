import TraceMind.Dsl.Execution
import TraceMind.Foundation.Fuelled
import Mathlib.Data.Char
import Mathlib.Data.List.Lex

namespace TraceMind.Recipe

open Dsl (Fields FlowCompilation FlowEdge FlowStep StepKind)

inductive Operation where
  | task
  | switch
  | parallel
  | finish
deriving DecidableEq

inductive Hook where
  | call
  | switch
  | emitOutputs
deriving DecidableEq

structure StepDef where
  name : Str
  operation : Operation
  nextSteps : List Str
  config : Fields
  run : Option Hook

structure FlowSpec where
  name : Str
  steps : List StepDef
  entrypoint : Str

def FlowSpec.step (spec : FlowSpec) (name : Str) : Option StepDef :=
  spec.steps.find? (fun s => s.name = name)

def operationOf : StepKind → Operation
  | .call _ _ => .task
  | .switch _ => .switch
  | .emit _ => .task
  | .finish => .finish

def hookOf : StepKind → Option Hook
  | .call _ _ => some .call
  | .switch _ => some .switch
  | .emit _ => some .emitOutputs
  | .finish => none

abbrev Loaded := Fuelled Str

def expectStr (field value : Str) : Loaded Str :=
  if value.isEmpty then
    .fail ("Field '".toList ++ field ++ "' must be a non-empty string".toList)
  else .ret value

def validateUniqueSteps : List FlowStep → List Str → Loaded Unit
  | [], _ => .ret ()
  | s :: ss, seen => (expectStr "id".toList s.id).andThen (fun id =>
      if id ∈ seen then .fail ("Duplicate step id '".toList ++ id ++ "'".toList)
      else validateUniqueSteps ss (id :: seen))

def checkEdges (ids : List Str) : List FlowEdge → Loaded Unit
  | [] => .ret ()
  | e :: es =>
    if e.src ∉ ids then .fail ("Edge references unknown step '".toList ++ e.src ++ "'".toList)
    else if e.dst ∉ ids then
      .fail ("Edge references unknown step '".toList ++ e.dst ++ "'".toList)
    else checkEdges ids es

abbrev Adjacency := Str → List Str

def adjacencyOf (edges : List FlowEdge) : Adjacency := fun id =>
  (edges.filter (fun e => e.src = id)).map FlowEdge.dst

def buildAdjacency (ids : List Str) (edges : List FlowEdge) : Loaded Adjacency :=
  (checkEdges ids edges).andThen (fun _ => .ret (adjacencyOf edges))

def visitAll (visit : List Str → Str → Loaded (List Str)) :
    List Str → List Str → Loaded (List Str)
  | [], visited => .ret visited
  | n :: ns, visited => (visit visited n).andThen (visitAll visit ns)

def dfs (adjacency : Adjacency) : ℕ → List Str → List Str → Str → Loaded (List Str)
  | 0, _, _, _ => .out
  | fuel + 1, visiting, visited, node =>
    if node ∈ visiting then .fail ("Cycle detected at step '".toList ++ node ++ "'".toList)
    else if node ∈ visited then .ret visited
    else
      (visitAll (dfs adjacency fuel (node :: visiting)) (adjacency node) visited).andThen
        (fun visited => .ret (node :: visited))

def joinSorted (names : List Str) : Str :=
  ", ".toList.intercalate (names.dedup.mergeSort (fun a b => decide (a ≤ b)))

def validateGraph (entry : Str) (ids : List Str) (adjacency : Adjacency) : Loaded Unit :=
  if entry ∉ ids then .fail ("Entry step '".toList ++ entry ++ "' not defined".toList)
  else (dfs adjacency (ids.length + 1) [] [] entry).andThen (fun visited =>
    if (ids.filter (· ∉ visited)).isEmpty then .ret ()
    else .fail ("Unreachable step(s): ".toList ++ joinSorted (ids.filter (· ∉ visited))))

def caseTargets (cases : List (Str × Str)) : List Str :=
  cases.map Prod.snd ++ [(OrderedDict.find Dsl.defaultCase cases).getD Dsl.defaultCase]

def validateConfig (s : FlowStep) (cases : List (Str × Str)) (adjacency : Adjacency) :
    Loaded Unit :=
  match operationOf s.kind with
  | .task => .ret ()
  | .switch =>
    if cases.isEmpty then
      .fail ("Switch step '".toList ++ s.id ++ "' requires non-empty config.cases".toList)
    else if ((caseTargets cases).filter (· ∉ adjacency s.id)).isEmpty then .ret ()
    else .fail ("Switch step '".toList ++ s.id ++ "' missing edge(s) for targets: ".toList ++
      joinSorted ((caseTargets cases).filter (· ∉ adjacency s.id)))
  | .parallel =>
    .fail ("Parallel step '".toList ++ s.id ++
      "' requires config.branches as list[str]".toList)
  | .finish =>
    if (adjacency s.id).isEmpty then .ret ()
    else .fail ("Finish step '".toList ++ s.id ++ "' cannot have outgoing edges".toList)

def checkHook (s : FlowStep) : Loaded Unit :=
  match operationOf s.kind, hookOf s.kind with
  | .finish, some _ =>
    .fail ("finish step '".toList ++ s.id ++ "' cannot define run hook".toList)
  | .finish, none => .ret ()
  | _, some _ => .ret ()
  | _, none => .fail ("Step '".toList ++ s.id ++ "' requires a run hook".toList)

def stepDef (f : FlowCompilation) (adjacency : Adjacency) (s : FlowStep) : StepDef where
  name := s.id
  operation := operationOf s.kind
  nextSteps := adjacency s.id
  config := f.configOf s
  run := hookOf s.kind

def createStep (f : FlowCompilation) (adjacency : Adjacency) (s : FlowStep) : Loaded StepDef :=
  (checkHook s).andThen (fun _ => (validateConfig s (f.cases s.id) adjacency).andThen (fun _ =>
    .ret (stepDef f adjacency s)))

def createSteps (f : FlowCompilation) (adjacency : Adjacency) :
    List FlowStep → Loaded (List StepDef)
  | [] => .ret []
  | s :: ss => (createStep f adjacency s).andThen (fun d =>
      (createSteps f adjacency ss).andThen (fun ds => .ret (d :: ds)))

def graphChecks (entry : Str) (steps : List FlowStep) (edges : List FlowEdge) : Loaded Unit :=
  (validateUniqueSteps steps []).andThen (fun _ =>
    (buildAdjacency (steps.map FlowStep.id) edges).andThen
      (validateGraph entry (steps.map FlowStep.id)))

def buildSpec (f : FlowCompilation) : Loaded FlowSpec :=
  (expectStr "id".toList f.flowId).andThen (fun flowId =>
    (expectStr "entry".toList f.entry).andThen (fun entry =>
      (validateUniqueSteps f.steps []).andThen (fun _ =>
        (buildAdjacency (f.steps.map FlowStep.id) f.edges).andThen (fun adjacency =>
          (validateGraph entry (f.steps.map FlowStep.id) adjacency).andThen (fun _ =>
            (createSteps f adjacency f.steps).andThen (fun steps =>
              .ret { name := flowId, steps, entrypoint := entry }))))))

section accepted

variable {f : FlowCompilation} {spec : FlowSpec}

theorem expectStr_eq_ret {field value v : Str} :
    expectStr field value = .ret v ↔ value ≠ [] ∧ v = value := by
  rw [expectStr]
  cases value with
  | nil => exact iff_of_false Fuelled.fail_ne_ret (fun h => h.1 rfl)
  | cons c cs =>
    simp only [List.isEmpty_cons, Bool.false_eq_true, if_false, Fuelled.ret_inj]
    exact ⟨fun h => ⟨List.cons_ne_nil _ _, h.symm⟩, fun h => h.2.symm⟩

theorem validateUniqueSteps_spec {ss : List FlowStep} {seen : List Str}
    (h : validateUniqueSteps ss seen = .ret ()) : ∀ s ∈ ss, s.id ≠ [] := by
  induction ss generalizing seen with
  | nil => exact fun s hs => by cases hs
  | cons s ss ih =>
    obtain ⟨id, hid, h⟩ := Fuelled.andThen_eq_ret.mp h
    obtain ⟨hne, rfl⟩ := expectStr_eq_ret.mp hid
    split_ifs at h
    · exact absurd h Fuelled.fail_ne_ret
    · intro x hx
      rcases List.mem_cons.mp hx with rfl | hx
      · exact hne
      · exact ih h x hx

theorem createStep_spec {adjacency : Adjacency} {s : FlowStep} {d : StepDef}
    (h : createStep f adjacency s = .ret d) : d = stepDef f adjacency s := by
  obtain ⟨-, -, h⟩ := Fuelled.andThen_eq_ret.mp h
  obtain ⟨-, -, h⟩ := Fuelled.andThen_eq_ret.mp h
  exact (Fuelled.ret_inj.mp h).symm

theorem createSteps_spec {adjacency : Adjacency} {ss : List FlowStep} {ds : List StepDef}
    (h : createSteps f adjacency ss = .ret ds) : ds = ss.map (stepDef f adjacency) := by
  induction ss generalizing ds with
  | nil => exact (Fuelled.ret_inj.mp h).symm
  | cons s ss ih =>
    obtain ⟨d, hd, h⟩ := Fuelled.andThen_eq_ret.mp h
    obtain ⟨ds', hds, h⟩ := Fuelled.andThen_eq_ret.mp h
    rw [← Fuelled.ret_inj.mp h, List.map_cons, createStep_spec hd, ih hds]

theorem buildSpec_spec (h : buildSpec f = .ret spec) :
    spec.steps = f.steps.map (stepDef f (adjacencyOf f.edges)) ∧ spec.entrypoint = f.entry ∧
      f.entry ≠ [] ∧ ∀ s ∈ f.steps, s.id ≠ [] := by
  obtain ⟨flowId, -, h⟩ := Fuelled.andThen_eq_ret.mp h
  obtain ⟨entry, hentry, h⟩ := Fuelled.andThen_eq_ret.mp h
  obtain ⟨_, hunique, h⟩ := Fuelled.andThen_eq_ret.mp h
  obtain ⟨adjacency, hadj, h⟩ := Fuelled.andThen_eq_ret.mp h
  obtain ⟨_, -, h⟩ := Fuelled.andThen_eq_ret.mp h
  obtain ⟨steps, hsteps, hspec⟩ := Fuelled.andThen_eq_ret.mp h
  obtain ⟨_, -, hadj⟩ := Fuelled.andThen_eq_ret.mp hadj
  obtain ⟨hne, rfl⟩ := expectStr_eq_ret.mp hentry
  obtain rfl := Fuelled.ret_inj.mp hadj
  rw [← Fuelled.ret_inj.mp hspec]
  exact ⟨createSteps_spec hsteps, rfl, hne, validateUniqueSteps_spec hunique⟩

end accepted

section search

variable {adjacency : Adjacency} {ids : List Str}

theorem visitAll_ne_out {visit : List Str → Str → Loaded (List Str)} {nodes : List Str}
    (h : ∀ n ∈ nodes, ∀ visited, visit visited n ≠ .out) (visited : List Str) :
    visitAll visit nodes visited ≠ .out := by
  induction nodes generalizing visited with
  | nil => exact fun hc => by cases hc
  | cons n nodes ih =>
    exact Fuelled.andThen_ne_out (h n List.mem_cons_self visited)
      (ih (fun m hm => h m (List.mem_cons_of_mem _ hm)))

theorem dfs_ne_out (hadj : ∀ n, ∀ m ∈ adjacency n, m ∈ ids) (fuel : ℕ) :
    ∀ {visiting visited : List Str} {node : Str}, visiting.Nodup → visiting ⊆ ids →
      node ∈ ids → ids.length < visiting.length + fuel →
      dfs adjacency fuel visiting visited node ≠ .out := by
  induction fuel with
  | zero =>
    intro visiting visited node hnodup hsub _ hlt
    have hle := (List.subperm_of_subset hnodup hsub).length_le
    omega
  | succ fuel ih =>
    intro visiting visited node hnodup hsub hnode hlt
    rw [dfs]
    split_ifs with hmem hseen
    · exact fun h => by cases h
    · exact fun h => by cases h
    · refine Fuelled.andThen_ne_out (visitAll_ne_out (fun n hn visited' => ?_) visited)
        (fun _ h => by cases h)
      refine ih (List.nodup_cons.mpr ⟨hmem, hnodup⟩) (List.cons_subset.mpr ⟨hnode, hsub⟩)
        (hadj node n hn) ?_
      rw [List.length_cons]
      omega

theorem checkEdges_iff {edges : List FlowEdge} :
    checkEdges ids edges = .ret () ↔ ∀ e ∈ edges, e.src ∈ ids ∧ e.dst ∈ ids := by
  induction edges with
  | nil => exact iff_of_true rfl (fun e he => by cases he)
  | cons e edges ih =>
    rw [checkEdges, List.forall_mem_cons]
    split_ifs with hsrc hdst
    · exact ih.trans (and_iff_right ⟨hsrc, hdst⟩).symm
    · exact iff_of_false Fuelled.fail_ne_ret (fun h => hdst h.1.2)
    · exact iff_of_false Fuelled.fail_ne_ret (fun h => hsrc h.1.1)

theorem validateGraph_ne_out {edges : List FlowEdge} {entry : Str}
    (h : checkEdges ids edges = .ret ()) :
    validateGraph entry ids (adjacencyOf edges) ≠ .out := by
  rw [validateGraph]
  split_ifs with hentry
  · refine Fuelled.andThen_ne_out (dfs_ne_out (fun n m hm => ?_) _ List.nodup_nil
      (List.nil_subset _) hentry (by simp)) (fun visited => ?_)
    · obtain ⟨e, he, rfl⟩ := List.mem_map.mp hm
      exact (checkEdges_iff.mp h e (List.mem_filter.mp he).1).2
    · split_ifs <;> exact fun hc => by cases hc
  · exact fun hc => by cases hc

end search

section graph

variable {adjacency : Adjacency} {ids visited visited' : List Str}

def Leads (adjacency : Adjacency) (a b : Str) : Prop := b ∈ adjacency a

abbrev Reaches (adjacency : Adjacency) : Str → Str → Prop :=
  Relation.ReflTransGen (Leads adjacency)

def Cyclic (adjacency : Adjacency) (a : Str) : Prop := Relation.TransGen (Leads adjacency) a a

structure Settled (adjacency : Adjacency) (visited : List Str) : Prop where
  closed : ∀ v ∈ visited, ∀ w ∈ adjacency v, w ∈ visited
  acyclic : ∀ v ∈ visited, ¬Cyclic adjacency v

theorem Settled.reaches (h : Settled adjacency visited) {v w : Str} (hv : v ∈ visited)
    (hr : Reaches adjacency v w) : w ∈ visited := by
  induction hr with
  | refl => exact hv
  | tail _ hstep ih => exact h.closed _ ih _ hstep

structure Grows (adjacency : Adjacency) (nodes visited visited' : List Str) : Prop where
  settled : Settled adjacency visited'
  keeps : visited ⊆ visited'
  all : nodes ⊆ visited'
  only : ∀ v ∈ visited', v ∈ visited ∨ ∃ n ∈ nodes, Reaches adjacency n v

theorem visitAll_grows {visit : List Str → Str → Loaded (List Str)} {nodes : List Str}
    (hvisit : ∀ {n visited visited'}, Settled adjacency visited →
      visit visited n = .ret visited' → Grows adjacency [n] visited visited')
    (hs : Settled adjacency visited) (h : visitAll visit nodes visited = .ret visited') :
    Grows adjacency nodes visited visited' := by
  induction nodes generalizing visited with
  | nil =>
    obtain rfl := Fuelled.ret_inj.mp h
    exact ⟨hs, List.Subset.refl _, List.nil_subset _, fun v hv => Or.inl hv⟩
  | cons n nodes ih =>
    obtain ⟨middle, hn, h⟩ := Fuelled.andThen_eq_ret.mp h
    have hfirst := hvisit hs hn
    have hrest := ih hfirst.settled h
    refine ⟨hrest.settled, List.Subset.trans hfirst.keeps hrest.keeps,
      List.cons_subset.mpr ⟨hrest.keeps (hfirst.all List.mem_cons_self), hrest.all⟩, ?_⟩
    intro v hv
    rcases hrest.only v hv with hm | ⟨m, hm, hr⟩
    · rcases hfirst.only v hm with hv | ⟨m, hm, hr⟩
      · exact Or.inl hv
      · exact Or.inr ⟨m, List.mem_cons.mpr (Or.inl (List.mem_singleton.mp hm)), hr⟩
    · exact Or.inr ⟨m, List.mem_cons_of_mem _ hm, hr⟩

theorem dfs_grows (fuel : ℕ) : ∀ {visiting visited visited' : List Str} {node : Str},
    Settled adjacency visited → dfs adjacency fuel visiting visited node = .ret visited' →
      Grows adjacency [node] visited visited' := by
  induction fuel with
  | zero => exact fun _ h => absurd h.symm (Option.some_ne_none _)
  | succ fuel ih =>
    intro visiting visited visited' node hs h
    rw [dfs] at h
    split_ifs at h with hmem hseen
    · exact absurd h Fuelled.fail_ne_ret
    · obtain rfl := Fuelled.ret_inj.mp h
      exact ⟨hs, List.Subset.refl _, List.cons_subset.mpr ⟨hseen, List.nil_subset _⟩,
        fun v hv => Or.inl hv⟩
    · obtain ⟨below, hbelow, h⟩ := Fuelled.andThen_eq_ret.mp h
      obtain rfl := Fuelled.ret_inj.mp h
      have hg := visitAll_grows (fun hs hd => ih hs hd) hs hbelow
      refine ⟨⟨?_, ?_⟩, fun v hv => List.mem_cons_of_mem _ (hg.keeps hv),
        List.cons_subset.mpr ⟨List.mem_cons_self, List.nil_subset _⟩, ?_⟩
      · intro v hv w hw
        refine List.mem_cons_of_mem _ ?_
        rcases List.mem_cons.mp hv with rfl | hv
        · exact hg.all hw
        · exact hg.settled.closed v hv w hw
      · intro v hv hcycle
        rcases List.mem_cons.mp hv with rfl | hv
        · obtain ⟨c, hc, hback⟩ := Relation.TransGen.head'_iff.mp hcycle
          exact hg.settled.acyclic v (hg.settled.reaches (hg.all hc) hback) hcycle
        · exact hg.settled.acyclic v hv hcycle
      · intro v hv
        rcases List.mem_cons.mp hv with rfl | hv
        · exact Or.inr ⟨v, List.mem_cons_self, .refl⟩
        · exact (hg.only v hv).imp_right fun ⟨n, hn, hr⟩ =>
            ⟨node, List.mem_cons_self, .head hn hr⟩

theorem visitAll_ne_fail {visit : List Str → Str → Loaded (List Str)} {nodes : List Str} {e : Str}
    (h : ∀ n ∈ nodes, ∀ visited, visit visited n ≠ .fail e) (visited : List Str) :
    visitAll visit nodes visited ≠ .fail e := by
  induction nodes generalizing visited with
  | nil => exact fun hc => by cases hc
  | cons n nodes ih =>
    exact Fuelled.andThen_ne_fail (h n List.mem_cons_self visited)
      (ih (fun m hm => h m (List.mem_cons_of_mem _ hm)))

theorem dfs_ne_fail (fuel : ℕ) {e : Str} : ∀ {visiting visited : List Str} {node : Str},
    (∀ n, Reaches adjacency node n → ¬Cyclic adjacency n) →
      (∀ p ∈ visiting, ¬Reaches adjacency node p) →
        dfs adjacency fuel visiting visited node ≠ .fail e := by
  induction fuel with
  | zero => exact fun _ _ hc => by cases hc
  | succ fuel ih =>
    intro visiting visited node hacyclic hway
    rw [dfs]
    split_ifs with hmem hseen
    · exact absurd .refl (hway node hmem)
    · exact fun hc => by cases hc
    · refine Fuelled.andThen_ne_fail (visitAll_ne_fail (fun n hn visited' => ih
        (fun m hm => hacyclic m (.head hn hm)) (fun p hp hback => ?_)) visited)
          (fun _ h => by cases h)
      rcases List.mem_cons.mp hp with rfl | hp
      · exact hacyclic p .refl (.head' hn hback)
      · exact hway p hp (.head hn hback)

theorem settled_nil : Settled adjacency [] :=
  ⟨fun _ hv => absurd hv List.not_mem_nil, fun _ hv => absurd hv List.not_mem_nil⟩

theorem validateGraph_iff (hadj : ∀ n, ∀ m ∈ adjacency n, m ∈ ids) {entry : Str} :
    validateGraph entry ids adjacency = .ret () ↔ entry ∈ ids ∧
      (∀ n, Reaches adjacency entry n → ¬Cyclic adjacency n) ∧
      ∀ id ∈ ids, Reaches adjacency entry id := by
  rw [validateGraph]
  split_ifs with hentry
  · rw [and_iff_right hentry, Fuelled.andThen_eq_ret]
    constructor
    · rintro ⟨visited, hdfs, h⟩
      have hg := dfs_grows _ settled_nil hdfs
      have hin := hg.all List.mem_cons_self
      refine ⟨fun n hn => hg.settled.acyclic n (hg.settled.reaches hin hn), fun id hid => ?_⟩
      split_ifs at h with hempty
      · have hv : id ∈ visited := by
          by_contra hv
          have hm : id ∈ ids.filter (· ∉ visited) := List.mem_filter.mpr ⟨hid, by simpa using hv⟩
          rw [List.isEmpty_iff.mp hempty] at hm
          cases hm
        rcases hg.only id hv with hno | ⟨n, hn, hr⟩
        · cases hno
        · obtain rfl := List.mem_singleton.mp hn
          exact hr
      · exact absurd h Fuelled.fail_ne_ret
    · rintro ⟨hacyclic, hreach⟩
      have hout : dfs adjacency (ids.length + 1) [] [] entry ≠ .out :=
        dfs_ne_out hadj _ List.nodup_nil (List.nil_subset _) hentry (by simp)
      have hfail : ∀ e, dfs adjacency (ids.length + 1) [] [] entry ≠ .fail e :=
        fun _ => dfs_ne_fail _ hacyclic (fun p hp => absurd hp List.not_mem_nil)
      rcases hd : dfs adjacency (ids.length + 1) [] [] entry with _ | e | visited
      · exact absurd hd hout
      · exact absurd hd (hfail e)
      · have hg := dfs_grows _ settled_nil hd
        refine ⟨visited, rfl, if_pos (List.isEmpty_iff.mpr (List.filter_eq_nil_iff.mpr ?_))⟩
        intro id hid
        simpa using hg.settled.reaches (hg.all List.mem_cons_self) (hreach id hid)
  · exact iff_of_false Fuelled.fail_ne_ret (fun h => hentry h.1)

theorem validateUniqueSteps_iff {ss : List FlowStep} {seen : List Str}
    (hne : ∀ s ∈ ss, s.id ≠ []) : validateUniqueSteps ss seen = .ret () ↔
      (ss.map FlowStep.id).Nodup ∧ ∀ s ∈ ss, s.id ∉ seen := by
  induction ss generalizing seen with
  | nil => exact iff_of_true rfl ⟨List.nodup_nil, fun s hs => by cases hs⟩
  | cons s ss ih =>
    obtain ⟨hs, hss⟩ := List.forall_mem_cons.mp hne
    rw [validateUniqueSteps, expectStr_eq_ret.mpr ⟨hs, rfl⟩, Fuelled.ret_andThen, List.map_cons,
      List.nodup_cons, List.forall_mem_cons]
    split_ifs with hseen
    · exact iff_of_false Fuelled.fail_ne_ret (fun h => h.2.1 hseen)
    · rw [ih hss]
      simp only [List.mem_cons, not_or, List.mem_map, not_exists, not_and]
      constructor
      · rintro ⟨hnodup, hnew⟩
        exact ⟨⟨fun x hx he => (hnew x hx).1 he, hnodup⟩, hseen, fun x hx => (hnew x hx).2⟩
      · rintro ⟨⟨hfirst, hnodup⟩, -, hnew⟩
        exact ⟨hnodup, fun x hx => ⟨fun he => hfirst x hx he, hnew x hx⟩⟩

theorem adjacency_known {edges : List FlowEdge} (h : ∀ e ∈ edges, e.src ∈ ids ∧ e.dst ∈ ids)
    (n m : Str) (hm : m ∈ adjacencyOf edges n) : m ∈ ids := by
  obtain ⟨e, he, rfl⟩ := List.mem_map.mp hm
  exact (h e (List.mem_filter.mp he).1).2

theorem graphChecks_iff {entry : Str} {steps : List FlowStep} {edges : List FlowEdge}
    (hne : ∀ s ∈ steps, s.id ≠ []) : graphChecks entry steps edges = .ret () ↔
      (steps.map FlowStep.id).Nodup ∧
        (∀ e ∈ edges, e.src ∈ steps.map FlowStep.id ∧ e.dst ∈ steps.map FlowStep.id) ∧
        entry ∈ steps.map FlowStep.id ∧
        (∀ n, Reaches (adjacencyOf edges) entry n → ¬Cyclic (adjacencyOf edges) n) ∧
        ∀ id ∈ steps.map FlowStep.id, Reaches (adjacencyOf edges) entry id := by
  rw [graphChecks, Fuelled.andThen_eq_ret]
  constructor
  · rintro ⟨_, hunique, h⟩
    obtain ⟨adjacency, hadj, h⟩ := Fuelled.andThen_eq_ret.mp h
    obtain ⟨_, hedges, hadj⟩ := Fuelled.andThen_eq_ret.mp hadj
    obtain rfl := Fuelled.ret_inj.mp hadj
    have hedges := checkEdges_iff.mp hedges
    exact ⟨((validateUniqueSteps_iff hne).mp hunique).1, hedges,
      (validateGraph_iff (adjacency_known hedges)).mp h⟩
  · rintro ⟨hnodup, hedges, hgraph⟩
    refine ⟨(), (validateUniqueSteps_iff hne).mpr ⟨hnodup, fun _ _ => List.not_mem_nil⟩, ?_⟩
    rw [buildAdjacency, checkEdges_iff.mpr hedges]
    exact (validateGraph_iff (adjacency_known hedges)).mpr hgraph

theorem validateUniqueSteps_ne_out (ss : List FlowStep) : ∀ seen : List Str,
    validateUniqueSteps ss seen ≠ .out := by
  induction ss with
  | nil => exact fun _ h => by cases h
  | cons s ss ih =>
    intro seen
    refine Fuelled.andThen_ne_out ?_ (fun id => ?_)
    · rw [expectStr]
      split_ifs <;> exact fun h => by cases h
    · split_ifs
      · exact fun h => by cases h
      · exact ih _

theorem checkEdges_ne_out (edges : List FlowEdge) : checkEdges ids edges ≠ .out := by
  induction edges with
  | nil => exact fun h => by cases h
  | cons e edges ih =>
    rw [checkEdges]
    split_ifs
    · exact ih
    · exact fun h => by cases h
    · exact fun h => by cases h

theorem graphChecks_ne_out (entry : Str) (steps : List FlowStep) (edges : List FlowEdge) :
    graphChecks entry steps edges ≠ .out := by
  refine Fuelled.andThen_ne_out (validateUniqueSteps_ne_out _ _) (fun _ => ?_)
  rw [buildAdjacency]
  rcases hc : checkEdges (steps.map FlowStep.id) edges with _ | e | _
  · exact absurd hc (checkEdges_ne_out edges)
  · exact fun h => by cases h
  · exact validateGraph_ne_out hc

end graph

end TraceMind.Recipe
