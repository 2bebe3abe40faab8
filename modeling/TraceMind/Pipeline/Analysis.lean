import TraceMind.Ana.Validator
import TraceMind.Foundation.Topological
import TraceMind.Pipeline.Overlap

namespace TraceMind.Analysis

open Ana (keysOf)
open LayeredGraph (ClosedWalk Cyclic Forward)
open Pipeline (SameForm firstSegment writeAffectsRead writesOverlap)
open Selectors (selectorMatch)
open Verify (Rule StepSpec)

abbrev StepGraph := OrderedDict Str (List Str)

structure Plan where
  steps : OrderedDict Str StepSpec
  rules : List Rule

inductive ConflictKind where
  | writeWrite
  | suspiciousRule
deriving DecidableEq

structure Conflict where
  kind : ConflictKind
  place : Str
  a : Str
  b : Str
  detail : Str
deriving DecidableEq

structure Coverage where
  unusedSteps : List Str
  unreachableSteps : List Str
  emptyRules : List Str
  emptyTriggers : List Str
  focusUncovered : List Str

structure Graphs where
  stepDeps : StepGraph
  topo : List Str
  cycles : List (List Str)

structure AnalysisReport where
  graphs : Graphs
  conflicts : List Conflict
  coverage : Coverage
  dotRulesSteps : Str
  dotStepDeps : Str

def keysIn {V : Type} (d : OrderedDict Str V) : List Str := d.entries.map Prod.fst

def targetsIn (graph : StepGraph) (u : Str) : List Str := (graph.get? u).getD []

def Edge (graph : StepGraph) (u v : Str) : Prop := v ∈ targetsIn graph u

instance (graph : StepGraph) (u v : Str) : Decidable (Edge graph u v) :=
  inferInstanceAs (Decidable (v ∈ targetsIn graph u))

def counted (graph : StepGraph) : List Str := keysOf (keysIn graph ++ graph.entries.flatMap Prod.snd)

theorem addKeys_of_mem {seen ids : List Str} (h : ∀ id ∈ ids, id ∈ seen) :
    ids.foldl Ana.addKey seen = seen := by
  induction ids with
  | nil => rfl
  | cons id ids ih =>
    rw [List.foldl_cons, Ana.addKey, if_pos (h id List.mem_cons_self)]
    exact ih (fun x hx => h x (List.mem_cons_of_mem id hx))

theorem addKeys_of_nodup {seen ids : List Str} (h : (seen ++ ids).Nodup) :
    ids.foldl Ana.addKey seen = seen ++ ids := by
  induction ids generalizing seen with
  | nil => rw [List.foldl_nil, List.append_nil]
  | cons id ids ih =>
    have hnew : id ∉ seen := fun hin => (List.nodup_append.mp h).2.2 id hin id List.mem_cons_self rfl
    rw [List.append_cons] at h
    rw [List.foldl_cons, Ana.addKey, if_neg hnew, ih h, List.append_assoc]
    rfl

theorem addKeys_nodup {seen : List Str} (ids : List Str) (h : seen.Nodup) :
    (ids.foldl Ana.addKey seen).Nodup := by
  induction ids generalizing seen with
  | nil => exact h
  | cons id ids ih =>
    rw [List.foldl_cons, Ana.addKey]
    split_ifs with hin
    · exact ih h
    · exact ih (List.nodup_append.mpr ⟨h, List.nodup_singleton id, fun a ha b hb he =>
        hin (List.mem_singleton.mp hb ▸ he ▸ ha)⟩)

theorem entry_of_edge {graph : StepGraph} {u v : Str} (h : v ∈ targetsIn graph u) :
    ∃ e ∈ graph.entries, e.1 = u ∧ v ∈ e.2 := by
  rw [targetsIn] at h
  cases hu : graph.get? u with
  | none =>
    rw [hu] at h
    cases h
  | some vs =>
    rw [hu] at h
    exact ⟨(u, vs), OrderedDict.get?_eq_some.mp hu, rfl, h⟩

def layered (graph : StepGraph) : LayeredGraph Str where
  nodes := counted graph
  succ := targetsIn graph
  nodup := addKeys_nodup _ List.nodup_nil
  source u v h := by
    obtain ⟨e, he, rfl, -⟩ := entry_of_edge h
    exact Ana.mem_keysOf.mpr (List.mem_append_left _ (List.mem_map_of_mem he))
  target u v h := by
    obtain ⟨e, he, -, hv⟩ := entry_of_edge h
    exact Ana.mem_keysOf.mpr (List.mem_append_right _ (List.mem_flatMap.mpr ⟨e, he, hv⟩))

theorem keys_known {graph : StepGraph} {v : Str} (h : v ∈ keysIn graph) : v ∈ (layered graph).nodes :=
  Ana.mem_keysOf.mpr (List.mem_append_left _ h)

theorem findCycles_isSome (graph : StepGraph) :
    ((layered graph).visitNodes (keysIn graph) ⟨[], []⟩).isSome = true := by
  obtain ⟨t, ht, -⟩ :=
    LayeredGraph.visitNodes_spec (fun v (hv : v ∈ keysIn graph) => keys_known hv)
  rw [ht]
  rfl

def findCycles (graph : StepGraph) : List (List Str) :=
  (((layered graph).visitNodes (keysIn graph) ⟨[], []⟩).get (findCycles_isSome graph)).cycles

def topologicalOrder (graph : StepGraph) : List Str × List (List Str) :=
  let order := (layered graph).served
  if order.length ≠ graph.size then ([], findCycles graph) else (order, [])

theorem findCycles_spec (graph : StepGraph) :
    (∀ c ∈ findCycles graph, ClosedWalk (Edge graph) c) ∧
      (findCycles graph = [] → ∀ v ∈ keysIn graph, ¬Relation.TransGen (Edge graph) v v) := by
  obtain ⟨t, ht, hwalks, hnone⟩ :=
    LayeredGraph.visitNodes_spec (fun v (hv : v ∈ keysIn graph) => keys_known hv)
  rw [findCycles, Option.get_of_eq_some _ ht]
  exact ⟨hwalks, hnone⟩

theorem topologicalOrder_spec (graph : StepGraph)
    (hclosed : ∀ e ∈ graph.entries, ∀ v ∈ e.2, v ∈ keysIn graph) :
    (¬Cyclic (Edge graph) → (topologicalOrder graph).1.Perm (keysIn graph) ∧
      Forward (Edge graph) (topologicalOrder graph).1 ∧ (topologicalOrder graph).2 = []) ∧
    (Cyclic (Edge graph) → (topologicalOrder graph).1 = [] ∧ (topologicalOrder graph).2 ≠ [] ∧
      ∀ c ∈ (topologicalOrder graph).2, ClosedWalk (Edge graph) c) := by
  have hnodes : (layered graph).nodes = keysIn graph := by
    have hkeys : (keysIn graph).foldl Ana.addKey [] = keysIn graph := addKeys_of_nodup graph.nodup
    show counted graph = keysIn graph
    rw [counted, keysOf, List.foldl_append, hkeys]
    refine addKeys_of_mem (fun v hv => ?_)
    obtain ⟨e, he, hmem⟩ := List.mem_flatMap.mp hv
    exact hclosed e he v hmem
  have hlen : (layered graph).served.length = graph.size ↔ ¬Cyclic (Edge graph) := by
    have hserved := LayeredGraph.served_length (g := layered graph)
    rwa [hnodes, keysIn, List.length_map] at hserved
  constructor
  · intro hacyc
    rw [topologicalOrder, if_neg (not_not.mpr (hlen.mpr hacyc))]
    exact ⟨hnodes ▸ LayeredGraph.served_perm hacyc, LayeredGraph.served_forward, rfl⟩
  · intro hcyc
    rw [topologicalOrder, if_pos (fun h => hlen.mp h hcyc)]
    obtain ⟨hwalks, hnone⟩ := findCycles_spec graph
    refine ⟨rfl, fun hnil => ?_, hwalks⟩
    obtain ⟨v, hv⟩ := hcyc
    obtain ⟨u, -, hu⟩ := Relation.TransGen.tail'_iff.mp hv
    obtain ⟨e, he, -, hmem⟩ := entry_of_edge hu
    exact hnone hnil v (hclosed e he v hmem) hv

def doubled : StepGraph := ⟨[(['a'], [['b'], ['b']]), (['b'], [])], by decide⟩

def looped : StepGraph := ⟨[(['a'], [['b']]), (['b'], [['a'], ['b']])], by decide⟩

theorem doubled_and_looped :
    (topologicalOrder doubled).1.Perm [['a'], ['b']] ∧ (topologicalOrder looped).2 ≠ [] := by
  have hacyc : ¬Cyclic (Edge doubled) :=
    (LayeredGraph.served_length (g := layered doubled)).mp (by decide)
  have hcyc : Cyclic (Edge looped) :=
    ⟨['a'], .tail (b := ['b']) (.single (by decide)) (by decide)⟩
  exact ⟨((topologicalOrder_spec doubled (by decide)).1 hacyc).1,
    ((topologicalOrder_spec looped (by decide)).2 hcyc).2.1⟩

def affects (a b : StepSpec) : Bool := a.writes.any (fun w => b.reads.any (writeAffectsRead w))

def overlapping (a b : StepSpec) : Bool := a.writes.any (fun w => b.writes.any (writesOverlap w))

def addDep (dep : StepGraph) (p : StepSpec × StepSpec) : Except Err StepGraph :=
  if p.1.name = p.2.name then .ok dep
  else if affects p.1 p.2 then
    match dep.get? p.1.name with
    | none => .error (.keyError (String.ofList p.1.name))
    | some _ => .ok (dep.modify p.1.name (· ++ [p.2.name]))
  else .ok dep

def pairs {A B : Type} (as : List A) (bs : List B) : List (A × B) :=
  as.flatMap (fun a => bs.map (fun b => (a, b)))

def stepDeps (steps : OrderedDict Str StepSpec) : Except Err StepGraph :=
  let specs := steps.entries.map Prod.snd
  (pairs specs specs).foldlM addDep (steps.mapValues (fun _ => []))

def stepOf (steps : OrderedDict Str StepSpec) (name : Str) : Except Err StepSpec :=
  match steps.get? name with
  | none => .error (.keyError (String.ofList name))
  | some spec => .ok spec

def writeConflict (rule a b : Str) : Conflict :=
  ⟨.writeWrite, rule, a, b, "Potential overlapping writes in rule order: '".toList ++ a ++
    "' -> '".toList ++ b ++ "'".toList⟩

def conflictsAfter (steps : OrderedDict Str StepSpec) (rule : Str) (si : StepSpec) :
    List Str → Except Err (List Conflict)
  | [] => .ok []
  | name :: names => do
    let sj ← stepOf steps name
    let rest ← conflictsAfter steps rule si names
    .ok (if overlapping si sj then writeConflict rule si.name sj.name :: rest else rest)

def ruleConflicts (steps : OrderedDict Str StepSpec) (rule : Str) :
    List Str → Except Err (List Conflict)
  | [] => .ok []
  | name :: names => do
    let si ← stepOf steps name
    let first ← conflictsAfter steps rule si names
    let rest ← ruleConflicts steps rule names
    .ok (first ++ rest)

def headsOf (rules : List Rule) (name : Str) : List Str :=
  match (rules.filter (fun r => r.name = name)).getLast? with
  | none => []
  | some r => r.triggers.map firstSegment

def mayCoFire (rules : List Rule) (ri rj : Rule) : Bool :=
  (headsOf rules ri.name).any (fun h => decide (h ∈ headsOf rules rj.name))

def crossConflict (steps : OrderedDict Str StepSpec) (ri rj : Rule) (p : Str × Str) :
    Except Err (List Conflict) := do
  let si ← stepOf steps p.1
  let sj ← stepOf steps p.2
  .ok (if overlapping si sj then
    [⟨.writeWrite, "cross-rule".toList, ri.name ++ ':' :: si.name, rj.name ++ ':' :: sj.name,
      "Rules may co-fire (shared trigger head) and write overlapping prefixes.".toList⟩]
    else [])

def crossConflicts (steps : OrderedDict Str StepSpec) (all : List Rule) :
    List Rule → Except Err (List Conflict)
  | [] => .ok []
  | ri :: rules => do
    let first ← ((rules.filter (mayCoFire all ri)).flatMap (fun rj =>
      (pairs ri.steps rj.steps).map (fun p => (rj, p)))).mapM
        (fun q => crossConflict steps ri q.1 q.2)
    let rest ← crossConflicts steps all rules
    .ok (first.flatten ++ rest)

def suspicious (detail : String) (rule : Str) : Conflict :=
  ⟨.suspiciousRule, rule, [], [], detail.toList⟩

def coverageOf (plan : Plan) (focusFields : List Str) : Coverage :=
  let referenced := plan.rules.flatMap Rule.steps
  let unused := LayeredGraph.sorted ((keysIn plan.steps).filter (· ∉ referenced))
  let heads := (plan.rules.flatMap Rule.triggers).map firstSegment
  { unusedSteps := unused
    unreachableSteps := unused
    emptyRules := (plan.rules.filter (fun r => r.steps.isEmpty)).map Rule.name
    emptyTriggers := (plan.rules.filter (fun r => r.triggers.isEmpty)).map Rule.name
    focusUncovered := focusFields.filter (fun f => firstSegment f ∉ heads) }

def quoted (s : Str) : Str := Json.quote :: s ++ [Json.quote]

def joinLines (lines : List Str) : Str := [Char.ofNat 10].intercalate lines

def ruleLines (r : Rule) : List Str :=
  (quoted ("R:".toList ++ r.name) ++ " [shape=box,style=rounded,color=blue]".toList) ::
    (pairsOn r).flatMap (fun p => [quoted p.2 ++ " [shape=ellipse]".toList,
      quoted p.1 ++ " -> ".toList ++ quoted p.2])
where
  pairsOn (r : Rule) : List (Str × Str) :=
    let nodes := r.steps.map ("S:".toList ++ ·)
    (("R:".toList ++ r.name) :: nodes).zip nodes

def exportDotRulesSteps (plan : Plan) : Str :=
  joinLines ("digraph G \x7b rankdir=LR; node [shape=box,style=rounded];".toList ::
    plan.rules.flatMap ruleLines ++ ["\x7d".toList])

def exportDotStepDeps (graph : StepGraph) (cycles : List (List Str)) : Str :=
  joinLines ("digraph G \x7b rankdir=LR; node [shape=ellipse];".toList ::
    graph.entries.flatMap (fun e =>
      (quoted e.1 ++ (if e.1 ∈ cycles.flatten then " [color=red]" else " [color=black]").toList) ::
        e.2.map (fun v => quoted e.1 ++ " -> ".toList ++ quoted v)) ++ ["\x7d".toList])

def analyzePlan (plan : Plan) (focusFields : List Str) : Except Err AnalysisReport := do
  let dep ← stepDeps plan.steps
  let order := topologicalOrder dep
  let within ← plan.rules.mapM (fun r => ruleConflicts plan.steps r.name r.steps)
  let across ← crossConflicts plan.steps plan.rules plan.rules
  let coverage := coverageOf plan focusFields
  .ok { graphs := ⟨dep, order.1, order.2⟩
        conflicts := within.flatten ++ across ++
          coverage.emptyRules.map (suspicious "Rule has no steps.") ++
          coverage.emptyTriggers.map (suspicious "Rule has no triggers.")
        coverage := coverage
        dotRulesSteps := exportDotRulesSteps plan
        dotStepDeps := exportDotStepDeps dep order.2 }

variable {steps : OrderedDict Str StepSpec} {rule : Str} {names : List Str} {si sj : StepSpec}
  {cs : List Conflict} {c : Conflict} {plan : Plan} {focusFields : List Str}
  {report : AnalysisReport}

theorem stepOf_eq {name : Str} {spec : StepSpec} :
    stepOf steps name = .ok spec ↔ steps.get? name = some spec := by
  rw [stepOf]
  cases steps.get? name with
  | none => exact ⟨fun h => (by cases h), fun h => (by cases h)⟩
  | some s => simp

theorem mem_conflictsAfter (h : conflictsAfter steps rule si names = .ok cs) :
    c ∈ cs ↔ ∃ m ∈ names, ∃ sj, steps.get? m = some sj ∧ overlapping si sj = true ∧
      c = writeConflict rule si.name sj.name := by
  induction names generalizing cs with
  | nil =>
    cases h
    simp
  | cons name names ih =>
    rw [conflictsAfter] at h
    obtain ⟨sj, hsj, h⟩ := Fallible.bind_eq_ok.mp h
    obtain ⟨rest, hrest, h⟩ := Fallible.bind_eq_ok.mp h
    have hget := stepOf_eq.mp hsj
    cases h
    rw [List.exists_mem_cons_iff, hget, ← ih hrest]
    split_ifs with ho <;> simp [ho]

theorem mem_ruleConflicts (h : ruleConflicts steps rule names = .ok cs) :
    c ∈ cs ↔ ∃ n m si sj, [n, m].Sublist names ∧ steps.get? n = some si ∧
      steps.get? m = some sj ∧ overlapping si sj = true ∧
      c = writeConflict rule si.name sj.name := by
  induction names generalizing cs with
  | nil =>
    cases h
    simp
  | cons name names ih =>
    rw [ruleConflicts] at h
    obtain ⟨si, hsi, h⟩ := Fallible.bind_eq_ok.mp h
    obtain ⟨first, hfirst, h⟩ := Fallible.bind_eq_ok.mp h
    obtain ⟨rest, hrest, h⟩ := Fallible.bind_eq_ok.mp h
    have hget := stepOf_eq.mp hsi
    cases h
    rw [List.mem_append, mem_conflictsAfter hfirst, ih hrest]
    constructor
    · rintro (⟨m, hm, sj, hj, hc⟩ | ⟨n, m, si', sj, hsub, hc⟩)
      · exact ⟨name, m, si, sj, .cons_cons name (List.singleton_sublist.mpr hm), hget, hj, hc⟩
      · exact ⟨n, m, si', sj, .cons name hsub, hc⟩
    · rintro ⟨n, m, si', sj, hsub, hi, hj, hc⟩
      cases hsub with
      | cons _ hsub => exact .inr ⟨n, m, si', sj, hsub, hi, hj, hc⟩
      | cons_cons _ hsub =>
        obtain rfl := Option.some.inj (hget.symm.trans hi)
        exact .inl ⟨m, List.singleton_sublist.mp hsub, sj, hj, hc⟩

theorem crossConflict_detail {ri rj : Rule} {p : Str × Str} (h : crossConflict steps ri rj p = .ok cs)
    (hc : c ∈ cs) : c.detail.head? = some 'R' := by
  rw [crossConflict] at h
  obtain ⟨si, -, h⟩ := Fallible.bind_eq_ok.mp h
  obtain ⟨sj, -, h⟩ := Fallible.bind_eq_ok.mp h
  cases h
  split_ifs at hc
  · rw [List.mem_singleton.mp hc]
    rfl
  · cases hc

theorem crossConflicts_detail {all rules : List Rule} (h : crossConflicts steps all rules = .ok cs)
    (hc : c ∈ cs) : c.detail.head? = some 'R' := by
  induction rules generalizing cs with
  | nil =>
    cases h
    cases hc
  | cons ri rules ih =>
    rw [crossConflicts] at h
    obtain ⟨first, hfirst, h⟩ := Fallible.bind_eq_ok.mp h
    obtain ⟨rest, hrest, h⟩ := Fallible.bind_eq_ok.mp h
    cases h
    rcases List.mem_append.mp hc with hc | hc
    · obtain ⟨l, hl, hc⟩ := List.mem_flatten.mp hc
      obtain ⟨q, -, hq⟩ := Fallible.mapM_mem hfirst hl
      exact crossConflict_detail hq hc
    · exact ih hrest hc

theorem mem_within {rules : List Rule} {within : List (List Conflict)}
    (h : rules.mapM (fun r => ruleConflicts steps r.name r.steps) = .ok within) :
    c ∈ within.flatten ↔ ∃ r ∈ rules, ∃ n m si sj, [n, m].Sublist r.steps ∧
      steps.get? n = some si ∧ steps.get? m = some sj ∧ overlapping si sj = true ∧
      c = writeConflict r.name si.name sj.name := by
  rw [List.mem_flatten]
  constructor
  · rintro ⟨l, hl, hc⟩
    obtain ⟨r, hr, hrun⟩ := Fallible.mapM_mem h hl
    exact ⟨r, hr, (mem_ruleConflicts hrun).mp hc⟩
  · rintro ⟨r, hr, hc⟩
    obtain ⟨l, hl, hrun⟩ := Fallible.mapM_image h hr
    exact ⟨l, hl, (mem_ruleConflicts hrun).mpr hc⟩

structure WritePair (plan : Plan) (rule a b w1 w2 : Str) : Prop where
  steps : ∃ r ∈ plan.rules, ∃ n m si sj, r.name = rule ∧ [n, m].Sublist r.steps ∧
    plan.steps.get? n = some si ∧ plan.steps.get? m = some sj ∧ si.name = a ∧ sj.name = b ∧
    w1 ∈ si.writes ∧ w2 ∈ sj.writes

def SharePath (a b : Str) : Prop :=
  ∃ path, selectorMatch a path = .ok true ∧ selectorMatch b path = .ok true

theorem overlapping_iff : overlapping si sj = true ↔
    ∃ w1 ∈ si.writes, ∃ w2 ∈ sj.writes, firstSegment w1 = firstSegment w2 := by
  simp [overlapping, writesOverlap]

theorem mem_conflicts (h : analyzePlan plan focusFields = .ok report) {a b : Str} :
    writeConflict rule a b ∈ report.conflicts ↔
      ∃ w1 w2, WritePair plan rule a b w1 w2 ∧ firstSegment w1 = firstSegment w2 := by
  rw [analyzePlan] at h
  obtain ⟨dep, -, h⟩ := Fallible.bind_eq_ok.mp h
  obtain ⟨within, hwithin, h⟩ := Fallible.bind_eq_ok.mp h
  obtain ⟨across, hacross, h⟩ := Fallible.bind_eq_ok.mp h
  cases h
  have hdetail : (writeConflict rule a b).detail.head? = some 'P' := rfl
  have hcross : writeConflict rule a b ∉ across := by
    intro hm
    have hhead := crossConflicts_detail hacross hm
    rw [hdetail] at hhead
    exact absurd (Option.some.inj hhead) (by decide)
  have hsuspicious : ∀ text (rules : List Str),
      writeConflict rule a b ∉ rules.map (suspicious text) := by
    intro text rules hm
    obtain ⟨r, -, hr⟩ := List.mem_map.mp hm
    cases hr
  rw [List.mem_append, or_iff_left (hsuspicious _ _), List.mem_append, or_iff_left (hsuspicious _ _),
    List.mem_append, or_iff_left hcross, mem_within hwithin]
  constructor
  · rintro ⟨r, hr, n, m, si, sj, hsub, hi, hj, ho, hc⟩
    obtain ⟨w1, h1, w2, h2, hw⟩ := overlapping_iff.mp ho
    rw [writeConflict, writeConflict] at hc
    injection hc with _ hname ha hb
    exact ⟨w1, w2, ⟨r, hr, n, m, si, sj, hname.symm, hsub, hi, hj, ha.symm, hb.symm, h1, h2⟩, hw⟩
  · rintro ⟨w1, w2, ⟨r, hr, n, m, si, sj, rfl, hsub, hi, hj, rfl, rfl, h1, h2⟩, hw⟩
    exact ⟨r, hr, n, m, si, sj, hsub, hi, hj, overlapping_iff.mpr ⟨w1, h1, w2, h2, hw⟩, rfl⟩

theorem shared_sameForm {a b : Str} (h : SharePath a b) :
    firstSegment a = firstSegment b ↔ SameForm a b := by
  obtain ⟨path, ha, hb⟩ := h
  obtain ⟨ta, hta, hma⟩ := Fallible.map_eq_ok.mp ha
  obtain ⟨tb, htb, hmb⟩ := Fallible.map_eq_ok.mp hb
  exact Pipeline.firstSegment_eq_iff hta htb hma hmb

def Alike (a b : Str) : Prop :=
  SharePath a b ∧ SameForm a b ∨ ¬SharePath a b ∧ firstSegment a = firstSegment b

theorem alike_iff {a b : Str} : Alike a b ↔ firstSegment a = firstSegment b := by
  by_cases h : SharePath a b
  · rw [Alike, shared_sameForm h]
    simp [h]
  · simp [Alike, h]

theorem conflicts_reported_iff (h : analyzePlan plan focusFields = .ok report) :
    (∀ a b, SharePath a b → ((writesOverlap a b = true ↔ SameForm a b) ∧
      (writeAffectsRead a b = true ↔ SameForm a b))) ∧
    ∀ rule a b, (∃ w1 w2, WritePair plan rule a b w1 w2 ∧ SharePath w1 w2) →
      (writeConflict rule a b ∈ report.conflicts ↔
        ∃ w1 w2, WritePair plan rule a b w1 w2 ∧ Alike w1 w2) := by
  refine ⟨fun a b hab => ?_, fun rule a b _ => ?_⟩
  · rw [writesOverlap, writeAffectsRead, decide_eq_true_eq, shared_sameForm hab]
    exact ⟨Iff.rfl, Iff.rfl⟩
  · simp only [mem_conflicts h, alike_iff]

def specOf (name write : String) : StepSpec := ⟨name.toList, [], [write.toList], []⟩

def starPlan (write : String) : Plan where
  steps := ⟨[("all".toList, specOf "all" write), ("svc".toList, specOf "svc" "svc.status")],
    by simp⟩
  rules := [⟨"sync".toList, ["tick".toList], ["all".toList, "svc".toList]⟩]

theorem starPlan_pair (write : String) : WritePair (starPlan write) "sync".toList "all".toList
    "svc".toList write.toList "svc.status".toList :=
  ⟨_, List.mem_cons_self, "all".toList, "svc".toList, specOf "all" write,
    specOf "svc" "svc.status", rfl, .refl _, rfl, rfl, rfl, rfl, List.mem_cons_self,
    List.mem_cons_self⟩

theorem star_shares : SharePath "*.status".toList "svc.status".toList :=
  ⟨[.key "svc".toList, .key "status".toList], by decide, by decide⟩

theorem star_write_unreported :
    ¬((∀ a b, SharePath a b → writesOverlap a b = true ∧ writeAffectsRead a b = true) ∧
      ∀ plan focusFields report, analyzePlan plan focusFields = .ok report → ∀ rule a b,
        (∃ w1 w2, WritePair plan rule a b w1 w2 ∧ SharePath w1 w2) →
        writeConflict rule a b ∈ report.conflicts) := by
  rintro ⟨hpairs, -⟩
  exact absurd (hpairs _ _ star_shares).1 (by decide)

theorem same_write_reported : ∃ report, analyzePlan (starPlan "svc.status") [] = .ok report ∧
    writeConflict "sync".toList "all".toList "svc".toList ∈ report.conflicts := by
  have hrun : ∃ report, analyzePlan (starPlan "svc.status") [] = .ok report := by
    have hok : (analyzePlan (starPlan "svc.status") []).isOk = true := by decide
    cases hr : analyzePlan (starPlan "svc.status") [] with
    | ok report => exact ⟨report, rfl⟩
    | error e =>
      rw [hr] at hok
      cases hok
  obtain ⟨report, hreport⟩ := hrun
  have hshare : SharePath "svc.status".toList "svc.status".toList :=
    ⟨[.key "svc".toList, .key "status".toList], by decide, by decide⟩
  refine ⟨report, hreport, ((conflicts_reported_iff hreport).2 _ _ _
    ⟨_, _, starPlan_pair "svc.status", hshare⟩).mpr ⟨_, _, starPlan_pair "svc.status", ?_⟩⟩
  exact .inl ⟨hshare, rfl, rfl⟩

end TraceMind.Analysis
