import TraceMind.Foundation.Layers
import TraceMind.Foundation.OrderedDict
import TraceMind.Queue.Base
import Mathlib.Data.Char

namespace TraceMind.Ana

open Queue (Error)

abbrev FlowGraph := OrderedDict Str (List Str)

section adjacency

def addKey (seen : List Str) (id : Str) : List Str := if id ∈ seen then seen else seen ++ [id]

def keysOf (ids : List Str) : List Str := ids.foldl addKey []

variable (graph : FlowGraph)

def allNodes : List Str := keysOf (graph.entries.flatMap (fun e => e.2 ++ [e.1]))

def setDefault (d : FlowGraph) (id : Str) : FlowGraph :=
  if (d.get? id).isSome then d else d.store id []

def adjacency : FlowGraph := (allNodes graph).foldl setDefault (graph.mapValues keysOf)

def targetsOf (node : Str) : List Str := ((adjacency graph).get? node).getD []

end adjacency

section lemmas

variable {graph : FlowGraph} {ids : List Str} {id node target : Str}

theorem mem_addKey {seen : List Str} : id ∈ addKey seen node ↔ id ∈ seen ∨ id = node := by
  rw [addKey]
  split_ifs with h
  · exact ⟨.inl, fun hid => hid.elim (fun hs => hs) (fun he => he ▸ h)⟩
  · rw [List.mem_append, List.mem_singleton]

theorem mem_keysOf : id ∈ keysOf ids ↔ id ∈ ids := by
  have hfold : ∀ (ids seen : List Str), id ∈ ids.foldl addKey seen ↔ id ∈ seen ∨ id ∈ ids := by
    intro ids
    induction ids with
    | nil => simp
    | cons x ids ih =>
      intro seen
      rw [List.foldl_cons, ih, mem_addKey, List.mem_cons, or_assoc]
  rw [keysOf, hfold, or_iff_right List.not_mem_nil]

theorem mem_allNodes : id ∈ allNodes graph ↔ ∃ e ∈ graph.entries, id ∈ e.2 ∨ id = e.1 := by
  simp [allNodes, mem_keysOf]

theorem get?_setDefault (d : FlowGraph) : (setDefault d node).get? id =
    if id = node ∧ d.get? id = none then some [] else d.get? id := by
  rw [setDefault]
  cases hd : d.get? node with
  | some vs =>
    rw [Option.isSome_some, if_pos rfl, if_neg]
    rintro ⟨rfl, hnone⟩
    rw [hd] at hnone
    cases hnone
  | none =>
    rw [Option.isSome_none, if_neg Bool.false_ne_true, OrderedDict.get?_store]
    obtain rfl | hne := eq_or_ne id node
    · simp [hd]
    · simp [hne]

theorem get?_adjacency : (adjacency graph).get? id =
    ((graph.get? id).map keysOf).or (if id ∈ allNodes graph then some [] else none) := by
  have hfold : ∀ (ids : List Str) (d : FlowGraph), (ids.foldl setDefault d).get? id =
      (d.get? id).or (if id ∈ ids then some [] else none) := by
    intro ids
    induction ids with
    | nil =>
      intro d
      rw [List.foldl_nil, if_neg List.not_mem_nil, Option.or_none]
    | cons x ids ih =>
      intro d
      rw [List.foldl_cons, ih, get?_setDefault]
      cases d.get? id with
      | some vs => simp
      | none => by_cases hx : id = x <;> simp [hx]
  rw [adjacency, hfold, OrderedDict.get?_mapValues]

end lemmas

section edges

variable (graph : FlowGraph)

def Edge (u v : Str) : Prop := ∃ succs, graph.get? u = some succs ∧ v ∈ succs

def IsNode (v : Str) : Prop := (∃ succs, graph.get? v = some succs) ∨ ∃ u, Edge graph u v

variable {graph} {u v : Str}

theorem mem_targetsOf : v ∈ targetsOf graph u ↔ Edge graph u v := by
  rw [targetsOf, get?_adjacency, Edge]
  cases graph.get? u with
  | none => split_ifs <;> simp
  | some succs => simp [mem_keysOf]

theorem isNode_iff : v ∈ allNodes graph ↔ IsNode graph v := by
  rw [mem_allNodes, IsNode]
  simp only [Edge, OrderedDict.get?_eq_some]
  constructor
  · rintro ⟨e, he, hv | rfl⟩
    · exact .inr ⟨e.1, e.2, he, hv⟩
    · exact .inl ⟨e.2, he⟩
  · rintro (⟨succs, he⟩ | ⟨u, succs, he, hv⟩)
    · exact ⟨(v, succs), he, .inr rfl⟩
    · exact ⟨(u, succs), he, .inl hv⟩

theorem mem_keys_iff {d : FlowGraph} : v ∈ d.entries.map Prod.fst ↔ ∃ succs, d.get? v = some succs := by
  simp [OrderedDict.get?_eq_some]

theorem mem_nodes : v ∈ (adjacency graph).entries.map Prod.fst ↔ IsNode graph v := by
  rw [mem_keys_iff, get?_adjacency, ← isNode_iff]
  cases hv : graph.get? v with
  | some succs => simp [isNode_iff, IsNode, hv]
  | none => split_ifs with h <;> simp [h]

variable (graph)

def layered : LayeredGraph Str where
  nodes := (adjacency graph).entries.map Prod.fst
  succ := targetsOf graph
  nodup := (adjacency graph).nodup
  source u v h := by
    obtain ⟨succs, hu, -⟩ := mem_targetsOf.mp h
    exact mem_nodes.mpr (.inl ⟨succs, hu⟩)
  target u v h := mem_nodes.mpr (.inr ⟨u, mem_targetsOf.mp h⟩)

theorem layered_edge : (layered graph).Edge = Edge graph :=
  funext fun _ => funext fun _ => propext mem_targetsOf

end edges

structure PlanStats where
  nodes : ℕ
  depth : ℕ
  maxWidth : ℕ

structure PlanResult where
  layers : List (List Str)
  stats : PlanStats

def plan (graph : FlowGraph) : Except Error PlanResult :=
  let g := layered graph
  let layers := g.layering.1
  if g.processed ≠ g.nodes.length then .error (.valueError "cycle detected in flow graph")
  else
    .ok { layers := layers
          stats := { nodes := g.nodes.length, depth := layers.length,
                     maxWidth := (layers.map List.length).foldr max 0 } }

section validate

inductive IssueLevel where
  | warning
  | error
deriving DecidableEq

inductive IssueCode where
  | invalidId
  | selfLoop
  | unknownTarget
  | duplicateEdge
  | noEntrypoint
  | extraEntrypoint
  | unreachableNode
  | cycleDetected
deriving DecidableEq

def IssueCode.text : IssueCode → String
  | .invalidId => "invalid_id"
  | .selfLoop => "self_loop"
  | .unknownTarget => "unknown_target"
  | .duplicateEdge => "duplicate_edge"
  | .noEntrypoint => "no_entrypoint"
  | .extraEntrypoint => "extra_entrypoint"
  | .unreachableNode => "unreachable_node"
  | .cycleDetected => "cycle_detected"

structure ValidationIssue where
  level : IssueLevel
  code : IssueCode
  message : Str
  node : Option Str := none
deriving DecidableEq

def hasErrors (issues : List ValidationIssue) : Bool := issues.any (fun i => i.level = .error)

def invalidId (id : Str) : Bool := id.isEmpty || strip id ≠ id || id.any isSpace

def invalidIssue (id : Str) : ValidationIssue :=
  ⟨.error, .invalidId, "node id must be non-empty and without surrounding whitespace".toList, some id⟩

def selfLoopIssue (id : Str) : ValidationIssue :=
  ⟨.error, .selfLoop, "node cannot reference itself".toList, some id⟩

def unknownIssue (target : Str) : ValidationIssue :=
  ⟨.error, .unknownTarget, "edge references undefined node '".toList ++ target ++ "'".toList,
    some target⟩

def duplicateIssue (node duplicate : Str) : ValidationIssue :=
  ⟨.warning, .duplicateEdge, "duplicate edge to '".toList ++ duplicate ++ "'".toList, some node⟩

def noEntrypointIssue : ValidationIssue :=
  ⟨.error, .noEntrypoint, "no entrypoint nodes (zero indegree) detected".toList, none⟩

def extraEntrypointIssue (node : Str) : ValidationIssue :=
  ⟨.warning, .extraEntrypoint, "additional entrypoint detected".toList, some node⟩

def unreachableIssue (node : Str) : ValidationIssue :=
  ⟨.error, .unreachableNode, "node is not reachable from any entrypoint".toList, some node⟩

def cycleIssue (node : Option Str) : ValidationIssue :=
  ⟨.error, .cycleDetected, "cycle detected in flow graph".toList, node⟩

variable (graph : FlowGraph)

def nodeIssues (e : Str × List Str) : List ValidationIssue :=
  (if invalidId e.1 then [invalidIssue e.1] else []) ++
    (e.2.filter (fun succ => succ = e.1)).map selfLoopIssue

def unknownTargets : List Str :=
  keysOf ((graph.entries.flatMap Prod.snd).filter (fun succ => (graph.get? succ).isNone))

def duplicatesOf : List Str → List Str → List Str
  | _, [] => []
  | seen, succ :: succs =>
    if succ ∈ seen then succ :: duplicatesOf seen succs else duplicatesOf (seen ++ [succ]) succs

def duplicateIssues : List ValidationIssue :=
  graph.entries.flatMap (fun e =>
    (LayeredGraph.sorted (keysOf (duplicatesOf [] e.2))).map (duplicateIssue e.1))

def entrypointIssues : List ValidationIssue :=
  let g := layered graph
  (if g.roots.isEmpty && !g.nodes.isEmpty then [noEntrypointIssue] else []) ++
    (g.roots.drop 1).map extraEntrypointIssue

def reachabilityIssues : List ValidationIssue :=
  let g := layered graph
  match g.roots.head? with
  | none => []
  | some root =>
    (LayeredGraph.sorted (g.nodes.filter (fun v => v ∉ g.visitedFrom root))).map unreachableIssue

def cycleIssues : List ValidationIssue :=
  let g := layered graph
  if g.processed ≠ g.nodes.length then
    let left := LayeredGraph.sorted (g.nodes.filter (fun v => g.layering.2 v > 0))
    [cycleIssue left.head?]
  else []

def allIssues : List ValidationIssue :=
  graph.entries.flatMap nodeIssues ++ (unknownTargets graph).map unknownIssue ++
    duplicateIssues graph ++ entrypointIssues graph ++ reachabilityIssues graph ++ cycleIssues graph

def IssueLevel.rank : IssueLevel → ℕ
  | .error => 0
  | .warning => 1

def ValidationIssue.key (i : ValidationIssue) : ℕ ×ₗ Str ×ₗ Str ×ₗ Str :=
  toLex (i.level.rank, toLex (i.code.text.toList, toLex (i.node.getD [], i.message)))

def validate : List ValidationIssue := StableSort.sort ValidationIssue.key (allIssues graph)

end validate

section spec

variable {graph : FlowGraph} {v : Str}

def Clean (issues : List ValidationIssue) : Prop := ∀ i ∈ issues, i.level ≠ .error

theorem clean_append {a b : List ValidationIssue} : Clean (a ++ b) ↔ Clean a ∧ Clean b := by
  simp only [Clean, List.mem_append, or_imp, forall_and]

theorem clean_flatMap {α : Type} {l : List α} {f : α → List ValidationIssue} :
    Clean (l.flatMap f) ↔ ∀ a ∈ l, Clean (f a) := by
  simp only [Clean, List.mem_flatMap]
  constructor
  · intro h a ha i hi
    exact h i ⟨a, ha, hi⟩
  · rintro h i ⟨a, ha, hi⟩
    exact h a ha i hi

theorem clean_map_error {α : Type} {l : List α} {f : α → ValidationIssue}
    (h : ∀ a, (f a).level = .error) : Clean (l.map f) ↔ l = [] := by
  cases l with
  | nil => simp [Clean]
  | cons a l => simp [Clean, h a]

theorem clean_map_warning {α : Type} {l : List α} {f : α → ValidationIssue}
    (h : ∀ a, (f a).level = .warning) : Clean (l.map f) := by
  simp [Clean, h]

theorem clean_ite {c : Prop} [Decidable c] {i : ValidationIssue} (h : i.level = .error) :
    Clean (if c then [i] else []) ↔ ¬c := by
  split_ifs with hc <;> simp [Clean, h, hc]

theorem hasErrors_validate : hasErrors (validate graph) = false ↔ Clean (allIssues graph) := by
  simp only [hasErrors, validate, Clean, List.any_eq_false, decide_eq_true_eq,
    (StableSort.sort_perm ValidationIssue.key (allIssues graph)).mem_iff]

theorem invalidId_iff {id : Str} :
    invalidId id = false ↔ id ≠ [] ∧ ∀ c ∈ id, isSpace c = false := by
  rw [invalidId]
  simp only [Bool.or_eq_false_iff, decide_eq_false_iff_not, not_not, List.isEmpty_eq_false_iff,
    List.any_eq_false, Bool.not_eq_true]
  exact ⟨fun h => ⟨h.1.1, h.2⟩, fun h => ⟨⟨h.1, strip_of_noSpace h.2⟩, h.2⟩⟩

theorem clean_nodeIssues {e : Str × List Str} :
    Clean (nodeIssues e) ↔ invalidId e.1 = false ∧ e.1 ∉ e.2 := by
  rw [nodeIssues, clean_append, clean_ite rfl, clean_map_error (fun _ => rfl), Bool.not_eq_true,
    List.filter_eq_nil_iff]
  refine and_congr_right (fun _ => ?_)
  simp only [decide_eq_true_eq]
  exact ⟨fun h hm => h e.1 hm rfl, fun h a ha he => h (he ▸ ha)⟩

theorem unknownTargets_nil : unknownTargets graph = [] ↔
    ∀ e ∈ graph.entries, ∀ target ∈ e.2, ∃ succs, graph.get? target = some succs := by
  rw [List.eq_nil_iff_forall_not_mem]
  simp only [unknownTargets, mem_keysOf, List.mem_filter, List.mem_flatMap, not_and,
    Option.isNone_iff_eq_none, forall_exists_index, and_imp, ← Option.ne_none_iff_exists',
    ne_eq]
  exact ⟨fun h e he t ht => h t e he ht, fun h t e he ht => h e he t ht⟩

theorem clean_duplicateIssues : Clean (duplicateIssues graph) :=
  clean_flatMap.mpr (fun _ _ => clean_map_warning (fun _ => rfl))

theorem clean_entrypointIssues : Clean (entrypointIssues graph) ↔
    ((layered graph).nodes ≠ [] → (layered graph).roots ≠ []) := by
  rw [entrypointIssues, clean_append, clean_ite rfl]
  have hw : Clean (((layered graph).roots.drop 1).map extraEntrypointIssue) :=
    clean_map_warning (fun _ => rfl)
  rw [and_iff_left hw]
  simp only [Bool.and_eq_true, List.isEmpty_iff, Bool.not_eq_true', List.isEmpty_eq_false_iff]
  tauto

theorem clean_reachabilityIssues : Clean (reachabilityIssues graph) ↔
    ∀ root, (layered graph).roots.head? = some root →
      ∀ v ∈ (layered graph).nodes, Relation.ReflTransGen (Edge graph) root v := by
  rw [reachabilityIssues]
  cases hr : (layered graph).roots.head? with
  | none => simp [Clean]
  | some root =>
    simp only [Option.some.injEq]
    rw [clean_map_error (fun _ => rfl), ← List.length_eq_zero_iff, LayeredGraph.sorted,
      (List.perm_insertionSort _ _).length_eq, List.length_eq_zero_iff, List.filter_eq_nil_iff]
    simp only [decide_eq_true_eq, not_not, LayeredGraph.mem_visitedFrom, layered_edge]
    exact ⟨fun h r hr v hv => hr ▸ h v hv, fun h v hv => h root rfl v hv⟩

theorem clean_cycleIssues : Clean (cycleIssues graph) ↔ ¬LayeredGraph.Cyclic (Edge graph) := by
  rw [cycleIssues, clean_ite rfl, not_not, LayeredGraph.processed_eq_iff, layered_edge]

theorem mem_cycleIssues : (∃ i ∈ cycleIssues graph, i.code = .cycleDetected) ↔
    LayeredGraph.Cyclic (Edge graph) := by
  rw [cycleIssues, ← layered_edge, ← not_iff_not, ← LayeredGraph.processed_eq_iff]
  split_ifs with h
  · exact iff_of_false (by simp [cycleIssue]) h
  · exact iff_of_true (by simp) (not_not.mp h)

theorem mem_validate : (∃ i ∈ validate graph, i.code = .cycleDetected) ↔
    LayeredGraph.Cyclic (Edge graph) := by
  have hnode : ∀ i ∈ graph.entries.flatMap nodeIssues, i.code ≠ .cycleDetected := by
    intro i hi
    obtain ⟨e, -, hi⟩ := List.mem_flatMap.mp hi
    rcases List.mem_append.mp hi with hi | hi
    · split_ifs at hi
      · rw [List.mem_singleton.mp hi]
        exact IssueCode.noConfusion
      · cases hi
    · obtain ⟨t, -, rfl⟩ := List.mem_map.mp hi
      exact IssueCode.noConfusion
  have hunknown : ∀ i ∈ (unknownTargets graph).map unknownIssue, i.code ≠ .cycleDetected := by
    simp [unknownIssue]
  have hdup : ∀ i ∈ duplicateIssues graph, i.code ≠ .cycleDetected := by
    simp only [duplicateIssues, List.mem_flatMap, List.mem_map]
    rintro i ⟨e, -, t, -, rfl⟩
    exact IssueCode.noConfusion
  have hentry : ∀ i ∈ entrypointIssues graph, i.code ≠ .cycleDetected := by
    intro i hi
    rcases List.mem_append.mp hi with hi | hi
    · split_ifs at hi
      · rw [List.mem_singleton.mp hi]
        exact IssueCode.noConfusion
      · cases hi
    · obtain ⟨t, -, rfl⟩ := List.mem_map.mp hi
      exact IssueCode.noConfusion
  have hreach : ∀ i ∈ reachabilityIssues graph, i.code ≠ .cycleDetected := by
    intro i hi
    rw [reachabilityIssues] at hi
    cases hr : (layered graph).roots.head? with
    | none =>
      simp only [hr] at hi
      cases hi
    | some root =>
      simp only [hr] at hi
      obtain ⟨t, -, rfl⟩ := List.mem_map.mp hi
      exact IssueCode.noConfusion
  rw [← mem_cycleIssues]
  constructor
  · rintro ⟨i, hi, hc⟩
    refine ⟨i, ?_, hc⟩
    have hi' : i ∈ allIssues graph := (StableSort.sort_perm _ _).subset hi
    simp only [allIssues, List.mem_append] at hi'
    obtain ((((h | h) | h) | h) | h) | h := hi'
    · exact absurd hc (hnode i h)
    · exact absurd hc (hunknown i h)
    · exact absurd hc (hdup i h)
    · exact absurd hc (hentry i h)
    · exact absurd hc (hreach i h)
    · exact h
  · rintro ⟨i, hi, hc⟩
    exact ⟨i, (StableSort.sort_perm _ _).symm.subset (List.mem_append_right _ hi), hc⟩

theorem plan_error : (∃ e, plan graph = .error e) ↔ LayeredGraph.Cyclic (Edge graph) := by
  rw [plan, ← layered_edge, ← not_iff_not, ← LayeredGraph.processed_eq_iff]
  split_ifs with h
  · exact iff_of_false (fun hno => hno ⟨_, rfl⟩) h
  · refine iff_of_true ?_ (not_not.mp h)
    rintro ⟨e, he⟩
    cases he

theorem plan_ok {r : PlanResult} (h : plan graph = .ok r) :
    ¬LayeredGraph.Cyclic (Edge graph) ∧ r.layers = (layered graph).layering.1 := by
  have hacyc : ¬LayeredGraph.Cyclic (Edge graph) := by
    rw [← plan_error, h]
    rintro ⟨e, he⟩
    cases he
  refine ⟨hacyc, ?_⟩
  rw [plan] at h
  split_ifs at h
  cases h
  rfl

theorem clean_allIssues : Clean (allIssues graph) ↔
    (∀ e ∈ graph.entries, e.1 ≠ [] ∧ ∀ c ∈ e.1, isSpace c = false) ∧
    (∀ e ∈ graph.entries, ∀ target ∈ e.2, ∃ succs, graph.get? target = some succs) ∧
    ¬LayeredGraph.Cyclic (Edge graph) ∧
    ((layered graph).nodes ≠ [] → ∃ root, (layered graph).roots.head? = some root ∧
      ∀ v ∈ (layered graph).nodes, Relation.ReflTransGen (Edge graph) root v) := by
  simp only [allIssues, clean_append, clean_flatMap, clean_nodeIssues, invalidId_iff,
    clean_map_error (f := unknownIssue) (fun _ => rfl), unknownTargets_nil,
    clean_entrypointIssues, clean_reachabilityIssues, clean_cycleIssues]
  constructor
  · rintro ⟨⟨⟨⟨⟨hnode, hknown⟩, -⟩, hentry⟩, hreach⟩, hacyc⟩
    refine ⟨fun e he => (hnode e he).1, hknown, hacyc, fun hne => ?_⟩
    cases hr : (layered graph).roots with
    | nil => exact absurd hr (hentry hne)
    | cons root rest => exact ⟨root, rfl, hreach root (by rw [hr]; rfl)⟩
  · rintro ⟨hids, hknown, hacyc, hroot⟩
    refine ⟨⟨⟨⟨⟨fun e he => ⟨hids e he, fun hself => ?_⟩, hknown⟩, clean_duplicateIssues⟩, ?_⟩,
      ?_⟩, hacyc⟩
    · exact hacyc ⟨e.1, .single ⟨e.2, OrderedDict.get?_eq_some.mpr he, hself⟩⟩
    · intro hne hnil
      obtain ⟨root, hr, -⟩ := hroot hne
      rw [hnil] at hr
      cases hr
    · intro root hr v hv
      obtain ⟨root', hr', hreach⟩ := hroot (List.ne_nil_of_mem hv)
      rw [hr] at hr'
      cases hr'
      exact hreach v hv

end spec

theorem plan_and_validate (graph : FlowGraph) :
    ((∃ e, plan graph = .error e) ↔ LayeredGraph.Cyclic (Edge graph)) ∧
    (∀ r, plan graph = .ok r → r.layers.flatten.Nodup ∧
      (∀ v, v ∈ r.layers.flatten ↔ IsNode graph v) ∧ [] ∉ r.layers ∧
      ∀ k layer, r.layers[k]? = some layer →
        ∀ v, v ∈ layer ↔ IsNode graph v ∧ LayeredGraph.Ranked (Edge graph) v k) ∧
    ((∃ i ∈ validate graph, i.code = .cycleDetected) ↔ ∃ e, plan graph = .error e) ∧
    (hasErrors (validate graph) = false ↔
      (∀ v succs, graph.get? v = some succs → v ≠ [] ∧ ∀ c ∈ v, isSpace c = false) ∧
      (∀ u v, Edge graph u v → ∃ succs, graph.get? v = some succs) ∧
      ¬LayeredGraph.Cyclic (Edge graph) ∧
      ((∃ v, IsNode graph v) →
        ∃ root, IsLeast {v | IsNode graph v ∧ ∀ u, ¬Edge graph u v} root ∧
          ∀ v, IsNode graph v → Relation.ReflTransGen (Edge graph) root v)) := by
  refine ⟨plan_error, ?_, mem_validate.trans plan_error.symm, ?_⟩
  · intro r hr
    obtain ⟨hacyc, hlayers⟩ := plan_ok hr
    rw [← layered_edge] at hacyc ⊢
    have hp := LayeredGraph.layers_partition hacyc
    rw [hlayers]
    refine ⟨hp.nodup_iff.mpr (layered graph).nodup, fun v => hp.mem_iff.trans mem_nodes,
      fun hnil => LayeredGraph.layer_ne_nil hnil rfl, fun k layer hk v => ?_⟩
    rw [LayeredGraph.mem_layer hk]
    exact and_congr_left' mem_nodes
  · have hnodes : ∀ v, v ∈ (layered graph).nodes ↔ IsNode graph v := fun v => mem_nodes
    have hne : (layered graph).nodes ≠ [] ↔ ∃ v, IsNode graph v := by
      simp only [← hnodes]
      exact ⟨List.exists_mem_of_ne_nil _, fun h => h.elim (fun _ hv => List.ne_nil_of_mem hv)⟩
    rw [hasErrors_validate, clean_allIssues, hne]
    simp only [LayeredGraph.roots_head, hnodes, layered_edge]
    refine and_congr ?_ (and_congr ?_ Iff.rfl)
    · simp only [OrderedDict.get?_eq_some]
      exact ⟨fun h v succs he => h (v, succs) he, fun h e he => h e.1 e.2 he⟩
    · simp only [Edge, OrderedDict.get?_eq_some]
      constructor
      · rintro h u v ⟨succs, he, hv⟩
        exact h (u, succs) he v hv
      · intro h e he target ht
        exact h e.1 target ⟨e.2, he, ht⟩

end TraceMind.Ana
