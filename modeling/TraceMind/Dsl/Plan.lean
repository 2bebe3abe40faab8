import TraceMind.Dsl.Acceptance

namespace TraceMind.Dsl

inductive NodeType where
  | call
  | condition
deriving DecidableEq

structure PlanNode where
  id : Str
  type : NodeType
  label : Str
  target : Option Str
  location : SourceSpan

structure PlanEdge where
  source : Str
  target : Str
  label : Option Str := none
deriving DecidableEq

structure WorkflowPlan where
  name : Str
  version : Str
  entry : Option Str
  nodes : List PlanNode
  edges : List PlanEdge

structure Planner where
  nodes : List PlanNode := []
  edges : List PlanEdge := []
  whenCounter : ℕ := 0
  entry : Option Str := none
  truePending : Str → Option Str := fun _ => none
  falsePending : Str → Option Str := fun _ => none

namespace Planner

def ids (p : Planner) : List Str := p.nodes.map PlanNode.id

def setNode (p : Planner) (n : PlanNode) : Planner :=
  if n.id ∈ p.ids then p else { p with nodes := p.nodes ++ [n] }

def setEntry (p : Planner) (id : Str) : Planner :=
  { p with entry := p.entry.orElse (fun _ => some id) }

def setTrue (p : Planner) (id : Str) (label : Option Str) : Planner :=
  { p with truePending := Function.update p.truePending id label }

def setFalse (p : Planner) (id : Str) (label : Option Str) : Planner :=
  { p with falsePending := Function.update p.falsePending id label }

def pending (p : Planner) (src : Str) : Option Str := (p.truePending src).or (p.falsePending src)

def pop (p : Planner) (src : Str) : Planner :=
  match p.truePending src with
  | some _ => p.setTrue src none
  | none => p.setFalse src none

def connectOne (target : Str) (p : Planner) (src : Str) : Planner :=
  { p.pop src with edges := p.edges ++ [⟨src, target, p.pending src⟩] }

def connect (p : Planner) (sources : List Str) (target : Str) : Planner :=
  if sources.isEmpty then p.setEntry target else sources.foldl (connectOne target) p

def nextConditionId (p : Planner) : Str × Planner :=
  (whenName p.whenCounter, { p with whenCounter := p.whenCounter + 1 })

def processCall (id target : Str) (location : SourceSpan) (exits : List Str) (p : Planner) :
    List Str × Planner :=
  ([id], (((p.setNode ⟨id, .call, id, some target, location⟩).connect exits id).setEntry id))

end Planner

def trueLabel (label : Str) : Str := "if ".toList ++ label

def falseLabel (label : Str) : Str := "else not(".toList ++ label ++ [')']

namespace Planner

def openWhen (id condition : Str) (location : SourceSpan) (exits : List Str) (p : Planner) :
    Planner :=
  let label := strip condition
  let p := (p.setNode ⟨id, .condition, label, none, location⟩).connect exits id
  let p := if exits.isEmpty then p.setEntry id else p
  (p.setTrue id (some (trueLabel label))).setFalse id (some (falseLabel label))

end Planner

mutual

def processStep : WdlStep → List Str → Planner → List Str × Planner
  | .call id target _ location, exits, p => p.processCall id target location exits
  | .when condition steps location, exits, p =>
    let id := p.nextConditionId.1
    let r := processSequence steps [id] (p.nextConditionId.2.openWhen id condition location exits)
    (id :: r.1, r.2.setTrue id none)

def processSequence : List WdlStep → List Str → Planner → List Str × Planner
  | [], exits, p => (exits, p)
  | s :: ss, exits, p =>
    let r := processStep s exits p
    processSequence ss r.1 r.2

end

def buildWorkflowPlan (w : WdlWorkflow) : WorkflowPlan :=
  let p := (processSequence w.steps [] {}).2
  { name := w.name, version := w.version, entry := p.entry, nodes := p.nodes, edges := p.edges }

inductive Branch where
  | plain
  | yes
  | no
deriving DecidableEq

inductive UserNode where
  | call (target : Str)
  | condition
deriving DecidableEq

structure UserGraph where
  entry : Option Str
  nodes : List (Str × UserNode)
  edges : List (Str × Str × Branch)

def StepKind.userNode : StepKind → Option UserNode
  | .call target _ => some (.call target)
  | .switch _ => some .condition
  | .emit _ => none
  | .finish => none

def flowBranch : Option Str → Branch
  | none => .plain
  | some v => if v = defaultCase then .no else .yes

def FlowCompilation.userNodes (f : FlowCompilation) : List (Str × UserNode) :=
  f.steps.filterMap (fun s => s.kind.userNode.map (fun k => (s.id, k)))

def FlowCompilation.userGraph (f : FlowCompilation) : UserGraph where
  entry := some f.entry
  nodes := f.userNodes
  edges := (f.edges.filter (fun e => e.dst ∈ f.userNodes.map Prod.fst)).map
    (fun e => (e.src, e.dst, flowBranch e.label))

def PlanNode.userNode (n : PlanNode) : UserNode :=
  match n.target with
  | some target => .call target
  | none => .condition

def planBranch : Option Str → Branch
  | none => .plain
  | some l => if startsWith "if ".toList l then .yes else .no

def WorkflowPlan.userGraph (p : WorkflowPlan) : UserGraph where
  entry := p.entry
  nodes := p.nodes.map (fun n => (n.id, n.userNode))
  edges := p.edges.map (fun e => (e.source, e.target, planBranch e.label))

def SameGraph (g h : UserGraph) : Prop :=
  g.entry = h.entry ∧ g.nodes = h.nodes ∧ ∀ e, e ∈ g.edges ↔ e ∈ h.edges

mutual

def planExitsOf : Block → List ExitEdge
  | .call id _ => [⟨id, none⟩]
  | .when id label _ body =>
    ⟨id, some (falseLabel label)⟩ :: planExitsAll [⟨id, some (trueLabel label)⟩] body

def planExitsAll : List ExitEdge → List Block → List ExitEdge
  | exits, [] => exits
  | _, b :: bs => planExitsAll (planExitsOf b) bs

end

mutual

def planEdgesOf : Block → List FlowEdge
  | .call _ _ => []
  | .when id label _ body => planEdgesAll [⟨id, some (trueLabel label)⟩] body

def planEdgesAll : List ExitEdge → List Block → List FlowEdge
  | _, [] => []
  | exits, b :: bs => links exits b.id ++ planEdgesOf b ++ planEdgesAll (planExitsOf b) bs

end

mutual

def planOwnedOf : Block → Str → List FlowEdge
  | .call id _, t => [⟨id, t, none⟩]
  | .when id label _ body, t =>
    ⟨id, entryOf body t, some (trueLabel label)⟩ :: ⟨id, t, some (falseLabel label)⟩ ::
      planOwnedAll body t

def planOwnedAll : List Block → Str → List FlowEdge
  | [], _ => []
  | b :: bs, t => planOwnedOf b (entryOf bs t) ++ planOwnedAll bs t

end

mutual

theorem planEdgesOf_perm : ∀ (b : Block) (t : Str),
    List.Perm (planEdgesOf b ++ links (planExitsOf b) t) (planOwnedOf b t)
  | .call id target, t => List.Perm.refl _
  | .when id label c body, t => by
    have hbody := planEdgesAll_perm [⟨id, some (trueLabel label)⟩] body t
    rw [planEdgesOf, planExitsOf, planOwnedOf, links, List.map_cons]
    exact List.perm_middle.trans ((hbody.cons _).trans (List.Perm.swap ..))

theorem planEdgesAll_perm : ∀ (exits : List ExitEdge) (bs : List Block) (t : Str),
    List.Perm (planEdgesAll exits bs ++ links (planExitsAll exits bs) t)
      (links exits (entryOf bs t) ++ planOwnedAll bs t)
  | exits, [], t => by
    rw [planEdgesAll, planExitsAll, planOwnedAll, List.append_nil]
    exact List.Perm.refl _
  | exits, b :: bs, t => by
    have hfirst := planEdgesOf_perm b (entryOf bs t)
    have hrest := planEdgesAll_perm (planExitsOf b) bs t
    rw [planEdgesAll, planExitsAll, planOwnedAll, List.append_assoc, List.append_assoc]
    refine List.Perm.append_left (links exits b.id) ?_
    refine (hrest.append_left _).trans ?_
    rw [← List.append_assoc]
    exact hfirst.append_right _

end

mutual

theorem planExitsOf_src : ∀ (b : Block), ∀ e ∈ planExitsOf b, e.src ∈ namesOf b
  | .call id target => by simp [planExitsOf]
  | .when id label c body => by
    intro e he
    rw [planExitsOf] at he
    rw [namesOf_when, List.mem_cons]
    rcases List.mem_cons.mp he with rfl | he
    · exact Or.inl rfl
    · rcases planExitsAll_src [⟨id, some (trueLabel label)⟩] body e he with h | h
      · rw [List.mem_singleton.mp h]
        exact Or.inl rfl
      · exact Or.inr h

theorem planExitsAll_src : ∀ (exits : List ExitEdge) (bs : List Block),
    ∀ e ∈ planExitsAll exits bs, e ∈ exits ∨ e.src ∈ namesAll bs
  | exits, [] => fun e he => Or.inl he
  | exits, b :: bs => by
    intro e he
    rw [planExitsAll] at he
    rw [namesAll_cons, List.mem_append]
    rcases planExitsAll_src (planExitsOf b) bs e he with h | h
    · exact Or.inr (Or.inl (planExitsOf_src b e h))
    · exact Or.inr (Or.inr h)

end

end TraceMind.Dsl
