import TraceMind.Dsl.Execution
import TraceMind.Foundation.Fuelled

namespace TraceMind.Dsl

structure IrNode where
  id : Str
  type : Str
  params : Fields

structure IrEdge where
  src : Str
  dst : Str
  case : Option Str

structure FlowIr where
  nodes : List IrNode
  edges : List IrEdge

def kindName : StepKind → Str
  | .call _ _ => "task".toList
  | .switch _ => "switch".toList
  | .emit _ => "task".toList
  | .finish => "finish".toList

def getItem (k : Str) (fallback : Json) (d : Fields) : Json := (OrderedDict.find k d).getD fallback

def classifySwitch (config : Fields) : Str × Fields :=
  ("switch".toList,
    [("key_from".toList, getItem "key_from".toList .null config),
      ("cases".toList, getItem "cases".toList (.obj []) config),
      ("default".toList, getItem "default".toList .null config)])

def classifyCall (config : Fields) : Option (Str × Fields) :=
  match fieldsOf (OrderedDict.find "call".toList config) with
  | none => none
  | some callSpec =>
    match OrderedDict.find "target".toList callSpec with
    | some (.str (c :: cs)) =>
      some (c :: cs, (fieldsOf (OrderedDict.find "args".toList callSpec)).getD [])
    | _ => none

def classifyOutputs (config : Fields) : Option (Str × Fields) :=
  (fieldsOf (OrderedDict.find "outputs".toList config)).map (fun outputs =>
    ("dsl.emit".toList, outputs))

def classifyNode (kind : Str) (config : Fields) : Str × Fields :=
  if kind = "switch".toList then classifySwitch config
  else ((classifyCall config).or (classifyOutputs config)).getD
    (if kind.isEmpty then "task".toList else kind, config)

def buildNode (f : FlowCompilation) (s : FlowStep) : Except Str IrNode :=
  if s.id.isEmpty then .error "Step missing id".toList
  else .ok { id := s.id, type := (classifyNode (kindName s.kind) (f.configOf s)).1
             params := (classifyNode (kindName s.kind) (f.configOf s)).2 }

def buildEdge (e : FlowEdge) : IrEdge := { src := e.src, dst := e.dst, case := e.label }

def buildFlowIr (f : FlowCompilation) : Except Str FlowIr := do
  let nodes ← f.steps.mapM (buildNode f)
  .ok { nodes, edges := f.edges.map buildEdge }

section runner

variable {W : Type}

def switchContext (params : Fields) : Fields :=
  [("cases".toList, getItem "cases".toList (.obj []) params),
    ("default".toList, getItem "default".toList .null params)]

def contextConfig (type : Str) (params : Fields) : Fields :=
  if type = "switch".toList then switchContext params
  else if type = "dsl.emit".toList then emitConfig params
  else callConfig type params

def buildPythonContext (node : IrNode) : StepContext where
  step := node.id
  kind := some node.type
  config := contextConfig node.type node.params

def engineStep (E : Calls W) (ctx : StepContext) (x : Fields × W) :
    Except Str (Option Invocation × Fields × W) :=
  match resolveStepType ctx with
  | .switch => .ok (none, switch ctx x.1, x.2)
  | .emit => (emitOutputs E.literal ctx x.1).map (fun state => (none, state, x.2))
  | .call => (invoke E ctx x).map (fun r => (some r.1, r.2))

def successor (edges : List IrEdge) (id : Str) : Option Str :=
  (edges.find? (fun e => e.src = id)).map IrEdge.dst

def entryCandidates (ir : FlowIr) : List Str :=
  (ir.nodes.map IrNode.id).filter
    (fun n => ir.edges.all (fun e => decide (successor ir.edges e.src ≠ some n)))

def findEntryNode (ir : FlowIr) : Option Str := (entryCandidates ir).head?

structure IrRun (W : Type) where
  executed : List Str
  invocations : List Invocation
  state : Fields
  world : W

def IrRun.after (r : IrRun W) (id : Str) (y : Option Invocation × Fields × W) : IrRun W where
  executed := r.executed ++ [id]
  invocations := r.invocations ++ y.1.toList
  state := y.2.1
  world := y.2.2

def runNodes (E : Calls W) (ir : FlowIr) : ℕ → Str → IrRun W → Fuelled Str (IrRun W)
  | 0, _, _ => .out
  | fuel + 1, current, r =>
    if current ∈ r.executed then .fail ("Cycle detected at node '".toList ++ current ++ "'".toList)
    else
      match ir.nodes.find? (fun n => n.id = current) with
      | none => .fail current
      | some node =>
        match engineStep E (buildPythonContext node) (r.state, r.world) with
        | .error e => .fail e
        | .ok y =>
          match successor ir.edges current with
          | none => .ret (r.after current y)
          | some next => runNodes E ir fuel next (r.after current y)

def runWithPythonEngine (E : Calls W) (ir : FlowIr) (inputs : Fields) (world : W) :
    Fuelled Str (IrRun W) :=
  if ir.nodes.isEmpty then .fail "IR contains no executable nodes".toList
  else
    match findEntryNode ir with
    | none => .ret ⟨[], [], inputs, world⟩
    | some entry => runNodes E ir (ir.nodes.length + 1) entry ⟨[], [], inputs, world⟩

end runner

end TraceMind.Dsl
