import TraceMind.Dsl.Wdl
import TraceMind.Foundation.OrderedDict

namespace TraceMind.Dsl

inductive StepKind where
  | call (target : Str) (args : List (Str × Json))
  | switch (keyFrom : Str)
  | emit (outputs : List (Str × Json))
  | finish

def StepKind.isSwitch : StepKind → Bool
  | .switch _ => true
  | _ => false

def StepKind.isFinish : StepKind → Bool
  | .finish => true
  | _ => false

structure FlowStep where
  id : Str
  kind : StepKind
  location : SourceSpan

structure FlowEdge where
  src : Str
  dst : Str
  label : Option Str := none
deriving DecidableEq

structure ExitEdge where
  src : Str
  label : Option Str := none
deriving DecidableEq

structure SequenceGraph where
  entry : Str
  exits : List ExitEdge

def defaultCase : Str := "_DEFAULT".toList

structure Builder where
  steps : List FlowStep := []
  cases : Str → List (Str × Str) := fun _ => []
  edges : List FlowEdge := []
  counter : ℕ := 0
  entry : Option Str := none

structure FlowCompilation where
  flowId : Str
  version : Str
  entry : Str
  steps : List FlowStep
  cases : Str → List (Str × Str)
  edges : List FlowEdge

namespace Builder

def ids (b : Builder) : List Str := b.steps.map FlowStep.id

def setCases (b : Builder) (id : Str) (cases : List (Str × Str)) : Builder :=
  { b with cases := fun j => if j = id then cases else b.cases j }

def addStep (b : Builder) (s : FlowStep) : Compiled Builder :=
  if s.id ∈ b.ids then
    .error ("Duplicate step id '".toList ++ s.id ++ "' generated during compilation".toList)
  else .ok { b with steps := b.steps ++ [s], entry := b.entry.orElse (fun _ => some s.id) }

def isSwitch (b : Builder) (id : Str) : Bool :=
  b.steps.any (fun s => s.id = id && s.kind.isSwitch)

def noteCase (b : Builder) (src dst v : Str) : Builder :=
  if b.isSwitch src ∧ v ∉ (b.cases src).map Prod.fst then
    b.setCases src (b.cases src ++ [(v, dst)])
  else b

def noteLabel (b : Builder) (src dst : Str) : Option Str → Builder
  | none => b
  | some v => b.noteCase src dst v

def addEdge (b : Builder) (src dst : Str) (label : Option Str) : Builder :=
  { b.noteLabel src dst label with edges := b.edges ++ [⟨src, dst, label⟩] }

def linkSegments (b : Builder) (exits : List ExitEdge) (entry : Str) : Builder :=
  exits.foldl (fun b e => b.addEdge e.src entry e.label) b

end Builder

def candidate (p : Str) (n : ℕ) : Str := p ++ '_' :: Json.intText n

def firstFree (ids : List Str) (p : Str) : ℕ → ℕ → ℕ
  | 0, n => n
  | fuel + 1, n => if candidate p n ∈ ids then firstFree ids p fuel (n + 1) else n

def Builder.free (b : Builder) (p : Str) : ℕ := firstFree b.ids p b.ids.length b.counter

def Builder.uniqueStepId (b : Builder) (p : Str) : Str × Builder :=
  (candidate p (b.free p), { b with counter := b.free p + 1 })

def compileCall (id target : Str) (args : List Named) (location : SourceSpan) (b : Builder) :
    Compiled (SequenceGraph × Builder) :=
  if id ∈ b.ids then .error ("Duplicate step id '".toList ++ id ++ "' in workflow".toList)
  else do
    let rendered ← renderNamed args
    let b ← b.addStep ⟨id, .call target rendered, location⟩
    .ok (⟨id, [⟨id, none⟩]⟩, b)

def addCase (switchId entry : Str) (b : Builder) (v : Str) : Builder :=
  (b.setCases switchId (setItem v entry (b.cases switchId))).addEdge switchId entry (some v)

def closeWhen (switchId : Str) (c : Condition) (nested : SequenceGraph) (b : Builder) :
    SequenceGraph × Builder :=
  (⟨switchId, nested.exits ++ [⟨switchId, some defaultCase⟩]⟩,
    c.caseValues.foldl (addCase switchId nested.entry) b)

def sequenceGraph (entry : Option Str) (exits : List ExitEdge) : Compiled SequenceGraph :=
  match entry with
  | none => .error "Empty step sequence encountered during compilation".toList
  | some e => .ok ⟨e, exits⟩

mutual

def compileStep (eval : LiteralEval) : WdlStep → Builder → Compiled (SequenceGraph × Builder)
  | .call id target args location, b => compileCall id target args location b
  | .when condition steps location, b => do
    let c ← parseCondition eval condition location
    let switchId := (b.uniqueStepId "when".toList).1
    let b ← (b.uniqueStepId "when".toList).2.addStep ⟨switchId, .switch c.keyFrom, location⟩
    let r ← compileLoop eval steps none [] b
    let nested ← sequenceGraph r.1 r.2.1
    .ok (closeWhen switchId c nested r.2.2)

def compileLoop (eval : LiteralEval) : List WdlStep → Option Str → List ExitEdge → Builder →
    Compiled (Option Str × List ExitEdge × Builder)
  | [], entry, exits, b => .ok (entry, exits, b)
  | s :: ss, entry, exits, b => do
    let r ← compileStep eval s b
    let b := if exits.isEmpty then r.2 else r.2.linkSegments exits r.1.entry
    compileLoop eval ss (entry.orElse (fun _ => some r.1.entry)) r.1.exits b

end

def compileSequence (eval : LiteralEval) (steps : List WdlStep) (b : Builder) :
    Compiled (SequenceGraph × Builder) := do
  let r ← compileLoop eval steps none [] b
  let g ← sequenceGraph r.1 r.2.1
  .ok (g, r.2.2)

def addOutputsStep (w : WdlWorkflow) (b : Builder) : Compiled (Str × Builder) := do
  let id := (b.uniqueStepId "emit".toList).1
  let rendered ← renderNamed w.outputs
  let location := (w.outputs.head?.map Named.location).getD w.location
  let b ← (b.uniqueStepId "emit".toList).2.addStep ⟨id, .emit rendered, location⟩
  .ok (id, b)

def addFinishStep (w : WdlWorkflow) (b : Builder) : Compiled (Str × Builder) := do
  let id := (b.uniqueStepId "finish".toList).1
  let b ← (b.uniqueStepId "finish".toList).2.addStep ⟨id, .finish, w.location⟩
  .ok (id, b)

def compileWorkflow (eval : LiteralEval) (w : WdlWorkflow) : Compiled FlowCompilation :=
  if w.steps.isEmpty then .error "Workflow must contain at least one step".toList
  else do
    let main ← compileSequence eval w.steps {}
    let outputs ← addOutputsStep w main.2
    let linked := outputs.2.linkSegments main.1.exits outputs.1
    let finish ← addFinishStep w linked
    let b := finish.2.linkSegments [⟨outputs.1, none⟩] finish.1
    .ok { flowId := w.name, version := w.version, entry := b.entry.getD outputs.1
          steps := b.steps, cases := b.cases, edges := b.edges }

def FlowCompilation.outgoing (f : FlowCompilation) (id : Str) : List FlowEdge :=
  f.edges.filter (fun e => e.src = id)

def FlowCompilation.next (f : FlowCompilation) (σ : Str → Str) (s : FlowStep) : Option Str :=
  match s.kind with
  | .switch keyFrom =>
    match OrderedDict.find (σ keyFrom) (f.cases s.id) with
    | some dst => some dst
    | none => ((f.outgoing s.id).find? (fun e => e.label = some defaultCase)).map FlowEdge.dst
  | _ => (f.outgoing s.id).head?.map FlowEdge.dst

def FlowStep.visit (s : FlowStep) : List Str :=
  match s.kind with
  | .call _ _ => [s.id]
  | _ => []

def FlowCompilation.follow (f : FlowCompilation) (σ : Str → Str) : ℕ → Str → Option (List Str)
  | 0, _ => none
  | fuel + 1, id =>
    match f.steps.find? (fun s => s.id = id) with
    | none => none
    | some s =>
      if s.kind.isFinish then some []
      else (f.next σ s).bind (fun dst => (f.follow σ fuel dst).map (fun p => s.visit ++ p))

def FlowCompilation.visited (f : FlowCompilation) (σ : Str → Str) : Option (List Str) :=
  f.follow σ f.steps.length f.entry

mutual

def callsOf (eval : LiteralEval) (σ : Str → Str) : WdlStep → List Str
  | .call id _ _ _ => [id]
  | .when condition steps location =>
    match parseCondition eval condition location with
    | .error _ => []
    | .ok c => if σ c.keyFrom ∈ c.caseValues then callsOfAll eval σ steps else []

def callsOfAll (eval : LiteralEval) (σ : Str → Str) : List WdlStep → List Str
  | [] => []
  | s :: ss => callsOf eval σ s ++ callsOfAll eval σ ss

end

def taken (σ : Str → Str) (c : Condition) : Bool :=
  decide (σ c.keyFrom ∈ c.caseValues) || decide (defaultCase ∈ c.caseValues)

mutual

def reaches (eval : LiteralEval) (σ : Str → Str) : WdlStep → Bool
  | .call _ _ _ _ => true
  | .when condition steps location =>
    match parseCondition eval condition location with
    | .error _ => false
    | .ok c => taken σ c && reachesAny eval σ steps

def reachesAny (eval : LiteralEval) (σ : Str → Str) : List WdlStep → Bool
  | [] => false
  | s :: ss => reaches eval σ s || reachesAny eval σ ss

end

mutual

def strays (eval : LiteralEval) (σ : Str → Str) : WdlStep → Bool
  | .call _ _ _ _ => false
  | .when condition steps location =>
    match parseCondition eval condition location with
    | .error _ => false
    | .ok c =>
      if σ c.keyFrom ∈ c.caseValues then straysAny eval σ steps
      else decide (defaultCase ∈ c.caseValues) && reachesAny eval σ steps

def straysAny (eval : LiteralEval) (σ : Str → Str) : List WdlStep → Bool
  | [] => false
  | s :: ss => strays eval σ s || straysAny eval σ ss

end

end TraceMind.Dsl
