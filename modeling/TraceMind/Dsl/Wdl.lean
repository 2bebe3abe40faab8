import TraceMind.Basic
import TraceMind.Foundation.Json

namespace TraceMind.Dsl

structure SourceSpan where
  filename : Option Str := none
  line : ℕ := 0
  column : ℕ := 0

inductive RawNode where
  | scalar (value : Str)
  | sequence (items : List RawNode)
  | mapping (entries : List (Option Str × RawNode))

structure Named where
  name : Str
  value : RawNode
  location : SourceSpan := {}

inductive WdlStep where
  | call (stepId target : Str) (args : List Named) (location : SourceSpan)
  | when (condition : Str) (steps : List WdlStep) (location : SourceSpan)

structure WdlWorkflow where
  version : Str
  name : Str
  steps : List WdlStep
  outputs : List Named
  location : SourceSpan

abbrev Compiled := Except Str

def setItem {α : Type} (k : Str) (v : α) : List (Str × α) → List (Str × α)
  | [] => [(k, v)]
  | e :: es => if e.1 = k then (k, v) :: es else e :: setItem k v es

def toDict {α : Type} (es : List (Str × α)) : List (Str × α) :=
  es.foldl (fun d e => setItem e.1 e.2 d) []

mutual

def renderRawNode : RawNode → Compiled Json
  | .scalar value => .ok (.str value)
  | .sequence items => (renderItems items).map .arr
  | .mapping entries => (renderEntries entries).map (fun es => .obj (toDict es))

def renderItems : List RawNode → Compiled (List Json)
  | [] => .ok []
  | n :: ns => do
    let v ← renderRawNode n
    let vs ← renderItems ns
    .ok (v :: vs)

def renderEntries : List (Option Str × RawNode) → Compiled (List (Str × Json))
  | [] => .ok []
  | (none, _) :: _ => .error "Mapping entry missing key in DSL structure".toList
  | (some k, n) :: es => do
    let v ← renderRawNode n
    let vs ← renderEntries es
    .ok ((k, v) :: vs)

end

def renderNamed (items : List Named) : Compiled (List (Str × Json)) :=
  (items.mapM (fun i => (renderRawNode i.value).map (fun v => (i.name, v)))).map toDict

structure Condition where
  keyFrom : Str
  caseValues : List Str

inductive Literal where
  | text (s : Str)
  | items (values : List (Option Str))
  | other

-- Python's `ast.literal_eval`, with the text of its exception.
abbrev LiteralEval := Str → Except Str Literal

def partition (sep : Str) : Str → Option (Str × Str)
  | [] => if sep.isEmpty then some ([], []) else none
  | c :: cs =>
    if startsWith sep (c :: cs) then some ([], (c :: cs).drop sep.length)
    else (partition sep cs).map (fun p => (c :: p.1, p.2))

def atLine (location : SourceSpan) : Str := " at line ".toList ++ Json.intText location.line

def texts : List (Option Str) → Compiled (List Str)
  | [] => .ok []
  | none :: _ => .error "Conditional branch values must be strings".toList
  | some v :: vs => (texts vs).map (v :: ·)

def parseLiteralList (eval : LiteralEval) (text : Str) (location : SourceSpan) :
    Compiled (List Str) :=
  match eval text with
  | .error e => .error ("Invalid literal list in condition".toList ++ atLine location ++
      ": ".toList ++ e)
  | .ok (.items values) => do
    let vs ← texts values
    if vs.isEmpty then .error "Condition list must contain at least one value".toList else .ok vs
  | .ok _ => .error ("Expected list literal in condition".toList ++ atLine location)

def parseLiteral (eval : LiteralEval) (text : Str) (location : SourceSpan) : Compiled Str :=
  match eval text with
  | .error e => .error ("Invalid literal in condition".toList ++ atLine location ++
      ": ".toList ++ e)
  | .ok (.text s) => .ok s
  | .ok _ => .error "Conditional value must be a string literal".toList

def referenceToPath (ref : Str) (location : SourceSpan) : Compiled Str :=
  if startsWith "$input.".toList ref then .ok ("$.inputs.".toList ++ ref.drop 7)
  else if startsWith "$step.".toList ref then .ok ("$.vars.".toList ++ ref.drop 6)
  else .error ("Unsupported reference '".toList ++ ref ++ "' in condition".toList ++
    atLine location)

def parseCondition (eval : LiteralEval) (text : Str) (location : SourceSpan) :
    Compiled Condition :=
  match partition " in ".toList (strip text) with
  | some (ref, remainder) => do
    let values ← parseLiteralList eval (strip remainder) location
    let keyFrom ← referenceToPath (strip ref) location
    .ok ⟨keyFrom, values⟩
  | none =>
    match partition "==".toList (strip text) with
    | some (ref, value) => do
      let keyFrom ← referenceToPath (strip ref) location
      let literal ← parseLiteral eval (strip value) location
      .ok ⟨keyFrom, [literal]⟩
    | none => .error ("Unsupported when condition '".toList ++ text ++ "'".toList ++
        atLine location)

end TraceMind.Dsl
