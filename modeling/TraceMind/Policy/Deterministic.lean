import TraceMind.Artifacts.Hash
import TraceMind.Queue.Envelope
import TraceMind.Foundation.Compare
import Mathlib.Data.Char
import Mathlib.Data.List.Lex

namespace TraceMind.Policy

open Artifacts
open Queue (Document Error PyFloat PyText pyInt typeName)

mutual

def sortKeys : Json → Json
  | .arr vs => .arr (sortKeysItems vs)
  | .obj fs => .obj (sortFields (sortKeysFields fs))
  | v => v

def sortKeysItems : List Json → List Json
  | [] => []
  | v :: vs => sortKeys v :: sortKeysItems vs

def sortKeysFields : List (Str × Json) → List (Str × Json)
  | [] => []
  | (k, v) :: fs => (k, sortKeys v) :: sortKeysFields fs

end

def canonicalJson (v : Json) : Str := canonicalStyle.render (sortKeys v)

inductive CompareOp where
  | eq
  | ne
  | gt
  | ge
  | lt
  | le

namespace CompareOp

def text : CompareOp → String
  | .eq => "=="
  | .ne => "!="
  | .gt => ">"
  | .ge => ">="
  | .lt => "<"
  | .le => "<="

def all : List CompareOp := [.eq, .ne, .gt, .ge, .lt, .le]

def ofText (s : Str) : Option CompareOp := all.find? (fun op => op.text.toList = s)

def holds (op : CompareOp) (o : Option Ordering) : Bool :=
  match op, o with
  | .eq, some .eq | .ge, some .eq | .le, some .eq => true
  | .gt, some .gt | .ge, some .gt => true
  | .lt, some .lt | .le, some .lt => true
  | .ne, some .eq => false
  | .ne, _ => true
  | _, _ => false

end CompareOp

def getPath : Json → List Str → Json
  | current, [] => current
  | .obj fs, part :: parts =>
    match fs.lookup part with
    | none => .null
    | some v => getPath v parts
  | _, _ :: _ => .null

def resolveValue (env : Json) : Json → Json
  | .obj [(k, .str path)] =>
    if k = "var".toList then getPath env (path.splitOn '.') else .obj [(k, .str path)]
  | v => v

def isNumber : Json → Bool
  | .int _ | .float _ | .nan | .infinity _ => true
  | _ => false

def typesCompatible (left right : Json) : Bool :=
  match left, right with
  | .bool _, .bool _ | .str _, .str _ | .arr _, .arr _ | .obj _, .obj _ => true
  | _, _ => isNumber left && isNumber right

def unsupported (op : CompareOp) (a b : Json) : Error :=
  .typeError ("'" ++ op.text ++ "' not supported between instances of '" ++ typeName a ++ "' and '" ++
    typeName b ++ "'")

def floatValue (float : PyFloat) (t : Str) : Option ℚ := float (.float t)

def compareValues (float : PyFloat) (op : CompareOp) (left right : Json) : Except Error Bool :=
  if !typesCompatible left right then .ok false
  else
    match op with
    | .eq => .ok (Python.pyEq (floatValue float) left right)
    | .ne => .ok (!Python.pyEq (floatValue float) left right)
    | op =>
      match Python.pyOrder (floatValue float) left right with
      | .ok o => .ok (op.holds o)
      | .error (a, b) => .error (unsupported op a b)

def compareOperands (float : PyFloat) (env : Json) (op : CompareOp) : Json → Except Error Bool
  | .arr [a, b] => compareValues float op (resolveValue env a) (resolveValue env b)
  | _ => .ok false

mutual

def evaluateCondition (float : PyFloat) (env : Json) : Json → Except Error Bool
  | .obj fs => evaluateFields float env fs
  | _ => .ok false

def evaluateFields (float : PyFloat) (env : Json) : List (Str × Json) → Except Error Bool
  | [(op, value)] =>
    if op = "all".toList then evaluateAll float env value
    else if op = "any".toList then evaluateAny float env value
    else if op = "not".toList then (evaluateCondition float env value).map (fun b => !b)
    else
      match CompareOp.ofText op with
      | some op => compareOperands float env op value
      | none => .ok false
  | _ => .ok false

def evaluateAll (float : PyFloat) (env : Json) : Json → Except Error Bool
  | .arr vs => allItems float env vs
  | _ => .ok false

def evaluateAny (float : PyFloat) (env : Json) : Json → Except Error Bool
  | .arr vs => anyItem float env vs
  | _ => .ok false

def allItems (float : PyFloat) (env : Json) : List Json → Except Error Bool
  | [] => .ok true
  | v :: vs => do
    if ← evaluateCondition float env v then allItems float env vs else return false

def anyItem (float : PyFloat) (env : Json) : List Json → Except Error Bool
  | [] => .ok false
  | v :: vs => do
    if ← evaluateCondition float env v then return true else anyItem float env vs

end

structure Rule where
  ruleId : Str
  priority : ℤ
  when : Json
  actions : List (List (Str × Json))

def mappings (vs : List Json) : List (List (Str × Json)) :=
  vs.filterMap (fun v =>
    match v with
    | .obj fs => some fs
    | _ => none)

def normalizeActions (then_ : Option Json) : List (List (Str × Json)) :=
  match then_ with
  | some (.obj fs) =>
    match fs.lookup "actions".toList with
    | some (.arr vs) => mappings vs
    | some (.str _) => []
    | _ => [fs]
  | some (.arr vs) => mappings vs
  | _ => []

def priorityOf (float : PyFloat) (v : Json) : Except Error ℤ :=
  match pyInt float v with
  | .ok n => .ok n
  | .error (.overflowError m) => .error (.overflowError m)
  | .error _ => .ok 0

def ruleOf (py : PyText) (float : PyFloat) (raw : Json) : Except Error (Option Rule) :=
  match raw with
  | .obj fs =>
    let ruleId := ((fs.lookup "id".toList).map py.str).getD []
    if ruleId.isEmpty then .ok none
    else
      (priorityOf float ((fs.lookup "priority".toList).getD (.int 0))).map (fun priority =>
        match fs.lookup "when".toList with
        | some (.obj w) =>
          some { ruleId, priority, when := .obj w
                 actions := normalizeActions (fs.lookup "then".toList) }
        | _ => none)
  | _ => .ok none

def Rule.key (r : Rule) : ℤ ×ₗ Str := toLex (-r.priority, r.ruleId)

def normalizeRules (py : PyText) (float : PyFloat) (rules : Option Json) :
    Except Error (List Rule) :=
  match rules with
  | some (.arr raws) =>
    (raws.mapM (ruleOf py float)).map (fun rs => StableSort.sort Rule.key (rs.filterMap id))
  | _ => .ok []

inductive Action where
  | set (actuator value : Json)
  | emitEvent (event payload : Json)
  | other (actionType : Str)

def orNone (fs : List (Str × Json)) (key : String) : Json := (fs.lookup key.toList).getD .null

def normalizeAction (py : PyText) (action : List (Str × Json)) : Action :=
  let actionType := ((action.lookup "type".toList).map py.str).getD []
  if actionType = "set".toList then .set (orNone action "actuator") (orNone action "value")
  else if actionType = "emit_event".toList then
    .emitEvent (orNone action "event") (orNone action "payload")
  else .other actionType

structure Entry where
  ruleId : Str
  action : Action
  applied : Bool

structure ActionLog where
  actions : List Entry := []
  finalPatch : OrderedDict Str Json := OrderedDict.empty

namespace ActionLog

def append (log : ActionLog) (e : Entry) : ActionLog := { log with actions := log.actions ++ [e] }

def add (log : ActionLog) (ruleId : Str) (action : Action) : ActionLog :=
  match action with
  | .set (.str actuator) value =>
    if (log.finalPatch.get? actuator).isSome then log.append ⟨ruleId, action, false⟩
    else
      { log.append ⟨ruleId, action, true⟩ with
        finalPatch := log.finalPatch.store actuator value }
  | .set _ _ => log.append ⟨ruleId, action, false⟩
  | _ => log.append ⟨ruleId, action, true⟩

def addRule (py : PyText) (log : ActionLog) (r : Rule) : ActionLog :=
  r.actions.foldl (fun log raw => log.add r.ruleId (normalizeAction py raw)) log

end ActionLog

def envOf (obs state : Document) : Json :=
  .obj [("obs".toList, obs.json), ("state".toList, state.json)]

def evaluateRules (py : PyText) (float : PyFloat) (env : Json) :
    List Rule → ActionLog → Except Error ActionLog
  | [], log => .ok log
  | r :: rs, log => do
    if ← evaluateCondition float env r.when then evaluateRules py float env rs (log.addRule py r)
    else evaluateRules py float env rs log

def evaluate (py : PyText) (float : PyFloat) (rules : Option Json) (obs state : Document) :
    Except Error ActionLog := do
  let rs ← normalizeRules py float rules
  evaluateRules py float (envOf obs state) rs {}

def Action.json : Action → Json
  | .set actuator value =>
    .obj [("type".toList, .str "set".toList), ("actuator".toList, actuator), ("value".toList, value)]
  | .emitEvent event payload =>
    .obj [("type".toList, .str "emit_event".toList), ("event".toList, event),
      ("payload".toList, payload)]
  | .other actionType => .obj [("type".toList, .str actionType)]

def Entry.json (e : Entry) : Json :=
  .obj [("rule_id".toList, .str e.ruleId), ("action".toList, e.action.json),
    ("applied".toList, .bool e.applied)]

def ActionLog.json (log : ActionLog) : Json :=
  .obj [("actions".toList, .arr (log.actions.map Entry.json)),
    ("final_patch".toList, .obj log.finalPatch.entries)]

def ActionLog.bytes (log : ActionLog) : Str := canonicalJson log.json

end TraceMind.Policy
