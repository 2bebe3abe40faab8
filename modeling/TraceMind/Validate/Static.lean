import Mathlib.Algebra.Order.Field.Basic
import Mathlib.Data.Rat.Cast.Order
import TraceMind.Artifacts.Hash
import TraceMind.Artifacts.Models
import TraceMind.Foundation.BoundedRange
import TraceMind.Foundation.LockTable

namespace TraceMind.Validate

open Artifacts (JsonFields sortTexts)
open Queue (PyText)

abbrev Extended := WithBot (WithTop ℚ)

-- Python's floats, with the values that are no number.
inductive Number where
  | nan
  | real (e : Extended)
deriving DecidableEq

def Number.fin (q : ℚ) : Number := .real ((q : WithTop ℚ) : Extended)

def Number.inf : Number := .real ((⊤ : WithTop ℚ) : Extended)

def Number.negInf : Number := .real ⊥

def Number.lt : Number → Number → Bool
  | .real a, .real b => decide (a < b)
  | _, _ => false

def Number.eq : Number → Number → Bool
  | .real a, .real b => decide (a = b)
  | _, _ => false

-- `float(text)`; `none` is a `ValueError`.
abbrev FloatOfText := Str → Option Number

section condition

structure NumericRange where
  lower : Number
  lowerInclusive : Bool
  upper : Number
  upperInclusive : Bool
deriving DecidableEq

structure FieldCondition where
  expr : Str
  numeric : Option NumericRange
deriving DecidableEq

inductive Operator where
  | le
  | ge
  | lt
  | gt
  | eqeq
  | eq
deriving DecidableEq

def Operator.text : Operator → Str
  | .le => "<=".toList
  | .ge => ">=".toList
  | .lt => "<".toList
  | .gt => ">".toList
  | .eqeq => "==".toList
  | .eq => "=".toList

def Operator.range (value : Number) : Operator → NumericRange
  | .le => ⟨.negInf, false, value, true⟩
  | .ge => ⟨value, true, .inf, false⟩
  | .lt => ⟨.negInf, false, value, false⟩
  | .gt => ⟨value, false, .inf, false⟩
  | .eqeq => ⟨value, true, value, true⟩
  | .eq => ⟨value, true, value, true⟩

def operators : List Operator := [.le, .ge, .lt, .gt, .eqeq, .eq]

variable (py : PyText) (float : FloatOfText)

def parseNumericExpr (expr : Str) : Option NumericRange :=
  let text := strip expr
  match operators.find? (fun op => startsWith op.text text) with
  | some op => (float (strip (text.drop op.text.length))).map op.range
  | none => (float text).map Operator.eq.range

abbrev Condition := OrderedDict Str FieldCondition

def normalizeCondition (condition : JsonFields) : Condition :=
  condition.foldl (fun result f =>
    result.assign f.1 ⟨py.str f.2, parseNumericExpr float (py.str f.2)⟩) .empty

end condition

def rangesOverlap (a b : NumericRange) : Bool :=
  let (lower, lowerInc) :=
    if b.lower.lt a.lower then (a.lower, a.lowerInclusive)
    else if a.lower.lt b.lower then (b.lower, b.lowerInclusive)
    else (a.lower, a.lowerInclusive && b.lowerInclusive)
  let (upper, upperInc) :=
    if a.upper.lt b.upper then (a.upper, a.upperInclusive)
    else if b.upper.lt a.upper then (b.upper, b.upperInclusive)
    else (a.upper, a.upperInclusive && b.upperInclusive)
  if lower.lt upper then true
  else if lower.eq upper then lowerInc && upperInc
  else false

def fieldOverlap (a b : FieldCondition) : Bool :=
  match a.numeric, b.numeric with
  | some r, some s => rangesOverlap r s
  | _, _ => decide (a.expr = b.expr)

def sharedFields (a b : Condition) : List (Str × FieldCondition × FieldCondition) :=
  a.entries.filterMap (fun f => (b.get? f.1).map (fun c => (f.1, f.2, c)))

def conditionsOverlap (a b : Condition) : Bool :=
  let shared := sharedFields a b
  if shared.isEmpty then false
  else shared.any (fun f => fieldOverlap f.2.1 f.2.2)

section conflict

inductive ConflictKind where
  | flowMissingId
  | flowIdCollision
  | policyMissingId
  | policyIdCollision
  | flowEnvInvalid
  | flowLockInvalid
  | flowLockConflict
  | flowCronOverlap
  | policyArmOverlap
deriving DecidableEq

structure Conflict where
  kind : ConflictKind
  detail : Str
  subjects : List Str
deriving DecidableEq

def quoted (s : Str) : Str := "'".toList ++ s ++ "'".toList

def collect (ids : List Str) : OrderedDict Str ℕ :=
  ids.foldl (fun counts item => counts.assign item ((counts.get? item).getD 0 + 1)) .empty

def idConflicts (missing collision : ConflictKind) (missingDetail noun : Str) (ids : List Str) :
    List Conflict :=
  (collect ids).entries.flatMap (fun e =>
    (if e.1 = [] then [⟨missing, missingDetail, [e.1]⟩] else []) ++
    (if 1 < e.2 then
      [⟨collision, noun ++ " id ".toList ++ quoted e.1 ++ " repeated".toList, [e.1]⟩] else []))

variable (py : PyText) (float : FloatOfText)

def textOr (doc : JsonFields) (key default : Str) : Str :=
  match doc.lookup key with
  | none => default
  | some v => py.str v

def orElse (text default : Str) : Str := if text = [] then default else text

def isScalar : Json → Bool
  | .null => false
  | .arr _ => false
  | .obj _ => false
  | _ => true

def envConflicts (fid : Str) : Option Json → List Conflict
  | none => []
  | some .null => []
  | some (.obj fields) => fields.flatMap (fun f =>
    if isScalar f.2 then []
    else [⟨.flowEnvInvalid,
      "flow ".toList ++ quoted fid ++ " has non-scalar env value for ".toList ++ quoted f.1,
      [fid, f.1]⟩])
  | some _ =>
    [⟨.flowEnvInvalid, "flow ".toList ++ quoted fid ++ " env must be mapping".toList, [fid]⟩]

abbrev LockMode := LockTable.Mode

def lockEntry (fid : Str) (entry : JsonFields) : List Conflict × Option (Str × LockMode) :=
  let name := textOr py entry "name".toList []
  let mode := lower (textOr py entry "mode".toList "exclusive".toList)
  if name = [] then
    ([⟨.flowLockInvalid, "flow ".toList ++ quoted fid ++ " has lock without name".toList,
      [fid]⟩], none)
  else if mode = "exclusive".toList then ([], some (name, .exclusive))
  else if mode = "shared".toList then ([], some (name, .shared))
  else
    ([⟨.flowLockInvalid, "flow ".toList ++ quoted fid ++ " lock ".toList ++ quoted name ++
      " has invalid mode ".toList ++ quoted mode, [fid, name]⟩], some (name, .exclusive))

def mappings : Json → List JsonFields
  | .arr items => items.filterMap (fun v =>
    match v with
    | .obj fields => some fields
    | _ => none)
  | _ => []

def stepLocks (flow : JsonFields) : List JsonFields :=
  match flow.lookup "steps".toList with
  | some (.obj steps) => steps.flatMap (fun step =>
    match step.2 with
    | .obj spec => ((spec.lookup "locks".toList).map mappings).getD []
    | _ => [])
  | _ => []

def flowId (flow : JsonFields) : Str := orElse (textOr py flow "id".toList []) "<unknown>".toList

def flowConflicts (flow : JsonFields) : List Conflict :=
  envConflicts (flowId py flow) (flow.lookup "env".toList) ++
    (stepLocks flow).flatMap (fun entry => (lockEntry py (flowId py flow) entry).1)

structure LockSlot where
  exclusive : List Str
  shared : List Str

def addMember (x : Str) (xs : List Str) : List Str := if x ∈ xs then xs else xs ++ [x]

def LockSlot.add (mode : LockMode) (fid : Str) (slot : LockSlot) : LockSlot :=
  match mode with
  | .exclusive => { slot with exclusive := addMember fid slot.exclusive }
  | .shared => { slot with shared := addMember fid slot.shared }

def lockUsage (flows : List JsonFields) : OrderedDict Str LockSlot :=
  (flows.flatMap (fun flow => (stepLocks flow).filterMap (fun entry =>
    (lockEntry py (flowId py flow) entry).2.map (fun l => (l, flowId py flow))))).foldl
    (fun usage l =>
      usage.assign l.1.1 (((usage.get? l.1.1).getD ⟨[], []⟩).add l.1.2 l.2)) .empty

def lockConflicts (name : Str) (slot : LockSlot) : List Conflict :=
  (if 1 < slot.exclusive.length then
    [⟨.flowLockConflict, "lock ".toList ++ quoted name ++ " exclusive in flows ".toList ++
      py.str (.arr ((sortTexts slot.exclusive).map .str)), sortTexts slot.exclusive⟩] else []) ++
  (if slot.exclusive ≠ [] ∧ slot.shared ≠ [] then
    [⟨.flowLockConflict,
      "lock ".toList ++ quoted name ++ " exclusive/shared mix across flows".toList,
      sortTexts (slot.exclusive ++ slot.shared).dedup⟩] else [])

def cronOf (flow : JsonFields) : Option Str :=
  match flow.lookup "schedule".toList with
  | some (.obj schedule) =>
    match schedule.lookup "cron".toList with
    | some (.str expr) => if strip expr = [] then none else some (strip expr)
    | _ => none
  | _ => none

def cronUsage (flows : List JsonFields) : OrderedDict Str (List Str) :=
  flows.foldl (fun usage flow =>
    match cronOf flow with
    | none => usage
    | some expr =>
      usage.assign expr (addMember (flowId py flow) ((usage.get? expr).getD []))) .empty

def cronConflicts (expr : Str) (users : List Str) : List Conflict :=
  if 1 < users.length then
    [⟨.flowCronOverlap, "cron ".toList ++ quoted expr ++ " shared by flows ".toList ++
      py.str (.arr ((sortTexts users).map .str)), sortTexts users⟩]
  else []

structure Arm where
  name : Str
  condition : Condition

def normalizeArm (arm : JsonFields) : Arm where
  name := orElse (textOr py arm "name".toList []) "<unnamed>".toList
  condition :=
    match arm.lookup "if".toList with
    | some (.obj condition) => normalizeCondition py float condition
    | _ => .empty

def policyId (policy : JsonFields) : Str :=
  orElse (textOr py policy "policy_id".toList []) "<unknown>".toList

def normalizedArms (policy : JsonFields) : List Arm :=
  (((policy.lookup "arms".toList).map mappings).getD []).map (normalizeArm py float)

structure ArmPair where
  pid : Str
  first : Arm
  second : Arm

def pairsOf (pid : Str) : List Arm → List ArmPair
  | [] => []
  | a :: arms => arms.map (fun b => ⟨pid, a, b⟩) ++ pairsOf pid arms

def armPairs (policy : JsonFields) : List ArmPair :=
  pairsOf (policyId py policy) (normalizedArms py float policy)

def ArmPair.overlap (p : ArmPair) : Bool :=
  conditionsOverlap p.first.condition p.second.condition

def ArmPair.conflict (p : ArmPair) : Conflict where
  kind := .policyArmOverlap
  detail := "policy ".toList ++ quoted p.pid ++ " arms ".toList ++ quoted p.first.name ++
    " and ".toList ++ quoted p.second.name ++ " overlap".toList
  subjects := [p.pid, p.first.name, p.second.name]

def policyConflicts (policy : JsonFields) : List Conflict :=
  ((armPairs py float policy).filter ArmPair.overlap).map ArmPair.conflict

def findConflicts (flows policies : List JsonFields) : List Conflict :=
  idConflicts .flowMissingId .flowIdCollision "flow missing id".toList "flow".toList
    (flows.map (fun flow => textOr py flow "id".toList [])) ++
  idConflicts .policyMissingId .policyIdCollision "policy missing policy_id".toList
    "policy".toList (policies.map (fun policy => textOr py policy "policy_id".toList [])) ++
  flows.flatMap (flowConflicts py) ++
  (lockUsage py flows).entries.flatMap (fun e => lockConflicts py e.1 e.2) ++
  (cronUsage py flows).entries.flatMap (fun e => cronConflicts py e.1 e.2) ++
  policies.flatMap (policyConflicts py float)

end conflict

end TraceMind.Validate
