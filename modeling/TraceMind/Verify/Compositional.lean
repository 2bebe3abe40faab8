import TraceMind.Verify.Joint
import TraceMind.Verify.Interface

namespace TraceMind.Verify

open Ctl

variable {V : Type}

structure LeafSpec (V : Type) where
  componentId : Str
  bundle : AgentBundleBody V
  kpiKeys : List Str
  guarantees : List Str
  assumptions : List Str

structure LocalVerdict where
  componentId : Str
  guarantee : Str
  satisfied : Bool
deriving DecidableEq

inductive Trigger where
  | outOfClass
  | cyclicAssumption
  | spuriousFailRecheck
deriving DecidableEq, Repr

structure Fallback where
  formula : Str
  trigger : Trigger
  reason : String
  monolithicSatisfied : Bool
deriving DecidableEq, Repr

inductive Via where
  | compositional
  | compositionalLocal
  | compositionalDecomposed
  | monolithicFallback
  | monolithicRecheck
deriving DecidableEq, Repr

structure CompositionalVerdict where
  formula : Str
  satisfied : Bool
  propertyClass : PropertyClass
  via : Via
deriving DecidableEq, Repr

structure CompositionalReport where
  verified : Bool
  centerId : Str
  leafIds : List Str
  formulas : List Str
  verdicts : List CompositionalVerdict
  localVerdicts : List LocalVerdict
  abstractionStats : List (Str × AbstractionStats)
  compositionalStateCount : ℕ
  monolithicStateCount : Option ℕ
  fallbacks : List Fallback

def refsOthers (leafIds : List Str) (own : Str) (e : Expr) : Bool :=
  (referencedComponents e leafIds).keys.any (fun c => decide (c ∈ leafIds ∧ c ≠ own))

def assumesSibling (leafIds : List Str) (own : Str) : List Str → Except Err Bool
  | [] => .ok false
  | a :: rest =>
    match parseExpr a with
    | .error (.valueError _) => assumesSibling leafIds own rest
    | .error e => .error e
    | .ok e => if refsOthers leafIds own e then .ok true else assumesSibling leafIds own rest

def assumptionCycle (leafIds : List Str) : List (LeafSpec V) → Except Err (Option Str)
  | [] => .ok none
  | spec :: rest => do
    let found ← assumesSibling leafIds spec.componentId spec.assumptions
    if found then .ok (some spec.componentId) else assumptionCycle leafIds rest

structure Context (V : Type) where
  allIds : List Str
  concrete : List (Str × ComponentAdapter V)
  absComponents : List (ComponentAdapter V)
  cyclicLeaf : Option Str
  maxDepth : ℤ
  mode : HashMode

structure Discharge where
  verdict : CompositionalVerdict
  fallbacks : List Fallback
  monoState : Option ℕ

section discharge

variable [DecidableEq V]

def firstVerdict (r : JointReport V) : Except Err (Bool × ℕ) :=
  match r.verdicts with
  | [] => .error (.indexError "list index out of range")
  | v :: _ => .ok (v.satisfied, r.stateCount)

def verifyOne (components : List (ComponentAdapter V)) (ids : List Str) (maxDepth : ℤ)
    (mode : HashMode) (f : Str) : Except Err (Bool × ℕ) := do
  let report ← jointVerify components [f] (some ids) maxDepth mode true
  firstVerdict report

def concreteGet (concrete : List (Str × ComponentAdapter V)) (cid : Str) :
    Except Err (ComponentAdapter V) :=
  match concrete.reverse.lookup cid with
  | none => .error (.keyError (String.ofList cid))
  | some c => .ok c

namespace Context

def monoVerify (ctx : Context V) (f : Str) : Except Err (Bool × ℕ) := do
  let components ← ctx.allIds.mapM (concreteGet ctx.concrete)
  verifyOne components ctx.allIds ctx.maxDepth ctx.mode f

def exactLocal (ctx : Context V) (f cid : Str) : Except Err Bool := do
  let c ← concreteGet ctx.concrete cid
  (verifyOne [c] [cid] ctx.maxDepth ctx.mode f).map Prod.fst

def centerVerify (ctx : Context V) (f : Str) : Except Err Bool :=
  (verifyOne ctx.absComponents ctx.allIds ctx.maxDepth ctx.mode f).map Prod.fst

def conjunctText (conj : Expr) : Str := "AG ".toList ++ unparse conj

def conjunctVerify (ctx : Context V) (conj : Expr) : Except Err (Bool × Option ℕ) :=
  match (referencedComponents conj ctx.allIds).keys with
  | [cid] => (ctx.exactLocal (conjunctText conj) cid).map (fun b => (b, none))
  | _ => (ctx.monoVerify (conjunctText conj)).map (fun r => (r.1, some r.2))

def lastSome (xs : List (Option ℕ)) : Option ℕ :=
  xs.foldl (fun acc x => match x with | some n => some n | none => acc) none

def decomposed (ctx : Context V) (f : Str) : Except Err (Bool × Option ℕ) := do
  let e ← parseExpr f
  let results ← (splitConjuncts (agBody e)).mapM ctx.conjunctVerify
  .ok (results.all Prod.fst, lastSome (results.map Prod.snd))

def fallback (ctx : Context V) (f : Str) (cls : Classification) (trigger : Trigger)
    (reason : String) : Except Err Discharge := do
  let (sat, n) ← ctx.monoVerify f
  .ok ⟨⟨f, sat, cls.propertyClass, .monolithicFallback⟩, [⟨f, trigger, reason, sat⟩], some n⟩

def cyclicReason (leaf : Str) : String :=
  "leaf '" ++ String.ofList leaf ++
    "' assumption references a sibling leaf; A-G non-circularity violated"

def safetyGlobal (ctx : Context V) (f : Str) : Except Err Discharge := do
  let sat ← ctx.centerVerify f
  if sat then .ok ⟨⟨f, true, .safetyGlobal, .compositional⟩, [], none⟩
  else
    let (msat, n) ← ctx.monoVerify f
    .ok ⟨⟨f, msat, .safetyGlobal, .monolithicRecheck⟩, [⟨f, .spuriousFailRecheck,
      "abstract composition reported FAIL; re-verified on the full product (authoritative)",
      msat⟩], some n⟩

def dischargeAs (ctx : Context V) (f : Str) (cls : Classification) : Except Err Discharge :=
  match cls.propertyClass with
  | .outOfClass => ctx.fallback f cls .outOfClass cls.reason
  | .singleComponent =>
    match cls.components with
    | [cid] => (ctx.exactLocal f cid).map (fun sat =>
        ⟨⟨f, sat, .singleComponent, .compositionalLocal⟩, [], none⟩)
    | _ => ctx.fallback f cls .outOfClass
        "no single component could be resolved for local discharge"
  | .decomposable => (ctx.decomposed f).map (fun r =>
      ⟨⟨f, r.1, .decomposable, .compositionalDecomposed⟩, [], r.2⟩)
  | .safetyGlobal => ctx.safetyGlobal f

def route (ctx : Context V) (f : Str) (cls : Classification) : Except Err Discharge :=
  match cls.compositional, ctx.cyclicLeaf with
  | true, some leaf => ctx.fallback f cls .cyclicAssumption (cyclicReason leaf)
  | _, _ => ctx.dischargeAs f cls

def discharge (ctx : Context V) (f : Str) : Except Err Discharge := do
  let cls ← classifyFormula f ctx.allIds
  ctx.route f cls

end Context

end discharge

section star

variable [PyValue V] [DecidableEq V]

def leafAdapters (leaves : List (LeafSpec V)) :
    Except Err (List (Str × ComponentAdapter V)) :=
  leaves.mapM (fun s => (adapterFromBundle s.bundle).map (fun a => (s.componentId, a.component)))

def leafAbstractions (leaves : List (LeafSpec V)) (maxDepth : ℤ) (mode : HashMode) :
    Except Err (List InterfaceAdapter) :=
  leaves.mapM (fun s =>
    interfaceAdapterFromContract s.bundle s.kpiKeys s.guarantees maxDepth mode)

def checkGuarantees (ctx : Context V) (s : LeafSpec V) : Except Err (List LocalVerdict) :=
  s.guarantees.mapM (fun g =>
    (ctx.exactLocal g s.componentId).map (fun sat => ⟨s.componentId, g, sat⟩))

def assumeGuaranteeVerify (centerBundle : AgentBundleBody V) (leaves : List (LeafSpec V))
    (formulas : List Str) (centerId : Str) (maxDepth : ℤ) (mode : HashMode) :
    Except Err CompositionalReport := do
  let center ← adapterFromBundle centerBundle
  let leafIds := leaves.map LeafSpec.componentId
  let allIds := centerId :: leafIds
  let concrete ← leafAdapters leaves
  let abstractions ← leafAbstractions leaves maxDepth mode
  let absComponents := center.component :: abstractions.map (InterfaceAdapter.component V)
  let joint ← JointAdapter.fromComponents absComponents (some allIds)
  let (compModel, _) ← Explorer.run joint.adapter [] maxDepth mode
  let ctx : Context V :=
    { allIds := allIds
      concrete := (centerId, center.component) :: concrete
      absComponents := absComponents
      cyclicLeaf := none
      maxDepth := maxDepth
      mode := mode }
  let localVerdicts ← leaves.mapM (checkGuarantees ctx)
  let cyclicLeaf ← assumptionCycle leafIds leaves
  let results ← formulas.mapM { ctx with cyclicLeaf := cyclicLeaf }.discharge
  .ok { verified := results.all (fun d => d.verdict.satisfied)
        centerId := centerId
        leafIds := leafIds
        formulas := formulas
        verdicts := results.map Discharge.verdict
        localVerdicts := localVerdicts.flatten
        abstractionStats := leafIds.zip (abstractions.map InterfaceAdapter.stats)
        compositionalStateCount := compModel.states.length
        monolithicStateCount := Context.lastSome (results.map Discharge.monoState)
        fallbacks := (results.map Discharge.fallbacks).flatten }

end star

end TraceMind.Verify
