import TraceMind.Verify.Parser

namespace TraceMind.Verify

open Ctl

abbrev StrSet := SortedMap Str Unit

namespace StrSet

def add (s : StrSet) (x : Str) : StrSet := s.insert x ()

end StrSet

inductive PropertyClass where
  | safetyGlobal
  | singleComponent
  | decomposable
  | outOfClass
deriving DecidableEq, Repr

def longer (best : Option Str) (cid : Str) : Option Str :=
  match best with
  | none => some cid
  | some b => if b.length < cid.length then some cid else some b

def refersTo (value cid : Str) : Bool := value = cid || startsWith (cid ++ ['.']) value

def predicateComponent (value : Str) (componentIds : List Str) : Option Str :=
  componentIds.foldl (fun best cid => if refersTo value cid then longer best cid else best) none

def collectRefs (componentIds : List Str) : Expr → StrSet → StrSet
  | .predicate _ none, out => out
  | .predicate _ (some v), out =>
    match predicateComponent v componentIds with
    | none => out
    | some cid => out.add cid
  | .not c, out => collectRefs componentIds c out
  | .and l r, out => collectRefs componentIds r (collectRefs componentIds l out)
  | .or l r, out => collectRefs componentIds r (collectRefs componentIds l out)
  | .ctl _ c, out => collectRefs componentIds c out
  | .until _ l r, out => collectRefs componentIds r (collectRefs componentIds l out)

def referencedComponents (e : Expr) (componentIds : List Str) : StrSet :=
  collectRefs componentIds e SortedMap.empty

def containsTerminal : Expr → Bool
  | .predicate n _ => lower n = "terminal".toList
  | .not c => containsTerminal c
  | .and l r => containsTerminal l || containsTerminal r
  | .or l r => containsTerminal l || containsTerminal r
  | .ctl _ c => containsTerminal c
  | .until _ l r => containsTerminal l || containsTerminal r

def containsEventually : Expr → Bool
  | .predicate _ _ => false
  | .not c => containsEventually c
  | .and l r => containsEventually l || containsEventually r
  | .or l r => containsEventually l || containsEventually r
  | .ctl op c => op = .EF || op = .AF || containsEventually c
  | .until _ _ _ => true

def splitConjuncts : Expr → List Expr
  | .and l r => splitConjuncts l ++ splitConjuncts r
  | e => [e]

def unparse : Expr → Str
  | .predicate n none => n
  | .predicate n (some v) => n ++ '(' :: (v ++ [')'])
  | .not c => '!' :: unparse c
  | .and l r => '(' :: (unparse l ++ (" && ".toList ++ (unparse r ++ [')'])))
  | .or l r => '(' :: (unparse l ++ (" || ".toList ++ (unparse r ++ [')'])))
  | .ctl op c => (CtlOp.text op).toList ++ ' ' :: unparse c
  | .until op l r =>
    (UntilOp.text op).toList ++ '(' :: (unparse l ++ (", ".toList ++ (unparse r ++ [')'])))

structure Classification where
  formula : Str
  propertyClass : PropertyClass
  components : List Str
  compositional : Bool
  reason : String
deriving DecidableEq, Repr

def classifyAG (formula : Str) (child : Expr) (ids refs : List Str) : Classification :=
  let conjuncts := splitConjuncts child
  if 1 < conjuncts.length && conjuncts.all (fun c => (referencedComponents c ids).keys.length ≤ 1)
  then ⟨formula, .decomposable, refs, true,
    "AG over a conjunction of single-component obligations (per-leaf local discharge)"⟩
  else if (referencedComponents child ids).keys.length ≤ 1 then ⟨formula, .singleComponent, refs,
    true, "AG safety over a single component (exact local discharge)"⟩
  else ⟨formula, .safetyGlobal, refs, true,
    "AG safety over multiple components (assume-guarantee discharge)"⟩

def classifyEF (formula : Str) (child : Expr) (ids refs : List Str) : Classification :=
  if (referencedComponents child ids).keys.length = 1 then ⟨formula, .singleComponent, refs, true,
    "EF reachability over a single component (exact local discharge)"⟩
  else ⟨formula, .outOfClass, refs, false,
    "existential reachability over multiple components is not over-approximation-sound"⟩

def fairnessReason : String :=
  "fairness/conditional-liveness (AG over an eventually): ∃-abstraction " ++
  "is not subset-closed for EF/AF (false-PASS risk) and single-component " ++
  "liveness is not preserved by the unfair async product (starvation) → monolithic"

def livenessReason (scope : String) : String :=
  scope ++ " liveness/eventually (AF/EU/nested EF) is not soundly liftable: the " ++
  "async product admits schedules that starve the component, so a locally-true " ++
  "eventually need not hold in the product → monolithic"

def agOfEventually : Expr → Bool
  | .ctl .AG c => containsEventually c
  | _ => false

def classifyOther (formula : Str) (e : Expr) (refs : List Str) : Classification :=
  if agOfEventually e then ⟨formula, .outOfClass, refs, false, fairnessReason⟩
  else if containsEventually e then
    let scope := if refs.length ≤ 1 then "single-component" else "cross-component"
    ⟨formula, .outOfClass, refs, false, livenessReason scope⟩
  else ⟨formula, .outOfClass, refs, false,
    "liveness/existential/nested CTL is outside the sound compositional fragment"⟩

def classifyExpr (formula : Str) (e : Expr) (ids : List Str) : Classification :=
  let refs := (referencedComponents e ids).keys
  if containsTerminal e then ⟨formula, .outOfClass, refs, false,
    "Terminal is a joint-global predicate; not soundly decomposable"⟩
  else
    match e with
    | .ctl .AG child =>
      if hasCtlNodes child then classifyOther formula e refs
      else classifyAG formula child ids refs
    | .ctl .EF child =>
      if hasCtlNodes child then classifyOther formula e refs
      else classifyEF formula child ids refs
    | _ => classifyOther formula e refs

def classifyFormula (formula : Str) (componentIds : List Str) : Except Err Classification := do
  let e ← parseExpr formula
  .ok (classifyExpr formula e componentIds)

end TraceMind.Verify
