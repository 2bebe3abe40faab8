import TraceMind.Verify.Adapter
import TraceMind.Foundation.BoundedSearch
import TraceMind.Foundation.Branching

namespace TraceMind.Verify

open BoundedSearch

structure ExplorationResult (V : Type) where
  states : List (State V)
  edges : List (ℕ × List ℕ)
  predecessors : List (ℕ × (ℕ × Str))
  deadlocks : List ℕ
  hashMode : HashMode
  maxDepth : ℤ

namespace ExplorationResult

variable {V : Type}

structure WellFormed (r : ExplorationResult V) : Prop where
  keys_nodup : (r.edges.map Prod.fst).Nodup
  keys_lt : ∀ i ∈ r.edges.map Prod.fst, i < r.states.length
  targets_lt : ∀ e ∈ r.edges, ∀ j ∈ e.2, j < r.states.length

def walkBack (predecessors : List (ℕ × (ℕ × Str))) : ℕ → ℕ → List ℕ → List ℕ
  | 0, _, path => path
  | n + 1, cur, path =>
    match predecessors.lookup cur with
    | none => path
    | some (prev, _) =>
      if prev ∈ path then path else walkBack predecessors n prev (prev :: path)

-- Each turn of the source's loop uses a predecessor entry of its own, so the number of
-- entries bounds the turns.
def pathTo (r : ExplorationResult V) (target : ℕ) : List ℕ :=
  if r.states.length ≤ target then []
  else walkBack r.predecessors (r.predecessors.length + 1) target [target]

end ExplorationResult

structure Adapter (μ V : Type) where
  initialState : μ → Except Err (State V × μ)
  successors : μ → State V → Except Err (List (Str × State V) × μ)
  isDeadlocked : μ → State V → Bool
  enabledSteps : μ → State V → List Str

variable {μ V : Type}

def ComponentAdapter.stateless (a : ComponentAdapter V) : Adapter Unit V where
  initialState := fun _ => a.initialState.map (fun s => (s, ()))
  successors := fun _ s => (a.successors s).map (fun ys => (ys, ()))
  isDeadlocked := fun _ => a.isDeadlocked
  enabledSteps := fun _ => a.enabledSteps

namespace Explorer

def space (a : Adapter μ V) (maxDepth : ℤ) (mode : HashMode) :
    Space μ (State V) Str (Hash V) Err where
  succ := a.successors
  dead := a.isDeadlocked
  key := State.stableHash mode
  bound := maxDepth.toNat

def result (maxDepth : ℤ) (mode : HashMode) (s : Search (State V) Str (Hash V)) :
    ExplorationResult V where
  states := s.states
  edges := s.edges
  predecessors := s.predecessors
  deadlocks := s.deadlocks
  hashMode := mode
  maxDepth := maxDepth

def run [DecidableEq V] (a : Adapter μ V) (m : μ) (maxDepth : ℤ) (mode : HashMode) :
    Except Err (ExplorationResult V × μ) := do
  let (root, m) ← a.initialState m
  let (m, s) ← search (space a maxDepth mode) m root
  .ok (result maxDepth mode s, m)

end Explorer

end TraceMind.Verify

namespace TraceMind.Verify

inductive CtlOp where
  | EX | EF | EG | AF | AG
deriving DecidableEq, Repr

inductive UntilOp where
  | EU | AU
deriving DecidableEq, Repr

inductive Expr where
  | predicate (name : Str) (value : Option Str)
  | not (child : Expr)
  | and (left right : Expr)
  | or (left right : Expr)
  | ctl (op : CtlOp) (child : Expr)
  | until (op : UntilOp) (left right : Expr)
deriving DecidableEq, Repr

namespace Ctl

variable {V : Type}

def evalPredicate (enabled : State V → List Str) (name : Str) (value : Option Str)
    (s : State V) : Bool :=
  if lower name = "terminal".toList then (enabled s).isEmpty
  else
    match value with
    | none => false
    | some v =>
      if lower name = "has".toList then s.store.contains v
      else if lower name = "pending".toList then decide (v ∈ s.pending)
      else if lower name = "done".toList then decide (v ∈ s.done)
      else false

def hasCtlNodes : Expr → Bool
  | .predicate _ _ => false
  | .not c => hasCtlNodes c
  | .and l r => hasCtlNodes l || hasCtlNodes r
  | .or l r => hasCtlNodes l || hasCtlNodes r
  | .ctl _ _ => true
  | .until _ _ _ => true

def evalStateExpr (enabled : State V → List Str) (s : State V) : Expr → Except Err Bool
  | .predicate n v => .ok (evalPredicate enabled n v s)
  | .not c => (evalStateExpr enabled s c).map (!·)
  | .and l r => do
    let b ← evalStateExpr enabled s l
    if b then evalStateExpr enabled s r else .ok false
  | .or l r => do
    let b ← evalStateExpr enabled s l
    if b then .ok true else evalStateExpr enabled s r
  | .ctl _ _ => .error (.valueError "CTL operator not allowed in state-only evaluation")
  | .until _ _ _ => .error (.valueError "CTL operator not allowed in state-only evaluation")

def closePass (test : Finset ℕ → ℕ × List ℕ → Bool) :
    List (ℕ × List ℕ) → Finset ℕ × Bool → Finset ℕ × Bool
  | [], acc => acc
  | e :: es, (sat, changed) =>
    if e.1 ∈ sat then closePass test es (sat, changed)
    else if test sat e then closePass test es (insert e.1 sat, true)
    else closePass test es (sat, changed)

def closeLoop (test : Finset ℕ → ℕ × List ℕ → Bool) (edges : List (ℕ × List ℕ)) :
    ℕ → Finset ℕ → Option (Finset ℕ)
  | 0, _ => none
  | fuel + 1, sat =>
    let (sat', changed) := closePass test edges (sat, false)
    if changed then closeLoop test edges fuel sat' else some sat'

def anyIn (sat : Finset ℕ) (succs : List ℕ) : Bool := succs.any (fun j => decide (j ∈ sat))

def allIn (sat : Finset ℕ) (succs : List ℕ) : Bool :=
  !succs.isEmpty && succs.all (fun j => decide (j ∈ sat))

def allStates (m : ExplorationResult V) : Finset ℕ := Finset.range m.states.length

def satEX (m : ExplorationResult V) (child : Finset ℕ) : Finset ℕ :=
  ((m.edges.filter (fun e => anyIn child e.2)).map Prod.fst).toFinset

def satEF (fuel : ℕ) (m : ExplorationResult V) (child : Finset ℕ) : Option (Finset ℕ) :=
  closeLoop (fun sat e => anyIn sat e.2) m.edges fuel child

def satAF (fuel : ℕ) (m : ExplorationResult V) (child : Finset ℕ) : Option (Finset ℕ) :=
  (closeLoop (fun sat e => allIn sat e.2) m.edges fuel child).map (fun sat =>
    sat ∪ (allStates m).filter (fun i => (m.edges.lookup i).isNone && decide (i ∈ child)))

def satUntil (fuel : ℕ) (m : ExplorationResult V) (op : UntilOp) (left right : Finset ℕ) :
    Option (Finset ℕ) :=
  closeLoop (fun sat e => decide (e.1 ∈ left) &&
    match op with
    | .EU => anyIn sat e.2
    | .AU => allIn sat e.2) m.edges fuel right

-- `none` stands for a fixpoint loop that has not ended after `fuel` passes.
def sat (fuel : ℕ) (m : ExplorationResult V) (enabled : State V → List Str) :
    Expr → Option (Finset ℕ)
  | .predicate n v => some ((allStates m).filter (fun i =>
      (m.states[i]?.map (evalPredicate enabled n v)).getD false))
  | .not c => (sat fuel m enabled c).map (allStates m \ ·)
  | .and l r => do
    let a ← sat fuel m enabled l
    let b ← sat fuel m enabled r
    some (a ∩ b)
  | .or l r => do
    let a ← sat fuel m enabled l
    let b ← sat fuel m enabled r
    some (a ∪ b)
  | .ctl .EX c => (sat fuel m enabled c).map (satEX m)
  | .ctl .EF c => (sat fuel m enabled c).bind (satEF fuel m)
  | .ctl .AF c => (sat fuel m enabled c).bind (satAF fuel m)
  | .ctl .EG c => do
    let a ← sat fuel m enabled c
    let b ← satAF fuel m (allStates m \ a)
    some (allStates m \ b)
  | .ctl .AG c => do
    let a ← sat fuel m enabled c
    let b ← satEF fuel m (allStates m \ a)
    some (allStates m \ b)
  | .until op l r => do
    let a ← sat fuel m enabled l
    let b ← sat fuel m enabled r
    satUntil fuel m op a b

def checkCtl (e : Expr) (m : ExplorationResult V) (enabled : State V → List Str) : Finset ℕ :=
  (sat (m.edges.length + 1) m enabled e).getD ∅

def Step (m : ExplorationResult V) (i j : ℕ) : Prop := BoundedSearch.Edge m.edges i j

def Holds (m : ExplorationResult V) (enabled : State V → List Str) : Expr → ℕ → Prop
  | .predicate n v => fun i => ∃ s, m.states[i]? = some s ∧ evalPredicate enabled n v s = true
  | .not c => fun i => ¬ Holds m enabled c i
  | .and l r => fun i => Holds m enabled l i ∧ Holds m enabled r i
  | .or l r => fun i => Holds m enabled l i ∨ Holds m enabled r i
  | .ctl .EX c => Branching.EX (Step m) (Holds m enabled c)
  | .ctl .EF c => Branching.EF (Step m) (Holds m enabled c)
  | .ctl .EG c => Branching.EG (Step m) (Holds m enabled c)
  | .ctl .AF c => Branching.AF (Step m) (Holds m enabled c)
  | .ctl .AG c => Branching.AG (Step m) (Holds m enabled c)
  | .until .EU l r => Branching.EU (Step m) (Holds m enabled l) (Holds m enabled r)
  | .until .AU l r => Branching.AU (Step m) (Holds m enabled l) (Holds m enabled r)

end Ctl

end TraceMind.Verify
