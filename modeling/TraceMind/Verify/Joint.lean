import TraceMind.Verify.Parser
import Mathlib.Algebra.GroupWithZero.Nat

namespace TraceMind.Verify

open Ctl

variable {V : Type}

def qualify (cid s : Str) : Str := cid ++ '.' :: s

def gather {α β : Type} (items : State V → List α) (rename : Str → α → β)
    (named : List (Str × State V)) : List β :=
  named.flatMap (fun p => (items p.2).map (rename p.1))

def project (components : List (State V)) (ids : List Str) : State V :=
  let named := ids.zip components
  { store := SortedMap.ofList (gather (fun s => s.store.entries)
      (fun cid e => (qualify cid e.1, e.2)) named)
    pending := gather State.pending qualify named
    done := gather State.done qualify named
    events := gather State.events qualify named }

abbrev Memo (V : Type) := List (Hash V × List (State V))

structure JointAdapter (V : Type) where
  components : List (ComponentAdapter V)
  componentIds : List Str

def defaultIds (n : ℕ) : List Str :=
  (List.range n).map (fun i => "agent".toList ++ Nat.toDigits 10 i)

namespace JointAdapter

def checkIds (count : ℕ) (ids : List Str) : Except Err Unit :=
  if ids.length ≠ count then
    .error (.valueError ("component_ids length " ++ toString ids.length ++ " != component count " ++
      toString count))
  else if ¬ ids.Nodup then .error (.valueError "component_ids must be unique")
  else if [] ∈ ids then .error (.valueError "component_id must be non-empty, got ''")
  else .ok ()

def fromComponents (components : List (ComponentAdapter V)) (componentIds : Option (List Str)) :
    Except Err (JointAdapter V) :=
  if components = [] then .error (.valueError "JointAdapter requires at least one component")
  else
    match componentIds with
    | none => .ok ⟨components, defaultIds components.length⟩
    | some ids => (checkIds components.length ids).map (fun _ => ⟨components, ids⟩)

def initialStates (components : List (ComponentAdapter V)) : Except Err (List (State V)) :=
  components.mapM (fun c => c.initialState)

def movesFrom (joint : List (State V)) :
    ℕ → List (Str × ComponentAdapter V) → List (State V) →
    Except Err (List (Str × List (State V)))
  | i, (cid, c) :: cs, st :: sts => do
    let ys ← c.successors st
    let rest ← movesFrom joint (i + 1) cs sts
    .ok (ys.map (fun y => (cid ++ ':' :: y.1, joint.set i y.2)) ++ rest)
  | _, _, _ => .ok []

def moves (a : JointAdapter V) (joint : List (State V)) :
    Except Err (List (Str × List (State V))) :=
  movesFrom joint 0 (a.componentIds.zip a.components) joint

variable [DecidableEq V]

def remember (a : JointAdapter V) (memo : Memo V) (joint : List (State V)) : Memo V :=
  ((project joint a.componentIds).stableHash .full, joint) :: memo

def lookupJoint (memo : Memo V) (s : State V) : Except Err (List (State V)) :=
  match memo.lookup (s.stableHash .full) with
  | some joint => .ok joint
  | none => .error (.keyError ("JointAdapter cannot reconstruct joint state; " ++
      "successors() must only be called on states returned from this adapter"))

def initialState (a : JointAdapter V) (memo : Memo V) : Except Err (State V × Memo V) := do
  let joint ← initialStates a.components
  .ok (project joint a.componentIds, a.remember memo joint)

def successors (a : JointAdapter V) (memo : Memo V) (s : State V) :
    Except Err (List (Str × State V) × Memo V) := do
  let joint ← lookupJoint memo s
  let ys ← a.moves joint
  .ok (ys.map (fun y => (y.1, project y.2 a.componentIds)),
    (ys.map Prod.snd).foldl a.remember memo)

def enabledSteps (a : JointAdapter V) (memo : Memo V) (s : State V) : List Str :=
  match lookupJoint memo s with
  | .error _ => []
  | .ok joint =>
    ((a.componentIds.zip a.components).zip joint).flatMap (fun p =>
      (p.1.2.enabledSteps p.2).map (qualify p.1.1))

def isDeadlocked (a : JointAdapter V) (memo : Memo V) (s : State V) : Bool :=
  !s.pending.isEmpty && (a.enabledSteps memo s).isEmpty

def adapter (a : JointAdapter V) : Adapter (Memo V) V where
  initialState := a.initialState
  successors := a.successors
  isDeadlocked := a.isDeadlocked
  enabledSteps := a.enabledSteps

end JointAdapter

structure NodeSnapshot (V : Type) where
  store : Store V
  pending : List Str
  done : List Str

structure CounterexampleStep (V : Type) where
  stateIndex : ℕ
  transition : Option Str
  nodes : List (Str × NodeSnapshot V)

structure JointVerdict (V : Type) where
  formula : Str
  satisfied : Bool
  violationPath : List ℕ
  counterexample : List (CounterexampleStep V)

structure JointReport (V : Type) where
  verified : Bool
  componentCount : ℕ
  componentIds : List Str
  formulas : List Str
  verdicts : List (JointVerdict V)
  stateCount : ℕ
  edgeCount : ℕ
  deadlockCount : ℕ

def successorsOf (edges : List (ℕ × List ℕ)) (sid : ℕ) : List ℕ := (edges.lookup sid).getD []

def scanOutside (sat : Finset ℕ) (path : List ℕ) :
    List ℕ → List ℕ × List (ℕ × List ℕ) → List ℕ ⊕ (List ℕ × List (ℕ × List ℕ))
  | [], s => .inr s
  | nxt :: rest, (visited, queue) =>
    if nxt ∈ visited then scanOutside sat path rest (visited, queue)
    else if nxt ∉ sat then .inl (path ++ [nxt])
    else scanOutside sat path rest (nxt :: visited, queue ++ [(nxt, path ++ [nxt])])

def outsideLoop (edges : List (ℕ × List ℕ)) (sat : Finset ℕ) :
    ℕ → List ℕ × List (ℕ × List ℕ) → List ℕ
  | 0, _ => []
  | _ + 1, (_, []) => []
  | n + 1, (visited, (sid, path) :: queue) =>
    match scanOutside sat path (successorsOf edges sid) (visited, queue) with
    | .inl found => found
    | .inr s => outsideLoop edges sat n s

def bfsPathOutside (edges : List (ℕ × List ℕ)) (sat : Finset ℕ) : List ℕ :=
  if 0 ∉ sat ∧ sat ≠ ∅ then [0]
  else outsideLoop edges sat ((edges.map (fun e => e.2.length)).sum + 2) ([0], [(0, [0])])

def firstViolation (enabled : State V → List Str) (probe : Expr) (m : ExplorationResult V) :
    List (State V × ℕ) → Except Err (Option (List ℕ))
  | [] => .ok none
  | (s, sid) :: rest => do
    let b ← evalStateExpr enabled s probe
    if b then firstViolation enabled probe m rest
    else if m.pathTo sid = [] then firstViolation enabled probe m rest
    else .ok (some (m.pathTo sid))

def agBody : Expr → Expr
  | .ctl .AG c => c
  | e => e

def probeViolation (enabled : State V → List Str) (probe : Expr) (m : ExplorationResult V) :
    Except Err (Option (List ℕ)) :=
  if hasCtlNodes probe then .ok none else firstViolation enabled probe m m.states.zipIdx

def witnessViolationPath (m : ExplorationResult V) (enabled : State V → List Str) (e : Expr)
    (sat : Finset ℕ) : Except Err (List ℕ) :=
  let outside := bfsPathOutside m.edges sat
  if 0 ∈ sat then .ok []
  else if sat ≠ ∅ ∧ outside ≠ [] then .ok outside
  else (probeViolation enabled (agBody e) m).map (fun found =>
    found.getD (if outside = [] then [0] else outside))

section report

variable [DecidableEq V]

def snapshots (a : JointAdapter V) (joint : List (State V)) : List (Str × NodeSnapshot V) :=
  (a.componentIds.zip joint).map (fun p => (p.1, ⟨p.2.store, p.2.pending, p.2.done⟩))

def transitionLabel (m : ExplorationResult V) (prev : Option ℕ) (sid : ℕ) : Option Str :=
  match prev, m.predecessors.lookup sid with
  | some p, some (q, label) => if q = p then some label else none
  | _, _ => none

def counterexampleFrom (a : JointAdapter V) (memo : Memo V) (m : ExplorationResult V) :
    Option ℕ → List ℕ → Except Err (List (CounterexampleStep V))
  | _, [] => .ok []
  | prev, sid :: rest =>
    match m.states[sid]? with
    | none => counterexampleFrom a memo m (some sid) rest
    | some st => do
      let joint ← JointAdapter.lookupJoint memo st
      let steps ← counterexampleFrom a memo m (some sid) rest
      .ok (⟨sid, transitionLabel m prev sid, snapshots a joint⟩ :: steps)

def projectCounterexample (a : JointAdapter V) (memo : Memo V) (m : ExplorationResult V)
    (violationPath : List ℕ) : Except Err (List (CounterexampleStep V)) :=
  counterexampleFrom a memo m none violationPath

def failedVerdict (a : JointAdapter V) (memo : Memo V) (m : ExplorationResult V)
    (projectCounterexamples : Bool) (formula : Str) (path : List ℕ) :
    Except Err (JointVerdict V) :=
  if projectCounterexamples then
    (projectCounterexample a memo m path).map (fun steps => ⟨formula, false, path, steps⟩)
  else .ok ⟨formula, false, path, []⟩

def verdictOf (a : JointAdapter V) (memo : Memo V) (m : ExplorationResult V)
    (projectCounterexamples : Bool) (formula : Str) : Except Err (JointVerdict V) := do
  let e ← parseExpr formula
  let sat := checkCtl e m (a.enabledSteps memo)
  if 0 ∈ sat then .ok ⟨formula, true, [], []⟩
  else
    let path ← witnessViolationPath m (a.enabledSteps memo) e sat
    failedVerdict a memo m projectCounterexamples formula path

def jointVerify (components : List (ComponentAdapter V)) (formulas : List Str)
    (componentIds : Option (List Str)) (maxDepth : ℤ) (mode : HashMode)
    (projectCounterexamples : Bool) : Except Err (JointReport V) := do
  let a ← JointAdapter.fromComponents components componentIds
  let (m, memo) ← Explorer.run a.adapter [] maxDepth mode
  let verdicts ← formulas.mapM (verdictOf a memo m projectCounterexamples)
  .ok { verified := verdicts.all (fun v => v.satisfied)
        componentCount := components.length
        componentIds := a.componentIds
        formulas := formulas
        verdicts := verdicts
        stateCount := m.states.length
        edgeCount := (m.edges.map (fun e => e.2.length)).sum
        deadlockCount := m.deadlocks.length }

end report

end TraceMind.Verify
