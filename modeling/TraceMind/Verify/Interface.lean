import TraceMind.Verify.Classify

namespace TraceMind.Verify

variable {V : Type}

structure StepMeta where
  reads : List Str
  writes : List Str
  clears : List Str

structure RuleMeta where
  name : Option Str
  triggers : List Str
  steps : List Str

structure VerifyMeta (V : Type) where
  steps : List (Str × StepMeta)
  rules : List RuleMeta
  initialStore : Store V
  changedPaths : List Str
  initialPending : List Str

structure AgentBundleBody (V : Type) where
  bundleId : Str
  verify : Option (VerifyMeta V)

def stepSpec (e : Str × StepMeta) : Str × StepSpec :=
  (e.1, ⟨e.1, e.2.reads, e.2.writes, e.2.clears⟩)

def ruleName : Option Str → Str
  | some (c :: cs) => c :: cs
  | _ => "rule".toList

def planFromVerifyMeta (m : VerifyMeta V) : Except Err Plan :=
  if m.steps = [] then .error (.valueError "meta.verify.steps must contain at least one step")
  else .ok ⟨SortedMap.ofList (m.steps.map stepSpec),
    m.rules.map (fun r => ⟨ruleName r.name, r.triggers, r.steps⟩)⟩

def adapterFromBundle (body : AgentBundleBody V) : Except Err (TraceMindAdapter V) :=
  match body.verify with
  | none => .error (.valueError
      ("bundle '" ++ String.ofList body.bundleId ++ "' missing meta.verify mapping"))
  | some m => do
    let plan ← planFromVerifyMeta m
    TraceMindAdapter.fromPlan plan m.initialStore m.changedPaths m.initialPending []

def isAtomChar (c : Char) : Bool := c.isAlphanum || c = '_' || c = '.'

def matchAtom (s : Str) : Option (Str × Str) :=
  if startsWith "has(".toList s then
    let arg := (s.drop 4).dropWhile isSpace
    let tok := arg.takeWhile isAtomChar
    match (arg.dropWhile isAtomChar).dropWhile isSpace with
    | ')' :: rest => if tok = [] then none else some (tok, rest)
    | _ => none
  else none

def findAtomsAux : ℕ → Str → List Str
  | 0, _ => []
  | _ + 1, [] => []
  | n + 1, c :: cs =>
    match matchAtom (c :: cs) with
    | some (tok, rest) => tok :: findAtomsAux n rest
    | none => findAtomsAux n cs

def findAtoms (s : Str) : List Str := findAtomsAux s.length s

def localKey (tok : Str) : Str := (tok.reverse.takeWhile (· ≠ '.')).reverse

def interfaceAtoms (kpiKeys guarantees : List Str) : List Str :=
  (((guarantees.flatMap findAtoms).map localKey).foldl StrSet.add
    (kpiKeys.foldl StrSet.add SortedMap.empty)).keys

abbrev Present := StrSet

def joinWith (sep : Str) : List Str → Str
  | [] => []
  | [x] => x
  | x :: xs => x ++ sep ++ joinWith sep xs

def label (a b : Present) : Str :=
  let added := b.keys.filter (fun k => !a.contains k)
  let removed := a.keys.filter (fun k => !b.contains k)
  if added = [] ∧ removed = [] then "abs:stutter".toList
  else "abs:".toList ++ joinWith [','] (added.map ('+' :: ·) ++ removed.map ('-' :: ·))

structure AbstractionStats where
  interfaceAtoms : List Str
  concreteStateCount : ℕ
  abstractStateCount : ℕ
deriving DecidableEq

structure InterfaceAdapter where
  atoms : List Str
  initialPresent : Present
  transitions : List (Present × List Present)
  deadlockPresents : List Present
  stats : AbstractionStats

section presence

variable [PyValue V]

def isTruthy (store : Store V) (k : Str) : Bool :=
  match store.get? k with
  | none => false
  | some v => PyValue.truthy v

def presentIn (atoms : List Str) (s : State V) : Present :=
  (atoms.filter (isTruthy s.store)).foldl StrSet.add SortedMap.empty

def presentState (V : Type) [PyValue V] (p : Present) : State V where
  store := SortedMap.ofList (p.keys.map (fun k => (k, PyValue.pyTrue)))
  pending := []
  done := []
  events := []

namespace InterfaceAdapter

def nextPresents (a : InterfaceAdapter) (p : Present) : List Present :=
  (a.transitions.lookup p).getD []

def successors (a : InterfaceAdapter) (s : State V) : List (Str × State V) :=
  let p := presentIn a.atoms s
  (a.nextPresents p).map (fun q => (label p q, presentState V q))

def enabledSteps (a : InterfaceAdapter) (s : State V) : List Str :=
  let p := presentIn a.atoms s
  (a.nextPresents p).map (label p)

def isDeadlocked (a : InterfaceAdapter) (s : State V) : Bool :=
  let p := presentIn a.atoms s
  decide (p ∈ a.deadlockPresents) && (a.nextPresents p).isEmpty

def component (V : Type) [PyValue V] (a : InterfaceAdapter) : ComponentAdapter V where
  initialState := .ok (presentState V a.initialPresent)
  successors := fun s => .ok (a.successors s)
  isDeadlocked := a.isDeadlocked
  enabledSteps := a.enabledSteps

end InterfaceAdapter

def addBucket (buckets : List (Present × List Present)) (a : Present) (bs : List Present) :
    List (Present × List Present) :=
  match buckets with
  | [] => [(a, bs.foldl (fun bucket b => if b ∈ bucket then bucket else bucket ++ [b]) [])]
  | (a', bucket) :: rest =>
    if a' = a then
      (a', bs.foldl (fun bucket b => if b ∈ bucket then bucket else bucket ++ [b]) bucket) :: rest
    else (a', bucket) :: addBucket rest a bs

def projAt (proj : List Present) (i : ℕ) : Present := (proj[i]?).getD SortedMap.empty

def bucketsOf (proj : List Present) (edges : List (ℕ × List ℕ)) :
    List (Present × List Present) :=
  edges.foldl (fun buckets e => addBucket buckets (projAt proj e.1) (e.2.map (projAt proj))) []

def sortBucket (bucket : List Present) : List Present :=
  bucket.insertionSort (fun a b => a.keys ≤ b.keys)

def abstractResult (atoms : List Str) (r : ExplorationResult V) : InterfaceAdapter :=
  let proj := r.states.map (presentIn atoms)
  { atoms := atoms
    initialPresent := projAt proj 0
    transitions := (bucketsOf proj r.edges).map (fun e => (e.1, sortBucket e.2))
    deadlockPresents := r.deadlocks.map (projAt proj)
    stats := ⟨atoms, r.states.length, proj.dedup.length⟩ }

def interfaceAdapterFromContract [DecidableEq V] (bundle : AgentBundleBody V)
    (kpiKeys guarantees : List Str) (maxDepth : ℤ) (mode : HashMode) :
    Except Err InterfaceAdapter := do
  let concrete ← adapterFromBundle bundle
  let (r, _) ← Explorer.run concrete.component.stateless () maxDepth mode
  .ok (abstractResult (interfaceAtoms kpiKeys guarantees) r)

end presence

end TraceMind.Verify
