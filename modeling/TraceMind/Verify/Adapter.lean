import TraceMind.Foundation.SortedMap
import TraceMind.Pipeline.Selectors
import Mathlib.Data.List.Lex
import Mathlib.Data.Char

namespace TraceMind.Verify

abbrev Store (V : Type) := SortedMap Str V

structure State (V : Type) where
  store : Store V
  pending : List Str
  done : List Str
  events : List Str
deriving DecidableEq

inductive HashMode where
  | full
  | store
deriving DecidableEq, Repr

structure Hash (V : Type) where
  store : Store V
  rest : Option (List Str × List Str × List Str)
deriving DecidableEq

namespace State

variable {V : Type}

def stableHash (mode : HashMode) (s : State V) : Hash V :=
  match mode with
  | .full => ⟨s.store, some (s.pending, s.done, s.events)⟩
  | .store => ⟨s.store, none⟩

theorem stableHash_full_injective {s t : State V} (h : s.stableHash .full = t.stableHash .full) :
    s = t := by
  cases s
  cases t
  simp only [stableHash, Hash.mk.injEq, Option.some.injEq, Prod.mk.injEq] at h
  obtain ⟨rfl, rfl, rfl, rfl⟩ := h
  rfl

theorem stableHash_store_eq {s t : State V} :
    s.stableHash .store = t.stableHash .store ↔ s.store = t.store := by
  simp [stableHash]

theorem store_of_hash {mode : HashMode} {s t : State V}
    (h : s.stableHash mode = t.stableHash mode) : s.store = t.store := by
  cases mode <;> exact congrArg Hash.store h

end State

open Selectors

structure StepSpec where
  name : Str
  reads : List Str
  writes : List Str
  clears : List Str
deriving DecidableEq

structure Rule where
  name : Str
  triggers : List Str
  steps : List Str
deriving DecidableEq

structure Plan where
  steps : SortedMap Str StepSpec
  rules : List Rule

def pathToken (tk : Str) : PathElem :=
  if tk = ['[', ']'] then .index 0
  else if tk = ['*'] then .key ['*']
  else if isBracket tk then
    match pyInt (inner tk) with
    | some i => .index i
    | none => .key (inner tk)
  else .key tk

def selectorToPath (expr : Str) : Except Err Path := (parse expr).map (List.map pathToken)

def anyMatch (trig : Str) : List Path → Except Err Bool
  | [] => .ok false
  | p :: ps => do
    let b ← selectorMatch trig p
    if b then .ok true else anyMatch trig ps

def ruleTriggered : List Str → List Path → Except Err Bool
  | [], _ => .ok false
  | trig :: trigs, paths => do
    let b ← anyMatch trig paths
    if b then .ok true else ruleTriggered trigs paths

structure ComponentAdapter (V : Type) where
  initialState : Except Err (State V)
  successors : State V → Except Err (List (Str × State V))
  isDeadlocked : State V → Bool
  enabledSteps : State V → List Str

structure TraceMindAdapter (V : Type) where
  plan : Plan
  initialStore : Store V
  changedPaths : List Path
  initialPending : List Str
  initialDone : List Str

namespace TraceMindAdapter

variable {V : Type}

def fromPlan (plan : Plan) (initialStore : Store V) (changedPaths initialPending initialDone :
    List Str) : Except Err (TraceMindAdapter V) := do
  let paths ← changedPaths.mapM selectorToPath
  .ok ⟨plan, initialStore, paths, initialPending, initialDone⟩

def collectFrom (paths : List Path) : List Rule → Except Err (List Str)
  | [] => .ok []
  | r :: rs => do
    let b ← ruleTriggered r.triggers paths
    let rest ← collectFrom paths rs
    .ok (if b then r.steps ++ rest else rest)

def collectSteps (a : TraceMindAdapter V) (paths : List Path) : Except Err (List Str) :=
  collectFrom paths a.plan.rules

def appendNew (xs : List Str) (x : Str) : List Str := if x ∈ xs then xs else xs ++ [x]

def initialState (a : TraceMindAdapter V) : Except Err (State V) := do
  let collected ← a.collectSteps a.changedPaths
  .ok { store := a.initialStore
        pending := (a.initialPending ++ collected).foldl appendNew []
        done := a.initialDone
        events := [] }

def readsAvailable (spec : StepSpec) (store : Store V) : Bool :=
  spec.reads.all (fun r => store.contains r)

def isEnabled (a : TraceMindAdapter V) (store : Store V) (name : Str) : Bool :=
  match a.plan.steps.get? name with
  | none => false
  | some spec => readsAvailable spec store

def enabledSteps (a : TraceMindAdapter V) (s : State V) : List Str :=
  (s.pending.filter (a.isEnabled s.store)).foldl appendNew []

def clearAll (store : Store V) (clears : List Str) : Store V :=
  clears.foldl (fun st c => st.erase c) store

theorem initialState_store {a : TraceMindAdapter V} {s : State V} (h : a.initialState = .ok s) :
    s.store = a.initialStore := by
  unfold initialState at h
  cases hc : a.collectSteps a.changedPaths with
  | error e => simp [hc, bind, Except.bind] at h
  | ok collected =>
    simp only [hc, bind, Except.bind, Except.ok.injEq] at h
    rw [← h]

theorem get?_clearAll {store : Store V} {clears : List Str} {k : Str} {v : V}
    (h : (clearAll store clears).get? k = some v) : store.get? k = some v := by
  induction clears generalizing store with
  | nil => exact h
  | cons c cs ih =>
    have hk := @ih (store.erase c) h
    rw [SortedMap.get?_erase] at hk
    split_ifs at hk
    exact hk

variable [PyValue V]

def writeAll (store : Store V) (writes : List Str) : Store V :=
  store.insertAll (writes.map (fun w => (w, PyValue.pyTrue)))

def runStep (a : TraceMindAdapter V) (s : State V) (name : Str) (spec : StepSpec) :
    Except Err (State V) := do
  let paths ← spec.writes.mapM selectorToPath
  let triggered ← a.collectSteps paths
  .ok { store := clearAll (writeAll s.store spec.writes) spec.clears
        pending := triggered.foldl appendNew (s.pending.erase name)
        done := appendNew s.done name
        events := s.events ++ ["step:".toList ++ name] }

def successorsOf (a : TraceMindAdapter V) (s : State V) :
    List Str → Except Err (List (Str × State V))
  | [] => .ok []
  | name :: names =>
    match a.plan.steps.get? name with
    | none => successorsOf a s names
    | some spec => do
      let t ← a.runStep s name spec
      let rest ← successorsOf a s names
      .ok ((name, t) :: rest)

def successors (a : TraceMindAdapter V) (s : State V) : Except Err (List (Str × State V)) :=
  a.successorsOf s (a.enabledSteps s)

def isDeadlocked (a : TraceMindAdapter V) (s : State V) : Bool :=
  !s.pending.isEmpty && (a.enabledSteps s).isEmpty

def component (a : TraceMindAdapter V) : ComponentAdapter V where
  initialState := a.initialState
  successors := a.successors
  isDeadlocked := a.isDeadlocked
  enabledSteps := a.enabledSteps

theorem mem_successorsOf {a : TraceMindAdapter V} {s t : State V} {l : Str} :
    ∀ {names : List Str} {ys : List (Str × State V)}, a.successorsOf s names = .ok ys →
      (l, t) ∈ ys → ∃ spec, a.plan.steps.get? l = some spec ∧ a.runStep s l spec = .ok t
  | [], ys, h, hm => by
    cases h
    simp at hm
  | name :: names, ys, h, hm => by
    simp only [successorsOf] at h
    cases hg : a.plan.steps.get? name with
    | none =>
      rw [hg] at h
      exact mem_successorsOf h hm
    | some spec =>
      rw [hg] at h
      cases hr : a.runStep s name spec with
      | error e => simp [hr, bind, Except.bind] at h
      | ok u =>
        cases hrest : a.successorsOf s names with
        | error e => simp [hr, hrest, bind, Except.bind] at h
        | ok zs =>
          simp only [hr, hrest, bind, Except.bind, Except.ok.injEq] at h
          subst h
          rcases List.mem_cons.mp hm with he | hm
          · obtain ⟨rfl, rfl⟩ := Prod.mk.inj he
            exact ⟨spec, hg, hr⟩
          · exact mem_successorsOf hrest hm

theorem runStep_store {a : TraceMindAdapter V} {s t : State V} {name : Str} {spec : StepSpec}
    (h : a.runStep s name spec = .ok t) :
    t.store = clearAll (writeAll s.store spec.writes) spec.clears := by
  unfold runStep at h
  cases hp : spec.writes.mapM selectorToPath with
  | error e => simp [hp, bind, Except.bind] at h
  | ok paths =>
    cases hc : a.collectSteps paths with
    | error e => simp [hp, hc, bind, Except.bind] at h
    | ok triggered =>
      simp only [hp, hc, bind, Except.bind, Except.ok.injEq] at h
      rw [← h]

theorem get?_writeAll {store : Store V} {writes : List Str} {k : Str} {v : V}
    (h : (writeAll store writes).get? k = some v) :
    v = PyValue.pyTrue ∨ store.get? k = some v := by
  induction writes generalizing store with
  | nil => exact Or.inr h
  | cons w ws ih =>
    rcases @ih (store.insert w PyValue.pyTrue) h with hv | hk
    · exact Or.inl hv
    · rw [SortedMap.get?_insert] at hk
      split_ifs at hk
      · exact Or.inl (Option.some.inj hk).symm
      · exact Or.inr hk

theorem successors_get? {a : TraceMindAdapter V} {s t : State V} {l : Str}
    {ys : List (Str × State V)} (h : a.successors s = .ok ys) (hm : (l, t) ∈ ys) {k : Str} {v : V}
    (hv : t.store.get? k = some v) : v = PyValue.pyTrue ∨ s.store.get? k = some v := by
  obtain ⟨spec, -, hr⟩ := mem_successorsOf h hm
  rw [runStep_store hr] at hv
  exact get?_writeAll (get?_clearAll hv)

end TraceMindAdapter

end TraceMind.Verify
