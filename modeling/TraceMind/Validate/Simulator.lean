import TraceMind.Validate.Static

namespace TraceMind.Validate

open Artifacts (JsonFields sortTexts)
open Queue (PyText)
open Workflow (truth)

section flow

abbrev LockRequest := LockTable.Request Str

structure StepSpec where
  id : Str
  nextSteps : List Str
  locks : List LockRequest
  durationMs : ℕ

structure FlowSpec where
  id : Str
  steps : OrderedDict Str StepSpec
  entrypoints : List Str
  named : ∀ key spec, steps.get? key = some spec → spec.id = key
  entry_nodup : entrypoints.Nodup

inductive SimError where
  | valueError (message : Str)
  | attributeError
  | typeError

-- Python's `int`; `none` is an exception.
abbrev PyInt := Json → Option ℤ

variable (py : PyText) (int : PyInt)

def parseLockRequest : Json → Except SimError LockRequest
  | .obj entry =>
    .ok ⟨py.str ((entry.lookup "name".toList).getD .null),
      if lower (textOr py entry "mode".toList "exclusive".toList) = "shared".toList then .shared
      else .exclusive⟩
  | _ => .error .attributeError

def parseLockRequests (raw : Json) : Except SimError (List LockRequest) :=
  if truth raw = false then .ok []
  else
    match raw with
    | .arr entries => entries.mapM (parseLockRequest py)
    | .obj _ => .error .attributeError
    | .str _ => .error .attributeError
    | _ => .error .typeError

def parseNext : Json → List Str
  | .str s => [s]
  | .arr items => items.map py.str
  | .obj fields => fields.map Prod.fst
  | _ => []

def parseDuration : Option Json → ℕ
  | none => 50
  | some v =>
    match int v with
    | some n => (max 1 n).toNat
    | none => 50

def parseStep (nodeId : Str) (raw : Json) : Except SimError StepSpec :=
  match if truth raw then raw else .obj [] with
  | .obj spec => do
    let locks ← parseLockRequests py ((spec.lookup "locks".toList).getD .null)
    .ok ⟨nodeId, parseNext py ((spec.lookup "next".toList).getD (.arr [])), locks,
      parseDuration int (spec.lookup "duration_ms".toList)⟩
  | _ => .error (.valueError ("step ".toList ++ quoted nodeId ++ " must be mapping".toList))

def parseSteps (steps : JsonFields) : Except SimError (List StepSpec) :=
  steps.mapM (fun f => parseStep py int f.1 f.2)

def stepTable (specs : List StepSpec) : OrderedDict Str StepSpec :=
  specs.foldl (fun steps spec => steps.assign spec.id spec) .empty

def entryCandidates (specs : List StepSpec) : List Str :=
  let incoming := collect (specs.flatMap StepSpec.nextSteps)
  let ids := (stepTable specs).entries.map Prod.fst
  let candidates := sortTexts (ids.filter (fun id => (incoming.get? id).getD 0 = 0))
  if candidates = [] then (sortTexts ids).take 1 else candidates

theorem stepTable_named (specs : List StepSpec) (key : Str) (spec : StepSpec)
    (h : (stepTable specs).get? key = some spec) : spec.id = key := by
  unfold stepTable at h
  induction specs using List.reverseRecOn with
  | nil => cases h
  | append_singleton specs s ih =>
    rw [List.foldl_append] at h
    have h' : (OrderedDict.assign s.id s
        (specs.foldl (fun steps spec => steps.assign spec.id spec) .empty)).get? key =
        some spec := h
    rw [OrderedDict.get?_assign] at h'
    split_ifs at h' with hk
    · rw [← Option.some.inj h', hk]
    · exact ih h'

theorem entryCandidates_nodup (specs : List StepSpec) : (entryCandidates specs).Nodup := by
  have hids := (stepTable specs).nodup
  unfold entryCandidates
  dsimp only
  split_ifs
  · exact ((Artifacts.sortTexts_perm _).nodup_iff.mpr hids).sublist (List.take_sublist _ _)
  · exact (Artifacts.sortTexts_perm _).nodup_iff.mpr (hids.filter _)

def parseFlow (doc : JsonFields) : Except SimError FlowSpec :=
  match doc.lookup "steps".toList with
  | some (.obj steps) => do
    let specs ← parseSteps py int steps
    .ok ⟨textOr py doc "id".toList "flow".toList, stepTable specs, entryCandidates specs,
      stepTable_named specs, entryCandidates_nodup specs⟩
  | _ => .error (.valueError "flow missing steps mapping".toList)

end flow

structure StepState where
  spec : StepSpec
  acquiredIndex : ℕ
  heldLocks : List LockRequest
  startedAt : Option ℕ
  finishedAt : Option ℕ

def StepState.id (s : StepState) : Str := s.spec.id

def StepState.new (spec : StepSpec) : StepState := ⟨spec, 0, [], none, none⟩

inductive EventKind where
  | stepStarted
  | stepFinished
deriving DecidableEq

structure Event where
  event : EventKind
  step : Str
  ts : ℕ
deriving DecidableEq

structure Random (R : Type) where
  seeded : ℤ → R
  shuffle : R → List Str → List Str × R
  perm : ∀ r l, (shuffle r l).1.Perm l

structure Simulation (R : Type) where
  now : ℕ
  events : List Event
  waiting : List StepState
  running : List StepState
  completed : List StepState
  scheduled : List Str
  locksHeld : LockTable.Table Str
  rng : R

inductive Phase where
  | head
  | turns (candidates : List Str) (progress : Bool)
  | done (deadlocks : ℕ)

structure Machine (R : Type) where
  sim : Simulation R
  phase : Phase

section simulate

variable {R : Type} (random : Random R) (flow : FlowSpec) (limit : ℤ)

def capacity : ℕ := (max 1 limit).toNat

def StepState.acquire (req : LockRequest) (st : StepState) : StepState :=
  { st with heldLocks := st.heldLocks ++ [req], acquiredIndex := st.acquiredIndex + 1 }

def nextLock (s : Simulation R) (st : StepState) : Option LockRequest :=
  match st.spec.locks[st.acquiredIndex]? with
  | some req => if LockTable.canAcquire s.locksHeld req then some req else none
  | none => none

def replaceState (st : StepState) (states : List StepState) : List StepState :=
  states.map (fun w => if w.id = st.id then st else w)

def takeLock (s : Simulation R) (st : StepState) : StepState × Simulation R :=
  match nextLock s st with
  | some req =>
    (st.acquire req, { s with
      waiting := replaceState (st.acquire req) s.waiting
      locksHeld := LockTable.acquire s.locksHeld req })
  | none => (st, s)

def startStep (s : Simulation R) (st : StepState) : Simulation R :=
  { s with
    waiting := s.waiting.filter (fun w => w.id ≠ st.id)
    running := s.running ++ [{ st with startedAt := some s.now }]
    events := s.events ++ [⟨.stepStarted, st.id, s.now⟩] }

def turn (s : Simulation R) (st : StepState) : Simulation R × Bool :=
  let (st', s') := takeLock s st
  if st'.acquiredIndex = st'.spec.locks.length ∧ s'.running.length < capacity limit then
    (startStep s' st', true)
  else (s', (nextLock s st).isSome)

def startKey (now : ℕ) (st : StepState) : ℕ :=
  match st.startedAt with
  | some t => if t = 0 then now else t
  | none => now

def addNext (s : Simulation R) (nextId : Str) : Simulation R :=
  if nextId ∈ s.completed.map StepState.id ∨ nextId ∈ s.scheduled then s
  else
    match flow.steps.get? nextId with
    | none => s
    | some spec => { s with
        scheduled := s.scheduled ++ [spec.id]
        waiting := s.waiting ++ [StepState.new spec] }

def finishTime (now : ℕ) (st : StepState) : ℕ := max now (startKey now st + st.spec.durationMs)

def retire (s : Simulation R) (current : StepState) (rest : List StepState) : Simulation R :=
  current.spec.nextSteps.foldl (addNext flow) { s with
    now := finishTime s.now current
    running := rest
    locksHeld := LockTable.release s.locksHeld current.heldLocks
    events := s.events ++ [⟨.stepFinished, current.id, finishTime s.now current⟩]
    completed := s.completed ++ [{ current with finishedAt := some (finishTime s.now current) }] }

def sortedRunning (s : Simulation R) : List StepState :=
  StableSort.sort (startKey s.now) s.running

def endRound (s : Simulation R) (progress : Bool) : Machine R :=
  match sortedRunning s with
  | current :: rest => ⟨retire flow s current rest, .head⟩
  | [] => if progress then ⟨s, .head⟩ else ⟨s, .done 1⟩

def step (m : Machine R) : Machine R :=
  match m.phase with
  | .head =>
    if m.sim.waiting = [] ∧ m.sim.running = [] then ⟨m.sim, .done 0⟩
    else
      let (candidates, rng) := random.shuffle m.sim.rng (m.sim.waiting.map StepState.id)
      ⟨{ m.sim with rng := rng }, .turns candidates false⟩
  | .turns [] progress => endRound flow m.sim progress
  | .turns (c :: candidates) progress =>
    match m.sim.waiting.find? (fun w => w.id = c) with
    | none => ⟨m.sim, .turns candidates progress⟩
    | some st =>
      ⟨(turn limit m.sim st).1, .turns candidates (progress || (turn limit m.sim st).2)⟩
  | .done _ => m

def enter (s : Simulation R) (id : Str) : Simulation R :=
  match flow.steps.get? id with
  | none => s
  | some spec => { s with
      scheduled := s.scheduled ++ [spec.id]
      waiting := s.waiting ++ [StepState.new spec] }

def start (seed : Option ℤ) : Machine R :=
  ⟨flow.entrypoints.foldl (enter flow)
    ⟨0, [], [], [], [], [], .empty, random.seeded (seed.getD 0)⟩, .head⟩

structure Report where
  finished : ℕ
  deadlocks : ℕ
  events : List Event
  locksHeld : Option (LockTable.Table Str)

def report (s : Simulation R) (deadlocks : ℕ) : Report where
  finished := s.completed.length
  deadlocks := deadlocks
  events := s.events
  locksHeld := if deadlocks = 0 then none else some s.locksHeld

def run : ℕ → Machine R → Option Report
  | fuel, m =>
    match m.phase, fuel with
    | .done deadlocks, _ => some (report m.sim deadlocks)
    | _, 0 => none
    | _, fuel + 1 => run fuel (step random flow limit m)

variable (py : PyText) (int : PyInt)

def simulate (fuel : ℕ) (doc : JsonFields) (seed : Option ℤ) : Fuelled SimError Report :=
  match parseFlow py int doc with
  | .error e => Fuelled.fail e
  | .ok flow =>
    match run random flow limit fuel (start random flow seed) with
    | none => Fuelled.out
    | some r => Fuelled.ret r

end simulate

end TraceMind.Validate
